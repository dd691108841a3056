import ProofScript.Proofs.Standing

/-!
# Trivia and lexemes

The bytes of a script are trivia and lexemes in turn, up to its end or up to a byte that starts
neither. There is only one such reading: trivia goes on as long as it can, and a word takes all its
bytes. Scanning finds it, with every token at the place of its lexeme.
-/

namespace ProofScript

open Text

/-! ## Trivia -/

/-- Blanks, line ends and comments in front of some bytes. A comment runs to the end of its line. -/
inductive Trivia (after : List UInt8) : List UInt8 → Prop where
  | nil : Trivia after []
  | blank {b : UInt8} {w : List UInt8} :
    isBlankByte b = true → Trivia after w → Trivia after (b :: w)
  | lineEnd {b : UInt8} {w : List UInt8} :
    isLineEnd b = true → Trivia after w → Trivia after (b :: w)
  | comment {body w : List UInt8} :
    (∀ b ∈ body, isLineEnd b = false) → (∀ b ∈ (w ++ after).head?, isLineEnd b = true) →
      Trivia after w → Trivia after (0x2F :: 0x2F :: (body ++ w))

/-- No trivia stands in front of the bytes. -/
def Settled (bs : List UInt8) : Prop :=
  ∀ gap after, bs = gap ++ after → Trivia after gap → gap = []

theorem settled_of_startsLexeme {b : UInt8} {rest : List UInt8} (h : startsLexeme b = true) :
    Settled (b :: rest) := by
  simp only [startsLexeme, Bool.not_eq_true', Bool.or_eq_false_iff, decide_eq_false_iff_not] at h
  obtain ⟨⟨⟨hcr, hlf⟩, hblank⟩, hslash⟩ := h
  intro gap after hgap htrivia
  cases htrivia with
  | nil => rfl
  | blank hb _ =>
    obtain ⟨rfl, -⟩ := List.cons.inj hgap
    simp [hblank] at hb
  | lineEnd hb _ =>
    obtain ⟨rfl, -⟩ := List.cons.inj hgap
    simp [isLineEnd, hcr, hlf] at hb
  | comment _ _ _ => exact absurd (List.cons.inj hgap).1 hslash

namespace Cursor

variable {b : UInt8} {bs after gap : List UInt8}

theorem skipFrom_blank (h : isBlankByte b = true) (bs : List UInt8) (loc : Location) :
    skipFrom false (b :: bs) loc = skipFrom false bs (loc.advance 1) := by
  have hline : isLineEnd b = false := by
    have hall : ∀ b : UInt8, isBlankByte b = false ∨ isLineEnd b = false :=
      forall_byte (by decide +kernel)
    simpa [h] using hall b
  obtain ⟨hlf, hcr⟩ := isLineEnd_eq_false.mp hline
  simp [skipFrom, hlf, hcr, h]

theorem skipFrom_lineEnd (h : isLineEnd b = true) (bs : List UInt8) (loc : Location) :
    ∃ loc', skipFrom false (b :: bs) loc = skipFrom false bs loc' := by
  by_cases hlf : b = 0x0A
  · exact ⟨loc.newline, by simp [skipFrom, hlf]⟩
  · have hcr : b = 0x0D := by simpa [isLineEnd, hlf] using h
    by_cases hnext : startsWithByte 0x0A bs = true
    · exact ⟨loc, by simp [skipFrom, hcr, hnext]⟩
    · exact ⟨loc.newline, by simp [skipFrom, hcr, hnext]⟩

/-- A comment is skipped up to the end of its line. -/
theorem skipFrom_comment {body rest : List UInt8} (hbody : ∀ b ∈ body, isLineEnd b = false)
    (hend : ∀ b ∈ rest.head?, isLineEnd b = true) (loc : Location) :
    ∃ loc', skipFrom true (body ++ rest) loc = skipFrom false rest loc' := by
  induction body generalizing loc with
  | nil =>
    refine ⟨loc, ?_⟩
    match rest with
    | [] => rfl
    | b :: bs =>
      rcases Bool.or_eq_true_iff.mp (hend b rfl) with hlf | hcr
      · simp [skipFrom, of_decide_eq_true hlf]
      obtain rfl := of_decide_eq_true hcr
      by_cases hnext : startsWithByte 0x0A bs = true
      · obtain ⟨after, rfl⟩ := List.head?_eq_some_iff.mp (startsWithByte_iff.mp hnext)
        simp [skipFrom, startsWithByte]
      · simp [skipFrom, hnext]
  | cons b body ih =>
    rw [List.forall_mem_cons] at hbody
    obtain ⟨hlf, hcr⟩ := isLineEnd_eq_false.mp hbody.1
    obtain ⟨loc', hrest⟩ := ih hbody.2 (loc.advance 1)
    refine ⟨loc', ?_⟩
    rw [← hrest]
    simp [skipFrom, hlf, hcr]

theorem skipFrom_slashes {body rest : List UInt8} (hbody : ∀ b ∈ body, isLineEnd b = false)
    (hend : ∀ b ∈ rest.head?, isLineEnd b = true) (loc : Location) :
    ∃ loc', skipFrom false (0x2F :: 0x2F :: (body ++ rest)) loc = skipFrom false rest loc' := by
  have hbody' : ∀ b ∈ 0x2F :: body, isLineEnd b = false :=
    List.forall_mem_cons.mpr ⟨by decide, hbody⟩
  obtain ⟨loc', hcomment⟩ := skipFrom_comment hbody' hend (loc.advance 1)
  refine ⟨loc', ?_⟩
  rw [← hcomment]
  simp [skipFrom, startsWithByte, isBlankByte]

/-- The part of the bytes that stands in front of the first line end. -/
theorem exists_lineEnd (bs : List UInt8) : ∃ body rest, bs = body ++ rest ∧
    (∀ b ∈ body, isLineEnd b = false) ∧ ∀ b ∈ rest.head?, isLineEnd b = true := by
  refine ⟨bs.takeWhile fun b => !isLineEnd b, bs.dropWhile fun b => !isLineEnd b,
    List.takeWhile_append_dropWhile.symm, fun b hb => ?_, fun b hb => ?_⟩
  · simpa using List.all_eq_true.mp List.all_takeWhile b hb
  · have hnot := List.head?_dropWhile_not (fun b => !isLineEnd b) bs
    rw [show (bs.dropWhile fun b => !isLineEnd b).head? = some b from hb] at hnot
    simpa using hnot

/-- What is skipped is trivia. -/
theorem skipFrom_trivia (bs : List UInt8) (loc : Location) :
    ∃ gap, bs = gap ++ (skipFrom false bs loc).rest ∧
      Trivia (skipFrom false bs loc).rest gap := by
  induction hn : bs.length using Nat.strongRecOn generalizing bs loc with
  | ind n ih =>
  subst hn
  match bs with
  | [] => exact ⟨[], rfl, .nil⟩
  | b :: rest =>
    have hrest (loc' : Location) := ih rest.length (by simp) rest loc' rfl
    by_cases hline : isLineEnd b = true
    · obtain ⟨loc', hskip⟩ := skipFrom_lineEnd hline rest loc
      obtain ⟨gap, hgap, htrivia⟩ := hrest loc'
      rw [hskip]
      exact ⟨b :: gap, by rw [List.cons_append, ← hgap], .lineEnd hline htrivia⟩
    by_cases hblank : isBlankByte b = true
    · obtain ⟨gap, hgap, htrivia⟩ := hrest (loc.advance 1)
      rw [skipFrom_blank hblank]
      exact ⟨b :: gap, by rw [List.cons_append, ← hgap], .blank hblank htrivia⟩
    by_cases hslash : b = 0x2F ∧ rest.head? = some 0x2F
    · obtain ⟨rfl, hhead⟩ := hslash
      obtain ⟨bs, rfl⟩ := List.head?_eq_some_iff.mp hhead
      obtain ⟨body, rest, rfl, hbody, hend⟩ := exists_lineEnd bs
      obtain ⟨loc', hskip⟩ := skipFrom_slashes hbody hend loc
      have hlen : rest.length < (0x2F :: 0x2F :: (body ++ rest)).length := by
        simp only [List.length_cons, List.length_append]
        omega
      obtain ⟨gap, hgap, htrivia⟩ := ih rest.length hlen rest loc' rfl
      rw [hskip]
      refine ⟨0x2F :: 0x2F :: (body ++ gap), ?_, .comment hbody (hgap ▸ hend) htrivia⟩
      rw [List.cons_append, List.cons_append, List.append_assoc, ← hgap]
    · obtain ⟨hlf, hcr⟩ := isLineEnd_eq_false.mp (Bool.eq_false_iff.mpr hline)
      rw [← startsWithByte_iff] at hslash
      have hskip : skipFrom false (b :: rest) loc = ⟨b :: rest, loc⟩ := by
        simp [skipFrom, hlf, hcr, hblank, hslash]
      rw [hskip]
      exact ⟨[], rfl, .nil⟩

/-- Trivia is skipped. -/
theorem skipFrom_of_trivia (h : Trivia after gap) (loc : Location) :
    ∃ loc', skipFrom false (gap ++ after) loc = skipFrom false after loc' := by
  induction h generalizing loc with
  | nil => exact ⟨loc, rfl⟩
  | @blank b w hb _ ih =>
    obtain ⟨loc', hskip⟩ := ih (loc.advance 1)
    exact ⟨loc', by rw [List.cons_append, skipFrom_blank hb, hskip]⟩
  | @lineEnd b w hb _ ih =>
    obtain ⟨locEnd, hend⟩ := skipFrom_lineEnd hb (w ++ after) loc
    obtain ⟨loc', hskip⟩ := ih locEnd
    exact ⟨loc', by rw [List.cons_append, hend, hskip]⟩
  | @comment body w hbody hend _ ih =>
    obtain ⟨locEnd, hslashes⟩ := skipFrom_slashes hbody hend loc
    obtain ⟨loc', hskip⟩ := ih locEnd
    refine ⟨loc', ?_⟩
    rw [List.cons_append, List.cons_append, List.append_assoc, hslashes, hskip]

theorem rest_skipFrom (h : Trivia after gap) (hafter : Settled after) (loc : Location) :
    (skipFrom false (gap ++ after) loc).rest = after := by
  obtain ⟨loc', hskip⟩ := skipFrom_of_trivia h loc
  obtain ⟨w, hw, htrivia⟩ := skipFrom_trivia after loc'
  obtain rfl := hafter w _ hw htrivia
  rw [hskip]
  exact hw.symm

/-- Behind what is skipped stands no trivia. -/
theorem skipFrom_settled (bs : List UInt8) (loc : Location) :
    Settled (skipFrom false bs loc).rest := by
  intro gap after hrest hgap
  have hagain : skipFrom false (skipFrom false bs loc).rest (skipFrom false bs loc).loc =
      skipFrom false bs loc := skipFrom_skipFrom false bs loc
  obtain ⟨loc', hskip⟩ := skipFrom_of_trivia hgap (skipFrom false bs loc).loc
  have hle := (skipFrom_front false after loc').2
  rw [← hskip, ← hrest, hagain, hrest, List.length_append] at hle
  exact List.eq_nil_of_length_eq_zero (by omega)

end Cursor

/-- There is one way to end trivia. -/
theorem Trivia.unique {gap gap' after after' : List UInt8} (h : Trivia after gap)
    (h' : Trivia after' gap') (hafter : Settled after) (hafter' : Settled after')
    (heq : gap ++ after = gap' ++ after') : gap = gap' ∧ after = after' := by
  have hrest : after = after' := by
    rw [← Cursor.rest_skipFrom h hafter .start, heq, Cursor.rest_skipFrom h' hafter']
  subst hrest
  exact ⟨List.append_cancel_right heq, rfl⟩

/-! ## Lexemes -/

/-- A token that is written with at least a byte: a symbol, a reserved word, or a word of its
class. -/
structure Token.IsLexeme (t : Token) : Prop where
  spelled : t.Spelled
  plain : t.kind ≠ .typeVar → t.kind ≠ .identifier → t.value = ""
  kind : t.kind ≠ .eof

theorem TokenKind.exists_symbol {kind : TokenKind} (hword : kind.isWord = false)
    (heof : kind ≠ .eof) (harrow : kind ≠ .implies) :
    ∃ b, bytes kind.spelling = [b] ∧ ofSymbol? b = some kind := by
  have hsymbol : ∃ b, kind.spelling.toList.flatMap String.utf8EncodeChar = [b] ∧
      ofSymbol? b = some kind := by
    cases kind <;> simp [isWord] at hword heof harrow <;> exact ⟨_, rfl, rfl⟩
  obtain ⟨b, hb, hkind⟩ := hsymbol
  exact ⟨b, bytes_of_toList hb, hkind⟩

theorem wordOf_of_bytes {first : UInt8 → Bool} {s : String} {b : UInt8} {w : List UInt8}
    (hs : bytes s = b :: w) (hb : first b = true) (hw : w.all isWordByte = true) :
    WordOf first s := by
  refine ⟨b, w, hb, List.all_eq_true.mp hw, ?_⟩
  rw [ofBytes, ← hs, decode_bytes, String.ofList_toList]

theorem TokenKind.wordOf_spelling {kind : TokenKind} (h : kind.isWord = true)
    (htypeVar : kind ≠ .typeVar) (hname : kind ≠ .identifier) :
    WordOf startsName kind.spelling ∧ ofKeyword? kind.spelling = some kind := by
  cases kind <;> simp [isWord] at h htypeVar hname
  all_goals exact ⟨wordOf_of_bytes (bytes_of_toList rfl) (by decide) (by decide), rfl⟩

namespace Token

variable {t : Token} {after : List UInt8}

/-- What a lexeme is: a symbol, an arrow, a type variable, or a word in lower case. -/
inductive Form (t : Token) : Prop where
  | symbol {b : UInt8} : bytes t.spelling = [b] → TokenKind.ofSymbol? b = some t.kind →
      t = .plain t.kind t.loc → Form t
  | arrow : bytes t.spelling = [0x3D, 0x3E] → t = .plain .implies t.loc → Form t
  | upper : WordOf isUpperByte t.spelling → t = ⟨.typeVar, t.spelling, t.loc⟩ → Form t
  | lower : WordOf startsName t.spelling → t = .ofWord t.spelling t.loc → Form t

theorem IsLexeme.form (h : t.IsLexeme) : t.Form := by
  obtain ⟨⟨hvar, hname⟩, hplain, heof⟩ := h
  obtain ⟨kind, value, loc⟩ := t
  by_cases htypeVar : kind = .typeVar
  · subst htypeVar
    exact .upper (hvar rfl) rfl
  by_cases hidentifier : kind = .identifier
  · subst hidentifier
    obtain ⟨hs, hkind⟩ := hname rfl
    refine .lower hs ?_
    rw [ofWord, show (Token.mk .identifier value loc).spelling = value from rfl, hkind]
  obtain rfl : value = "" := hplain htypeVar hidentifier
  have hspelling : (Token.plain kind loc).spelling = kind.spelling :=
    spelling_plain loc htypeVar hidentifier
  by_cases harrow : kind = .implies
  · subst harrow
    exact .arrow ((congrArg bytes hspelling).trans (bytes_of_toList rfl)) rfl
  cases hword : kind.isWord with
  | true =>
    obtain ⟨hs, hkind⟩ := TokenKind.wordOf_spelling hword htypeVar hidentifier
    rw [← hspelling] at hs hkind
    refine .lower hs ?_
    rw [ofWord, show Token.mk kind "" loc = .plain kind loc from rfl, hkind]
    rfl
  | false =>
    obtain ⟨b, hb, hkind⟩ := TokenKind.exists_symbol hword heof harrow
    rw [← hspelling] at hb
    exact .symbol hb hkind rfl

theorem isWord_ofWord {s : String} {loc : Location} :
    (ofWord s loc).kind.isWord = true := by
  rw [ofWord]
  split
  · next hkind => exact (TokenKind.spelling_of_keyword hkind).2
  · rfl

/-- A lexeme is read where it stands, if no word goes on behind it. -/
theorem IsLexeme.lexed (h : t.IsLexeme) (hafter : t.kind.isWord = true → EndsWord after) :
    Cursor.Lexed ⟨bytes t.spelling ++ after, t.loc⟩ t
      ⟨after, t.loc.advance (bytes t.spelling).length⟩ := by
  cases h.form with
  | symbol hb hkind ht =>
    have hlexed := @Cursor.Lexed.symbol _ after t.loc _ hkind
    rw [hb]
    rwa [← ht] at hlexed
  | arrow hb ht =>
    have hlexed := @Cursor.Lexed.arrow after t.loc
    rw [hb]
    rwa [← ht] at hlexed
  | upper hs ht =>
    obtain ⟨b, w, hs, hbytes, hb, hw⟩ := hs.exists_bytes fun _ => isWordByte_of_upper
    have hword := @Lexes.word_append _ _ t.loc hw (hafter (by rw [ht]; rfl))
    have hlexed := Cursor.Lexed.upper hb hword
    rw [← hs, ← ht] at hlexed
    rw [hbytes]
    exact hlexed
  | lower hs ht =>
    obtain ⟨b, w, hs, hbytes, hb, hw⟩ := hs.exists_bytes fun _ => isWordByte_of_startsName
    have hword := @Lexes.word_append _ _ t.loc hw (hafter (by rw [ht]; exact isWord_ofWord))
    have hlexed := Cursor.Lexed.lower hb hword
    rw [← hs, ← ht] at hlexed
    rw [hbytes]
    exact hlexed

/-- Where a lexeme stands, something is read. -/
theorem IsLexeme.exists_lexed (h : t.IsLexeme) {c : Cursor} (hc : bytes t.spelling <+: c.rest) :
    ∃ u next, c.Lexed u next := by
  obtain ⟨rest, loc⟩ := c
  obtain ⟨after, rfl⟩ := hc
  cases h.form with
  | symbol hb hkind ht =>
    rw [hb]
    exact ⟨_, _, .symbol hkind⟩
  | arrow hb ht =>
    rw [hb]
    exact ⟨_, _, .arrow⟩
  | upper hs ht =>
    obtain ⟨b, w, -, hbytes, hb, -⟩ := hs.exists_bytes fun _ => isWordByte_of_upper
    rw [hbytes]
    exact ⟨_, _, .upper hb rfl⟩
  | lower hs ht =>
    obtain ⟨b, w, -, hbytes, hb, -⟩ := hs.exists_bytes fun _ => isWordByte_of_startsName
    rw [hbytes]
    exact ⟨_, _, .lower hb rfl⟩

theorem IsLexeme.exists_bytes (h : t.IsLexeme) :
    ∃ b w, bytes t.spelling = b :: w ∧ startsLexeme b = true := by
  cases h.form with
  | symbol hb hkind ht => exact ⟨_, [], hb, (startsLexeme_of_symbol hkind).1⟩
  | arrow hb ht => exact ⟨_, _, hb, by decide⟩
  | upper hs ht =>
    obtain ⟨b, w, -, hbytes, hb, -⟩ := hs.exists_bytes fun _ => isWordByte_of_upper
    exact ⟨b, w, hbytes, (startsLexeme_of_word (isWordByte_of_upper hb)).1⟩
  | lower hs ht =>
    obtain ⟨b, w, -, hbytes, hb, -⟩ := hs.exists_bytes fun _ => isWordByte_of_startsName
    exact ⟨b, w, hbytes, (startsLexeme_of_word (isWordByte_of_startsName hb)).1⟩

theorem IsLexeme.settled (h : t.IsLexeme) (after : List UInt8) :
    Settled (bytes t.spelling ++ after) := by
  obtain ⟨b, w, hbytes, hb⟩ := h.exists_bytes
  rw [hbytes]
  exact settled_of_startsLexeme hb

end Token

theorem Cursor.Lexed.isLexeme {c next : Cursor} {t : Token} (h : c.Lexed t next)
    (ht : t.kind ≠ .eof) : t.IsLexeme := by
  refine ⟨h.spelled, fun htypeVar hname => ?_, ht⟩
  cases h with
  | eof => rfl
  | arrow => rfl
  | symbol => rfl
  | upper => exact absurd rfl htypeVar
  | lower =>
    rw [Token.ofWord] at hname ⊢
    split
    · rfl
    · next hkind =>
      rw [hkind] at hname
      exact absurd rfl hname

/-! ## The one reading of a script -/

/-- Bytes that no lexeme and no trivia starts. -/
structure Stuck (bs : List UInt8) : Prop where
  nonempty : bs ≠ []
  noLexeme : ∀ t : Token, t.IsLexeme → ¬bytes t.spelling <+: bs
  noTrivia : Settled bs

/-- Behind the bytes `front`, further bytes are trivia and the lexemes of tokens in turn, up to
`back`. Each token has the place of its lexeme, and a word takes all its bytes. -/
inductive Tiles (back : List UInt8) : List UInt8 → List Token → List UInt8 → Prop where
  | done {front gap : List UInt8} : Trivia back gap → Tiles back front [] (gap ++ back)
  | token {front gap after : List UInt8} {t : Token} {ts : List Token} :
    Trivia (bytes t.spelling ++ after) gap → t.IsLexeme → t.loc = .behind (front ++ gap) →
      (t.kind.isWord = true → EndsWord after) →
      Tiles back (front ++ gap ++ bytes t.spelling) ts after →
      Tiles back front (t :: ts) (gap ++ (bytes t.spelling ++ after))

/-- The bytes end, or nothing starts with them. -/
def Ended (bs : List UInt8) : Prop := bs = [] ∨ Stuck bs

theorem Ended.settled {bs : List UInt8} (h : Ended bs) : Settled bs := by
  rcases h with rfl | h
  · exact fun gap after h _ => (List.append_eq_nil_iff.mp h.symm).1
  · exact h.noTrivia

theorem Ended.not_lexeme {t : Token} {after : List UInt8} (h : Ended (bytes t.spelling ++ after))
    (ht : t.IsLexeme) : False := by
  rcases h with h | h
  · obtain ⟨b, w, hbytes, -⟩ := ht.exists_bytes
    rw [hbytes] at h
    cases h
  · exact h.noLexeme t ht (List.prefix_append _ _)

theorem Tiles.unique {back back' front bs : List UInt8} {ts ts' : List Token}
    (h : Tiles back front ts bs) (h' : Tiles back' front ts' bs) (hback : Ended back)
    (hback' : Ended back') : ts = ts' ∧ back = back' := by
  -- In both readings what stands behind the trivia is settled, so the trivia is the same. The same
  -- bytes behind it are then a lexeme in both or the end in both.
  induction h generalizing ts' with
  | @done front gap hgap =>
    generalize hbs : gap ++ back = bs at h'
    cases h' with
    | done hgap' =>
      exact ⟨rfl, (hgap.unique hgap' hback.settled hback'.settled hbs).2⟩
    | token hgap' ht' _ _ _ =>
      obtain ⟨-, rfl⟩ := hgap.unique hgap' hback.settled (ht'.settled _) hbs
      exact (hback.not_lexeme ht').elim
  | @token front gap after t ts hgap ht hloc hword _ ih =>
    generalize hbs : gap ++ (bytes t.spelling ++ after) = bs at h'
    cases h' with
    | done hgap' =>
      obtain ⟨-, rfl⟩ := hgap.unique hgap' (ht.settled _) hback'.settled hbs
      exact (hback'.not_lexeme ht).elim
    | @token _ _ after' t' ts' hgap' ht' hloc' hword' hrest' =>
      obtain ⟨rfl, hlexeme⟩ := hgap.unique hgap' (ht.settled _) (ht'.settled _) hbs
      have hlexed := (ht.lexed hword).lexeme_eq
      have hlexed' := (ht'.lexed hword').lexeme_eq
      rw [hlexeme, hloc, ← hloc', hlexed'] at hlexed
      obtain ⟨rfl, hnext⟩ := Prod.mk.inj (Except.ok.inj hlexed)
      obtain rfl := congrArg Cursor.rest hnext
      obtain ⟨rfl, hends⟩ := ih hrest'
      exact ⟨rfl, hends⟩

namespace Cursor

variable {src front : List UInt8} {c : Cursor}

theorem stuck_of_error {e : LexError} (h : c.lexeme = .error e) (hc : Settled c.rest) :
    Stuck c.rest ∧ e.loc = c.loc ∧ e.Shows c.rest := by
  obtain ⟨b, rest, hrest, rfl⟩ := lexeme_fails h
  have hne : c.rest ≠ [] := by
    rw [hrest]
    exact List.cons_ne_nil _ _
  refine ⟨⟨hne, fun t ht hprefix => ?_, hc⟩, rfl, ?_⟩
  · obtain ⟨u, next, hlexed⟩ := ht.exists_lexed hprefix
    rw [hlexed.lexeme_eq] at h
    cases h
  · rw [hrest]
    rcases decodeFirst_cases b rest with hchar | hstray
    · exact .inl hchar
    · exact .inr ⟨congrArg Prod.fst hstray, List.cons_ne_nil _ _, not_encodes_of_stray hstray⟩

/-- Behind trivia a cursor stands at the place behind all bytes in front of it. -/
theorem At.skipTrivia (h : c.At src) (hsrc : src = front ++ c.rest) :
    ∃ gap, c.rest = gap ++ c.skipTrivia.rest ∧ Trivia c.skipTrivia.rest gap ∧
      c.skipTrivia.At src ∧ c.skipTrivia.loc = .behind (front ++ gap) := by
  obtain ⟨gap, hrest, hgap⟩ := skipFrom_trivia c.rest c.loc
  have hskip : c.skipTrivia.At src := h.skipFrom false
  refine ⟨gap, hrest, hgap, hskip, ?_⟩
  have hfront := (skipFrom_front false c.rest c.loc).1
  rw [At, hsrc, hrest, ← List.append_assoc] at hskip
  refine Stands.eq_behind hskip fun hhead => ?_
  exact absurd (hfront 0x0A hhead) (by decide)

end Cursor

/-- No bytes show two characters. -/
theorem LexError.Shows.unique {e e' : LexError} {bs : List UInt8} (h : e.Shows bs)
    (h' : e'.Shows bs) : e.char = e'.char := by
  rcases h with h | ⟨hchar, -, hnone⟩ <;> rcases h' with h' | ⟨hchar', -, hnone'⟩
  · have heq := decodeFirst_of_encodes h
    rw [decodeFirst_of_encodes h'] at heq
    exact (Prod.mk.inj heq).1.symm
  · exact absurd h (hnone' _)
  · exact absurd h' (hnone _)
  · rw [hchar, hchar']

namespace TokenStream

/-- What stops the tokens of a script in front of the bytes `back`: the end token if there are no
such bytes, and else an error that shows what stands there. -/
def StopsAt (src back : List UInt8) : Except LexError Token → Prop
  | .ok t => back = [] ∧ t = .plain .eof (.behind src)
  | .error e => Stuck back ∧ (∃ front, src = front ++ back ∧ e.loc = .behind front) ∧ e.Shows back

namespace StopsAt

variable {src front back : List UInt8} {stop : Except LexError Token} {e : LexError}

theorem ended (h : StopsAt src back stop) : Ended back := by
  cases stop with
  | ok t => exact .inl h.1
  | error e => exact .inr h.1

theorem eq_ok (h : StopsAt src [] stop) : stop = .ok (.plain .eof (.behind src)) := by
  cases stop with
  | ok t => rw [h.2]
  | error e => exact absurd rfl h.1.nonempty

theorem eq_error (h : StopsAt src back stop) (hback : Stuck back) (hsrc : src = front ++ back)
    (hloc : e.loc = .behind front) (hshows : e.Shows back) : stop = .error e := by
  cases stop with
  | ok t => exact absurd h.1 hback.nonempty
  | error e' =>
    obtain ⟨-, ⟨front', hsrc', hloc'⟩, hshows'⟩ := h
    obtain rfl := List.append_cancel_right (hsrc.symm.trans hsrc')
    have hchar := hshows'.unique hshows
    obtain ⟨loc, char⟩ := e
    obtain ⟨loc', char'⟩ := e'
    obtain rfl : loc' = loc := hloc'.trans hloc.symm
    obtain rfl : char' = char := hchar
    rfl

end StopsAt

theorem collect_tiles {src front : List UInt8} {fuel : Nat} {c : Cursor}
    (hfuel : c.rest.length < fuel) (hsrc : src = front ++ c.rest) (hc : c.At src) :
    ∃ back, Tiles back front (collect fuel c).tokens c.rest ∧
      StopsAt src back (collect fuel c).stop := by
  -- The cursor stands behind `front` at its place in the script, and so does the next one behind
  -- the lexeme that is read.
  induction fuel generalizing front c with
  | zero => simp at hfuel
  | succ fuel ih =>
    obtain ⟨gap, hrest, hgap, hskip, hloc⟩ := hc.skipTrivia hsrc
    have hsrc' : src = (front ++ gap) ++ c.skipTrivia.rest := by
      rw [hsrc, hrest, List.append_assoc]
    unfold collect
    split
    · next e hscan =>
      obtain ⟨hstuck, heq, hshows⟩ := Cursor.stuck_of_error hscan (Cursor.skipFrom_settled _ _)
      refine ⟨c.skipTrivia.rest, ?_, hstuck, ⟨front ++ gap, hsrc', heq.trans hloc⟩, hshows⟩
      rw [hrest]
      exact .done hgap
    next t next hscan =>
    have hlexed := Cursor.Lexed.of_lexeme hscan
    split
    · next heof =>
      obtain ⟨hend, rfl, -⟩ := hlexed.of_eof heof
      rw [hend] at hgap hsrc'
      refine ⟨[], ?_, rfl, ?_⟩
      · rw [hrest, hend]
        exact .done hgap
      · rw [hloc, hsrc', List.append_nil]
    next hkind =>
    have hreads := Cursor.lexeme_reads hscan
    rw [hreads.moves.1, ← List.append_assoc] at hsrc'
    rw [hreads.moves.1] at hgap hrest
    obtain ⟨back, htiles, hstops⟩ := ih (Cursor.length_lt_of_scan hscan hkind hfuel) hsrc'
      (hskip.moves hreads.moves)
    refine ⟨back, ?_, hstops⟩
    rw [hrest]
    exact .token hgap (hlexed.isLexeme hkind) (hreads.loc.trans hloc) hreads.word htiles

/-- Scanning finds a reading of the script. -/
theorem ofSource_tiles (src : List UInt8) :
    ∃ back, Tiles back [] (ofSource src).tokens src ∧ StopsAt src back (ofSource src).stop :=
  @collect_tiles src [] _ (.ofSource src) (Nat.lt_succ_self _) rfl (stands_start src)

/-- Every reading of the script is the one that scanning finds. -/
theorem ofSource_of_tiles {src back : List UInt8} {ts : List Token} (h : Tiles back [] ts src)
    (hback : Ended back) :
    (ofSource src).tokens = ts ∧ StopsAt src back (ofSource src).stop := by
  obtain ⟨back', htiles, hstops⟩ := ofSource_tiles src
  obtain ⟨htokens, rfl⟩ := htiles.unique h hstops.ended hback
  exact ⟨htokens, hstops⟩

end TokenStream

/-- A script is trivia and the lexemes of its tokens in turn up to its end, where the end token is,
and this is the only such reading. Scanning fails exactly if, behind trivia and lexemes in turn, a
byte starts neither, and the error shows the place of this byte and the character that starts
there. -/
theorem tokenize_tiles (src : List UInt8) :
    (∀ tokens, tokenize src = .ok tokens ↔
      ∃ ts, Tiles [] [] ts src ∧ tokens = ts ++ [.plain .eof (.behind src)]) ∧
    ∀ e, tokenize src = .error e ↔
      ∃ ts front back, src = front ++ back ∧ Tiles back [] ts src ∧ Stuck back ∧
        e.loc = .behind front ∧ e.Shows back := by
  refine ⟨fun tokens => ?_, fun e => ?_⟩
  · rw [tokenize_eq_ok]
    constructor
    · rintro ⟨stop, hstop, rfl⟩
      obtain ⟨back, htiles, hstops⟩ := TokenStream.ofSource_tiles src
      rw [hstop] at hstops
      obtain ⟨rfl, rfl⟩ := hstops
      exact ⟨_, htiles, rfl⟩
    · rintro ⟨ts, hts, rfl⟩
      obtain ⟨htokens, hstops⟩ := TokenStream.ofSource_of_tiles hts (.inl rfl)
      exact ⟨_, hstops.eq_ok, by rw [htokens]⟩
  · rw [tokenize_eq_error]
    constructor
    · intro hstop
      obtain ⟨back, htiles, hstops⟩ := TokenStream.ofSource_tiles src
      rw [hstop] at hstops
      obtain ⟨hstuck, ⟨front, hsrc, hloc⟩, hshows⟩ := hstops
      exact ⟨_, front, back, hsrc, htiles, hstuck, hloc, hshows⟩
    · rintro ⟨ts, front, back, hsrc, hts, hstuck, hloc, hshows⟩
      obtain ⟨-, hstops⟩ := TokenStream.ofSource_of_tiles hts (.inr hstuck)
      exact hstops.eq_error hstuck hsrc hloc hshows

/-- A comment that ends with a carriage return and a line feed, a name, and then a byte that starts
no character. -/
theorem tokenize_tiles_stray :
    let src : List UInt8 := [0x50, 0x2F, 0x2F, 0x20, 0x0D, 0x0A, 0x71, 0xFF]
    ∃ ts front back, src = front ++ back ∧ Tiles back [] ts src ∧ Stuck back ∧
      ⟨2, 2⟩ = Location.behind front ∧ (LexError.mk ⟨2, 2⟩ replacement).Shows back :=
  ((tokenize_tiles _).2 ⟨⟨2, 2⟩, replacement⟩).mp (by rfl)

end ProofScript
