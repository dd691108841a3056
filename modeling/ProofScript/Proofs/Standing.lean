import ProofScript.Proofs.Lines
import ProofScript.Proofs.Scanning

/-!
# Where tokens stand

The place that scanning keeps is a line and a byte of the script: at that byte of that line the
spelling of the token starts. Where scanning stops with an error, the reported character starts
there, or a byte that starts none.
-/

namespace ProofScript

open Text

/-! ## Spellings -/

/-- The spelling of a class that has only one. -/
def TokenKind.spelling : TokenKind → String
  | lparen => "("
  | rparen => ")"
  | lbracket => "["
  | rbracket => "]"
  | lbrace => "\x7b"
  | rbrace => "\x7d"
  | implies => "=>"
  | colon => ":"
  | comma => ","
  | semi => ";"
  | dot => "."
  | and => "&"
  | or => "|"
  | not => "~"
  | assumeKeyword => "assume"
  | byKeyword => "by"
  | haveKeyword => "have"
  | theoremKeyword => "theorem"
  | forallKeyword => "forall"
  | eof => ""
  | typeVar => ""
  | identifier => ""

/-- Is a token of this class a word? -/
def TokenKind.isWord : TokenKind → Bool
  | assumeKeyword | byKeyword | haveKeyword | theoremKeyword | forallKeyword => true
  | typeVar | identifier => true
  | _ => false

/-- What is written for a token. -/
def Token.spelling (t : Token) : String :=
  if t.kind = .typeVar ∨ t.kind = .identifier then t.value else t.kind.spelling

/-- The bytes start with the token. A word is taken whole, and the end stands behind all bytes. -/
def Token.Starts (t : Token) (bs : List UInt8) : Prop :=
  ∃ after, bs = bytes t.spelling ++ after ∧ (t.kind.isWord = true → EndsWord after) ∧
    (t.kind = .eof → after = [])

theorem Token.spelling_plain {kind : TokenKind} (loc : Location) (h : kind ≠ .typeVar)
    (h' : kind ≠ .identifier) : (Token.plain kind loc).spelling = kind.spelling := by
  rw [Token.spelling, if_neg (by simp [Token.plain, h, h'])]
  rfl

theorem TokenKind.spelling_of_symbol {b : UInt8} {kind : TokenKind} (h : ofSymbol? b = some kind) :
    bytes kind.spelling = [b] ∧ kind.isWord = false := by
  have hall : ∀ b : UInt8, ∀ kind ∈ ofSymbol? b,
      kind.spelling.toList.flatMap String.utf8EncodeChar = [b] ∧ kind.isWord = false :=
    forall_byte (by decide +kernel)
  exact (hall b kind h).imp_left bytes_of_toList

theorem TokenKind.spelling_of_keyword {s : String} {kind : TokenKind}
    (h : ofKeyword? s = some kind) : kind.spelling = s ∧ kind.isWord = true := by
  unfold ofKeyword? at h
  split at h
  case h_6 => cases h
  all_goals
    obtain rfl := Option.some.inj h
    exact ⟨rfl, rfl⟩

theorem not_isLineEnd_of_startsLexeme {b : UInt8} (h : startsLexeme b = true) :
    isLineEnd b = false := by
  have hall : ∀ b : UInt8, startsLexeme b = false ∨ isLineEnd b = false :=
    forall_byte (by decide +kernel)
  simpa [h] using hall b

theorem not_isLineEnd_of_word {b : UInt8} (h : isWordByte b = true) : isLineEnd b = false :=
  not_isLineEnd_of_startsLexeme (startsLexeme_of_word h).1

namespace Cursor

variable {c next : Cursor} {t : Token}

/-- The cursor moves over bytes of its line. -/
def Moves (c : Cursor) (w : List UInt8) (next : Cursor) : Prop :=
  c.rest = w ++ next.rest ∧ next.loc = c.loc.advance w.length ∧ ∀ b ∈ w, isLineEnd b = false

theorem word_moves (c : Cursor) :
    bytes c.word.1 = c.rest.takeWhile isWordByte ∧ c.Moves (bytes c.word.1) c.word.2 ∧
      EndsWord c.word.2.rest := by
  have hw : ∀ b ∈ c.rest.takeWhile isWordByte, isWordByte b = true := fun b hb =>
    List.all_eq_true.mp List.all_takeWhile b hb
  have hbytes : bytes c.word.1 = c.rest.takeWhile isWordByte :=
    bytes_ofBytes fun b hb => ascii_of_word (hw b hb)
  refine ⟨hbytes, ?_, ?_⟩
  · rw [hbytes]
    exact ⟨List.takeWhile_append_dropWhile.symm, rfl, fun b hb => not_isLineEnd_of_word (hw b hb)⟩
  · intro b hb
    have hnot := List.head?_dropWhile_not isWordByte c.rest
    rw [show (c.rest.dropWhile isWordByte).head? = some b from hb] at hnot
    simpa using hnot

/-- What is known of a token that is read: it stands at the cursor, and the cursor moves over its
spelling. -/
structure Reads (c : Cursor) (t : Token) (next : Cursor) : Prop where
  loc : t.loc = c.loc
  moves : c.Moves (bytes t.spelling) next
  word : t.kind.isWord = true → EndsWord next.rest
  eof : t.kind = .eof → next.rest = []
  taken : t.kind ≠ .eof → bytes t.spelling ≠ []

theorem reads_plain {kind : TokenKind} {b : UInt8} {rest : List UInt8} (hc : c.rest = b :: rest)
    (hkind : TokenKind.ofSymbol? b = some kind) :
    c.Reads (.plain kind c.loc) ⟨rest, c.loc.advance 1⟩ := by
  have hne := TokenKind.ofSymbol?_ne hkind
  simp only [List.mem_cons, List.not_mem_nil, or_false, not_or] at hne
  obtain ⟨hspelling, hword⟩ := TokenKind.spelling_of_symbol hkind
  have hb := not_isLineEnd_of_startsLexeme (startsLexeme_of_symbol hkind).1
  have hbytes : bytes (Token.plain kind c.loc).spelling = [b] := by
    rw [Token.spelling_plain _ hne.1 hne.2.1, hspelling]
  refine ⟨rfl, ?_, fun h => ?_, fun h => absurd h hne.2.2, fun _ => by simp [hbytes]⟩
  · rw [hbytes]
    exact ⟨hc, rfl, by simpa using hb⟩
  · rw [show (Token.plain kind c.loc).kind.isWord = kind.isWord from rfl, hword] at h
    cases h

theorem reads_word {t : Token} {b : UInt8} {rest : List UInt8} {s : String}
    (hc : c.rest = b :: rest) (hb : isWordByte b = true) (hword : c.word = (s, next))
    (hloc : t.loc = c.loc) (hspelling : t.spelling = s) (hkind : t.kind ≠ .eof) :
    c.Reads t next := by
  obtain ⟨hbytes, hmoves, hends⟩ := word_moves c
  rw [hword, ← hspelling] at hbytes hmoves hends
  refine ⟨hloc, hmoves, fun _ => hends, fun h => absurd h hkind, fun _ => ?_⟩
  rw [hbytes, hc, List.takeWhile_cons_of_pos hb]
  exact List.cons_ne_nil _ _

/-- A token that is read stands at the cursor. -/
theorem lexeme_reads (h : c.lexeme = .ok (t, next)) : c.Reads t next := by
  cases Lexed.of_lexeme h with
  | eof =>
    refine ⟨rfl, ?_, fun h => (by cases h), fun _ => rfl, fun h => absurd rfl h⟩
    rw [show (Token.plain .eof _).spelling = "" from rfl, bytes_empty]
    exact ⟨rfl, by simp [Location.advance], by simp⟩
  | @arrow rest loc =>
    have hspelling : bytes "=>" = [0x3D, 0x3E] := bytes_of_toList rfl
    rw [← show (Token.plain .implies loc).spelling = "=>" from rfl] at hspelling
    refine ⟨rfl, ?_, fun h => (by cases h), fun h => (by cases h), fun _ => by simp [hspelling]⟩
    have hline : isLineEnd 0x3D = false ∧ isLineEnd 0x3E = false := by decide
    rw [hspelling]
    exact ⟨rfl, rfl, by simpa using hline⟩
  | symbol hkind => exact reads_plain rfl hkind
  | upper hupper hword => exact reads_word rfl (isWordByte_of_upper hupper) hword rfl rfl (by simp)
  | @lower b rest loc s next hlower hword =>
    have hb := isWordByte_of_startsName hlower
    cases hkind : TokenKind.ofKeyword? s with
    | some kind =>
      have hne := TokenKind.ofKeyword?_ne hkind
      simp only [List.mem_cons, List.not_mem_nil, or_false, not_or] at hne
      rw [Token.ofWord, hkind]
      refine reads_word rfl hb hword rfl ?_ hne.2.2
      rw [Token.spelling_plain _ hne.1 hne.2.1, (TokenKind.spelling_of_keyword hkind).1]
    | none =>
      rw [Token.ofWord, hkind]
      exact reads_word rfl hb hword rfl rfl (by simp)

/-- A lexical error shows the character that is decoded at the cursor. -/
theorem lexeme_fails {e : LexError} (h : c.lexeme = .error e) :
    ∃ b rest, c.rest = b :: rest ∧ e = ⟨c.loc, (decodeFirst (b :: rest)).1⟩ := by
  unfold lexeme at h
  split at h
  · simp at h
  rename_i b rest hc
  refine ⟨b, rest, hc, ?_⟩
  split at h
  · simp at h
  split at h
  · simp at h
  split at h
  · simp at h
  split at h
  · simp only at h
    split at h <;> simp at h
  · rw [← hc]
    exact (Except.error.inj h).symm

end Cursor

/-! ## Places of a script -/

/-- The place is that of a byte of a line of the script, and these lines, the rest of its own line
first, are ahead. -/
def Stands (src : List UInt8) (loc : Location) (ahead : List (List UInt8)) : Prop :=
  ∃ (i j : Nat) (line : List UInt8), loc = ⟨i + 1, j + 1⟩ ∧ (byteLines src)[i]? = some line ∧
    j ≤ line.length ∧ ahead = line.drop j :: (byteLines src).drop (i + 1)

/-- The place behind some bytes: that of a byte that follows on their last line. -/
def Location.behind (bs : List UInt8) : Location :=
  ⟨(byteLines bs).length, ((byteLines bs).getLastD []).length + 1⟩

theorem stands_start (src : List UInt8) : Stands src .start (byteLines src) := by
  obtain ⟨line, ls, h⟩ := byteLines_eq_cons src
  exact ⟨0, 0, line, rfl, by rw [h]; rfl, Nat.zero_le _, by rw [h]; rfl⟩

namespace Stands

variable {src w line : List UInt8} {loc : Location} {ls : List (List UInt8)}

theorem advance (h : Stands src loc ((w ++ line) :: ls)) :
    Stands src (loc.advance w.length) (line :: ls) := by
  obtain ⟨i, j, whole, rfl, hline, hj, hahead⟩ := h
  obtain ⟨hrest, hls⟩ := List.cons.inj hahead
  have hlen : w.length + line.length = whole.length - j := by
    rw [← List.length_append, hrest, List.length_drop]
  refine ⟨i, j + w.length, whole, ?_, hline, by omega, ?_⟩
  · simp only [Location.advance, Location.mk.injEq, true_and]
    omega
  · rw [← hls, ← List.drop_drop, ← hrest, List.drop_left]

theorem newline (h : Stands src loc (w :: line :: ls)) : Stands src loc.newline (line :: ls) := by
  obtain ⟨i, j, whole, rfl, -, -, hahead⟩ := h
  obtain ⟨-, hls⟩ := List.cons.inj hahead
  have hline : (byteLines src)[i + 1]? = some line := by
    rw [← List.head?_drop, ← hls]
    rfl
  refine ⟨i + 1, 0, line, ?_, hline, Nat.zero_le _, ?_⟩
  · simp [Location.newline]
  · rw [List.drop_zero, ← List.drop_drop, ← hls]
    rfl

theorem eq_behind {front rest : List UInt8} {loc : Location}
    (h : Stands (front ++ rest) loc (byteLines rest)) (hrest : rest.head? ≠ some 0x0A) :
    loc = .behind front := by
  obtain ⟨init, last, hfront, hwhole⟩ := exists_byteLines_append front hrest
  obtain ⟨line, ls, hls⟩ := byteLines_eq_cons rest
  obtain ⟨i, j, whole, rfl, hline, hj, hahead⟩ := h
  rw [hls, prependLine] at hwhole
  rw [hls] at hahead
  obtain ⟨hdrop, hdropLines⟩ := List.cons.inj hahead
  -- the lines ahead are as many as those from line `i` on, so `i` lines are in front
  have hi : i = init.length := by
    have hlt := (List.getElem?_eq_some_iff.mp hline).1
    have hlen := congrArg List.length hdropLines
    rw [List.length_drop] at hlen
    rw [hwhole, List.length_append, List.length_cons] at hlt hlen
    omega
  have hwholeLine : whole = last ++ line := by
    rw [hwhole, hi, List.getElem?_append_right (Nat.le_refl _), Nat.sub_self] at hline
    exact (Option.some.inj hline).symm
  have hj' : j = last.length := by
    have hlen := congrArg List.length hdrop
    rw [List.length_drop, hwholeLine, List.length_append] at hlen
    rw [hwholeLine, List.length_append] at hj
    omega
  simp [Location.behind, hfront, hi, hj']

end Stands

namespace Cursor

variable {src : List UInt8}

/-- The cursor stands at its place of the script. -/
def At (src : List UInt8) (c : Cursor) : Prop := Stands src c.loc (byteLines c.rest)

theorem At.moves {c next : Cursor} {w : List UInt8} (h : c.At src) (hm : c.Moves w next) :
    next.At src := by
  obtain ⟨line, ls, hls⟩ := byteLines_eq_cons next.rest
  obtain ⟨hrest, hloc, hw⟩ := hm
  rw [At, hrest, byteLines_append hw hls] at h
  rw [At, hloc, hls]
  exact h.advance

theorem At.newline {rest : List UInt8} {loc : Location} {b : UInt8}
    (h : (Cursor.mk (b :: rest) loc).At src)
    (hb : byteLines (b :: rest) = [] :: byteLines rest) : (Cursor.mk rest loc.newline).At src := by
  obtain ⟨line, ls, hls⟩ := byteLines_eq_cons rest
  simp only [At, hb, hls] at h ⊢
  exact h.newline

theorem At.skipFrom {rest : List UInt8} {loc : Location} (inComment : Bool)
    (h : (Cursor.mk rest loc).At src) : (skipFrom inComment rest loc).At src := by
  fun_induction Cursor.skipFrom inComment rest loc with
  | case1 => exact h
  | case2 inComment rest loc hnext ih =>
    rw [startsWithByte_iff] at hnext
    simp only [At, byteLines_return, if_pos hnext] at h
    exact ih h
  | case3 inComment rest loc hnext ih =>
    rw [startsWithByte_iff] at hnext
    exact ih (h.newline (by rw [byteLines_return, if_neg hnext]))
  | case4 inComment rest loc hb ih => exact ih (h.newline (byteLines_lineFeed rest))
  | case5 inComment b rest loc hcr hlf hblank ih =>
    exact ih (h.moves ⟨(List.singleton_append).symm, rfl, by simpa [isLineEnd] using ⟨hlf, hcr⟩⟩)
  | case6 inComment b rest loc hcr hlf hblank hslash ih =>
    exact ih (h.moves ⟨(List.singleton_append).symm, rfl, by simpa [isLineEnd] using ⟨hlf, hcr⟩⟩)
  | case7 => exact h

theorem skipFrom_front (inComment : Bool) (rest : List UInt8) (loc : Location) :
    (∀ b ∈ (skipFrom inComment rest loc).rest.head?, isLineEnd b = false) ∧
      (skipFrom inComment rest loc).rest.length ≤ rest.length := by
  fun_induction skipFrom inComment rest loc with
  | case1 => simp
  | case2 inComment rest loc hnext ih => exact ⟨ih.1, Nat.le_succ_of_le ih.2⟩
  | case3 inComment rest loc hnext ih => exact ⟨ih.1, Nat.le_succ_of_le ih.2⟩
  | case4 inComment rest loc hb ih => exact ⟨ih.1, Nat.le_succ_of_le ih.2⟩
  | case5 inComment b rest loc hcr hlf hblank ih => exact ⟨ih.1, Nat.le_succ_of_le ih.2⟩
  | case6 inComment b rest loc hcr hlf hblank hslash ih => exact ⟨ih.1, Nat.le_succ_of_le ih.2⟩
  | case7 inComment b rest loc hcr hlf =>
    exact ⟨by simpa [isLineEnd] using ⟨hlf, hcr⟩, Nat.le.refl⟩

/-- A token that is not the end takes a byte. -/
theorem length_lt_of_scan {c next : Cursor} {t : Token} {fuel : Nat} (h : c.scan = .ok (t, next))
    (ht : t.kind ≠ .eof) (hfuel : c.rest.length < fuel + 1) : next.rest.length < fuel := by
  have hreads := lexeme_reads h
  have hpos := List.length_pos_iff.mpr (hreads.taken ht)
  have hrest := congrArg List.length hreads.moves.1
  have hle : c.skipTrivia.rest.length ≤ c.rest.length := (skipFrom_front false c.rest c.loc).2
  rw [List.length_append] at hrest
  omega

end Cursor

/-! ## Tokens and errors at their places -/

/-- The spelling of the token starts at its place. The end stands behind the last line. -/
def Token.Seen (src : List UInt8) (t : Token) : Prop :=
  ∃ line ls, Stands src t.loc (line :: ls) ∧ t.Starts line ∧ (t.kind = .eof → ls = [])

/-- The bytes start with the reported character. The replacement character stands for a byte in
front of them that starts no character. -/
def LexError.Shows (e : LexError) (bs : List UInt8) : Prop :=
  Encodes e.char bs ∨ e.char = replacement ∧ bs ≠ [] ∧ ∀ c, ¬Encodes c bs

/-- The reported character starts at the place of the error. -/
def LexError.Seen (src : List UInt8) (e : LexError) : Prop :=
  ∃ line ls, Stands src e.loc (line :: ls) ∧ e.Shows line

namespace Cursor

variable {src : List UInt8} {c next : Cursor} {t : Token}

theorem Reads.seen (h : c.Reads t next) (hc : c.At src) : t.Seen src := by
  obtain ⟨hloc, ⟨hrest, -, hline⟩, hword, heof, -⟩ := h
  obtain ⟨line, ls, hls⟩ := byteLines_eq_cons next.rest
  rw [At, hrest, byteLines_append hline hls, ← hloc] at hc
  refine ⟨_, ls, hc, ⟨line, rfl, fun h b hb => ?_, fun h => ?_⟩, fun h => ?_⟩
  · obtain ⟨more, hmore⟩ := isPrefix_of_byteLines hls
    refine hword h b ?_
    rw [← hmore, List.head?_append, hb]
    rfl
  · rw [heof h, byteLines] at hls
    exact (List.cons.inj hls).1.symm
  · rw [heof h, byteLines] at hls
    exact (List.cons.inj hls).2.symm

theorem seen_of_fails {e : LexError} (h : c.lexeme = .error e) (hc : c.At src)
    (hfront : ∀ b ∈ c.rest.head?, isLineEnd b = false) : e.Seen src := by
  obtain ⟨b, rest, hrest, rfl⟩ := lexeme_fails h
  have hb : isLineEnd b = false := hfront b (by rw [hrest]; rfl)
  obtain ⟨line, ls, hline⟩ := byteLines_eq_cons rest
  have hls : byteLines (b :: rest) = (b :: line) :: ls := by
    rw [byteLines_cons hb, prependLine_eq [b] hline]
    rfl
  rw [At, hrest, hls] at hc
  refine ⟨b :: line, ls, hc, ?_⟩
  rcases decodeFirst_cases b rest with hchar | hstray
  · exact .inl (hchar.of_byteLines hb hls)
  · refine .inr ⟨congrArg Prod.fst hstray, List.cons_ne_nil _ _, fun d hd => ?_⟩
    exact not_encodes_of_stray hstray d (hd.trans (isPrefix_of_byteLines hls))

end Cursor

namespace TokenStream

variable {src : List UInt8}

/-- What stops the tokens is the end, seen at its place, or an error that is. -/
def StopSeen (src : List UInt8) : Except LexError Token → Prop
  | .ok t => t.Seen src
  | .error e => e.Seen src

theorem collect_seen {fuel : Nat} {c : Cursor} (hfuel : c.rest.length < fuel) (hc : c.At src) :
    (∀ t ∈ (collect fuel c).tokens, t.Seen src) ∧ StopSeen src (collect fuel c).stop := by
  induction fuel generalizing c with
  | zero => simp at hfuel
  | succ fuel ih =>
    have hskip : c.skipTrivia.At src := hc.skipFrom false
    have hfront := (Cursor.skipFrom_front false c.rest c.loc).1
    unfold collect
    split
    · next e hscan => exact ⟨by simp, Cursor.seen_of_fails hscan hskip hfront⟩
    next t next hscan =>
      have hreads := Cursor.lexeme_reads hscan
      have hseen := hreads.seen hskip
      split
      · exact ⟨by simp, hseen⟩
      next hkind =>
        have hnext := Cursor.length_lt_of_scan hscan hkind hfuel
        obtain ⟨htokens, hstop⟩ := ih hnext (hskip.moves hreads.moves)
        exact ⟨List.forall_mem_cons.mpr ⟨hseen, htokens⟩, hstop⟩

/-- All tokens of a script, and what stops them, stand at their places. -/
theorem ofSource_seen (src : List UInt8) :
    (∀ t ∈ (ofSource src).tokens, t.Seen src) ∧ StopSeen src (ofSource src).stop :=
  collect_seen (Nat.lt_succ_self _) (stands_start src)

end TokenStream

end ProofScript
