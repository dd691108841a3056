import ProofScript.Proofs.Bytes
import ProofScript.Token.Lexer

/-!
# What scanning yields

The tokens of a script are spelled as their classes ask for, and only the token that stops them is
an end token. In the other direction, `Lexes bs P` says that scanning the bytes `bs` reaches the end
and that `P` holds of the tokens; the lemmas about it go through a text from its end to its start,
one lexeme after the other.
-/

namespace ProofScript

/-- A word whose first byte passes a test. -/
def WordOf (first : UInt8 → Bool) (s : String) : Prop :=
  ∃ b w, first b = true ∧ (∀ c ∈ w, isWordByte c = true) ∧ s = Text.ofBytes (b :: w)

/-- Does the byte start a name or a reserved word? -/
def startsName (b : UInt8) : Bool := isLowerByte b || b = 0x5F

/-- The spelling of a type variable. -/
def IsTypeVar (s : String) : Prop := WordOf isUpperByte s

/-- The spelling of a name. -/
def IsName (s : String) : Prop := WordOf startsName s ∧ TokenKind.ofKeyword? s = none

/-- The value of the token is a word of its class. -/
structure Token.Spelled (t : Token) : Prop where
  typeVar : t.kind = .typeVar → IsTypeVar t.value
  name : t.kind = .identifier → IsName t.value

theorem Token.plain_spelled {kind : TokenKind} {loc : Location} (h : kind ≠ .typeVar)
    (h' : kind ≠ .identifier) : (Token.plain kind loc).Spelled :=
  ⟨fun hk => absurd hk h, fun hk => absurd hk h'⟩

theorem TokenKind.ofSymbol?_ne {b : UInt8} {kind : TokenKind} (h : ofSymbol? b = some kind) :
    kind ∉ [.typeVar, .identifier, .eof] := by
  unfold ofSymbol? at h
  split at h <;> simp_all <;> subst h <;> simp

theorem TokenKind.ofKeyword?_ne {s : String} {kind : TokenKind} (h : ofKeyword? s = some kind) :
    kind ∉ [.typeVar, .identifier, .eof] := by
  unfold ofKeyword? at h
  split at h <;> simp_all <;> subst h <;> simp

theorem isWordByte_of_upper {b : UInt8} (h : isUpperByte b = true) : isWordByte b = true := by
  simp [isWordByte, h]

theorem isWordByte_of_startsName {b : UInt8} (h : startsName b = true) : isWordByte b = true := by
  rcases Bool.or_eq_true_iff.mp h with h | h
  · simp [isWordByte, h]
  · simp [isWordByte, of_decide_eq_true h]

/-! ## Bytes that start lexemes -/

theorem forall_byte {p : UInt8 → Prop} (h : ∀ n < 256, p (UInt8.ofNat n)) (b : UInt8) : p b := by
  have hb := h b.toNat b.toNat_lt
  rwa [UInt8.ofNat_toNat] at hb

/-- Is the byte no blank, no line break and no slash? -/
def startsLexeme (b : UInt8) : Bool := !(b = 0x0D || b = 0x0A || isBlankByte b || b = 0x2F)

theorem startsLexeme_of_symbol {b : UInt8} {kind : TokenKind}
    (h : TokenKind.ofSymbol? b = some kind) : startsLexeme b = true ∧ b ≠ 0x3D := by
  have hall : ∀ b : UInt8, TokenKind.ofSymbol? b = none ∨ startsLexeme b = true ∧ b ≠ 0x3D :=
    forall_byte (by decide +kernel)
  simpa [h] using hall b

theorem startsLexeme_of_word {b : UInt8} (h : isWordByte b = true) :
    startsLexeme b = true ∧ b ≠ 0x3D ∧ TokenKind.ofSymbol? b = none := by
  have hall : ∀ b : UInt8, isWordByte b = false ∨
      startsLexeme b = true ∧ b ≠ 0x3D ∧ TokenKind.ofSymbol? b = none :=
    forall_byte (by decide +kernel)
  simpa [h] using hall b

theorem ascii_of_word {b : UInt8} (h : isWordByte b = true) : b < 0x80 := by
  have hall : ∀ b : UInt8, isWordByte b = false ∨ b < 0x80 := forall_byte (by decide +kernel)
  simpa [h] using hall b

theorem WordOf.exists_bytes {first : UInt8 → Bool} {s : String} (h : WordOf first s)
    (hfirst : ∀ b, first b = true → isWordByte b = true) :
    ∃ b w, s = Text.ofBytes (b :: w) ∧ Text.bytes s = b :: w ∧ first b = true ∧
      ∀ c ∈ b :: w, isWordByte c = true := by
  obtain ⟨b, w, hb, hw, rfl⟩ := h
  have hbw : ∀ c ∈ b :: w, isWordByte c = true := List.forall_mem_cons.mpr ⟨hfirst b hb, hw⟩
  exact ⟨b, w, rfl, Text.bytes_ofBytes fun c hc => ascii_of_word (hbw c hc), hb, hbw⟩

theorem not_upper_of_startsName {b : UInt8} (h : startsName b = true) : isUpperByte b = false := by
  have hall : ∀ b : UInt8, startsName b = false ∨ isUpperByte b = false :=
    forall_byte (by decide +kernel)
  simpa [h] using hall b

theorem Cursor.skipTrivia_of_startsLexeme {b : UInt8} {rest : List UInt8} {loc : Location}
    (h : startsLexeme b = true) :
    (Cursor.mk (b :: rest) loc).skipTrivia = ⟨b :: rest, loc⟩ := by
  simp only [startsLexeme, Bool.not_eq_true', Bool.or_eq_false_iff, decide_eq_false_iff_not] at h
  obtain ⟨⟨⟨hcr, hlf⟩, hblank⟩, hslash⟩ := h
  simp [skipTrivia, skipFrom, hcr, hlf, hblank, hslash]

/-! ## Single tokens -/

/-- The token that a word in lower case is: a reserved word, or a name. -/
def Token.ofWord (s : String) (loc : Location) : Token :=
  match TokenKind.ofKeyword? s with
  | some kind => .plain kind loc
  | none => ⟨.identifier, s, loc⟩

namespace Cursor

theorem startsWithByte_iff {b : UInt8} {rest : List UInt8} :
    startsWithByte b rest = true ↔ rest.head? = some b := by
  cases rest <;> simp [startsWithByte]

/-- What is read at a cursor, and the cursor behind it. -/
inductive Lexed : Cursor → Token → Cursor → Prop where
  | eof {loc : Location} : Lexed ⟨[], loc⟩ (.plain .eof loc) ⟨[], loc⟩
  | arrow {rest : List UInt8} {loc : Location} :
    Lexed ⟨0x3D :: 0x3E :: rest, loc⟩ (.plain .implies loc) ⟨rest, loc.advance 2⟩
  | symbol {b : UInt8} {rest : List UInt8} {loc : Location} {kind : TokenKind} :
    TokenKind.ofSymbol? b = some kind →
      Lexed ⟨b :: rest, loc⟩ (.plain kind loc) ⟨rest, loc.advance 1⟩
  | upper {b : UInt8} {rest : List UInt8} {loc : Location} {s : String} {next : Cursor} :
    isUpperByte b = true → word ⟨b :: rest, loc⟩ = (s, next) →
      Lexed ⟨b :: rest, loc⟩ ⟨.typeVar, s, loc⟩ next
  | lower {b : UInt8} {rest : List UInt8} {loc : Location} {s : String} {next : Cursor} :
    startsName b = true → word ⟨b :: rest, loc⟩ = (s, next) →
      Lexed ⟨b :: rest, loc⟩ (.ofWord s loc) next

variable {c next : Cursor} {t : Token}

theorem Lexed.of_lexeme (h : c.lexeme = .ok (t, next)) : c.Lexed t next := by
  obtain ⟨rest, loc⟩ := c
  unfold lexeme at h
  split at h
  · next hc =>
    obtain rfl : rest = [] := hc
    obtain ⟨rfl, rfl⟩ : _ ∧ _ := by simpa using h
    exact .eof
  next b rest' hc =>
  obtain rfl : rest = b :: rest' := hc
  split at h
  · next harrow =>
    rw [Bool.and_eq_true, decide_eq_true_eq, startsWithByte_iff] at harrow
    obtain ⟨rfl, hhead⟩ := harrow
    obtain ⟨after, rfl⟩ := List.head?_eq_some_iff.mp hhead
    obtain ⟨rfl, rfl⟩ : _ ∧ _ := by simpa using h
    exact .arrow
  split at h
  · next hkind =>
    obtain ⟨rfl, rfl⟩ : _ ∧ _ := by simpa using h
    exact .symbol hkind
  split at h
  · next hupper =>
    obtain ⟨rfl, rfl⟩ : _ ∧ _ := by simpa using h
    exact .upper hupper rfl
  split at h
  · next hlower =>
    have hword : Lexed ⟨b :: rest', loc⟩ (.ofWord (word ⟨b :: rest', loc⟩).1 loc)
        (word ⟨b :: rest', loc⟩).2 := .lower hlower rfl
    simp only at h
    rw [Token.ofWord] at hword
    split at h
    · next hkind =>
      obtain ⟨rfl, rfl⟩ : _ ∧ _ := by simpa using h
      rwa [hkind] at hword
    · next hkind =>
      obtain ⟨rfl, rfl⟩ : _ ∧ _ := by simpa using h
      rwa [hkind] at hword
  · simp at h

theorem Lexed.lexeme_eq (h : c.Lexed t next) : c.lexeme = .ok (t, next) := by
  cases h with
  | eof => rfl
  | arrow => simp [lexeme, startsWithByte]
  | symbol hkind =>
    obtain ⟨-, heq⟩ := startsLexeme_of_symbol hkind
    simp [lexeme, heq, hkind]
  | upper hupper hword =>
    obtain ⟨-, heq, hsymbol⟩ := startsLexeme_of_word (isWordByte_of_upper hupper)
    simp [lexeme, heq, hsymbol, hupper, hword]
  | @lower b rest loc s next hlower hword =>
    obtain ⟨-, heq, hsymbol⟩ := startsLexeme_of_word (isWordByte_of_startsName hlower)
    have hupper := not_upper_of_startsName hlower
    rw [startsName] at hlower
    simp only [lexeme, heq, decide_false, Bool.false_and, Bool.false_eq_true, if_false, hsymbol,
      hupper, hlower, if_true, hword, Token.ofWord]
    cases TokenKind.ofKeyword? s <;> rfl

theorem word_wordOf {first : UInt8 → Bool} {b : UInt8} {rest : List UInt8} {loc : Location}
    {s : String} (h : first b = true) (hb : isWordByte b = true)
    (hword : word ⟨b :: rest, loc⟩ = (s, next)) : WordOf first s := by
  obtain ⟨rfl, -⟩ := Prod.mk.inj hword
  refine ⟨b, rest.takeWhile isWordByte, h, ?_, by simp [hb]⟩
  exact List.all_eq_true.mp List.all_takeWhile

theorem Lexed.spelled (h : c.Lexed t next) : t.Spelled := by
  cases h with
  | eof => exact Token.plain_spelled (by simp) (by simp)
  | arrow => exact Token.plain_spelled (by simp) (by simp)
  | symbol hkind =>
    have hne := TokenKind.ofSymbol?_ne hkind
    simp only [List.mem_cons, List.not_mem_nil, or_false, not_or] at hne
    exact Token.plain_spelled hne.1 hne.2.1
  | upper hupper hword =>
    exact ⟨fun _ => word_wordOf hupper (isWordByte_of_upper hupper) hword, fun hk => by simp at hk⟩
  | @lower b rest loc s next hlower hword =>
    have hs := word_wordOf hlower (isWordByte_of_startsName hlower) hword
    cases hkind : TokenKind.ofKeyword? s with
    | some kind =>
      have hne := TokenKind.ofKeyword?_ne hkind
      simp only [List.mem_cons, List.not_mem_nil, or_false, not_or] at hne
      rw [Token.ofWord, hkind]
      exact Token.plain_spelled hne.1 hne.2.1
    | none =>
      rw [Token.ofWord, hkind]
      exact ⟨fun hk => by simp at hk, fun _ => ⟨hs, hkind⟩⟩

theorem Lexed.of_eof (h : c.Lexed t next) (ht : t.kind = .eof) :
    c.rest = [] ∧ t = .plain .eof c.loc ∧ next = c := by
  cases h with
  | eof => exact ⟨rfl, rfl, rfl⟩
  | arrow => cases ht
  | @symbol b rest loc kind hkind =>
    obtain rfl : kind = .eof := ht
    exact absurd (TokenKind.ofSymbol?_ne hkind) (by simp)
  | upper => cases ht
  | @lower b rest loc s next hlower hword =>
    rw [Token.ofWord] at ht
    split at ht
    · next kind hkind =>
      obtain rfl : kind = .eof := ht
      exact absurd (TokenKind.ofKeyword?_ne hkind) (by simp)
    · cases ht

/-- Skipping again skips nothing. -/
theorem skipFrom_skipFrom (inComment : Bool) (rest : List UInt8) (loc : Location) :
    (skipFrom inComment rest loc).skipTrivia = skipFrom inComment rest loc := by
  fun_induction skipFrom inComment rest loc with
  | case1 => rfl
  | case2 _ _ _ _ ih => exact ih
  | case3 _ _ _ _ ih => exact ih
  | case4 _ _ _ _ ih => exact ih
  | case5 _ _ _ _ _ _ _ ih => exact ih
  | case6 _ _ _ _ _ _ _ _ ih => exact ih
  | case7 inComment b rest loc hcr hlf hblank hslash =>
    rw [Bool.or_eq_true, not_or] at hblank
    simp [skipTrivia, skipFrom, hcr, hlf, hblank.2, hslash]

theorem scan_skipTrivia (c : Cursor) : c.skipTrivia.scan = c.scan := by
  rw [scan, show c.skipTrivia.skipTrivia = c.skipTrivia from skipFrom_skipFrom _ _ _, scan]

end Cursor

namespace TokenStream

/-- A stream that stops, if not with an error, at an end token. -/
def Closed (s : TokenStream) : Prop := ∀ t, s.stop = .ok t → t.kind = .eof

theorem collect_closed (fuel : Nat) (c : Cursor) : (collect fuel c).Closed := by
  induction fuel generalizing c with
  | zero =>
    intro t ht
    obtain rfl : _ = t := by simpa [collect] using ht
    rfl
  | succ fuel ih =>
    unfold collect
    split
    · intro t ht
      simp at ht
    split
    · rename_i heof
      intro t ht
      obtain rfl : _ = t := by simpa using ht
      exact heof
    · exact ih _

/-- Every token before the end is spelled as its class asks for and is no end token. -/
theorem collect_spelled {fuel : Nat} {c : Cursor} {t : Token} (h : t ∈ (collect fuel c).tokens) :
    t.Spelled ∧ t.kind ≠ .eof := by
  induction fuel generalizing c with
  | zero => simp [collect] at h
  | succ fuel ih =>
    unfold collect at h
    split at h
    · simp at h
    rename_i u next hscan
    split at h
    · simp at h
    · rename_i hkind
      rcases List.mem_cons.mp h with rfl | h
      · exact ⟨(Cursor.Lexed.of_lexeme hscan).spelled, hkind⟩
      · exact ih h

end TokenStream

theorem tokenize_eq_ok {src : List UInt8} {ts : List Token} : tokenize src = .ok ts ↔
    ∃ stop, (TokenStream.ofSource src).stop = .ok stop ∧
      (TokenStream.ofSource src).tokens ++ [stop] = ts := by
  unfold tokenize TokenStream.toTokens
  cases (TokenStream.ofSource src).stop <;> simp

theorem tokenize_eq_error {src : List UInt8} {e : LexError} :
    tokenize src = .error e ↔ (TokenStream.ofSource src).stop = .error e := by
  unfold tokenize TokenStream.toTokens
  cases (TokenStream.ofSource src).stop <;> simp

/-! ## Scanning to the end -/

/-- Wherever the bytes stand, scanning them reaches the end, and `P` holds of the tokens. -/
def Lexes (bs : List UInt8) (P : List Token → Prop) : Prop :=
  ∀ loc fuel, bs.length < fuel →
    ∃ ts stop, TokenStream.collect fuel ⟨bs, loc⟩ = ⟨ts, .ok stop⟩ ∧ stop.kind = .eof ∧ P ts

/-- The first token passes a test, and `P` holds of those behind it. -/
def Front (Q : Token → Prop) (P : List Token → Prop) (ts : List Token) : Prop :=
  ∃ t rest, ts = t :: rest ∧ Q t ∧ P rest

/-- The bytes do not go on with a word. -/
def EndsWord (bs : List UInt8) : Prop := ∀ b ∈ bs.head?, isWordByte b = false

namespace Lexes

variable {b : UInt8} {bs after : List UInt8} {P P' : List Token → Prop} {s : String}

theorem mono (h : Lexes bs P) (hP : ∀ ts, P ts → P' ts) : Lexes bs P' := by
  intro loc fuel hfuel
  obtain ⟨ts, stop, hcollect, hstop, hts⟩ := h loc fuel hfuel
  exact ⟨ts, stop, hcollect, hstop, hP ts hts⟩

theorem nil (h : P []) : Lexes [] P := by
  intro loc fuel hfuel
  obtain ⟨fuel, rfl⟩ : ∃ m, fuel = m + 1 := ⟨fuel - 1, by omega⟩
  exact ⟨[], .plain .eof loc, rfl, rfl, h⟩

/-- What scans like shorter bytes yields the same tokens. -/
theorem of_scan_eq (h : Lexes after P) (hlen : after.length ≤ bs.length)
    (hscan : ∀ loc, ∃ loc', (Cursor.mk bs loc).scan = (Cursor.mk after loc').scan) :
    Lexes bs P := by
  intro loc fuel hfuel
  obtain ⟨loc', heq⟩ := hscan loc
  obtain ⟨fuel, rfl⟩ : ∃ m, fuel = m + 1 := ⟨fuel - 1, by omega⟩
  have hcollect : TokenStream.collect (fuel + 1) ⟨bs, loc⟩ =
      TokenStream.collect (fuel + 1) ⟨after, loc'⟩ := by
    simp only [TokenStream.collect, heq]
  rw [hcollect]
  exact h loc' (fuel + 1) (by omega)

theorem blank (hb : isBlankByte b = true) (h : Lexes bs P) : Lexes (b :: bs) P := by
  have hcr : b ≠ 0x0D := by
    rintro rfl
    simp [isBlankByte] at hb
  have hlf : b ≠ 0x0A := by
    rintro rfl
    simp [isBlankByte] at hb
  refine h.of_scan_eq (by simp) fun loc => ⟨loc.advance 1, ?_⟩
  simp [Cursor.scan, Cursor.skipTrivia, Cursor.skipFrom, hcr, hlf, hb]

theorem newline (h : Lexes bs P) : Lexes (0x0A :: bs) P := by
  refine h.of_scan_eq (by simp) fun loc => ⟨loc.newline, ?_⟩
  simp [Cursor.scan, Cursor.skipTrivia, Cursor.skipFrom]

theorem blanks (n : Nat) (h : Lexes bs P) : Lexes (List.replicate n 0x20 ++ bs) P := by
  induction n with
  | zero => exact h
  | succ n ih => exact ih.blank rfl

/-- A lexeme in front of bytes adds its token. -/
theorem lexeme {Q : Token → Prop} (h : Lexes after P) (hlen : after.length < bs.length)
    (hQ : ∀ t, Q t → t.kind ≠ .eof)
    (hscan : ∀ loc, ∃ t loc', (Cursor.mk bs loc).scan = .ok (t, ⟨after, loc'⟩) ∧ Q t) :
    Lexes bs (Front Q P) := by
  intro loc fuel hfuel
  obtain ⟨t, loc', heq, ht⟩ := hscan loc
  obtain ⟨fuel, rfl⟩ : ∃ m, fuel = m + 1 := ⟨fuel - 1, by omega⟩
  obtain ⟨ts, stop, hcollect, hstop, hts⟩ := h loc' fuel (by omega)
  refine ⟨t :: ts, stop, ?_, hstop, t, ts, rfl, ht, hts⟩
  simp [TokenStream.collect, heq, hQ t ht, hcollect]

theorem symbol {kind : TokenKind} (hb : TokenKind.ofSymbol? b = some kind) (h : Lexes bs P) :
    Lexes (b :: bs) (Front (·.kind = kind) P) := by
  obtain ⟨hstart, -⟩ := startsLexeme_of_symbol hb
  have hne := TokenKind.ofSymbol?_ne hb
  refine h.lexeme (by simp) ?_ fun loc => ⟨.plain kind loc, loc.advance 1, ?_, rfl⟩
  · rintro t rfl heof
    simp [heof] at hne
  · rw [Cursor.scan, Cursor.skipTrivia_of_startsLexeme hstart]
    exact (Cursor.Lexed.symbol hb).lexeme_eq

theorem arrow (h : Lexes bs P) : Lexes (0x3D :: 0x3E :: bs) (Front (·.kind = .implies) P) := by
  have hlen : bs.length < (0x3D :: 0x3E :: bs).length := by
    simp only [List.length_cons]
    omega
  refine h.lexeme hlen (by simp_all) fun loc => ⟨.plain .implies loc, loc.advance 2, ?_, rfl⟩
  rw [Cursor.scan, Cursor.skipTrivia_of_startsLexeme (by decide)]
  exact Cursor.Lexed.arrow.lexeme_eq

theorem takeWhile_word {w : List UInt8} (hw : ∀ c ∈ w, isWordByte c = true)
    (hafter : EndsWord after) : (w ++ after).takeWhile isWordByte = w := by
  rw [List.takeWhile_append_of_pos hw]
  cases after with
  | nil => simp
  | cons c after => simp [hafter c (by simp)]

theorem dropWhile_word {w : List UInt8} (hw : ∀ c ∈ w, isWordByte c = true)
    (hafter : EndsWord after) : (w ++ after).dropWhile isWordByte = after := by
  rw [List.dropWhile_append_of_pos hw]
  cases after with
  | nil => rfl
  | cons c after => simp [hafter c (by simp)]

theorem word_append {w : List UInt8} {loc : Location} (hw : ∀ c ∈ w, isWordByte c = true)
    (hafter : EndsWord after) :
    (Cursor.mk (w ++ after) loc).word = (Text.ofBytes w, ⟨after, loc.advance w.length⟩) := by
  simp only [Cursor.word, takeWhile_word hw hafter, dropWhile_word hw hafter]

/-- A word in front of bytes that end it adds the token that the word is. -/
theorem word {first : UInt8 → Bool} {Q : Token → Prop} (hs : WordOf first s)
    (hfirst : ∀ b, first b = true → isWordByte b = true) (hafter : EndsWord after)
    (hQ : ∀ t, Q t → t.kind ≠ .eof)
    (hlexeme : ∀ b rest loc next, first b = true → (Cursor.mk (b :: rest) loc).word = (s, next) →
      ∃ t, Cursor.Lexed ⟨b :: rest, loc⟩ t next ∧ Q t)
    (h : Lexes after P) : Lexes (Text.bytes s ++ after) (Front Q P) := by
  obtain ⟨b, w, rfl, hbytes, hb, hw⟩ := hs.exists_bytes hfirst
  have hlen : after.length < (b :: w ++ after).length := by
    simp only [List.length_append, List.length_cons]
    omega
  obtain ⟨hstart, -⟩ := startsLexeme_of_word (hfirst b hb)
  rw [hbytes]
  refine h.lexeme hlen hQ fun loc => ?_
  obtain ⟨t, ht, hQt⟩ := hlexeme b (w ++ after) loc _ hb (word_append hw hafter)
  refine ⟨t, loc.advance (b :: w).length, ?_, hQt⟩
  rw [Cursor.scan, List.cons_append, Cursor.skipTrivia_of_startsLexeme hstart, ht.lexeme_eq]

theorem typeVar (hs : IsTypeVar s) (hafter : EndsWord after) (h : Lexes after P) :
    Lexes (Text.bytes s ++ after) (Front (fun t => t.kind = .typeVar ∧ t.value = s) P) := by
  refine h.word hs (fun _ => isWordByte_of_upper) hafter (by simp_all) ?_
  intro b rest loc next hb hword
  exact ⟨⟨.typeVar, s, loc⟩, .upper hb hword, rfl, rfl⟩

theorem name (hs : IsName s) (hafter : EndsWord after) (h : Lexes after P) :
    Lexes (Text.bytes s ++ after) (Front (fun t => t.kind = .identifier ∧ t.value = s) P) := by
  refine h.word hs.1 (fun _ => isWordByte_of_startsName) hafter (by simp_all) ?_
  intro b rest loc next hb hword
  have hlexed := Cursor.Lexed.lower hb hword
  rw [Token.ofWord, hs.2] at hlexed
  exact ⟨_, hlexed, rfl, rfl⟩

theorem keyword {kind : TokenKind} (hs : WordOf startsName s)
    (hkind : TokenKind.ofKeyword? s = some kind) (hafter : EndsWord after) (h : Lexes after P) :
    Lexes (Text.bytes s ++ after) (Front (·.kind = kind) P) := by
  have hne := TokenKind.ofKeyword?_ne hkind
  refine h.word hs (fun _ => isWordByte_of_startsName) hafter ?_ ?_
  · rintro t rfl heof
    simp [heof] at hne
  intro b rest loc next hb hword
  have hlexed := Cursor.Lexed.lower hb hword
  rw [Token.ofWord, hkind] at hlexed
  exact ⟨_, hlexed, rfl⟩

end Lexes

end ProofScript
