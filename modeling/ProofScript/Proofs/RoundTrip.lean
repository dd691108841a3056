import ProofScript.Document.Printer
import ProofScript.Proofs.Reader.Exact
import ProofScript.Proofs.Stateful

/-!
# Formatting and reading again

A document that was read is written in canonical layout, and the layout is the text of the same
document. `Writes phrase s` says that the text `s` scans to tokens of a phrase, whatever text that
cannot lengthen a word follows; the induction goes over the derivation of the document that was read,
which says that every name is spelled as a word.
-/

namespace ProofScript

open Grammar

/-! ## Texts of phrases -/

/-- One phrase and then another. -/
def Seq (p q : List Token → List Token → Prop) (ts rest : List Token) : Prop :=
  ∃ mid, p ts mid ∧ q mid rest

/-- A single token of a class. -/
def Tok (kind : TokenKind) (ts rest : List Token) : Prop := ∃ t, ts = t :: rest ∧ t.kind = kind

/-- The text scans to a phrase in front of whatever follows. -/
def WritesWhole (phrase : List Token → List Token → Prop) (s : String) : Prop :=
  ∀ after P, Lexes after P → Lexes (Text.bytes s ++ after) fun ts => ∃ rest, phrase ts rest ∧ P rest

/-- The text scans to a phrase in front of whatever follows and is no part of a word. -/
def Writes (phrase : List Token → List Token → Prop) (s : String) : Prop :=
  ∀ after P, EndsWord after → Lexes after P →
    Lexes (Text.bytes s ++ after) fun ts => ∃ rest, phrase ts rest ∧ P rest

section Texts

variable {p q : List Token → List Token → Prop} {s t : String} {kind : TokenKind}

theorem endsWord_cons {b : UInt8} {after : List UInt8} (h : isWordByte b = false) :
    EndsWord (b :: after) := by
  intro c hc
  obtain rfl : b = c := by simpa using hc
  exact h

theorem WritesWhole.writes (h : WritesWhole p s) : Writes p s := fun after P _ => h after P

theorem Writes.mono (h : Writes p s) (hpq : ∀ ts rest, p ts rest → q ts rest) : Writes q s := by
  intro after P hafter hP
  refine (h after P hafter hP).mono ?_
  rintro ts ⟨rest, hp, hrest⟩
  exact ⟨rest, hpq ts rest hp, hrest⟩

theorem WritesWhole.mono (h : WritesWhole p s) (hpq : ∀ ts rest, p ts rest → q ts rest) :
    WritesWhole q s := by
  intro after P hP
  refine (h after P hP).mono ?_
  rintro ts ⟨rest, hp, hrest⟩
  exact ⟨rest, hpq ts rest hp, hrest⟩

theorem seq_of_nested {P : List Token → Prop} {ts : List Token}
    (h : ∃ mid, p ts mid ∧ ∃ rest, q mid rest ∧ P rest) : ∃ rest, Seq p q ts rest ∧ P rest := by
  obtain ⟨mid, hp, rest, hq, hrest⟩ := h
  exact ⟨rest, ⟨mid, hp, hq⟩, hrest⟩

theorem WritesWhole.append (h : WritesWhole p s) (h' : Writes q t) : Writes (Seq p q) (s ++ t) := by
  intro after P hafter hP
  rw [Text.bytes_append, List.append_assoc]
  exact (h _ _ (h' after P hafter hP)).mono fun ts => seq_of_nested

theorem WritesWhole.appendWhole (h : WritesWhole p s) (h' : WritesWhole q t) :
    WritesWhole (Seq p q) (s ++ t) := by
  intro after P hP
  rw [Text.bytes_append, List.append_assoc]
  exact (h _ _ (h' after P hP)).mono fun ts => seq_of_nested

/-- The text starts with a byte that is no part of a word. -/
def StartsApart (s : String) : Prop := (Text.bytes s).head?.elim true isWordByte = false

instance (s : String) : Decidable (StartsApart s) :=
  decidable_of_iff ((s.toList.flatMap String.utf8EncodeChar).head?.elim true isWordByte = false) (by
    rw [StartsApart, Text.bytes_of_toList rfl])

theorem StartsApart.endsWord (h : StartsApart s) (after : List UInt8) :
    EndsWord (Text.bytes s ++ after) := by
  intro b hb
  unfold StartsApart at h
  cases hs : Text.bytes s with
  | nil => simp [hs] at h
  | cons c bs =>
    obtain rfl : c = b := by simpa [hs] using hb
    simpa [hs] using h

theorem Writes.appendWhole (h : Writes p s) (ht : StartsApart t) (h' : WritesWhole q t) :
    WritesWhole (Seq p q) (s ++ t) := by
  intro after P hP
  rw [Text.bytes_append, List.append_assoc]
  exact (h _ _ (ht.endsWord after) (h' after P hP)).mono fun ts => seq_of_nested

/-- Blanks before a text do not change what it scans to. -/
theorem WritesWhole.indent (h : WritesWhole p s) (depth : Nat) :
    WritesWhole p (indentation depth ++ s) := by
  intro after P hP
  rw [Text.bytes_append, indentation, Text.bytes_pushn_blank, List.append_assoc]
  exact (h after P hP).blanks _

theorem writesWhole_of_lexes
    (h : ∀ after P, Lexes after P → Lexes (Text.bytes s ++ after) (Front (·.kind = kind) P)) :
    WritesWhole (Tok kind) s := by
  intro after P hP
  refine (h after P hP).mono ?_
  rintro ts ⟨t, rest, rfl, ht, hrest⟩
  exact ⟨rest, ⟨t, rfl, ht⟩, hrest⟩

/-- A symbol between blanks. -/
theorem writes_spaced {b : UInt8} (hs : Text.bytes s = [0x20, b, 0x20])
    (hb : TokenKind.ofSymbol? b = some kind) : WritesWhole (Tok kind) s :=
  writesWhole_of_lexes fun _ _ h => by
    rw [hs]
    exact (((h.blank rfl).symbol hb).blank rfl)

/-- A reserved word with a blank behind it. -/
theorem writes_reserved {b : UInt8} {w : List UInt8} (hs : Text.bytes s = b :: w ++ [0x20])
    (hb : startsName b = true) (hw : w.all isWordByte = true)
    (hkind : TokenKind.ofKeyword? (Text.ofBytes (b :: w)) = some kind) :
    WritesWhole (Tok kind) s := by
  refine writesWhole_of_lexes fun after P h => ?_
  have hw := List.all_eq_true.mp hw
  have hascii : ∀ c ∈ b :: w, c < 0x80 := by
    intro c hc
    rcases List.mem_cons.mp hc with rfl | hc
    · exact ascii_of_word (isWordByte_of_startsName hb)
    · exact ascii_of_word (hw c hc)
  have hlex := (h.blank (b := 0x20) rfl).keyword ⟨b, w, hb, hw, rfl⟩ hkind (endsWord_cons rfl)
  rw [Text.bytes_ofBytes hascii] at hlex
  rw [hs, List.append_assoc]
  exact hlex

/-- A symbol alone. -/
theorem writes_symbol {b : UInt8} (hs : Text.bytes s = [b])
    (hb : TokenKind.ofSymbol? b = some kind) : WritesWhole (Tok kind) s :=
  writesWhole_of_lexes fun _ _ h => by
    rw [hs]
    exact h.symbol hb

theorem writes_arrow : WritesWhole (Tok .implies) " => " :=
  writesWhole_of_lexes fun after P h => by
    have hbytes : Text.bytes " => " = [0x20, 0x3D, 0x3E, 0x20] := Text.bytes_of_toList rfl
    rw [hbytes]
    exact (h.blank rfl).arrow.blank rfl

theorem writes_comma : WritesWhole (Tok .comma) ", " :=
  writesWhole_of_lexes fun after P h => by
    have hbytes : Text.bytes ", " = [0x2C, 0x20] := Text.bytes_of_toList rfl
    rw [hbytes]
    exact (h.blank rfl).symbol rfl

theorem writes_forall : WritesWhole (Tok .forallKeyword) "forall " :=
  writes_reserved (b := 0x66) (w := [0x6F, 0x72, 0x61, 0x6C, 0x6C])
    (Text.bytes_of_toList rfl) (by decide) (by decide) (by decide)

theorem writes_assume : WritesWhole (Tok .assumeKeyword) "assume " :=
  writes_reserved (b := 0x61) (w := [0x73, 0x73, 0x75, 0x6D, 0x65])
    (Text.bytes_of_toList rfl) (by decide) (by decide) (by decide)

theorem writes_have : WritesWhole (Tok .haveKeyword) "have " :=
  writes_reserved (b := 0x68) (w := [0x61, 0x76, 0x65])
    (Text.bytes_of_toList rfl) (by decide) (by decide) (by decide)

theorem writes_by : WritesWhole (Tok .byKeyword) "by " :=
  writes_reserved (b := 0x62) (w := [0x79])
    (Text.bytes_of_toList rfl) (by decide) (by decide) (by decide)

theorem writes_theorem : WritesWhole (Tok .theoremKeyword) "theorem " :=
  writes_reserved (b := 0x74) (w := [0x68, 0x65, 0x6F, 0x72, 0x65, 0x6D])
    (Text.bytes_of_toList rfl) (by decide) (by decide) (by decide)

theorem writes_between : WritesWhole (Tok .byKeyword) " by " :=
  writesWhole_of_lexes fun after P h => by
    have hbytes : Text.bytes " by " = 0x20 :: Text.bytes "by " := by
      rw [Text.bytes_of_toList (s := "by ") rfl]
      exact Text.bytes_of_toList rfl
    rw [hbytes]
    refine ((writes_by after P h).blank rfl).mono ?_
    rintro ts ⟨rest, ⟨t, rfl, ht⟩, hrest⟩
    exact ⟨t, rest, rfl, ht, hrest⟩

theorem writes_opening : WritesWhole (Tok .lbrace) " \x7b\n" :=
  writesWhole_of_lexes fun after P h => by
    have hbytes : Text.bytes " \x7b\n" = [0x20, 0x7B, 0x0A] := Text.bytes_of_toList rfl
    rw [hbytes]
    exact (h.newline.symbol rfl).blank rfl

/-- A blank is the text of nothing. -/
theorem writes_blank : WritesWhole Eq " " := by
  have hbytes : Text.bytes " " = [0x20] := Text.bytes_of_toList rfl
  intro after P hP
  rw [hbytes]
  refine (hP.blank rfl).mono ?_
  intro ts hts
  exact ⟨ts, rfl, hts⟩

/-- A line break behind a text does not change what it scans to. -/
theorem WritesWhole.newline (h : WritesWhole p s) : WritesWhole p (s ++ "\n") := by
  have hbytes : Text.bytes "\n" = [0x0A] := Text.bytes_of_toList rfl
  intro after P hP
  rw [Text.bytes_append, hbytes, List.append_assoc]
  exact h _ _ hP.newline

theorem Writes.newline (h : Writes p s) : WritesWhole p (s ++ "\n") := by
  have hbytes : Text.bytes "\n" = [0x0A] := Text.bytes_of_toList rfl
  intro after P hP
  rw [Text.bytes_append, hbytes, List.append_assoc]
  exact h _ _ (endsWord_cons rfl) hP.newline

/-- Blanks between two texts do not change what they scan to. -/
theorem WritesWhole.appendIndented (h : WritesWhole p s) (depth : Nat) (h' : WritesWhole q t) :
    WritesWhole (Seq p q) (s ++ indentation depth ++ t) := by
  rw [String.append_assoc]
  exact h.appendWhole (h'.indent depth)

end Texts

/-! ## Words and lists of them -/

theorem TypeVar.exists_token {ts rest : List Token} {v : String} (h : TypeVar ts v rest) :
    ∃ t, ts = t :: rest ∧ t.kind = .typeVar ∧ v = t.value := by
  cases h with
  | word t ht => exact ⟨t, rfl, ht, rfl⟩

theorem writes_typeVar {v : String} (h : IsTypeVar v) : Writes (TypeVar · v ·) v := by
  intro after P hafter hP
  refine (hP.typeVar h hafter).mono ?_
  rintro ts ⟨t, rest, rfl, ⟨ht, rfl⟩, hrest⟩
  exact ⟨rest, .word t ht, hrest⟩

/-- A single name. -/
def NameTok (s : String) (ts rest : List Token) : Prop :=
  ∃ t, ts = t :: rest ∧ t.kind = .identifier ∧ t.value = s

theorem writes_name {s : String} (h : IsName s) : Writes (NameTok s) s := by
  intro after P hafter hP
  refine (hP.name h hafter).mono ?_
  rintro ts ⟨t, rest, rfl, ht, hrest⟩
  exact ⟨rest, ⟨t, rfl, ht⟩, hrest⟩

/-- Every token is spelled as its class asks for. -/
def Spelled (ts : List Token) : Prop := ∀ t ∈ ts, t.Spelled

theorem Spelled.of_suffix {ts rest : List Token} (h : Spelled ts) (hrest : rest <:+ ts) :
    Spelled rest :=
  fun t ht => h t (hrest.subset ht)

theorem Spelled.tail {t : Token} {ts : List Token} (h : Spelled (t :: ts)) : Spelled ts :=
  fun u hu => h u (List.mem_cons_of_mem t hu)

theorem Spelled.head {t : Token} {ts : List Token} (h : Spelled (t :: ts)) : t.Spelled :=
  h t (by simp)

theorem Spelled.after {ts rest : List Token} (h : Spelled ts) (htakes : Takes ts rest) :
    Spelled rest :=
  h.of_suffix htakes.suffix

/-- Where the items of a list can be written, so can the list. -/
theorem writes_separated {α : Type} (item : Category α) (text : α → String)
    (htakes : ∀ ts a rest, item ts a rest → Takes ts rest)
    (hitem : ∀ ts a rest, item ts a rest → Spelled ts → Writes (item · a ·) (text a))
    {ts rest : List Token} {as : List α} (h : Separated item ts as rest) (hts : Spelled ts) :
    Writes (Separated item · as ·) (", ".intercalate (as.map text)) := by
  induction h with
  | @one ts rest a ha =>
    rw [List.map_singleton, String.intercalate_singleton]
    exact (hitem _ _ _ ha hts).mono fun _ _ => .one
  | @more ts ts' rest comma a as ha hcomma has ih =>
    have hrest := ih (hts.after (htakes _ _ _ ha)).tail
    have hne : as.map text ≠ [] := by cases has <;> simp
    rw [List.map_cons, String.intercalate_cons_of_ne_nil hne]
    refine (((hitem _ _ _ ha hts).appendWhole (by decide) writes_comma).append hrest).mono ?_
    rintro ts rest ⟨_, ⟨_, ha, t, rfl, ht⟩, has⟩
    exact .more ha ht has

theorem writes_typeVars {ts rest : List Token} {vars : List String}
    (h : Separated TypeVar ts vars rest) (hts : Spelled ts) :
    Writes (Separated TypeVar · vars ·) (", ".intercalate vars) := by
  have hwrites := writes_separated TypeVar id (fun _ _ _ => TypeVar.takes) ?_ h hts
  · rwa [List.map_id] at hwrites
  · rintro ts v rest ⟨t, ht⟩ hts
    exact writes_typeVar (hts.head.typeVar ht)

/-! ## Propositions -/

/-- The level whose propositions bind at least as tightly as a precedence says. -/
def levelAt : Nat → Level
  | 0 => .quantified
  | 1 => .implication
  | 2 => .disjunction
  | 3 => .conjunction
  | 4 => .negation
  | _ => .atom

theorem Proposition.loosen {systemF : Bool} {ts rest : List Token} {f : Formula} {k j : Nat}
    (h : Proposition systemF (levelAt k) ts f rest) (hj : j ≤ k) :
    Proposition systemF (levelAt j) ts f rest := by
  induction hj with
  | refl => exact h
  | @step k hj ih =>
    apply ih
    match k with
    | 0 => exact .ofImplication h
    | 1 => exact .ofDisjunction h
    | 2 => exact .ofConjunction h
    | 3 => exact .ofNegation h
    | 4 => exact .ofAtom h
    | k + 5 => exact h

/-- The number of opening parentheses. -/
def opened (ts : List Token) : Nat := ts.countP (·.kind = .lparen)

theorem opened_cons {t : Token} (h : t.kind ≠ .lparen) (ts : List Token) :
    opened (t :: ts) = opened ts :=
  List.countP_cons_of_neg (by simpa using h)

theorem opened_typeVars {ts rest : List Token} {vars : List String}
    (h : Separated TypeVar ts vars rest) : opened ts = opened rest := by
  have hvar : ∀ {ts rest v}, TypeVar ts v rest → opened ts = opened rest := by
    rintro ts rest v ⟨t, ht⟩
    exact opened_cons (by simp [ht]) _
  induction h with
  | one h => exact hvar h
  | more h hcomma _ ih => rw [hvar h, opened_cons (by simp [hcomma]), ih]

namespace Formula

/-- The pair of parentheses around the written form, where it is put in parentheses. -/
def wraps (least : Nat) (f : Formula) : Nat := if f.precedence < least then 1 else 0

/-- The pairs of parentheses inside the written form. -/
def inside : Formula → Nat
  | hole => 0
  | atom .. => 0
  | neg a _ => a.wraps 4 + a.inside
  | conj a b _ => a.wraps 3 + a.inside + (b.wraps 4 + b.inside)
  | disj a b _ => a.wraps 2 + a.inside + (b.wraps 3 + b.inside)
  | impl a b _ => a.wraps 2 + a.inside + (b.wraps 1 + b.inside)
  | all _ a _ => a.wraps 1 + a.inside

/-- The pairs of parentheses in the written form where nothing looser than `least` may stand bare. -/
def parens (least : Nat) (f : Formula) : Nat := f.wraps least + f.inside

theorem parens_of_le {least : Nat} {f : Formula} (h : least ≤ f.precedence) :
    f.parens least = f.inside := by
  rw [parens, wraps, if_neg (by omega), Nat.zero_add]

theorem parens_of_lt {least : Nat} {f : Formula} (h : f.precedence < least) :
    f.parens least = f.inside + 1 := by
  rw [parens, wraps, if_pos h, Nat.add_comm]

end Formula

/-- A phrase with as many opening parentheses as the written form of its tree. -/
def WrittenAt (systemF : Bool) (k : Nat) (f : Formula) (ts rest : List Token) : Prop :=
  Proposition systemF (levelAt k) ts f rest ∧ opened ts = f.parens k + opened rest

/-- A phrase with as many opening parentheses as stand inside the written form of its tree. -/
def WrittenBare (systemF : Bool) (f : Formula) (ts rest : List Token) : Prop :=
  Proposition systemF (levelAt f.precedence) ts f rest ∧ opened ts = f.inside + opened rest

/-- What is written bare may be written at any precedence, with parentheses where it asks for them. -/
theorem writes_parenthesize {systemF : Bool} {f : Formula} {p : Nat} {s : String}
    (hp : f.precedence = p) (h : Writes (WrittenBare systemF f) s) (k : Nat) :
    Writes (WrittenAt systemF k f) (Formula.parenthesize (p < k) s) := by
  subst hp
  unfold Formula.parenthesize
  split
  · rename_i hlt
    have hclose : WritesWhole (Tok .rparen) ")" := writes_symbol (Text.bytes_of_toList rfl) rfl
    have hopen : WritesWhole (Tok .lparen) "(" := writes_symbol (Text.bytes_of_toList rfl) rfl
    have hwrites := (hopen.append h).appendWhole (by decide) hclose
    refine hwrites.writes.mono ?_
    rintro ts rest ⟨_, ⟨mid, ⟨t, rfl, ht⟩, hf, hopened⟩, u, rfl, hu⟩
    have hatom : Proposition systemF (levelAt (k + 5)) (t :: _) f rest :=
      .parentheses ht (Proposition.loosen hf (Nat.zero_le _)) hu
    refine ⟨Proposition.loosen hatom (by omega), ?_⟩
    have hfirst : opened (t :: mid) = opened mid + 1 := List.countP_cons_of_pos (by simpa using ht)
    rw [hfirst, hopened, opened_cons (by simp [hu]), Formula.parens_of_lt (by simpa using hlt)]
    omega
  · rename_i hle
    have hle : k ≤ f.precedence := by simpa using hle
    refine h.mono fun ts rest ⟨hf, hopened⟩ => ⟨Proposition.loosen hf hle, ?_⟩
    rw [hopened, Formula.parens_of_le hle]

/-- Two propositions with a connective between them, of which none is put in parentheses. -/
theorem writes_connective {systemF : Bool} {kind : TokenKind} {text : String} {a b f : Formula}
    {k j : Nat} (ha : Writes (WrittenAt systemF k a) (a.render k))
    (hb : Writes (WrittenAt systemF j b) (b.render j)) (hstart : StartsApart text)
    (htext : WritesWhole (Tok kind) text) (hkind : kind ≠ .lparen)
    (hjoin : ∀ {ts ts' rest : List Token} {t : Token}, Proposition systemF (levelAt k) ts a (t :: ts') →
      t.kind = kind → Proposition systemF (levelAt j) ts' b rest →
        Proposition systemF (levelAt f.precedence) ts f rest)
    (hinside : f.inside = a.parens k + b.parens j) :
    Writes (WrittenBare systemF f) (a.render k ++ text ++ b.render j) := by
  refine ((ha.appendWhole hstart htext).append hb).mono ?_
  rintro ts rest ⟨_, ⟨_, ⟨ha, hopeneda⟩, t, rfl, ht⟩, hb, hopenedb⟩
  refine ⟨hjoin ha ht hb, ?_⟩
  rw [hopeneda, opened_cons (by rwa [ht]), hopenedb, hinside, Nat.add_assoc]

theorem writes_formula {systemF : Bool} {level : Level} {ts rest : List Token} {f : Formula}
    (h : Proposition systemF level ts f rest) (hts : Spelled ts) (k : Nat) :
    Writes (WrittenAt systemF k f) (f.render k) := by
  induction h generalizing k with
  | @quantifier ts ts' rest q dot vars f loc hsf hq hvars hdot hf ih =>
    have hbody := ih (hts.tail.after (typeVars_takes hvars)).tail 1
    have hdot : WritesWhole (Tok .dot) " . " := writes_spaced (Text.bytes_of_toList rfl) rfl
    have hvars := writes_forall.append (writes_typeVars hvars hts.tail)
    refine writes_parenthesize (p := 0) rfl ?_ k
    refine ((hvars.appendWhole (by decide) hdot).append hbody).mono ?_
    rintro ts rest ⟨_, ⟨_, ⟨_, ⟨t, rfl, ht⟩, hvars⟩, u, rfl, hu⟩, hf, hopened⟩
    refine ⟨.quantifier hsf ht hvars hu hf, ?_⟩
    rw [opened_cons (by simp [ht]), opened_typeVars hvars, opened_cons (by simp [hu]), hopened]
    rfl
  | ofImplication _ ih => exact ih hts k
  | @arrow ts ts' rest op a b loc ha hop hb iha ihb =>
    have hb := ihb (hts.after (Proposition.takes ha)).tail 1
    refine writes_parenthesize (p := 1) rfl ?_ k
    exact writes_connective (iha hts 2) hb (by decide) writes_arrow (by decide) .arrow rfl
  | ofDisjunction _ ih => exact ih hts k
  | @bar ts ts' rest op a b loc ha hop hb iha ihb =>
    have hb := ihb (hts.after (Proposition.takes ha)).tail 3
    have hor : WritesWhole (Tok .or) " | " := writes_spaced (Text.bytes_of_toList rfl) rfl
    refine writes_parenthesize (p := 2) rfl ?_ k
    exact writes_connective (iha hts 2) hb (by decide) hor (by decide) .bar rfl
  | ofConjunction _ ih => exact ih hts k
  | @ampersand ts ts' rest op a b loc ha hop hb iha ihb =>
    have hb := ihb (hts.after (Proposition.takes ha)).tail 4
    have hand : WritesWhole (Tok .and) " & " := writes_spaced (Text.bytes_of_toList rfl) rfl
    refine writes_parenthesize (p := 3) rfl ?_ k
    exact writes_connective (iha hts 3) hb (by decide) hand (by decide) .ampersand rfl
  | ofNegation _ ih => exact ih hts k
  | @tilde ts rest op f loc hop h ih =>
    have hnot : WritesWhole (Tok .not) "~" := writes_symbol (Text.bytes_of_toList rfl) rfl
    refine writes_parenthesize (p := 4) rfl ?_ k
    refine (hnot.append (ih hts.tail 4)).mono ?_
    rintro ts rest ⟨_, ⟨t, rfl, ht⟩, hf, hopened⟩
    refine ⟨.tilde ht hf, ?_⟩
    rw [opened_cons (by simp [ht]), hopened]
    rfl
  | ofAtom _ ih => exact ih hts k
  | @var rest t loc ht =>
    refine writes_parenthesize (p := 5) rfl ?_ k
    refine (writes_typeVar (hts.head.typeVar ht)).mono ?_
    intro ts rest hvar
    obtain ⟨u, rfl, hu, hvalue⟩ := TypeVar.exists_token hvar
    rw [hvalue]
    refine ⟨.var hu, ?_⟩
    rw [opened_cons (by simp [hu])]
    exact (Nat.zero_add _).symm
  | @predicate ts rest t opening closing args loc hsf ht hopen hargs hclose =>
    have hopening : WritesWhole (Tok .lbracket) "[" :=
      writes_symbol (Text.bytes_of_toList rfl) rfl
    have hclosing : WritesWhole (Tok .rbracket) "]" :=
      writes_symbol (Text.bytes_of_toList rfl) rfl
    have hname := writes_typeVar (hts.head.typeVar ht)
    have hwrites := ((hname.appendWhole (by decide) hopening).append
      (writes_typeVars hargs hts.tail.tail)).appendWhole (by decide) hclosing
    have hne : args.isEmpty = false := by cases hargs <;> rfl
    refine writes_parenthesize (p := 5) rfl ?_ k
    simp only [hne, Bool.false_eq_true, if_false]
    refine hwrites.writes.mono ?_
    rintro ts rest ⟨_, ⟨_, ⟨_, hvar, v, rfl, hv⟩, hargs⟩, w, rfl, hw⟩
    obtain ⟨u, rfl, hu, hvalue⟩ := TypeVar.exists_token hvar
    rw [hvalue]
    refine ⟨.predicate hsf hu hv hargs hw, ?_⟩
    rw [opened_cons (by simp [hu]), opened_cons (by simp [hv]), opened_typeVars hargs,
      opened_cons (by simp [hw])]
    exact (Nat.zero_add _).symm
  | parentheses _ _ _ ih => exact ih hts.tail k

/-! ## Claims and arguments -/

theorem Proposition.isHole_eq {systemF : Bool} {level : Level} {ts rest : List Token} {f : Formula}
    (h : Proposition systemF level ts f rest) : f.isHole = false := by
  induction h <;> first | rfl | assumption

/-- The text of a label, with the blanks around its colon. -/
theorem writes_label {ts rest : List Token} {name : Option String} (h : Label ts name rest)
    (hts : Spelled ts) : WritesWhole (Label · name ·) (name.elim "" (· ++ " : ")) := by
  cases h with
  | absent =>
    intro after P hP
    rw [Option.elim_none, Text.bytes_empty, List.nil_append]
    refine hP.mono ?_
    intro ts hts
    exact ⟨ts, .absent, hts⟩
  | @name _ t colon ht hcolon =>
    have hcolon : WritesWhole (Tok .colon) " : " := writes_spaced (Text.bytes_of_toList rfl) rfl
    refine ((writes_name (hts.head.name ht)).appendWhole (by decide) hcolon).mono ?_
    rintro ts rest ⟨_, ⟨u, rfl, hu, hvalue⟩, v, rfl, hv⟩
    rw [← hvalue]
    exact .name hu hv

theorem writes_named {systemF : Bool} {ts rest : List Token} {c : Claim}
    (h : Named systemF ts c rest) (hts : Spelled ts) :
    Writes (Named systemF · c ·) c.text := by
  cases h with
  | @claim _ mid _ name f loc hname hf =>
    have hwrites := writes_formula hf (hts.of_suffix hname.suffix) 0
    simp only [Claim.text, Proposition.isHole_eq hf, Bool.false_eq_true, if_false]
    refine ((writes_label hname hts).append hwrites).mono ?_
    rintro ts rest ⟨_, hname, hf⟩
    exact .claim hname hf.1

theorem isName_underscore : IsName "_" :=
  ⟨⟨0x5F, [], by decide, by simp, by decide⟩, rfl⟩

theorem writes_claimed {systemF : Bool} {ts rest : List Token} {c : Claim}
    (h : Claimed systemF ts c rest) (hts : Spelled ts) :
    Writes (Claimed systemF · c ·) c.text := by
  cases h with
  | stated h => exact (writes_named h hts).mono fun _ _ => .stated
  | @hole _ _ name t loc hname ht hvalue =>
    simp only [Claim.text, Formula.isHole, if_true]
    refine ((writes_label hname hts).append (writes_name isName_underscore)).mono ?_
    rintro ts rest ⟨_, hname, u, rfl, hu, hvalue⟩
    exact .hole hname hu hvalue

theorem writes_operand {systemF : Bool} {ts rest : List Token} {a : Argument}
    (h : Operand systemF ts a rest) (hts : Spelled ts) :
    Writes (Operand systemF · a ·) a.text := by
  cases h with
  | @fact _ t loc ht =>
    refine (writes_name (hts.head.name ht)).mono ?_
    rintro ts rest ⟨u, rfl, hu, hvalue⟩
    rw [← hvalue]
    exact .fact hu
  | @proposition _ _ f hf => exact (writes_formula hf hts 0).mono fun _ _ h => .proposition h.1

/-! ## Proofs -/

theorem not_opensBlock_of_dot {ts rest : List Token} {vars : List String} {dot : Token}
    (h : Separated TypeVar ts vars (dot :: rest)) (hdot : dot.kind = .dot) : ¬ OpensBlock ts := by
  generalize hmid : dot :: rest = mid at h
  induction h with
  | @one ts _ v hv =>
    obtain ⟨t, rfl, ht, -⟩ := TypeVar.exists_token hv
    subst hmid
    rw [opensBlock_iff]
    simp [ahead, hdot]
  | @more ts ts' _ comma v vs hv hcomma _ ih =>
    obtain ⟨t, rfl, ht, -⟩ := TypeVar.exists_token hv
    rw [opensBlock_iff]
    simpa [ahead, ht, hcomma] using ih hmid

/-- What is an argument can start one. -/
theorem startsArgument_of_operand {systemF : Bool} {ts rest : List Token} {a : Argument}
    (h : Operand systemF ts a rest) : StartsArgument systemF ts := by
  cases h with
  | fact ht => exact .inl (by simp [ahead, ht])
  | proposition h =>
    cases h with
    | quantifier hsf hq hvars hdot => exact .inr ⟨hsf, hq, not_opensBlock_of_dot hvars hdot⟩
    | ofImplication h =>
      have hstart := Parser.Proposition.ahead_mem h
      refine .inl ?_
      revert hstart
      generalize ahead ts = kind
      cases kind <;> simp [Parser.starts]

theorem startsArgument_of_operands {systemF : Bool} {ts rest : List Token} {as : List Argument}
    (h : Separated (Operand systemF) ts as rest) : StartsArgument systemF ts := by
  cases h with
  | one h => exact startsArgument_of_operand h
  | more h => exact startsArgument_of_operand h

/-- The line of a rule with its arguments, from the rule to the semicolon. -/
theorem writes_application {systemF : Bool} {ts rest : List Token} {j : Justification}
    (h : Application systemF ts j rest) (hts : Spelled ts) (depth : Nat) :
    WritesWhole (Seq (JustificationText systemF · j ·) Semicolon) (j.text depth ++ j.lineEnd) := by
  have hsemi : WritesWhole (Tok .semi) ";\n" :=
    (writes_symbol (s := ";") (Text.bytes_of_toList rfl) rfl).newline
  cases h with
  | @bare _ t loc ht hstarts =>
    refine ((writes_name (hts.head.name ht)).appendWhole (by decide) hsemi).mono ?_
    rintro ts rest ⟨_, ⟨u, rfl, hu, hvalue⟩, v, rfl, hv⟩
    rw [← hvalue]
    exact ⟨_, .application (.bare hu (by simp [StartsArgument, ahead, hv])), .present hv⟩
  | @applied ts _ t args loc ht hstarts hargs =>
    have hne : args.isEmpty = false := by cases hargs <;> rfl
    have hname := writes_name (hts.head.name ht)
    have hargs := writes_separated (Operand systemF) Argument.text
      (fun _ _ _ => Operand.takes) (fun _ _ _ => writes_operand) hargs hts.tail
    have happlied := (hname.appendWhole (by decide) writes_blank).append hargs
    have hwrites := happlied.appendWhole (by decide) hsemi
    simp only [Justification.text, hne, Bool.false_eq_true, if_false]
    refine hwrites.mono ?_
    rintro ts rest ⟨_, ⟨_, ⟨_, ⟨u, rfl, hu, hvalue⟩, rfl⟩, hargs⟩, v, rfl, hv⟩
    rw [← hvalue]
    exact ⟨_, .application (.applied hu (startsArgument_of_operands hargs) hargs), .present hv⟩

mutual

theorem writes_proof {systemF : Bool} {ts rest : List Token} {p : Proof} (hts : Spelled ts)
    (depth : Nat) : ProofText systemF ts p rest →
      WritesWhole (ProofText systemF · p ·) (p.text depth)
  | .steps h => by
    rw [Proof.text]
    exact (writes_steps hts depth h).mono fun _ _ => .steps

theorem writes_steps {systemF : Bool} {ts rest : List Token} {s : Steps} (hts : Spelled ts)
    (depth : Nat) : StepsText systemF ts s rest →
      WritesWhole (StepsText systemF · s ·) (s.text depth)
  | .last h _ => by
    rw [Steps.text]
    refine (writes_statement hts depth h).mono ?_
    rintro ts rest ⟨mid, hs, hsemi⟩
    exact .last hs hsemi
  | .conclude hby h _ => by
    rw [Steps.text, String.append_assoc]
    refine ((writes_by.indent depth).appendWhole (writes_justification hts.tail depth h)).mono ?_
    rintro ts rest ⟨_, ⟨t, rfl, ht⟩, mid, hj, hsemi⟩
    exact .conclude ht hj hsemi
  | .more h hsemi hmore => by
    have hrest := hts.after (h.takes.to_suffix hsemi.suffix)
    rw [Steps.text]
    refine ((writes_statement hts depth h).appendWhole (writes_steps hrest depth hmore)).mono ?_
    rintro ts rest ⟨mid, ⟨mid', hs, hsemi⟩, hmore⟩
    exact .more hs hsemi hmore

/-- The lines of a statement, with the semicolon where there is one. -/
theorem writes_statement {systemF : Bool} {ts rest : List Token} {s : Statement}
    (hts : Spelled ts) (depth : Nat) : StatementText systemF ts s rest →
      WritesWhole (Seq (StatementText systemF · s ·) Semicolon) (s.text depth)
  | .step hhave hclaim hby h => by
    have hj := writes_justification (hts.tail.after hclaim.takes).tail depth h
    have hclaim := writes_claimed hclaim hts.tail
    rw [Statement.text, String.append_assoc]
    refine ((((writes_have.indent depth).append hclaim).appendWhole (by decide)
      writes_between).appendWhole hj).mono ?_
    rintro ts rest ⟨_, ⟨_, ⟨_, ⟨t, rfl, ht⟩, hclaim⟩, u, rfl, hu⟩, mid, hj, hsemi⟩
    exact ⟨mid, .step ht hclaim hu hj, hsemi⟩
  | .block h => by
    rw [Statement.text]
    refine ((writes_block hts depth h).indent depth).newline.mono ?_
    intro ts rest hb
    exact ⟨rest, .block hb, .absent⟩

/-- A justification to the end of its line. -/
theorem writes_justification {systemF : Bool} {ts rest : List Token} {j : Justification}
    (hts : Spelled ts) (depth : Nat) : JustificationText systemF ts j rest →
      WritesWhole (Seq (JustificationText systemF · j ·) Semicolon) (j.text depth ++ j.lineEnd)
  | .application h => writes_application h hts depth
  | .block h => by
    rw [Justification.text]
    refine (writes_block hts depth h).newline.mono ?_
    intro ts rest hb
    exact ⟨rest, .block hb, .absent⟩

theorem writes_block {systemF : Bool} {ts rest : List Token} {b : Block} (hts : Spelled ts)
    (depth : Nat) : BlockText systemF ts b rest →
      WritesWhole (BlockText systemF · b ·) (b.text depth)
  | .assume hassume hhyps hopen h hclose => by
    have hclosing : WritesWhole (Tok .rbrace) "\x7d" :=
      writes_symbol (Text.bytes_of_toList rfl) rfl
    have hproof := writes_proof (hts.tail.after (hhyps.takes fun _ _ _ => Named.takes)).tail
      (depth + 1) h
    have hhyps := writes_separated (Named systemF) Claim.text
      (fun _ _ _ => Named.takes) (fun _ _ _ => writes_named) hhyps hts.tail
    rw [Block.text]
    refine ((((writes_assume.append hhyps).appendWhole (by decide) writes_opening).appendWhole
      hproof).appendIndented depth hclosing).mono ?_
    rintro ts rest ⟨_, ⟨_, ⟨_, ⟨_, ⟨t, rfl, ht⟩, hhyps⟩, u, rfl, hu⟩, hp⟩, v, rfl, hv⟩
    exact .assume ht hhyps hu hp hv
  | .generalize hsf hforall hvars hopen h hclose => by
    have hclosing : WritesWhole (Tok .rbrace) "\x7d" :=
      writes_symbol (Text.bytes_of_toList rfl) rfl
    have hproof := writes_proof (hts.tail.after (typeVars_takes hvars)).tail (depth + 1) h
    have hvars := writes_typeVars hvars hts.tail
    rw [Block.text]
    refine ((((writes_forall.append hvars).appendWhole (by decide) writes_opening).appendWhole
      hproof).appendIndented depth hclosing).mono ?_
    rintro ts rest ⟨_, ⟨_, ⟨_, ⟨_, ⟨t, rfl, ht⟩, hvars⟩, u, rfl, hu⟩, hp⟩, v, rfl, hv⟩
    exact .generalize hsf ht hvars hu hp hv

end

/-! ## Documents -/

theorem writes_theoremText {systemF : Bool} {ts rest : List Token} {thm : Theorem}
    (h : TheoremText systemF ts thm rest) (hts : Spelled ts) :
    WritesWhole (TheoremText systemF · thm ·) thm.text := by
  cases h with
  | @proved ts ts' _ keyword c p loc hkeyword hclaim hproof =>
    have hp := writes_proof (hts.tail.after hclaim.takes) 0 hproof
    have hc := writes_named hclaim hts.tail
    refine ((writes_theorem.append hc).newline.appendWhole hp).mono ?_
    rintro ts rest ⟨_, ⟨_, ⟨t, rfl, ht⟩, hclaim⟩, hproof⟩
    exact .proved ht hclaim hproof

theorem writes_theorems {systemF : Bool} {ts rest : List Token} {thms : List Theorem}
    (h : TheoremsText systemF ts thms rest) (hts : Spelled ts) :
    WritesWhole (TheoremsText systemF · thms ·) ("\n".intercalate (thms.map Theorem.text)) := by
  induction h with
  | @one ts rest thm h =>
    rw [List.map_singleton, String.intercalate_singleton]
    exact (writes_theoremText h hts).mono fun _ _ => .one
  | @more ts ts' rest thm thms h hmore ih =>
    have hrest := ih (hts.after h.takes)
    have hne : thms.map Theorem.text ≠ [] := by cases hmore <;> simp
    rw [List.map_cons, String.intercalate_cons_of_ne_nil hne]
    refine ((writes_theoremText h hts).newline.appendWhole hrest).mono ?_
    rintro ts rest ⟨_, hthm, hmore⟩
    exact .more hthm hmore

/-- The layout of a document that was read is the text of this document. -/
theorem documentText_of_text {src : List UInt8} {systemF : Bool} {d : Document}
    (h : parse src systemF = .ok d) :
    ∃ ts, tokenize (Text.bytes d.text) = .ok ts ∧ DocumentText systemF ts d := by
  obtain ⟨s, hdoc⟩ := parse_eq_ok.mp h
  have hspelled : Spelled (TokenStream.ofSource src).tokens :=
    fun t ht => (TokenStream.collect_spelled ht).1
  obtain ⟨htext, -⟩ := Parser.document_sound (TokenStream.collect_closed _ _)
    (fun t ht => (TokenStream.collect_spelled ht).2) hdoc
  have hlexes := writes_theorems htext hspelled [] (· = []) (.nil rfl)
  rw [List.append_nil] at hlexes
  obtain ⟨ts, stop, hcollect, hstop, _, hthms, rfl⟩ := hlexes .start _ (Nat.lt_succ_self _)
  refine ⟨ts ++ [stop], tokenize_eq_ok.mpr ⟨stop, ?_, ?_⟩, .theorems hthms hstop⟩
  · exact congrArg TokenStream.stop hcollect
  · exact congrArg (·.tokens ++ [stop]) hcollect

/-! ## The layout says nothing about places -/

@[simp] theorem Formula.isHole_erase (f : Formula) : f.erase.isHole = f.isHole := by
  cases f <;> rfl

@[simp] theorem Formula.render_erase (f : Formula) (k : Nat) : f.erase.render k = f.render k := by
  induction f generalizing k with
  | hole => rfl
  | atom => rfl
  | neg a _ ih => simp [Formula.erase, Formula.render, ih]
  | conj a b _ iha ihb => simp [Formula.erase, Formula.render, iha, ihb]
  | disj a b _ iha ihb => simp [Formula.erase, Formula.render, iha, ihb]
  | impl a b _ iha ihb => simp [Formula.erase, Formula.render, iha, ihb]
  | all vars a _ ih => simp [Formula.erase, Formula.render, ih]

@[simp] theorem Claim.text_erase (c : Claim) : c.erase.text = c.text := by
  simp [Claim.text, Claim.erase, Formula.text]

@[simp] theorem Argument.text_erase (a : Argument) : a.erase.text = a.text := by
  cases a <;> simp [Argument.text, Argument.erase, Formula.text]

@[simp] theorem Justification.lineEnd_erase (j : Justification) : j.erase.lineEnd = j.lineEnd := by
  cases j <;> rfl

mutual

theorem Proof.text_erase (depth : Nat) : (p : Proof) → p.erase.text depth = p.text depth
  | .mk s _ => by simp [Proof.erase, Proof.text, Steps.text_erase depth s]

theorem Steps.text_erase (depth : Nat) : (s : Steps) → s.erase.text depth = s.text depth
  | .last s => by simp [Steps.erase, Steps.text, Statement.text_erase depth s]
  | .conclude j _ => by simp [Steps.erase, Steps.text, Justification.text_erase depth j]
  | .more s rest => by
    simp [Steps.erase, Steps.text, Statement.text_erase depth s, Steps.text_erase depth rest]

theorem Statement.text_erase (depth : Nat) : (s : Statement) → s.erase.text depth = s.text depth
  | .missing => rfl
  | .step c j _ => by simp [Statement.erase, Statement.text, Justification.text_erase depth j]
  | .block b => by simp [Statement.erase, Statement.text, Block.text_erase depth b]

theorem Justification.text_erase (depth : Nat) :
    (j : Justification) → j.erase.text depth = j.text depth
  | .missing => rfl
  | .apply rule args _ => by
    simp [Justification.erase, Justification.text, Function.comp_def]
  | .block b => by simp [Justification.erase, Justification.text, Block.text_erase depth b]

theorem Block.text_erase (depth : Nat) : (b : Block) → b.erase.text depth = b.text depth
  | .assume hyps p _ => by
    simp [Block.erase, Block.text, Proof.text_erase (depth + 1) p, Function.comp_def]
  | .generalize vars p _ => by
    simp [Block.erase, Block.text, Proof.text_erase (depth + 1) p]

end

theorem Theorem.text_erase (t : Theorem) : t.erase.text = t.text := by
  simp [Theorem.text, Theorem.erase, Proof.text_erase]

theorem Document.text_erase (d : Document) : d.erase.text = d.text := by
  simp [Document.text, Document.erase, Theorem.text_erase, Function.comp_def]

/-! ## A document that was read lacks no statement -/

mutual

theorem ProofText.isComplete {systemF : Bool} {ts rest : List Token} {p : Proof} :
    ProofText systemF ts p rest → p.isComplete = true
  | .steps h => by
    rw [Proof.isComplete]
    exact StepsText.isComplete h

theorem StepsText.isComplete {systemF : Bool} {ts rest : List Token} {s : Steps} :
    StepsText systemF ts s rest → s.isComplete = true
  | .last h _ => by
    rw [Steps.isComplete]
    exact StatementText.isComplete h
  | .conclude _ h _ => by
    rw [Steps.isComplete]
    exact JustificationText.isComplete h
  | .more h _ hmore => by
    rw [Steps.isComplete, StatementText.isComplete h, StepsText.isComplete hmore]
    rfl

theorem StatementText.isComplete {systemF : Bool} {ts rest : List Token} {s : Statement} :
    StatementText systemF ts s rest → s.isComplete = true
  | .step _ _ _ h => by
    rw [Statement.isComplete]
    exact JustificationText.isComplete h
  | .block h => by
    rw [Statement.isComplete]
    exact BlockText.isComplete h

theorem JustificationText.isComplete {systemF : Bool} {ts rest : List Token} {j : Justification} :
    JustificationText systemF ts j rest → j.isComplete = true
  | .application h => by
    cases h <;> simp [Justification.isComplete]
  | .block h => by
    rw [Justification.isComplete]
    exact BlockText.isComplete h

theorem BlockText.isComplete {systemF : Bool} {ts rest : List Token} {b : Block} :
    BlockText systemF ts b rest → b.isComplete = true
  | .assume _ _ _ h _ => by
    rw [Block.isComplete]
    exact ProofText.isComplete h
  | .generalize _ _ _ _ h _ => by
    rw [Block.isComplete]
    exact ProofText.isComplete h

end

theorem TheoremsText.isComplete {systemF : Bool} {ts rest : List Token} {thms : List Theorem}
    (h : TheoremsText systemF ts thms rest) : thms.all (·.proof.isComplete) = true := by
  induction h with
  | one h =>
    cases h with
    | proved _ _ hproof => simp [ProofText.isComplete hproof]
  | more h _ ih =>
    cases h with
    | proved _ _ hproof => simp [ProofText.isComplete hproof, ih]

theorem format?_eq_of_documentText {systemF : Bool} {ts : List Token} {d : Document}
    (h : DocumentText systemF ts d) : d.format? = some d.text := by
  cases h with
  | theorems htext => rw [Document.format?, TheoremsText.isComplete htext, if_pos rfl]

/-- A document that was read has a canonical layout, which is read as the same document up to places
and is its own layout. -/
theorem parse_format {src : List UInt8} {systemF : Bool} {d : Document}
    (h : parse src systemF = .ok d) :
    ∃ s d', d.format? = some s ∧ parse (Text.bytes s) systemF = .ok d' ∧ d'.erase = d.erase ∧
      d'.format? = some s := by
  obtain ⟨ts, hts, htext⟩ := documentText_of_text h
  obtain ⟨d', hd', herase⟩ := parse_of_documentText hts htext
  obtain ⟨ts', -, htext'⟩ := documentText_of_parse hd'
  refine ⟨d.text, d', format?_eq_of_documentText htext, hd', herase, ?_⟩
  rw [format?_eq_of_documentText htext', ← d'.text_erase, herase, d.text_erase]

/-- The law at a script with a hole, a name spelled as one, a rule without arguments in front of a
block and a quantifier in operand position. -/
theorem parse_format_nested :
    ∃ d, parse (Text.bytes "theorem P & (Q & R) => (forall X . X => ~~P[Q])
      have _ : _ by f forall X \x7b have _ by g (forall Y . Y), _ by h P | Q | R \x7d") true = .ok d ∧
    ∃ s d', d.format? = some s ∧ parse (Text.bytes s) true = .ok d' ∧ d'.erase = d.erase ∧
      d'.format? = some s := by
  generalize hsrc : Text.bytes _ = src
  have hok : (parse src true).toOption.any (fun _ => true) = true := by
    rw [← hsrc]
    decide +kernel
  obtain ⟨d, h, -⟩ := exists_ok_of_any hok
  exact ⟨d, h, parse_format h⟩

end ProofScript
