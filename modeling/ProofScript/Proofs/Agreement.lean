import ProofScript.Proofs.Checking.Weakening

/-!
# The generator and the checker agree

The checker knows every form that is generated. Whatever it objects to in a generated program is the
fault of the script: a value that is not known, a call or a type that does not fit. And every
objection leads back to a place of the script.
-/

namespace ProofScript

open Program

namespace Checker

/-- The rules of the library and the theorems of a document have different names. -/
theorem nodup_declared {used : List String} {decls : List Stmt} (hdecls : (constants decls).Nodup)
    (hrules : ∀ name ∈ constants decls, Library.findRule? name = none) :
    (((Library.selectRules used).map Primitive.name).reverse ++ constants decls).Nodup := by
  have hfind : ∀ p ∈ Library.rules, Library.findRule? p.name ≠ none := by
    have hsome : ∀ p ∈ Library.rules, (Library.findRule? p.name).isSome = true := by decide
    intro p hp hnone
    simpa [hnone] using hsome p hp
  rw [List.nodup_append]
  refine ⟨List.nodup_reverse.mpr (Library.nodup_selectRules used), hdecls, ?_⟩
  rintro name hname _ hmem rfl
  rcases List.mem_map.mp (List.mem_reverse.mp hname) with ⟨p, hp, rfl⟩
  exact hfind p (List.mem_filter.mp hp).1 (hrules _ hmem)

theorem Pristine.clean {systemF : Bool} {s : State} (h : Pristine systemF s) : s.findings = [] := by
  refine List.eq_nil_iff_forall_not_mem.mpr fun f hf => ?_
  obtain ⟨_, ⟨⟨_, hplace, -⟩, -⟩, -⟩ := h.keeping.findings f hf
  cases hplace

theorem Pristine.report {systemF : Bool} {s : State} (h : Pristine systemF s) (tags : List NodeTag)
    (places : List Location) : Keeping systemF tags places s where
  aliases := h.keeping.aliases
  findings := by simp [h.clean]

end Checker

/-- The theorems of a script become well-formed declarations of their own names. -/
theorem formed_of_compile {src : List UInt8} {systemF : Bool} {c : Compilation}
    (h : (compile src systemF).1 = .ok c) :
    (∀ st ∈ c.decls, st.Formed systemF c.document.places) ∧ (constants c.decls).Nodup ∧
      ∀ name ∈ constants c.decls, Library.findRule? name = none := by
  obtain ⟨s, hparse, hgenerate, -⟩ := compile_eq_ok h
  have hempty : (Generate.State.empty.declared.map Prod.fst).Nodup := List.nodup_nil
  have hplaces : c.document.theorems.flatMap Theorem.places ⊆ c.document.places :=
    List.subset_cons_self _ _
  exact Generate.formed_theoremDecls (theorems_spelled hparse) hplaces rfl hempty hgenerate

/-- Checking the theorems of a script objects to nodes of the theorems as it may only, whatever rules are
declared in front of them, unless it has to go deeper. -/
theorem findings_of_decls {src : List UInt8} {systemF : Bool} {c : Compilation}
    (h : (compile src systemF).1 = .ok c) {used : List String} {stmts : List Stmt}
    (hstmts : stmts = (Library.select used systemF).map Primitive.decl ++ c.decls) (n : Nat) :
    Checker.findings? n stmts = none ∨ ∃ fs, Checker.findings? n stmts = some (.ok fs) ∧
      ∀ f ∈ fs, Checker.Apt (stmtsTags stmts) c.document.places f := by
  obtain ⟨s, hparse, hgenerate, -⟩ := compile_eq_ok h
  obtain ⟨hformed, hnodup, hrules⟩ := formed_of_compile h
  have hscoped := Generate.scoped_theoremDecls (theorems_spelled hparse) rfl hgenerate
  cases hfound : Checker.findings? n stmts with
  | none => exact .inl rfl
  | some r =>
    -- What is found is found with more depth too, where the library is declared without going deeper.
    have hlater := Checker.findings?_mono (Nat.le_add_right n 2) hfound
    obtain ⟨sc, start, hfile, hloaded, hstart⟩ :=
      Checker.file_library (Nat.le_add_left 2 n) used systemF c.decls
    have hserves : Checker.Serves [] sc := ⟨by simp, by simp [hloaded.types]⟩
    have hnumbered : Numbered (stmtsTags stmts)
        (stmtsTags ((Library.select used systemF).map Primitive.decl)).length (stmtsTags c.decls) :=
      ⟨[], by rw [hstmts, stmtsTags_append]; simp⟩
    have hdistinct : (sc.declared ++ constants c.decls).Nodup := by
      rw [hloaded.declared]
      exact Checker.nodup_declared hnodup hrules
    have hreports := Checker.file_reports hserves hdistinct hformed (fun st hst => (hscoped st hst).1)
      hnumbered start (hstart.report _ _)
    rw [← hfile, ← hstmts] at hreports
    obtain ⟨result, last, hrun⟩ : ∃ result last,
      Checker.file .empty 0 stmts (.empty (n + 2)) = (result, last) := ⟨_, _, rfl⟩
    have houtcome : Checker.outcome (n + 2) stmts = (result, last) := hrun
    rw [hrun] at hreports
    rw [Checker.findings?, houtcome] at hlater
    cases result with
    | error e =>
      obtain rfl : e = .deeper := hreports
      cases hlater
    | ok _ =>
      obtain rfl := Option.some.inj hlater
      exact .inr ⟨last.findings, rfl, hreports.2.findings⟩

/-- Checking the program of a script objects to nodes of the theorems as it may only, unless it has to go
deeper. -/
theorem findings_of_compile {src : List UInt8} {systemF : Bool} {c : Compilation}
    (h : (compile src systemF).1 = .ok c) (n : Nat) :
    Checker.findings? n c.program.stmts = none ∨
      ∃ fs, Checker.findings? n c.program.stmts = some (.ok fs) ∧
        ∀ f ∈ fs, Checker.Apt (stmtsTags c.program.stmts) c.document.places f := by
  obtain ⟨s, -, -, -, -, hprimitives, hstmts⟩ := compile_eq_ok h
  rw [hprimitives] at hstmts
  exact findings_of_decls h hstmts n

/-- Where checking finds something at the nodes of the program only, it misses no node. -/
theorem Checker.check?_ne_gap {p : Printed} {n : Nat} {Q : Finding → Prop}
    (h : findings? n p.stmts = none ∨ ∃ fs, findings? n p.stmts = some (.ok fs) ∧ ∀ f ∈ fs, Q f)
    (g : Gap) : p.check? n ≠ some (.error g) := by
  rcases h with hnone | ⟨fs, hfs, -⟩
  · simp [Printed.check?, hnone]
  · simp [Printed.check?, hfs, Except.map]

namespace Checker

/-- The codes of the objections that a script can cause. -/
def scriptCodes : List String := ["TS2304", "TS2322", "TS2345", "TS2349", "TS2554", "TS2558"]

theorem code_mem_scriptCodes {kind : NodeKind} {o : Objection} (h : o.expectedAt kind = true) :
    o.code ∈ scriptCodes := by
  cases o <;> simp_all [Objection.expectedAt, Objection.code, scriptCodes]

/-- Of the objections that a script can cause, only that to an unknown name has its code. -/
theorem kind_of_code {kind : NodeKind} {o : Objection} (h : o.expectedAt kind = true)
    (hcode : o.code = "TS2304") : kind = .ident := by
  cases o <;> simp_all [Objection.expectedAt, Objection.code]

@[simp]
theorem diagnostic_code (p : Printed) (f : Finding) :
    (f.diagnostic p).code = f.objection.code := by
  dsimp only [Finding.diagnostic, Diagnostic.atOffset]
  split <;> rfl

/-- A diagnostic stands where the text of its node starts. -/
theorem diagnostic_position {p : Printed} {f : Finding} {span : Span}
    (h : p.spans[f.node.number]? = some span) :
    (f.diagnostic p).position = some (p.locate span.start.offset) := by
  have hoffset : ¬ (span.start.offset : Int) < 0 := by omega
  simp [Finding.diagnostic, Diagnostic.atOffset, h, hoffset]

/-- A diagnostic stems from where its node does. -/
theorem diagnostic_origin {p : Printed} {f : Finding} {loc : Location}
    (h : f.node.origin = some loc) : (f.diagnostic p).origin = some loc := by
  simp [Finding.diagnostic, h]

end Checker

/-- Within every depth, checking the program of a script has to go deeper, or it gives diagnostics. Every
diagnostic has one of the codes that a script can cause, stems from a node of the document, and stands where
the text of its node in the program starts; only an identifier has an unknown name. -/
theorem check_of_compile {src : List UInt8} {systemF : Bool} {c : Compilation}
    (h : (compile src systemF).1 = .ok c) (n : Nat) :
    c.program.check? n = none ∨ ∃ fs, Checker.findings? n c.program.stmts = some (.ok fs) ∧
      c.program.check? n = some (.ok (fs.map (Checker.Finding.diagnostic c.program))) ∧
      ∀ f ∈ fs, (f.diagnostic c.program).code ∈ Checker.scriptCodes ∧
        (∃ loc ∈ c.document.places, (f.diagnostic c.program).origin = some loc) ∧
        ∃ span, c.program.spans[f.node.number]? = some span ∧
          (f.diagnostic c.program).position = some (c.program.locate span.start.offset) ∧
          ((f.diagnostic c.program).code = "TS2304" → span.tag.kind = .ident) := by
  rcases findings_of_compile h n with hnone | ⟨fs, hfs, hapt⟩
  · exact .inl (by rw [Printed.check?, hnone]; rfl)
  refine .inr ⟨fs, hfs, by rw [Printed.check?, hfs]; rfl, ?_⟩
  intro f hf
  obtain ⟨kind, ⟨⟨loc, hloc, horigin⟩, htag⟩, hexpected⟩ := hapt f hf
  have htags : c.program.spans.map Span.tag = stmtsTags c.program.stmts := by
    rw [map_tag_print (emit_of_compile h), ← emit_stmts (emit_of_compile h)]
  rw [← htags, List.getElem?_map, Option.map_eq_some_iff] at htag
  obtain ⟨span, hspan, htag⟩ := htag
  refine ⟨?_, ⟨loc, hloc, Checker.diagnostic_origin horigin⟩, span, hspan,
    Checker.diagnostic_position hspan, ?_⟩
  · rw [Checker.diagnostic_code]
    exact Checker.code_mem_scriptCodes hexpected
  · intro hcode
    rw [Checker.diagnostic_code] at hcode
    rw [htag]
    exact Checker.kind_of_code hexpected hcode

/-- A justification by a fact that there is not. -/
theorem check_of_compile_unknown :
    ∃ (c : Compilation) (f : Checker.Finding) (span : Span),
      (compile (Text.bytes "theorem t : P\nby h;") false).1 = .ok c ∧
      (f.diagnostic c.program).code = "TS2304" ∧
      c.program.check? 2 = some (.ok [f.diagnostic c.program]) ∧
      c.program.spans[f.node.number]? = some span ∧ span.tag.kind = .ident := by
  generalize hsrc : Text.bytes _ = src
  have hcheck : (compile src false).1.toOption.any (fun c =>
      (Checker.findings? 2 c.program.stmts).any fun r => r.toOption.any fun fs =>
        fs.map (fun f => f.objection.code) == ["TS2304"]) = true := by
    rw [← hsrc]
    decide +kernel
  obtain ⟨c, h, hc⟩ := exists_ok_of_any hcheck
  rcases check_of_compile h 2 with hnone | ⟨fs, hfs, hdiags, hapt⟩
  · rw [Printed.check?, Option.map_eq_none_iff] at hnone
    rw [hnone] at hc
    cases hc
  have hcodes : fs.map (fun f => f.objection.code) = ["TS2304"] := by
    simpa [hfs, Except.toOption] using hc
  obtain ⟨f, rfl⟩ : ∃ f, fs = [f] := by
    rw [← List.length_eq_one_iff, ← List.length_map (fun f => f.objection.code), hcodes]
    rfl
  have hcode : (f.diagnostic c.program).code = "TS2304" := by simpa using hcodes
  obtain ⟨-, -, span, hspan, -, hkind⟩ := hapt f List.mem_cons_self
  exact ⟨c, f, span, h, hcode, hdiags, hspan, hkind hcode⟩

end ProofScript
