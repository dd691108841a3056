import ProofScript.Proofs.Soundness

/-!
# Theorems about predicates

An atom with an argument is a predicate of propositions. Its type may take the place of another one
if the types of the arguments may, so a proof may replace the argument of a predicate by what
follows from it. What is checked is valid for all predicates that respect implication.
-/

namespace ProofScript

open Program

/-- Every theorem of a script is valid for all predicates that respect implication if the script
compiles, no proof is left out, its program is accepted within some depth, and all types that the checker
took for equal are equal up to bound variables. -/
theorem validFor_of_check {src : List UInt8} {systemF : Bool} {c : Compilation} {n : Nat}
    (hcompile : (compile src systemF).1 = .ok c)
    (hwarnings : ∀ w ∈ c.warnings, w.message ≠ "proof uses sorry")
    (hcheck : c.program.check? n = some (.ok []))
    (hequal : ∀ p ∈ (Checker.outcome n c.program.stmts).2.unifier.equated, p.1.alphaEq [] p.2 = true)
    {t : Theorem} (ht : t ∈ c.document.theorems) : t.ValidFor Monotone := by
  rcases warranted_of_compile hcompile hwarnings with ⟨hwarranted, hdeclared⟩
  rcases hdeclared t ht with ⟨st, hst, hdeclares, hspelled, hspelledHyps⟩
  rcases Checker.outcome_of_check hcheck with ⟨s, hrun, hclean⟩
  rw [hrun] at hequal
  exact Checker.file_sound Checker.regular_empty Checker.scoped_empty rfl hwarranted hrun
    ⟨hclean, hequal⟩ hst hdeclares hspelled hspelledHyps

/-- A predicate of a falsehood is no predicate of everything: negation is the former only. -/
theorem not_validFor_of_falsity {t : Theorem} {loc loc' : Location}
    (hclaim : t.claim.formula = .atom "P" ["X"] loc)
    (hhyps : t.hypotheses = [.atom "P" ["False"] loc']) : ¬ t.ValidFor fun _ => True := by
  intro hvalid
  have hfalse := hvalid (fun a => a = "True" ∨ a = "X") (fun a p => a = "P" ∧ ¬ p)
    (fun _ => trivial) (by simp) (by simp) (by simp) (by simp [hhyps, Formula.holdsFor])
  simp [hclaim, Formula.holdsFor] at hfalse

/-- A predicate of a falsehood is proved of everything. -/
theorem validFor_of_check_falsity :
    ∃ c, (compile (Text.bytes "theorem t : P[X]
      assume h : P[False] \x7b by h; \x7d") true).1 = .ok c ∧ c.program.check? 2 = some (.ok []) ∧
      ∃ t ∈ c.document.theorems, t.ValidFor Monotone ∧ ¬ t.ValidFor fun _ => True := by
  generalize hsrc : Text.bytes _ = src
  have haccepted : (compile src true).1.toOption.any (fun c =>
      c.warnings.isEmpty && ((c.program.check? 2).any fun r => r.toOption.any List.isEmpty) &&
      (Checker.outcome 2 c.program.stmts).2.unifier.equated.all (fun p => p.1.alphaEq [] p.2) &&
      c.document.theorems.any fun t => t.claim.formula == .atom "P" ["X"] ⟨1, 13⟩ &&
        t.hypotheses == [.atom "P" ["False"] ⟨2, 18⟩]) = true := by
    rw [← hsrc]
    decide +kernel
  obtain ⟨c, h, hc⟩ := exists_ok_of_any haccepted
  simp only [Bool.and_eq_true, List.any_eq_true, List.all_eq_true, List.isEmpty_iff, beq_iff_eq] at hc
  obtain ⟨⟨⟨hwarnings, hcheck⟩, hequal⟩, t, ht, hclaim, hhyps⟩ := hc
  obtain ⟨ds, hcheck, hnil⟩ := exists_some_ok_of_any hcheck
  obtain rfl := List.isEmpty_iff.mp hnil
  exact ⟨c, h, hcheck, t, ht, validFor_of_check h (by simp [hwarnings]) hcheck hequal ht,
    not_validFor_of_falsity hclaim hhyps⟩

end ProofScript
