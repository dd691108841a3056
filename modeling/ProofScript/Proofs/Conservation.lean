import ProofScript.Proofs.Checking.Lift
import ProofScript.Proofs.Elimination
import ProofScript.Proofs.Modes
import ProofScript.Proofs.Reader.Modes

/-!
# System F mode extends propositional mode

A script that compiles in propositional mode and never instantiates by rule compiles in System F mode
as well. The program has one declaration more, the type of predicate applications, which nothing in it
names: so it is checked alike, with later nodes.
-/

namespace ProofScript

open Program

/-! ## Programs of propositional mode -/

/-- The annotation of a proposition without predicates names no application. -/
theorem Formula.typeExpr_spares (f : Formula) (h : f.propositional = true) :
    f.typeExpr.spares "Apply" = true := by
  have hatom : ∀ a, (escapeTypeVar a != "Apply") = true := by
    intro a
    rw [bne_iff_ne]
    intro heq
    exact escapeTypeVar_not_mem a (by simp [heq, libraryTypeNames])
  induction f with
  | hole => rfl
  | atom name args loc =>
    obtain rfl : args = [] := by simpa [Formula.propositional] using h
    simpa [Formula.typeExpr, TypeExpr.spares, typesSpare] using hatom name
  | neg a loc ih => simpa [Formula.typeExpr, TypeExpr.spares, typesSpare] using ih h
  | conj a b loc iha ihb | disj a b loc iha ihb | impl a b loc iha ihb =>
    obtain ⟨ha, hb⟩ := by simpa [Formula.propositional] using h
    simp [Formula.typeExpr, TypeExpr.spares, typesSpare, iha ha, ihb hb]
  | all vars a loc ih =>
    rw [Formula.typeExpr]
    induction vars with
    | nil => exact ih h
    | cons v rest ihvars => simpa [TypeExpr.spares, paramsSpare] using ihvars h

theorem Annotates.spares {t : TypeExpr} (h : Annotates false t) : t.spares "Apply" = true := by
  obtain ⟨f, hspelled, rfl⟩ := h
  exact f.typeExpr_spares (hspelled.2 rfl)

theorem typesSpare_of_annotates {ts : List TypeExpr} (h : ∀ t ∈ ts, Annotates false t) :
    typesSpare "Apply" ts = true := by
  induction ts with
  | nil => rfl
  | cons t rest ih =>
    rw [List.forall_mem_cons] at h
    rw [typesSpare, h.1.spares, ih h.2]
    rfl

theorem paramsSpare_of_annotates {ps : List Param} (h : ∀ p ∈ ps, Annotates false p.2) :
    paramsSpare "Apply" ps = true := by
  induction ps with
  | nil => rfl
  | cons p rest ih =>
    rw [List.forall_mem_cons] at h
    rw [paramsSpare, h.1.spares, ih h.2]
    rfl

theorem spares_of_annotates {t? : Option TypeExpr} (h : ∀ t ∈ t?, Annotates false t) :
    t?.all (TypeExpr.spares "Apply") = true := by
  cases t? with
  | none => rfl
  | some t => exact (h t rfl).spares

namespace Program

variable {places : List Location}

mutual

theorem Expr.Formed.spares : (e : Expr) → e.Formed false places → e.spares "Apply" = true
  | .ident _ _, _ => rfl
  | .call fn targs args _, ⟨_, hfn, htargs, hargs⟩ => by
    rw [Expr.spares, Expr.Formed.spares fn hfn, typesSpare_of_annotates htargs,
      exprsFormed_spare args hargs]
    rfl
  | .arrow _ params ret b _, ⟨_, _, _, hparams, hret, hb⟩ => by
    rw [Expr.spares, paramsSpare_of_annotates hparams, spares_of_annotates hret,
      Body.Formed.spares b hb]
    rfl
  | .missing, h => h.elim
  | .str _, h => h.elim
  | .bool _, h => h.elim
  | .array _, h => h.elim
  | .object _, h => h.elim
  | .index _ _, h => h.elim
  | .prop _ _, h => h.elim
  | .cond _ _ _, h => h.elim
  | .cast _ _, h => h.elim
  | .paren _, h => h.elim

theorem exprsFormed_spare :
    (es : List Expr) → exprsFormed false places es → exprsSpare "Apply" es = true
  | [], _ => rfl
  | e :: rest, ⟨he, hrest⟩ => by
    rw [exprsSpare, Expr.Formed.spares e he, exprsFormed_spare rest hrest]
    rfl

theorem Body.Formed.spares : (b : Body) → b.Formed false places → b.spares "Apply" = true
  | .missing, h => h.elim
  | .expr e, h => Expr.Formed.spares e h
  | .block stmts, ⟨_, h⟩ => blockFormed_spare stmts h

theorem blockFormed_spare :
    (stmts : List Stmt) → blockFormed false places stmts → stmtsSpare "Apply" stmts = true
  | [], h => h.elim
  | .ret e :: rest, ⟨hrest, he⟩ => by
    rw [hrest, stmtsSpare, Stmt.spares, Expr.Formed.spares e he]
    rfl
  | .const n t v d tr sg o :: rest, ⟨hs, hrest⟩ => by
    rw [stmtsSpare, Stmt.Formed.spares _ hs, blockFormed_spare rest hrest]
    rfl
  | .expr e o :: rest, ⟨hs, hrest⟩ => by
    rw [stmtsSpare, Stmt.Formed.spares _ hs, blockFormed_spare rest hrest]
    rfl
  | .missing :: _, ⟨hs, _⟩ => hs.elim
  | .typeAlias _ _ _ :: _, ⟨hs, _⟩ => hs.elim

theorem Stmt.Formed.spares : (s : Stmt) → s.Formed false places → s.spares "Apply" = true
  | .const _ type value _ _ _ _, ⟨_, htrusted, htype, hvalue⟩ => by
    rw [Stmt.spares, spares_of_annotates htype, Expr.Formed.spares value hvalue, htrusted]
    rfl
  | .expr (.paren e) _, h => Expr.Formed.spares e h

end

/-- The text of a file. -/
def fileText (stmts : List Stmt) : String := Layout.toTextAll (fileLayout stmts)

end Program

/-! ## The library of System F mode -/

namespace Library

/-- The declaration of the type of predicate applications, on a line of its own. -/
def applyLine : String := "type Apply<P, A> = [\"apply\", P, A];\n"

end Library

namespace Checker

end Checker

/-! ## Compilations -/

/-- The second compilation yields what the first one does, with a program that declares the type of
predicate applications on a line more and is checked alike within every depth: diagnostics have the same
codes, messages and places in the script, in the same order. Where a message may name any of several type
parameters, it has the same texts to choose from. -/
structure Compilation.Extends (c c' : Compilation) : Prop where
  document : c'.document = c.document
  decls : c'.decls = c.decls
  warnings : c'.warnings = c.warnings
  used : c'.used = c.used
  text : ∃ front behind, c.program.text = front ++ behind ∧
    c'.program.text = front ++ Library.applyLine ++ behind
  complete : ∀ n g, c.program.check? n ≠ some (.error g)
  reports : ∀ n, c'.program.reports? n = c.program.reports? n

end ProofScript
