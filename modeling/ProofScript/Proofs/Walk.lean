import Mathlib.Tactic.Simps.Basic
import ProofScript.Generate

/-!
# Walks through programs

What is asked of a program is often asked of every node of it, with something in mind that depends on
the binders around the node. A walk says what it makes of the nodes that it stops at and what it has in
mind inside a binder; how it gets from node to node is the same for all of them.
-/

namespace ProofScript.Program

/-- The name that a statement declares in its block. -/
def Stmt.constant? : Stmt → Option String
  | .const name .. => some name
  | _ => none

/-- The names that statements declare in their block. -/
def constants (stmts : List Stmt) : List String := stmts.filterMap Stmt.constant?

/-- What a walk makes of the nodes of a program, with something in mind at each of them. Where it says
nothing of a node, it makes of it what it makes of its parts. -/
structure Walk (ε μ : Type) where
  empty : μ
  append : μ → μ → μ
  ident : ε → String → μ := fun _ _ => empty
  call : ε → List TypeExpr → μ → μ → μ := fun _ _ => append
  cast : ε → TypeExpr → μ → μ := fun _ _ value => value
  arrow : ε → List String → List Param → Option TypeExpr → Option Location → μ → μ :=
    fun _ _ _ _ _ body => body
  typeAlias : ε → List String → TypeExpr → μ := fun _ _ _ => empty
  const : ε → String → Option TypeExpr → Option TypeExpr → Option Location → μ → μ :=
    fun _ _ _ _ _ value => value
  /-- Inside an arrow with these type parameters and parameters. -/
  inside : ε → List String → List Param → ε := fun mind _ _ => mind
  /-- At a statement of a block, behind others that declare names and before those that declare more. -/
  within : ε → List String → List String → ε := fun mind _ _ => mind

/-- What a walk makes of nodes is put together in their order, and a block of one statement that declares
nothing adds nothing to what it has in mind. -/
class Walk.Lawful {ε μ : Type} (w : Walk ε μ) : Prop where
  empty_append : ∀ x, w.append w.empty x = x
  append_empty : ∀ x, w.append x w.empty = x
  append_assoc : ∀ x y z, w.append (w.append x y) z = w.append x (w.append y z)
  within_nil : ∀ mind, w.within mind [] [] = mind

namespace Walk

variable {ε μ : Type} (w : Walk ε μ)

mutual

/-- What the walk makes of an expression. -/
def expr (mind : ε) : Expr → μ
  | .missing => w.empty
  | .ident name _ => w.ident mind name
  | .call fn targs args _ => w.call mind targs (expr mind fn) (exprs mind args)
  | .arrow tparams params ret b o =>
    w.arrow mind tparams params ret o (body (w.inside mind tparams params) b)
  | .str _ => w.empty
  | .bool _ => w.empty
  | .array elems => exprs mind elems
  | .object properties => props mind properties
  | .index e _ => expr mind e
  | .prop e _ => expr mind e
  | .cond test yes no => w.append (w.append (expr mind test) (expr mind yes)) (expr mind no)
  | .cast e t => w.cast mind t (expr mind e)
  | .paren e => expr mind e

/-- What the walk makes of expressions. -/
def exprs (mind : ε) : List Expr → μ
  | [] => w.empty
  | e :: rest => w.append (expr mind e) (exprs mind rest)

/-- What the walk makes of properties. -/
def props (mind : ε) : List Property → μ
  | [] => w.empty
  | .short name :: rest => w.append (w.ident mind name) (props mind rest)
  | .assign _ value :: rest => w.append (expr mind value) (props mind rest)

/-- What the walk makes of a body. -/
def body (mind : ε) : Body → μ
  | .missing => w.empty
  | .expr e => expr mind e
  | .block block => stmts mind [] block

/-- What the walk makes of a statement. -/
def stmt (mind : ε) : Stmt → μ
  | .missing => w.empty
  | .typeAlias _ tparams t => w.typeAlias mind tparams t
  | .const name t value _ _ signature o => w.const mind name t signature o (expr mind value)
  | .expr e _ => expr mind e
  | .ret e => expr mind e

/-- What the walk makes of statements of a block, behind those that declare the names `done`. -/
def stmts (mind : ε) (done : List String) : List Stmt → μ
  | [] => w.empty
  | s :: rest =>
    w.append (stmt (w.within mind done (constants (s :: rest))) s)
      (stmts mind (s.constant?.toList ++ done) rest)

end

@[simp]
theorem stmts_nil (mind : ε) (done : List String) : w.stmts mind done [] = w.empty := rfl

variable {w} [w.Lawful]

/-- A walk that makes nothing of each of the expressions makes nothing of all of them. -/
theorem exprs_eq_empty {mind : ε} {es : List Expr} (h : ∀ e ∈ es, w.expr mind e = w.empty) :
    w.exprs mind es = w.empty := by
  induction es with
  | nil => rfl
  | cons e rest ih =>
    rw [List.forall_mem_cons] at h
    rw [exprs, h.1, Lawful.empty_append, ih h.2]

@[simp]
theorem exprs_singleton (mind : ε) (e : Expr) : w.exprs mind [e] = w.expr mind e := by
  rw [exprs, exprs, Lawful.append_empty]

theorem stmts_ret (mind : ε) (done : List String) (value : Expr) :
    w.stmts mind done [.ret value] = w.expr (w.within mind done []) value := by
  rw [stmts, stmts, Lawful.append_empty]
  rfl

/-- What a walk makes of the body that statements and the value behind them become. -/
theorem body_bodyOf (mind : ε) (block : List Stmt) (value : Expr) :
    w.body mind (Generate.bodyOf block value) = w.stmts mind [] (block ++ [.ret value]) := by
  cases block with
  | nil =>
    rw [List.nil_append, stmts_ret, Lawful.within_nil]
    rfl
  | cons => rfl

/-! ## Walks that do not mind constants -/

/-- The walk has the same in mind everywhere in a block. -/
def Flat (w : Walk ε μ) : Prop := ∀ mind done todo, w.within mind done todo = mind

namespace Flat

variable (h : w.Flat)
include h

omit [w.Lawful] in
theorem stmts_cons (mind : ε) (done : List String) (s : Stmt) (rest : List Stmt) :
    w.stmts mind done (s :: rest) = w.append (w.stmt mind s) (w.stmts mind [] rest) := by
  have hdone : ∀ (rest : List Stmt) done, w.stmts mind done rest = w.stmts mind [] rest := by
    intro rest
    induction rest with
    | nil => exact fun _ => rfl
    | cons s rest ih =>
      intro done
      rw [stmts, stmts, h, h, ih, ih (_ ++ [])]
  rw [stmts, h, hdone]

theorem stmts_append (mind : ε) (block more : List Stmt) :
    w.stmts mind [] (block ++ more) = w.append (w.stmts mind [] block) (w.stmts mind [] more) := by
  induction block with
  | nil => rw [List.nil_append, stmts, Lawful.empty_append]
  | cons s rest ih => rw [List.cons_append, h.stmts_cons, h.stmts_cons, ih, Lawful.append_assoc]

theorem body_bodyOf (mind : ε) (block : List Stmt) (value : Expr) :
    w.body mind (Generate.bodyOf block value) =
      w.append (w.stmts mind [] block) (w.expr mind value) := by
  rw [Walk.body_bodyOf, h.stmts_append, stmts_ret, h]

end Flat

end Walk

end ProofScript.Program
