import ProofScript.Proofs.Checking.Rigidity

/-!
# Binders are used for nothing else

A number that a polymorphic type binds is bound by no substitution of a check and is free in no type, from the
point on where the type first occurs. So nothing is captured where bindings are applied, where a
polymorphic type is taken at arguments, and where an arrow binds its type parameters. Only the comparison up
to the names of bound variables may capture: the binders that it renames to may be those of another instance
of one type, and then they occur within the body again.
-/

namespace ProofScript

open Program

/-! ## Binders that a substitution adds -/

namespace Ty

variable {v : TyVar}

mutual

theorem mem_binders_of_apply {σ : Subst} : (t : Ty) → v ∈ (t.apply σ).binders →
    v ∈ t.binders ∨ ∃ w s, σ.find? w = some s ∧ v ∈ s.binders
  | var w, hv => by
    rw [Ty.apply] at hv
    cases hw : σ.find? w with
    | none => simp [hw, binders] at hv
    | some s => exact .inr ⟨w, s, hw, by simpa [hw] using hv⟩
  | rigid _ _, hv => .inl hv
  | thunk r, hv => mem_binders_of_apply r hv
  | fn a r, hv => by
    rw [Ty.apply, binders, List.mem_append] at hv
    rw [binders, List.mem_append]
    rcases hv with hv | hv
    · exact (mem_binders_of_apply a hv).imp_left .inl
    · exact (mem_binders_of_apply r hv).imp_left .inr
  | con _ as, hv => mem_bindersAll_of_apply as hv
  | poly ps b, hv => by
    rw [Ty.apply, binders, List.mem_append] at hv
    rw [binders, List.mem_append]
    rcases hv with hv | hv
    · exact .inl (.inl hv)
    · refine (mem_binders_of_apply b hv).imp .inr ?_
      rintro ⟨w, s, hs, hv⟩
      rw [Subst.find?_without, Option.ite_none_left_eq_some] at hs
      exact ⟨w, s, hs.2, hv⟩
  | never, hv => .inl hv
  | any, hv => .inl hv

theorem mem_bindersAll_of_apply {σ : Subst} : (ts : List Ty) → v ∈ bindersAll (applyAll σ ts) →
    v ∈ bindersAll ts ∨ ∃ w s, σ.find? w = some s ∧ v ∈ s.binders
  | [], hv => .inl hv
  | t :: rest, hv => by
    rw [applyAll, bindersAll, List.mem_append] at hv
    rw [bindersAll, List.mem_append]
    rcases hv with hv | hv
    · exact (mem_binders_of_apply t hv).imp_left .inl
    · exact (mem_bindersAll_of_apply rest hv).imp_left .inr

end

theorem mem_binders_of_iterate {σ : Subst} {n : Nat} {t : Ty}
    (hv : v ∈ ((Ty.apply σ)^[n] t).binders) :
    v ∈ t.binders ∨ ∃ w s, σ.find? w = some s ∧ v ∈ s.binders := by
  induction n with
  | zero => exact .inl hv
  | succ n ih =>
    rw [Function.iterate_succ_apply'] at hv
    exact (mem_binders_of_apply _ hv).elim ih .inr

/-- Binders are renamed to binders. -/
theorem mem_of_find?_renameBinders {ps qs : List (String × TyVar)} {s : Ty}
    (h : (renameBinders ps qs).find? v = some s) : ∃ p ∈ ps, s = var p.2 := by
  rw [renameBinders, Subst.find?_ofList] at h
  obtain ⟨⟨q, p⟩, hmem, heq⟩ := List.mem_map.mp (List.mem_reverse.mp (mem_of_lookup h))
  exact ⟨p, (List.of_mem_zip hmem).2, (Prod.mk.inj heq).2.symm⟩

/-- A binder that stands for a type parameter of another type captures the variables that are renamed to
it. -/
example : (poly [("V", 1)] (fn (var 1) (var 2))).captures (renameBinders [("X", 1)] [("Y", 2)]) = true := by
  decide

end Ty

namespace Checker

variable {F : Set TyVar} {p : Point} {t : Ty}

/-! ## Types at a point -/

/-- The type occurs at the point: it is at hand, or a variable is bound to it. So do the parts of such a type
that are below no binder, its free variables, and functions of such types. -/
inductive Point.Holds (p : Point) : Ty → Prop
  | known {t : Ty} : t ∈ p.known → Holds p t
  | bound {v : TyVar} {t : Ty} : p.unifier.subst.find? v = some t → Holds p t
  | free {v : TyVar} {t : Ty} : Holds p t → v ∈ t.freeVars → Holds p (.var v)
  | thunk {r : Ty} : Holds p (.thunk r) → Holds p r
  | param {a r : Ty} : Holds p (.fn a r) → Holds p a
  | result {a r : Ty} : Holds p (.fn a r) → Holds p r
  | argument {n : String} {as : List Ty} {a : Ty} : Holds p (.con n as) → a ∈ as → Holds p a
  | func {param : Option Ty} {r : Ty} : (∀ a ∈ param, Holds p a) → Holds p r → Holds p (.func param r)

/-- What a polymorphic type may be taken at: types that occur at the point, and variables and constants with
numbers that are not taken yet. -/
def Point.Offers (p : Point) (a : Ty) : Prop :=
  p.Holds a ∨ (∃ v, p.unifier.counter < v ∧ a = .var v) ∨ ∃ n i, a = .rigid n i

/-- At the point, the type's binders are used for nothing else, and nothing is captured in the type. -/
structure Point.Reserves (p : Point) (t : Ty) : Prop where
  /-- No binder is bound by the substitution. -/
  unbound : ∀ v ∈ t.binders, p.unifier.subst.find? v = none
  /-- No binder is free in a type. -/
  notFree : ∀ v ∈ t.binders, ∀ t', p.Holds t' → v ∉ t'.freeVars
  /-- Applying the substitution captures nothing, however often it is applied. -/
  resolves : ∀ n, ((Ty.apply p.unifier.subst)^[n] t).captures p.unifier.subst = false
  /-- The type can be taken at variables, constants and other types. -/
  instances : ∀ ps b args, t = .poly ps b → (∀ a ∈ args, p.Offers a) →
    b.captures (.ofList ((ps.map Prod.snd).zip args)) = false
  /-- Its binders can be renamed to binders that do not occur within it. -/
  renames : ∀ ps qs b, t = .poly qs b → (∀ p ∈ ps, p.2 ∉ b.binders) →
    b.captures (Ty.renameBinders ps qs) = false

theorem Point.Tidy.holds (h : p.Tidy F) (ht : p.Holds t) : t.Apart F p.unifier.counter := by
  induction ht with
  | known ht => exact h.known _ ht
  | bound hv => exact h.unifier.apart.subst.bound (h.unifier.bound _ _ hv) hv
  | free _ hv ih => exact Ty.apart_var (ih.orderly.le _ hv) (ih.free _ hv)
  | thunk _ ih => exact Ty.apart_thunk.mp ih
  | param _ ih => exact (Ty.apart_fn.mp ih).1
  | result _ ih => exact (Ty.apart_fn.mp ih).2
  | argument _ ha ih => exact Ty.apart_con ih _ ha
  | func _ _ iha ihr => exact Ty.apart_func.mpr ⟨iha, ihr⟩

/-- Where binders are apart from variables, a type's binders are reserved. -/
theorem Point.Tidy.reserves (h : p.Tidy F) (ht : ∀ v ∈ t.binders, v ∉ F) : p.Reserves t := by
  have hfree : ∀ t', p.Holds t' → ∀ v ∈ t'.freeVars, v ∈ F := fun t' ht' => (h.holds ht').free
  constructor
  case unbound =>
    intro v hv
    by_contra hbound
    obtain ⟨s, hs⟩ := Option.ne_none_iff_exists'.mp hbound
    exact ht v hv (h.unifier.bound v s hs)
  case notFree => exact fun v hv t' ht' hmem => ht v hv (hfree t' ht' v hmem)
  case resolves =>
    refine fun n => Ty.captures_eq_false _ fun v s hs w hw hbinder => ?_
    have hwF := hfree s (.bound hs) w hw
    rcases Ty.mem_binders_of_iterate hbinder with hbinder | ⟨x, r, hr, hbinder⟩
    · exact ht w hbinder hwF
    · exact ((h.holds (.bound hr)).orderly.binders r hbinder).1 hwF
  case instances =>
    rintro ps b args rfl hargs
    refine Ty.captures_eq_false b fun v s hs w hw hbinder => ?_
    refine ht w (List.mem_append_right _ hbinder) ?_
    rcases hargs s (Ty.mem_of_find?_zip hs) with hheld | ⟨x, hx, rfl⟩ | ⟨n, i, rfl⟩
    · exact hfree s hheld w hw
    · rw [Ty.freeVars, List.mem_singleton] at hw
      exact hw ▸ h.unifier.apart.fresh x hx
    · simp [Ty.freeVars] at hw
  case renames =>
    rintro ps qs b rfl hps
    refine Ty.captures_eq_false b fun v s hs w hw hbinder => ?_
    obtain ⟨q, hq, rfl⟩ := Ty.mem_of_find?_renameBinders hs
    rw [Ty.freeVars, List.mem_singleton] at hw
    exact hps q hq (hw ▸ hbinder)

/-! ## The course of a check -/

/-- At every point of a check, the binders of all types that occur there or occurred before are reserved, and
an arrow that returns binds its type parameters without capturing them or another variable. -/
theorem reserves_of_course {n : Nat} {stmts : List Stmt} {pre post : List Event} {e : Event}
    (hcourse : course n stmts = pre ++ e :: post) (hp : e.Comes p) :
    (∀ e₀ ∈ pre ++ [e], ∀ q, e₀.Comes q → ∀ t, q.Holds t → p.Reserves t) ∧
      ∀ opened gs f, e = .returns p opened gs f →
        f.abstractCaptures (Generic.consts gs) = false ∧ ∀ v ∈ Generic.vars gs, v ∉ f.freeVars := by
  obtain ⟨last, hsafe⟩ := safe_course n stmts
  obtain ⟨F, c, -, -, hevents, -⟩ := hsafe.sound
  rw [hcourse] at hevents
  have hsorted := hsafe.sorted
  rw [hcourse, List.pairwise_append] at hsorted
  obtain ⟨F₁, huses, -, htidy⟩ := (hevents e (by simp)).2.2.tidy
  constructor
  · intro e₀ he₀ q hq t ht
    have hearlier : e₀ ∈ pre ++ e :: post ∧ e₀.start ≤ e.start := by
      rcases List.mem_append.mp he₀ with he₀ | he₀
      · exact ⟨List.mem_append_left _ he₀, hsorted.2.2 e₀ he₀ e (by simp)⟩
      · obtain rfl := List.mem_singleton.mp he₀
        exact ⟨by simp, Int.le_refl _⟩
    obtain ⟨F₀, huses₀, hnew, htidy₀⟩ := (hevents e₀ hearlier.1).2.2.tidy
    refine (htidy.points p hp).reserves fun v hv hF => ?_
    -- A binder is no variable where its type occurs, and so it was taken before.
    have hbinder := ((htidy₀.points q hq).holds ht).orderly.binders t hv
    have hle : v ≤ e₀.start := by
      by_contra hlt
      exact hbinder.1 (hnew v (Int.not_le.mp hlt))
    exact hbinder.1 ((huses₀ v hle).mp ((huses v (Int.le_trans hle hearlier.2)).mpr hF))
  · rintro opened gs f rfl
    have hparams := (hevents _ (by simp)).2.2.params p opened gs f rfl
    refine ⟨Ty.abstractCaptures_eq_false f fun b hb => ?_, fun v hv => (hparams v hv).2⟩
    exact (hparams _ (Generic.mem_vars_of_mem_consts hb)).1

/-- A constant with two type parameters, one after the other, is called in the body of an arrow. -/
def picking : List Stmt :=
  [.const "first" (some (.func ["A"] [("a", .ref "A" [])]
      (.func ["B"] [("b", .ref "B" [])] (.ref "A" [])))) .missing true false none none,
    .const "pick" none (.arrow ["Y"] [("y", .ref "Y" [])] none
      (.expr (.call (.ident "first" none) [] [.ident "y" none] none)) none) false false none none]

/-- A type with binders occurs where variables are bound. -/
theorem picking_reserves : ∃ pre e post p t, course 2 picking = pre ++ e :: post ∧ e.Comes p ∧
    p.Holds t ∧ t.binders ≠ [] ∧ p.unifier.subst ≠ [] ∧ p.Reserves t := by
  have hany : (course 2 picking).any (fun
      | .reaches p => !p.unifier.subst.isEmpty && p.types.any fun t => !t.binders.isEmpty
      | _ => false) = true := by decide +kernel
  obtain ⟨e, he, hmatch⟩ := List.any_eq_true.mp hany
  obtain ⟨pre, post, hcourse⟩ := List.append_of_mem he
  cases e with
  | reaches p =>
    simp only [Bool.and_eq_true, Bool.not_eq_true', List.isEmpty_eq_false_iff, List.any_eq_true]
      at hmatch
    obtain ⟨hsubst, t, ht, hbinders⟩ := hmatch
    have hheld : p.Holds t := .known (List.mem_append_right _ ht)
    have hreserves := (reserves_of_course hcourse .reaches).1 _ (by simp) p .reaches t hheld
    exact ⟨pre, _, post, p, t, hcourse, .reaches, hheld, hbinders, hsubst, hreserves⟩
  | _ => cases hmatch

end Checker

end ProofScript
