import ProofScript.Proofs.Bindings

/-!
# Renumbering

The numbers of variables and constants only tell them apart. If other numbers are taken for them, one
to one, then every operation on types gives the renumbered result, and messages read the same.
-/

namespace ProofScript

open Function

variable {f : TyVar → TyVar}

namespace Ty

mutual

/-- The type with other numbers. -/
def renumber (f : TyVar → TyVar) : Ty → Ty
  | var v => var (f v)
  | rigid n i => rigid n (f i)
  | thunk r => thunk (r.renumber f)
  | fn a r => fn (a.renumber f) (r.renumber f)
  | con n as => con n (renumberAll f as)
  | poly ps b => poly (ps.map (Prod.map id f)) (b.renumber f)
  | never => never
  | any => any

/-- The types with other numbers. -/
def renumberAll (f : TyVar → TyVar) : List Ty → List Ty
  | [] => []
  | t :: rest => t.renumber f :: renumberAll f rest

end

mutual

theorem renumber_id : (t : Ty) → t.renumber id = t
  | var _ => rfl
  | rigid _ _ => rfl
  | thunk r => by rw [renumber, renumber_id r]
  | fn a r => by rw [renumber, renumber_id a, renumber_id r]
  | con _ as => by rw [renumber, renumberAll_id as]
  | poly ps b => by rw [renumber, renumber_id b, Prod.map_id, List.map_id]
  | never => rfl
  | any => rfl

theorem renumberAll_id : (ts : List Ty) → renumberAll id ts = ts
  | [] => rfl
  | t :: rest => by rw [renumberAll, renumber_id t, renumberAll_id rest]

end

theorem renumberAll_eq_map (ts : List Ty) : renumberAll f ts = ts.map (renumber f) := by
  induction ts with
  | nil => rfl
  | cons t rest ih => rw [renumberAll, ih, List.map_cons]

theorem renumber_func (arg : Option Ty) (ret : Ty) :
    (func arg ret).renumber f = func (arg.map (renumber f)) (ret.renumber f) := by
  cases arg <;> rfl

theorem map_snd_renumber (ps : List (String × TyVar)) :
    (ps.map (Prod.map id f)).map Prod.snd = (ps.map Prod.snd).map f := by
  simp [List.map_map, comp_def]

theorem map_fst_renumber (ps : List (String × TyVar)) :
    (ps.map (Prod.map id f)).map Prod.fst = ps.map Prod.fst := by
  simp [List.map_map, comp_def]

mutual

theorem size_renumber : (t : Ty) → (t.renumber f).size = t.size
  | var _ => rfl
  | rigid _ _ => rfl
  | thunk r => by rw [renumber, size, size, size_renumber r]
  | fn a r => by rw [renumber, size, size, size_renumber a, size_renumber r]
  | con _ as => by rw [renumber, size, size, sizes_renumber as]
  | poly _ b => by rw [renumber, size, size, size_renumber b]
  | never => rfl
  | any => rfl

theorem sizes_renumber : (ts : List Ty) → sizes (renumberAll f ts) = sizes ts
  | [] => rfl
  | t :: rest => by rw [renumberAll, sizes, sizes, size_renumber t, sizes_renumber rest]

end

mutual

theorem freeVars_renumber (hf : Injective f) : (t : Ty) → (t.renumber f).freeVars = t.freeVars.map f
  | var _ => rfl
  | rigid _ _ => rfl
  | thunk r => freeVars_renumber hf r
  | fn a r => by
    rw [renumber, freeVars, freeVars, freeVars_renumber hf a, freeVars_renumber hf r, List.map_append]
  | con _ as => freeVarsAll_renumber hf as
  | poly ps b => by
    rw [renumber, freeVars, freeVars, freeVars_renumber hf b, map_snd_renumber, List.filter_map]
    congr 1
    refine List.filter_congr fun v _ => ?_
    simp only [comp_apply, List.mem_map_of_injective hf]
  | never => rfl
  | any => rfl

theorem freeVarsAll_renumber (hf : Injective f) :
    (ts : List Ty) → freeVarsAll (renumberAll f ts) = (freeVarsAll ts).map f
  | [] => rfl
  | t :: rest => by
    rw [renumberAll, freeVarsAll, freeVarsAll, freeVars_renumber hf t, freeVarsAll_renumber hf rest,
      List.map_append]

end

mutual

theorem mentions_renumber (hf : Injective f) (n : String) (i : TyVar) :
    (t : Ty) → (t.renumber f).mentions n (f i) = t.mentions n i
  | var _ => rfl
  | rigid _ _ => by simp [renumber, mentions, hf.eq_iff]
  | thunk r => mentions_renumber hf n i r
  | fn a r => by
    rw [renumber, mentions, mentions, mentions_renumber hf n i a, mentions_renumber hf n i r]
  | con _ as => mentionsAny_renumber hf n i as
  | poly _ b => mentions_renumber hf n i b
  | never => rfl
  | any => rfl

theorem mentionsAny_renumber (hf : Injective f) (n : String) (i : TyVar) :
    (ts : List Ty) → mentionsAny n (f i) (renumberAll f ts) = mentionsAny n i ts
  | [] => rfl
  | t :: rest => by
    rw [renumberAll, mentionsAny, mentionsAny, mentions_renumber hf n i t,
      mentionsAny_renumber hf n i rest]

end

mutual

theorem abstract_renumber (hf : Injective f) (consts : List ((String × TyVar) × TyVar)) :
    (t : Ty) → (t.renumber f).abstract (consts.map (Prod.map (Prod.map id f) f)) =
      (t.abstract consts).renumber f
  | var _ => rfl
  | rigid n i => by
    have hlookup := lookup_map (injective_id.prodMap hf) f consts (n, i)
    rw [Prod.map_apply, id] at hlookup
    rw [renumber, abstract, abstract, hlookup]
    cases consts.lookup (n, i) <;> rfl
  | thunk r => by rw [renumber, abstract, abstract, renumber, abstract_renumber hf consts r]
  | fn a r => by
    rw [renumber, abstract, abstract, renumber, abstract_renumber hf consts a,
      abstract_renumber hf consts r]
  | con _ as => by rw [renumber, abstract, abstract, renumber, abstractAll_renumber hf consts as]
  | poly _ b => by rw [renumber, abstract, abstract, renumber, abstract_renumber hf consts b]
  | never => rfl
  | any => rfl

theorem abstractAll_renumber (hf : Injective f) (consts : List ((String × TyVar) × TyVar)) :
    (ts : List Ty) → abstractAll (consts.map (Prod.map (Prod.map id f) f)) (renumberAll f ts) =
      renumberAll f (abstractAll consts ts)
  | [] => rfl
  | t :: rest => by
    rw [renumberAll, abstractAll, abstractAll, renumberAll, abstract_renumber hf consts t,
      abstractAll_renumber hf consts rest]

end

mutual

theorem render_renumber (hf : Injective f) (names : List (TyVar × String)) :
    (t : Ty) → (t.renumber f).render (names.map (Prod.map f id)) = t.render names
  | var v => by
    rw [renumber, render, render, lookup_map hf id, Option.map_id, id]
  | rigid _ _ => rfl
  | thunk r => by rw [renumber, render, render, render_renumber hf names r]
  | fn a r => by
    rw [renumber, render, render, render_renumber hf names a, render_renumber hf names r]
  | con _ [] => rfl
  | con _ (a :: as) => by
    rw [renumber, renumberAll, render, render, render_renumber hf names a,
      renderRest_renumber hf names as]
  | poly ps b => by
    have hnames : ((ps.map (Prod.map id f)).map Prod.swap).reverse ++ names.map (Prod.map f id) =
        ((ps.map Prod.swap).reverse ++ names).map (Prod.map f id) := by
      simp [List.map_map, comp_def, List.map_reverse]
    rw [renumber, render, render, map_fst_renumber, hnames, render_renumber hf _ b]
  | never => rfl
  | any => rfl

theorem renderRest_renumber (hf : Injective f) (names : List (TyVar × String)) :
    (ts : List Ty) → renderRest (names.map (Prod.map f id)) (renumberAll f ts) = renderRest names ts
  | [] => rfl
  | t :: rest => by
    rw [renumberAll, renderRest, renderRest, render_renumber hf names t,
      renderRest_renumber hf names rest]

end

/-- A type is shown in the same way. -/
theorem text_renumber (hf : Injective f) (t : Ty) : (t.renumber f).text = t.text :=
  render_renumber hf [] t

end Ty

/-! ## Substitutions -/

namespace Subst

/-- The second substitution binds the new numbers as the first one binds the old ones. It may bind
other numbers, too. -/
def Mirrors (f : TyVar → TyVar) (σ σ' : Subst) : Prop :=
  ∀ v, σ'.find? (f v) = (σ.find? v).map (Ty.renumber f)

variable {σ σ' : Subst}

theorem Mirrors.without (h : Mirrors f σ σ') (hf : Injective f) (vs : List TyVar) :
    Mirrors f (σ.without vs) (σ'.without (vs.map f)) := by
  intro v
  simp only [find?_without, List.mem_map_of_injective hf, h v]
  split <;> rfl

theorem Mirrors.insert (h : Mirrors f σ σ') (hf : Injective f) (v : TyVar) (t : Ty) :
    Mirrors f (σ.insert v t) (σ'.insert (f v) (t.renumber f)) := by
  intro w
  simp only [find?_insert, hf.eq_iff, h w]
  split <;> rfl

theorem mirrors_ofList (hf : Injective f) (bs : List (TyVar × Ty)) :
    Mirrors f (ofList bs) (ofList (bs.map (Prod.map f (Ty.renumber f)))) := by
  intro v
  rw [find?_ofList, find?_ofList, ← List.map_reverse, lookup_map hf]

end Subst

namespace Ty

variable {σ σ' : Subst}

mutual

theorem apply_renumber (hf : Injective f) {σ σ' : Subst} (h : σ.Mirrors f σ') :
    (t : Ty) → (t.renumber f).apply σ' = (t.apply σ).renumber f
  | var v => by
    rw [renumber, apply, apply, h v]
    cases σ.find? v <;> rfl
  | rigid _ _ => rfl
  | thunk r => by rw [renumber, apply, apply, renumber, apply_renumber hf h r]
  | fn a r => by
    rw [renumber, apply, apply, renumber, apply_renumber hf h a, apply_renumber hf h r]
  | con _ as => by rw [renumber, apply, apply, renumber, applyAll_renumber hf h as]
  | poly ps b => by
    rw [renumber, apply, apply, renumber, map_snd_renumber, apply_renumber hf (h.without hf _) b]
  | never => rfl
  | any => rfl

theorem applyAll_renumber (hf : Injective f) {σ σ' : Subst} (h : σ.Mirrors f σ') :
    (ts : List Ty) → applyAll σ' (renumberAll f ts) = renumberAll f (applyAll σ ts)
  | [] => rfl
  | t :: rest => by
    rw [renumberAll, applyAll, applyAll, renumberAll, apply_renumber hf h t,
      applyAll_renumber hf h rest]

end

theorem mirrors_renameBinders (hf : Injective f) (ps qs : List (String × TyVar)) :
    (renameBinders ps qs).Mirrors f
      (renameBinders (ps.map (Prod.map id f)) (qs.map (Prod.map id f))) := by
  have heq : ∀ ps qs : List (String × TyVar), renameBinders ps qs =
      .ofList ((qs.zip ps).map fun b => (b.1.2, var b.2.2)) := fun _ _ => rfl
  have hlist : ((qs.map (Prod.map id f)).zip (ps.map (Prod.map id f))).map
        (fun b => (b.1.2, var b.2.2)) =
      ((qs.zip ps).map fun b => (b.1.2, var b.2.2)).map (Prod.map f (renumber f)) := by
    simp [List.zip_map, List.map_map, comp_def, renumber]
  rw [heq, heq, hlist]
  exact Subst.mirrors_ofList hf _

mutual

theorem eqv_renumber (hf : Injective f) :
    (t u : Ty) → (t.renumber f).eqv (u.renumber f) = t.eqv u
  | var _, u => by cases u <;> simp [renumber, eqv, hf.eq_iff]
  | rigid _ _, u => by cases u <;> simp [renumber, eqv, hf.eq_iff]
  | thunk r, u => by
    cases u with
    | thunk s => exact eqv_renumber hf r s
    | _ => rfl
  | fn a r, u => by
    cases u with
    | fn b s => rw [renumber, renumber, eqv, eqv, eqv_renumber hf a b, eqv_renumber hf r s]
    | _ => rfl
  | con n as, u => by
    cases u with
    | con m bs => rw [renumber, renumber, eqv, eqv, eqvAll_renumber hf as bs]
    | _ => rfl
  | poly ps b, u => by
    cases u with
    | poly qs c =>
      rw [renumber, renumber, eqv, eqv, apply_renumber hf (mirrors_renameBinders hf ps qs),
        eqv_renumber hf b, List.length_map, List.length_map]
    | _ => rfl
  | never, u => by cases u <;> rfl
  | any, u => by cases u <;> rfl

theorem eqvAll_renumber (hf : Injective f) :
    (ts us : List Ty) → eqvAll (renumberAll f ts) (renumberAll f us) = eqvAll ts us
  | [], us => by cases us <;> rfl
  | t :: ts, us => by
    cases us with
    | nil => rfl
    | cons u us =>
      rw [renumberAll, renumberAll, eqvAll, eqvAll, eqv_renumber hf t u, eqvAll_renumber hf ts us]

end

theorem instantiateWith_renumber (hf : Injective f) (ps : List (String × TyVar)) (body : Ty)
    (args : List Ty) :
    instantiateWith (ps.map (Prod.map id f)) (body.renumber f) (args.map (renumber f)) =
      (instantiateWith ps body args).renumber f := by
  have hlist : ((ps.map (Prod.map id f)).map Prod.snd).zip (args.map (renumber f)) =
      ((ps.map Prod.snd).zip args).map (Prod.map f (renumber f)) := by
    rw [map_snd_renumber, List.zip_map]
  rw [instantiateWith, instantiateWith, hlist, apply_renumber hf (Subst.mirrors_ofList hf _)]

theorem resolveUpTo_renumber (hf : Injective f) (h : σ.Mirrors f σ') (n : Nat) (t : Ty) :
    (t.renumber f).resolveUpTo σ' n = (t.resolveUpTo σ n).renumber f := by
  induction n generalizing t with
  | zero => rfl
  | succ n ih =>
    rw [resolveUpTo, resolveUpTo, apply_renumber hf h, eqv_renumber hf, ih, apply_ite (renumber f)]

theorem shallowUpTo_renumber (h : σ.Mirrors f σ') (n : Nat) (t : Ty) :
    Unifier.shallowUpTo σ' n (t.renumber f) = (Unifier.shallowUpTo σ n t).renumber f := by
  induction n generalizing t with
  | zero => rfl
  | succ n ih =>
    cases t with
    | var v =>
      rw [renumber, Unifier.shallowUpTo, Unifier.shallowUpTo, h v]
      cases σ.find? v with
      | none => rfl
      | some u => exact ih u
    | _ => rfl

end Ty

/-! ## Rounds -/

namespace Subst

variable {σ σ' : Subst}

/-- More rounds than there are bindings change nothing. -/
theorem resolveUpTo_eq {vs : List TyVar} {t : Ty} {n m : Nat} (h : σ.Layered vs)
    (ht : σ.Within vs t) (hn : vs.length < n) (hm : n ≤ m) :
    t.resolveUpTo σ m = t.resolveUpTo σ n := by
  induction vs generalizing t n m with
  | nil => rw [within_nil_resolveUpTo ht, within_nil_resolveUpTo ht]
  | cons v vs ih =>
    rw [List.length_cons] at hn
    obtain ⟨n, rfl⟩ := Nat.exists_eq_succ_of_ne_zero (by omega : n ≠ 0)
    obtain ⟨m, rfl⟩ := Nat.exists_eq_succ_of_ne_zero (by omega : m ≠ 0)
    have hnext := ih h.2 (within_apply h ht) (by omega : vs.length < n) (by omega : n ≤ m)
    rw [Ty.resolveUpTo, Ty.resolveUpTo, hnext]

theorem shallowUpTo_eq {vs : List TyVar} {t : Ty} {n m : Nat} (h : σ.Layered vs)
    (ht : σ.Within vs t) (hn : vs.length < n) (hm : n ≤ m) :
    Unifier.shallowUpTo σ m t = Unifier.shallowUpTo σ n t := by
  induction n generalizing vs t m with
  | zero => omega
  | succ n ih =>
    obtain ⟨m, rfl⟩ := Nat.exists_eq_succ_of_ne_zero (by omega : m ≠ 0)
    cases t with
    | var v =>
      rw [Unifier.shallowUpTo, Unifier.shallowUpTo]
      cases hv : σ.find? v with
      | none => rfl
      | some u =>
        have hmem : v ∈ vs := ht v (by simp [Ty.freeVars]) (by simp [hv])
        cases vs with
        | nil => simp at hmem
        | cons a vs =>
          rw [List.length_cons] at hn
          exact ih h.2 (h.1 v hmem u hv) (by omega) (by omega)
    | _ => rfl

/-- A longer substitution that binds the new numbers as the first one binds the old ones resolves the
renumbered types to the renumbered results. -/
theorem Mirrors.resolve (h : Mirrors f σ σ') (hf : Injective f) (hσ : σ.Acyclic)
    (hlen : σ.length ≤ σ'.length) (t : Ty) : (t.renumber f).resolve σ' = (t.resolve σ).renumber f := by
  obtain ⟨order, horder, hcover, hlayered⟩ := hσ
  rw [Ty.resolve, Ty.resolve, Ty.resolveUpTo_renumber hf h,
    resolveUpTo_eq hlayered (fun x _ hx => hcover x hx) (by omega : order.length < σ.length + 1)
      (by omega)]

theorem Mirrors.shallow (h : Mirrors f σ σ') (hσ : σ.Acyclic) (hlen : σ.length ≤ σ'.length) (t : Ty) :
    Unifier.shallowUpTo σ' (σ'.length + 1) (t.renumber f) =
      (Unifier.shallowUpTo σ (σ.length + 1) t).renumber f := by
  obtain ⟨order, horder, hcover, hlayered⟩ := hσ
  rw [Ty.shallowUpTo_renumber h, shallowUpTo_eq hlayered (fun x _ hx => hcover x hx)
    (by omega : order.length < σ.length + 1) (by omega)]

end Subst

end ProofScript
