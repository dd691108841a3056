import ProofScript.Proofs.Bindings
import ProofScript.Proofs.Comparing

/-!
# Assignability is implication

If a value of one type may stand where another type is expected, then in every solution of the
bindings the first type implies the second, provided that the types which were taken for equal are
equal up to the names of their bound variables.
-/

namespace ProofScript

namespace Unifier

variable {k : Roles} {u u' : Unifier}

/-- The bindings are regular, and numbers that are not taken are free for variables. -/
structure Regular (k : Roles) (u : Unifier) : Prop where
  subst : u.subst.Regular k u.counter
  fresh : ∀ v, u.counter < v → k v = .flexible
  nonneg : 0 ≤ u.counter

/-- Bindings, taken numbers and pairs of types taken for equal are only added. -/
structure Extends (u u' : Unifier) : Prop where
  counter : u.counter ≤ u'.counter
  solves : ∀ ρ, u'.subst.Solves ρ → u.subst.Solves ρ
  equated : u.equated ⊆ u'.equated

theorem Extends.refl (u : Unifier) : Extends u u := ⟨Int.le_refl _, fun _ h => h, fun _ h => h⟩

theorem Extends.trans {mid : Unifier} (h : Extends u mid) (h' : Extends mid u') : Extends u u' where
  counter := Int.le_trans h.counter h'.counter
  solves ρ hρ := h.solves ρ (h'.solves ρ hρ)
  equated _ hp := h'.equated (h.equated hp)

/-- Numbers may be taken. -/
theorem Regular.advance (h : Regular k u) {n : TyVar} (hn : u.counter ≤ n) :
    Regular k { u with counter := n } where
  subst :=
    { acyclic := h.subst.acyclic
      fits := by
        intro v t hv
        rcases h.subst.fits v t hv with ⟨hle, hfits⟩
        exact ⟨Int.le_trans hle hn, hfits.mono hn fun _ _ _ => rfl⟩ }
  fresh v hv := h.fresh v (Int.lt_of_le_of_lt hn hv)
  nonneg := Int.le_trans h.nonneg hn

/-! ## Fresh numbers -/

theorem freshAll_eq (u : Unifier) (names : List String) :
    (u.freshAll names).2 = { u with counter := u.counter + names.length } ∧
      (u.freshAll names).1.length = names.length ∧
      (∀ v ∈ (u.freshAll names).1, u.counter < v ∧ v ≤ u.counter + names.length) ∧
      (u.freshAll names).1.Nodup := by
  induction names generalizing u with
  | nil => simp [freshAll]
  | cons name rest ih =>
    rcases ih u.fresh.2 with ⟨hu, hlen, hbound, hnodup⟩
    simp only [fresh] at hu hlen hbound hnodup
    simp only [freshAll, fresh]
    refine ⟨?_, by simp [hlen], ?_, ?_⟩
    · rw [hu, mk.injEq, List.length_cons]
      exact ⟨rfl, by lia, rfl⟩
    · intro v hv
      rw [List.length_cons]
      rcases List.mem_cons.mp hv with rfl | hv
      · lia
      · have hv := hbound v hv
        lia
    · refine List.nodup_cons.mpr ⟨?_, hnodup⟩
      intro hmem
      have hlt := (hbound _ hmem).1
      lia

theorem extends_freshAll (names : List String) : Extends u (u.freshAll names).2 := by
  rw [(freshAll_eq u names).1]
  exact ⟨by dsimp only; lia, fun _ h => h, fun _ h => h⟩

end Unifier

/-! ## Instances -/

namespace Ty

variable {k : Roles} {c c' : TyVar} {ids : List TyVar} {args : List Ty}

/-- What the variables of a polymorphic type mean at an instance. -/
noncomputable def meanings (ids : List TyVar) (args : List Ty) (ρ : Valuation) (v : TyVar) :
    Sense :=
  ((ids.zip args).reverse.lookup v).elim ⊥ (sense ρ)

theorem through_ofList (hlen : ids.length = args.length) (ρ : Valuation) :
    ρ.through (.ofList (ids.zip args)) = ρ.rebind ids (meanings ids args ρ) := by
  refine Valuation.ext (funext fun v => ?_) rfl
  simp only [Valuation.through, Subst.find?_ofList]
  by_cases hv : v ∈ ids
  · rcases exists_lookup_zip hlen hv with ⟨t, ht, -⟩
    rw [Valuation.rebind_vars_of_mem hv, meanings, ht]
    rfl
  · rw [Valuation.rebind_vars_of_not_mem hv, lookup_zip_of_not_mem hv]
    rfl

/-- An instance says what the body says if the variables mean the arguments. -/
theorem sense_instantiateWith {ps : List (String × TyVar)} {body : Ty}
    (hlen : ps.length = args.length) (hbody : body.Shaped k c)
    (hargs : ∀ a ∈ args, ∀ w ∈ a.freeVars, k w = .flexible) (ρ : Valuation) :
    (instantiateWith ps body args).sense ρ =
      body.sense (ρ.rebind (ps.map Prod.snd) (meanings (ps.map Prod.snd) args ρ)) := by
  have hids : (ps.map Prod.snd).length = args.length := by rw [List.length_map, hlen]
  rw [instantiateWith, sense_apply ?_ body hbody, through_ofList hids]
  intro v t ht
  rw [Subst.find?_ofList] at ht
  exact hargs t (List.of_mem_zip (List.mem_reverse.mp (mem_of_lookup ht))).2

/-- A polymorphic type implies its instances. -/
theorem sense_poly_le {ps : List (String × TyVar)} {body : Ty}
    (hlen : ps.length = args.length) (hbody : body.Shaped k c)
    (hargs : ∀ a ∈ args, ∀ w ∈ a.freeVars, k w = .flexible) (ρ : Valuation) :
    (poly ps body).sense ρ ≤ (instantiateWith ps body args).sense ρ := by
  rw [sense_instantiateWith hlen hbody hargs]
  exact iInf_le _ _

theorem mem_of_find?_zip {v : TyVar} {t : Ty}
    (h : (Subst.ofList (ids.zip args)).find? v = some t) : t ∈ args := by
  rw [Subst.find?_ofList] at h
  exact (List.of_mem_zip (List.mem_reverse.mp (mem_of_lookup h))).2

/-- What is free in an instance is free in the polymorphic type or in an argument. -/
theorem mem_freeVars_of_instantiateWith {ps : List (String × TyVar)} {body : Ty}
    (hlen : ps.length = args.length) {x : TyVar}
    (hx : x ∈ (instantiateWith ps body args).freeVars) :
    x ∈ (poly ps body).freeVars ∨ ∃ a ∈ args, x ∈ a.freeVars := by
  have hids : (ps.map Prod.snd).length = args.length := by rw [List.length_map, hlen]
  rcases mem_freeVars_of_apply body hx with ⟨hxb, hnone⟩ | ⟨v, -, t, ht, hxt⟩
  · have hxps : x ∉ ps.map Prod.snd := by
      intro hxps
      rcases exists_lookup_zip hids hxps with ⟨t, ht, -⟩
      rw [Subst.find?_ofList, ht] at hnone
      cases hnone
    exact .inl (by simpa [freeVars, hxb] using hxps)
  · exact .inr ⟨t, mem_of_find?_zip ht, hxt⟩

theorem Fits.instantiateWith {ps : List (String × TyVar)} {body : Ty}
    (hlen : ps.length = args.length) (h : (poly ps body).Fits k c) (hc : c ≤ c')
    (hargs : ∀ a ∈ args, a.Fits k c') : (Ty.instantiateWith ps body args).Fits k c' := by
  constructor
  · refine Shaped.apply (fun v t ht => (hargs t (mem_of_find?_zip ht)).shaped) body ?_
    exact Shaped.mono hc (fun _ _ hv => hv) body h.shaped.2
  · intro x hx
    rcases mem_freeVars_of_instantiateWith hlen hx with hfree | ⟨a, ha, hxa⟩
    · exact ⟨(h.free x hfree).1, Int.le_trans (h.free x hfree).2 hc⟩
    · exact (hargs a ha).free x hxa

/-- New rigid constants in the place of variables can mean anything, all others what they meant. -/
theorem exists_consts {ps : List (String × TyVar)} (hlen : ids.length = ps.length)
    (hnodup : ids.Nodup) (hpos : ∀ i ∈ ids, 0 < i) (f : TyVar → Sense)
    (consts : String → TyVar → Sense) :
    ∃ consts' : String → TyVar → Sense,
      (∀ n i, (n, i) ∉ (ps.map Prod.fst).zip ids → consts' n i = consts n i) ∧
      ∀ ρ : Valuation, ρ.consts = consts' → ∀ v ∈ ps.map Prod.snd,
        meanings (ps.map Prod.snd) (((ps.map Prod.fst).zip ids).map fun s => rigid s.1 s.2) ρ v =
          f v := by
  let consts' : String → TyVar → Sense := fun n i =>
    if (n, i) ∈ (ps.map Prod.fst).zip ids then ((ids.zip (ps.map Prod.snd)).lookup i).elim ⊥ f
    else consts n i
  refine ⟨consts', fun n i hni => if_neg hni, ?_⟩
  intro ρ hρ v hv
  have hids : (ps.map Prod.snd).length =
      (((ps.map Prod.fst).zip ids).map fun s => rigid s.1 s.2).length := by
    simp [hlen]
  rcases exists_lookup_zip hids hv with ⟨t, ht, hmem⟩
  rcases List.getElem_of_mem hmem with ⟨j, hj, heq⟩
  have hj' : j < ps.length := by simpa [hlen] using hj
  simp only [List.getElem_zip, List.getElem_map, Prod.mk.injEq] at heq
  rcases heq with ⟨rfl, rfl⟩
  have hskolem : (ps[j].1, ids[j]) ∈ (ps.map Prod.fst).zip ids := by
    refine List.mem_iff_getElem.mpr ⟨j, by simp [hlen, hj'], ?_⟩
    simp
  have hpartner : (ids.zip (ps.map Prod.snd)).lookup ids[j] = some ps[j].2 := by
    refine lookup_of_mem_of_nodup (List.mem_iff_getElem.mpr ⟨j, by simp [hlen, hj'], by simp⟩) ?_
    rwa [List.map_fst_zip (by simp [hlen])]
  have hconst : consts' ps[j].1 ids[j] = f ps[j].2 := by
    simp only [consts', if_pos hskolem, hpartner, Option.elim]
  have hne : ¬ (ps[j].1 = "True" ∧ ids[j] = 0) := by
    rintro ⟨-, hzero⟩
    have hlt := hpos ids[j] (List.getElem_mem _)
    lia
  rw [meanings, ht, Option.elim, sense, Valuation.const, hρ, hconst]
  exact Prod.ext (propext (or_iff_right hne)) rfl

end Ty

namespace Unifier

variable {k : Roles} {u u' : Unifier}

/-- A polymorphic type fits in at fresh variables, and implies what it becomes there. -/
theorem Regular.instantiate (h : Regular k u) {ps : List (String × TyVar)} {body : Ty}
    (ht : (Ty.poly ps body).Fits k u.counter) :
    Regular k (u.instantiate ps body).2 ∧ Extends u (u.instantiate ps body).2 ∧
      (u.instantiate ps body).1.Fits k (u.instantiate ps body).2.counter ∧
      ∀ ρ, (Ty.poly ps body).sense ρ ≤ (u.instantiate ps body).1.sense ρ := by
  rcases freshAll_eq u (ps.map Prod.fst) with ⟨hu, hlen, hbound, -⟩
  have hextends := extends_freshAll (u := u) (ps.map Prod.fst)
  have hlen' : ps.length = ((u.freshAll (ps.map Prod.fst)).1.map Ty.var).length := by
    rw [List.length_map, hlen, List.length_map]
  have hargs : ∀ a ∈ (u.freshAll (ps.map Prod.fst)).1.map Ty.var,
      a.Fits k (u.freshAll (ps.map Prod.fst)).2.counter := by
    intro a ha
    rcases List.mem_map.mp ha with ⟨v, hv, rfl⟩
    refine ⟨trivial, ?_⟩
    intro w hw
    have hwv : w = v := by simpa [Ty.freeVars] using hw
    rw [hwv, hu]
    exact ⟨h.fresh v (hbound v hv).1, (hbound v hv).2⟩
  have hregular : Regular k (u.freshAll (ps.map Prod.fst)).2 := by
    rw [hu]
    exact h.advance (by lia)
  refine ⟨hregular, hextends, Ty.Fits.instantiateWith hlen' ht hextends.counter hargs, ?_⟩
  exact Ty.sense_poly_le hlen' ht.shaped.2 fun a ha w hw => ((hargs a ha).free w hw).1

/-- A polymorphic type fits in at fresh rigid constants. These are new, and they can mean whatever
the variables of the type may. -/
theorem Regular.skolemize (h : Regular k u) {ps : List (String × TyVar)} {body : Ty}
    (ht : (Ty.poly ps body).Fits k u.counter) :
    Regular k (u.skolemize ps body).2 ∧ Extends u (u.skolemize ps body).2 ∧
      (u.skolemize ps body).1.2.Fits k (u.skolemize ps body).2.counter ∧
      (∀ s ∈ (u.skolemize ps body).1.1, u.counter < s.2) ∧
      ∀ (f : TyVar → Sense) (consts : String → TyVar → Sense), ∃ consts' : String → TyVar → Sense,
        (∀ n i, (n, i) ∉ (u.skolemize ps body).1.1 → consts' n i = consts n i) ∧
        ∀ ρ : Valuation, ρ.consts = consts' →
          (u.skolemize ps body).1.2.sense ρ = body.sense (ρ.rebind (ps.map Prod.snd) f) := by
  rcases freshAll_eq u (ps.map Prod.fst) with ⟨hu, hlen, hbound, hnodup⟩
  have hextends := extends_freshAll (u := u) (ps.map Prod.fst)
  simp only [Unifier.skolemize]
  generalize u.freshAll (ps.map Prod.fst) = r at hu hlen hbound hnodup hextends ⊢
  obtain ⟨ids, u₁⟩ := r
  dsimp only at hu hlen hbound hnodup hextends ⊢
  rw [List.length_map] at hlen
  have hargs : ∀ a ∈ ((ps.map Prod.fst).zip ids).map fun s => Ty.rigid s.1 s.2,
      a.Fits k u₁.counter := by
    intro a ha
    rcases List.mem_map.mp ha with ⟨s, hs, rfl⟩
    refine ⟨?_, by simp [Ty.freeVars]⟩
    rw [hu]
    exact (hbound s.2 (List.of_mem_zip hs).2).2
  have hlen' : ps.length = (((ps.map Prod.fst).zip ids).map fun s => Ty.rigid s.1 s.2).length := by
    simp [hlen]
  have hregular : Regular k u₁ := by
    rw [hu]
    exact h.advance (by lia)
  refine ⟨hregular, hextends, Ty.Fits.instantiateWith hlen' ht hextends.counter hargs, ?_, ?_⟩
  · intro s hs
    exact (hbound s.2 (List.of_mem_zip hs).2).1
  intro f consts
  have hpos : ∀ i ∈ ids, 0 < i := fun i hi => Int.lt_of_le_of_lt h.nonneg (hbound i hi).1
  rcases Ty.exists_consts hlen hnodup hpos f consts with ⟨consts', hother, hmeans⟩
  refine ⟨consts', hother, ?_⟩
  intro ρ hρ
  rw [Ty.sense_instantiateWith hlen' ht.shaped.2 fun a ha w hw => ((hargs a ha).free w hw).1]
  refine Ty.sense_congr body ?_ fun _ _ _ => rfl
  intro v _
  by_cases hv : v ∈ ps.map Prod.snd
  · rw [Valuation.rebind_vars_of_mem hv, Valuation.rebind_vars_of_mem hv, hmeans ρ hρ v hv]
  · rw [Valuation.rebind_vars_of_not_mem hv, Valuation.rebind_vars_of_not_mem hv]

end Unifier

open Stateful

namespace Unify

variable {k : Roles} {u u' : Unifier}

/-- No pair of types taken for equal is forgotten. -/
theorem carries_equated :
    Carries (fun _ => True) (fun _ _ => True) fun u u' => u.equated ⊆ u'.equated where
  refl _ _ hp := hp
  trans h h' _ hp := h' (h hp)
  state _ := trivial
  type _ _ := trivial
  parts _ := ⟨fun _ => trivial, fun _ => ⟨trivial, trivial⟩, fun _ _ _ => trivial⟩
  shallow _ _ := trivial
  equate _ _ := List.subset_append_right _ _
  bind _ _ _ _ _ _ hp := hp
  skolemize _ _ := ⟨(Unifier.extends_freshAll _).equated, trivial⟩
  instantiate _ _ := ⟨(Unifier.extends_freshAll _).equated, trivial⟩

/-! ## Soundness -/

/-- The bindings were extended so that the first type implies the second. -/
structure Implies (k : Roles) (u u' : Unifier) (src dst : Ty) : Prop where
  regular : u'.Regular k
  extends_ : u.Extends u'
  implies : ∀ ρ, u'.subst.Solves ρ → src.sense ρ ≤ dst.sense ρ

theorem bindVar_sound {v : TyVar} {t : Ty} {r : Unit} (h : u.Regular k)
    (hv : (Ty.var v).Fits k u.counter) (hunbound : u.subst.find? v = none)
    (ht : t.Fits k u.counter) (hbind : bindVar v t u = (.ok r, u')) :
    u'.Regular k ∧ u.Extends u' ∧ ∀ ρ, u'.subst.Solves ρ → ρ.vars v = t.sense ρ := by
  rcases bindVar_eq_ok hbind with ⟨rfl, rfl⟩ | ⟨hfree, rfl⟩
  · exact ⟨h, .refl _, fun _ _ => rfl⟩
  have hle : v ≤ u.counter := (Ty.fits_var.mp hv).2
  refine ⟨⟨⟨?_, ?_⟩, h.fresh, h.nonneg⟩, ⟨Int.le_refl _, ?_, fun _ hp => hp⟩, ?_⟩
  · exact .insert (h.subst.not_reaches ht hunbound hfree) h.subst.acyclic hunbound
  · intro w s hw
    rw [Subst.find?_insert] at hw
    split at hw
    · rename_i hwv
      cases hw
      exact ⟨hwv ▸ hle, ht⟩
    · exact h.subst.fits w s hw
  · intro ρ hρ w s hw
    refine hρ w s ?_
    rw [Subst.find?_insert, if_neg, hw]
    intro hwv
    rw [hwv, hunbound] at hw
    cases hw
  · intro ρ hρ
    exact hρ v t (by rw [Subst.find?_insert, if_pos rfl])

/-- The check that no constant of the target escapes looks for each of them in each variable. -/
theorem not_mentions_of_escaping {vars : List TyVar} {skolems : List (String × TyVar)}
    (h : escaping u vars skolems = []) {v : TyVar} (hv : v ∈ vars) {s : String × TyVar}
    (hs : s ∈ skolems) : ¬ (u.resolve (.var v)).mentions s.1 s.2 = true := by
  have hnone := List.filterMap_eq_nil_iff.mp h v hv
  exact List.find?_eq_none.mp (Option.map_eq_none_iff.mp hnone) s hs

/-- A polymorphic target holds if its body holds for new rigid constants that no free variable of
the two types depends on. -/
theorem generalize_sound {ps : List (String × TyVar)} {s b : Ty} (h : u.Regular k)
    (hs : s.Fits k u.counter) (hd : (Ty.poly ps b).Fits k u.counter)
    (himplies : Implies k (u.skolemize ps b).2 u' s (u.skolemize ps b).1.2)
    (hescape : escaping u' (s.freeVars ++ (Ty.poly ps b).freeVars) (u.skolemize ps b).1.1 = []) :
    Implies k u u' s (.poly ps b) := by
  rcases h.skolemize hd with ⟨hregular, hextends, hfits, hnew, hmeans⟩
  refine ⟨himplies.regular, hextends.trans himplies.extends_, ?_⟩
  intro ρ hρ
  refine le_iInf fun f => ?_
  rcases hmeans f ρ.consts with ⟨consts', hother, hbody⟩
  -- The interpretation with the wanted meanings of the new constants.
  rcases himplies.regular.subst.acyclic.exists_solution ⟨ρ.vars, consts'⟩ with
    ⟨ρ', hρ', hconsts, hfree⟩
  dsimp only at hconsts hfree
  have hold : ∀ n i, i ≤ u.counter → ρ.const n i = ρ'.const n i := by
    intro n i hi
    rw [Valuation.const, Valuation.const, hconsts, hother]
    intro hmem
    have hlt := hnew (n, i) hmem
    lia
  have hvars : ∀ v ∈ s.freeVars ++ (Ty.poly ps b).freeVars, ρ.vars v = ρ'.vars v := by
    intro v hv
    have hvfits : (Ty.var v).Fits k u'.counter := by
      have hle := (hextends.trans himplies.extends_).counter
      rw [Ty.fits_var]
      rcases List.mem_append.mp hv with hv | hv
      · exact ⟨(hs.free v hv).1, Int.le_trans (hs.free v hv).2 hle⟩
      · exact ⟨(hd.free v hv).1, Int.le_trans (hd.free v hv).2 hle⟩
    refine himplies.regular.subst.sense_eq_of_resolve hvfits hρ hρ'
      (fun w hw => (hfree w hw).symm) ?_
    intro n i hmention
    rw [Valuation.const, Valuation.const, hconsts, hother]
    intro hmem
    exact not_mentions_of_escaping hescape hv hmem hmention
  have hsrc : s.sense ρ = s.sense ρ' := by
    refine Ty.sense_congr s ?_ ?_
    · exact fun v hv => hvars v (List.mem_append_left _ hv)
    · exact fun n i hm => hold n i (Ty.Shaped.mentions s hs.shaped hm)
  have hdst := himplies.implies ρ' hρ'
  rw [hbody ρ' hconsts] at hdst
  refine (hsrc.le.trans hdst).trans (Ty.sense_congr b ?_ ?_).ge
  · intro v hv
    by_cases hvps : v ∈ ps.map Prod.snd
    · rw [Valuation.rebind_vars_of_mem hvps, Valuation.rebind_vars_of_mem hvps]
    · rw [Valuation.rebind_vars_of_not_mem hvps, Valuation.rebind_vars_of_not_mem hvps]
      refine hvars v (List.mem_append_right _ ?_)
      simpa [Ty.freeVars, hv] using hvps
  · exact fun n i hm => hold n i (Ty.Shaped.mentions b hd.shaped.2 hm)

/-- Comparisons to depth `n` that succeed make the first type imply the second, if the types taken
for equal are equal up to bound variables. -/
def SoundTo (k : Roles) (n : Nat) : Prop :=
  ∀ {u u' : Unifier} {src dst : Ty}, u.Regular k → src.Fits k u.counter → dst.Fits k u.counter →
    assign n src dst u = (.ok (), u') → (∀ p ∈ u'.equated, p.1.alphaEq [] p.2 = true) →
    Implies k u u' src dst

theorem inherits_fits (k : Roles) (c : TyVar) :
    Inherits (fun t => t.Fits k c) fun t => t.Fits k c :=
  ⟨Ty.fits_thunk.mp, Ty.fits_fn.mp, Ty.fits_con.mp⟩

theorem senses_eq_map (ρ : Valuation) (ts : List Ty) : Ty.senses ρ ts = ts.map (Ty.sense ρ) := by
  induction ts with
  | nil => rfl
  | cons t rest ih => rw [Ty.senses, ih, List.map_cons]

/-- What implications between their parts make of two types. -/
theorem sense_le_of_parts {s d : Ty} {pairs : List (Ty × Ty)} (hposes : Poses s d (.parts pairs))
    {ρ : Valuation} (h : ∀ p ∈ pairs, p.1.sense ρ ≤ p.2.sense ρ) : s.sense ρ ≤ d.sense ρ := by
  cases hposes with
  | thunks =>
    rw [List.forall_mem_singleton] at h
    exact Sense.ofProp_mono h.1
  | drop =>
    rw [List.forall_mem_singleton] at h
    exact Sense.ofProp_mono fun hr _ => h.1 hr
  | functions =>
    rw [List.forall_mem_cons, List.forall_mem_singleton] at h
    exact Sense.ofProp_mono fun hfn hb => h.2.1 (hfn (h.1.1 hb))
  | arguments hlen =>
    refine Sense.ofProp_mono (connective_mono ?_)
    rw [senses_eq_map, senses_eq_map, List.forall₂_map_left_iff, List.forall₂_map_right_iff]
    exact List.forall₂_iff_zip.mpr ⟨hlen, fun hp => h _ hp⟩

section Step

variable {n : Nat} (hsound : SoundTo k n) (hequal : ∀ p ∈ u'.equated, p.1.alphaEq [] p.2 = true)
include hsound hequal

theorem parts_sound {pairs : List (Ty × Ty)} (h : u.Regular k)
    (hpairs : ∀ p ∈ pairs, p.1.Fits k u.counter ∧ p.2.Fits k u.counter)
    (hall : (pairs.forM fun p => assign n p.1 p.2) u = (.ok (), u')) :
    u'.Regular k ∧ u.Extends u' ∧
      ∀ ρ, u'.subst.Solves ρ → ∀ p ∈ pairs, p.1.sense ρ ≤ p.2.sense ρ := by
  induction pairs generalizing u with
  | nil =>
    obtain ⟨-, rfl⟩ := pure_eq_ok.mp hall
    exact ⟨h, .refl _, by simp⟩
  | cons p pairs ih =>
    obtain ⟨_, mid, hfirst, hrest⟩ := bind_eq_ok.mp hall
    rw [List.forall_mem_cons] at hpairs
    have hmid : mid.equated ⊆ u'.equated := by
      have hkeeps : mid.equated ⊆ ((pairs.forM fun p => assign n p.1 p.2) mid).2.equated :=
        carries_equated.loop n trivial fun _ _ => ⟨trivial, trivial⟩
      rwa [hrest] at hkeeps
    have hp := hsound h hpairs.1.1 hpairs.1.2 hfirst fun p hp => hequal p (hmid hp)
    have hmono : ∀ {t : Ty}, t.Fits k u.counter → t.Fits k mid.counter :=
      fun ht => ht.mono hp.extends_.counter fun _ _ _ => rfl
    obtain ⟨hregular, hextends, himplies⟩ := ih hp.regular
      (fun q hq => ⟨hmono (hpairs.2 q hq).1, hmono (hpairs.2 q hq).2⟩) hrest
    refine ⟨hregular, hp.extends_.trans hextends, fun ρ hρ => ?_⟩
    exact List.forall_mem_cons.mpr ⟨hp.implies ρ (hextends.solves ρ hρ), himplies ρ hρ⟩

theorem task_sound {s d : Ty} {t : Task} (h : u.Regular k) (hs : s.Fits k u.counter)
    (hd : d.Fits k u.counter) (hsUnbound : ∀ v, s = .var v → u.subst.find? v = none)
    (hdUnbound : ∀ v, d = .var v → u.subst.find? v = none) (hposes : Poses s d t)
    (hrun : t.run n u = (.ok (), u')) : Implies k u u' s d := by
  cases t with
  | equate =>
    cases hposes
    rw [Task.run, get_bind] at hrun
    obtain rfl := set_eq_ok.mp hrun
    have halpha := hequal (s, d) (by simp)
    have hsame : ∀ ρ : Valuation, s.sense ρ = d.sense ρ := fun ρ =>
      Ty.sense_of_alphaEq rfl (fun v w hvw => by rw [of_decide_eq_true hvw]) s d halpha
    refine ⟨⟨h.subst, h.fresh, h.nonneg⟩, ?_, fun ρ _ => (hsame ρ).le⟩
    exact ⟨Int.le_refl _, fun _ hρ => hρ, fun _ hp => List.mem_cons_of_mem _ hp⟩
  | accept =>
    obtain ⟨-, rfl⟩ := pure_eq_ok.mp hrun
    cases hposes with
    | anySource => exact hs.shaped.elim
    | anyTarget => exact hd.shaped.elim
    | absurd => exact ⟨h, .refl _, fun _ _ => bot_le⟩
  | bind =>
    cases hposes with
    | bindSource =>
      obtain ⟨hregular, hextends, hvalue⟩ := bindVar_sound h hs (hsUnbound _ rfl) hd hrun
      exact ⟨hregular, hextends, fun ρ hρ => (hvalue ρ hρ).le⟩
    | bindTarget =>
      obtain ⟨hregular, hextends, hvalue⟩ := bindVar_sound h hd (hdUnbound _ rfl) hs hrun
      exact ⟨hregular, hextends, fun ρ hρ => (hvalue ρ hρ).ge⟩
  | generalize =>
    cases hposes
    obtain ⟨hbody, hescape⟩ := run_generalize_eq_ok hrun
    obtain ⟨hregular, hextends, hfits, -⟩ := h.skolemize hd
    have hsFits := hs.mono hextends.counter fun _ _ _ => rfl
    exact generalize_sound h hs hd (hsound hregular hsFits hfits hbody hequal) hescape
  | specialize =>
    cases hposes
    obtain ⟨hregular, hextends, hfits, hinstance⟩ := h.instantiate hs
    have hdFits := hd.mono hextends.counter fun _ _ _ => rfl
    have himplies := hsound hregular hfits hdFits hrun hequal
    refine ⟨himplies.regular, hextends.trans himplies.extends_, fun ρ hρ => ?_⟩
    exact (hinstance ρ).trans (himplies.implies ρ hρ)
  | parts =>
    obtain ⟨hregular, hextends, himplies⟩ :=
      parts_sound hsound hequal h ((inherits_fits k _).parts hposes hs hd) hrun
    exact ⟨hregular, hextends, fun ρ hρ => sense_le_of_parts hposes (himplies ρ hρ)⟩
  | refuse => exact absurd hrun throw_ne_ok

end Step

theorem assign_sound (n : Nat) : SoundTo k n := by
  induction n with
  | zero => exact fun _ _ _ hassign _ => absurd hassign throw_ne_ok
  | succ n ih =>
    intro u u' src dst h hsrc hdst hassign hequal
    have hunbound : ∀ (t : Ty) (v : TyVar), u.shallow t = .var v → u.subst.find? v = none :=
      fun _ _ hv => h.subst.acyclic.unbound_of_shallowUpTo hv
    rw [assign_succ] at hassign
    have hstep := task_sound ih hequal h (h.subst.fits_shallowUpTo hsrc (u.subst.length + 1))
      (h.subst.fits_shallowUpTo hdst (u.subst.length + 1)) (hunbound src) (hunbound dst)
      (poses_task _ _) hassign
    refine ⟨hstep.regular, hstep.extends_, ?_⟩
    intro ρ hρ
    have hρu := hstep.extends_.solves ρ hρ
    have himplies := hstep.implies ρ hρ
    rwa [Subst.sense_shallowUpTo hρu, Subst.sense_shallowUpTo hρu] at himplies

end Unify

namespace Unifier

/-- A comparison from the outside forgets no pair of types taken for equal. -/
theorem equated_assign? {u u' : Unifier} {n : Nat} {src dst : Ty} {r : Except AssignError Unit}
    (h : u.assign? n src dst = some (r, u')) : u.equated ⊆ u'.equated :=
  carries_assign? Unify.carries_equated (fun h => h) trivial trivial trivial h

end Unifier

end ProofScript
