import ProofScript.Proofs.Renumbering
import ProofScript.Proofs.Sessions

/-!
# Sessions with other numbers

Two sessions of comparisons that differ in the numbers they take, and in bindings that only the second
one has, give the same answers, and both have to go deeper in the same places.
-/

namespace ProofScript

open Function Stateful

variable {f : TyVar → TyVar} {F : Set TyVar} {c : TyVar}

namespace Ty

variable {g : TyVar → TyVar}

mutual

theorem renumber_congr (h : ∀ v ≤ c, f v = g v) :
    (t : Ty) → t.Orderly F c → t.renumber f = t.renumber g
  | var v, ht => by rw [renumber, renumber, h v ht]
  | rigid n i, ht => by rw [renumber, renumber, h i ht]
  | thunk r, ht => by rw [renumber, renumber, renumber_congr h r ht]
  | fn a r, ht => by rw [renumber, renumber, renumber_congr h a ht.1, renumber_congr h r ht.2]
  | con _ as, ht => by rw [renumber, renumber, renumberAll_congr h as ht]
  | poly ps b, ht => by
    have hps : ps.map (Prod.map id f) = ps.map (Prod.map id g) :=
      List.map_congr_left fun p hp => by rw [Prod.map, Prod.map, h p.2 (ht.1 p hp).2]
    rw [renumber, renumber, hps, renumber_congr h b ht.2]
  | never, _ => rfl
  | any, _ => rfl

theorem renumberAll_congr (h : ∀ v ≤ c, f v = g v) :
    (ts : List Ty) → OrderlyAll F c ts → renumberAll f ts = renumberAll g ts
  | [], _ => rfl
  | t :: rest, ht => by
    rw [renumberAll, renumberAll, renumber_congr h t ht.1, renumberAll_congr h rest ht.2]

end

end Ty

namespace Unifier

variable {u u' : Unifier}

/-- The second session binds the new numbers as the first one binds the old ones, and takes the new
numbers for those that the first one takes. -/
structure Mirrors (f : TyVar → TyVar) (u u' : Unifier) : Prop where
  subst : u.subst.Mirrors f u'.subst
  length : u.subst.length ≤ u'.subst.length
  fresh : ∀ n, 0 < n → f (u.counter + n) = u'.counter + n

theorem mirrors_id (u : Unifier) : u.Mirrors id u where
  subst v := by
    rw [id_eq]
    cases u.subst.find? v with
    | none => rfl
    | some t => rw [Option.map_some, Ty.renumber_id]
  length := Nat.le_refl _
  fresh _ _ := rfl

theorem Mirrors.resolve (h : u.Mirrors f u') (hf : Injective f) (hu : u.Apart F) (t : Ty) :
    u'.resolve (t.renumber f) = (u.resolve t).renumber f :=
  h.subst.resolve hf hu.subst.acyclic h.length t

theorem Mirrors.shallow (h : u.Mirrors f u') (hu : u.Apart F) (t : Ty) :
    u'.shallow (t.renumber f) = (u.shallow t).renumber f :=
  h.subst.shallow hu.subst.acyclic h.length t

theorem Mirrors.next (h : u.Mirrors f u') : f u.fresh.1 = u'.fresh.1 := h.fresh 1 (by decide)

theorem Mirrors.advance (h : u.Mirrors f u') : u.fresh.2.Mirrors f u'.fresh.2 where
  subst := h.subst
  length := h.length
  fresh n hn := by
    have hshift := h.fresh (1 + n) (by lia)
    rwa [← Int.add_assoc, ← Int.add_assoc] at hshift

theorem Mirrors.freshAll (h : u.Mirrors f u') (names : List String) :
    (u'.freshAll names).1 = (u.freshAll names).1.map f ∧
      (u.freshAll names).2.Mirrors f (u'.freshAll names).2 := by
  induction names generalizing u u' with
  | nil => exact ⟨rfl, h⟩
  | cons name rest ih =>
    obtain ⟨hrest, hmirrors⟩ := ih h.advance
    refine ⟨?_, hmirrors⟩
    simp only [Unifier.freshAll, List.map_cons, hrest, h.next]

theorem Mirrors.instantiate (h : u.Mirrors f u') (hf : Injective f) (ps : List (String × TyVar))
    (body : Ty) :
    (u'.instantiate (ps.map (Prod.map id f)) (body.renumber f)).1 =
        (u.instantiate ps body).1.renumber f ∧
      (u.instantiate ps body).2.Mirrors f
        (u'.instantiate (ps.map (Prod.map id f)) (body.renumber f)).2 := by
  obtain ⟨hvars, hmirrors⟩ := h.freshAll (ps.map Prod.fst)
  simp only [Unifier.instantiate, Ty.map_fst_renumber]
  refine ⟨?_, hmirrors⟩
  rw [hvars, ← Ty.instantiateWith_renumber hf]
  simp [Ty.renumber, comp_def]

theorem Mirrors.skolemize (h : u.Mirrors f u') (hf : Injective f) (ps : List (String × TyVar))
    (body : Ty) :
    (u'.skolemize (ps.map (Prod.map id f)) (body.renumber f)).1 =
        ((u.skolemize ps body).1.1.map (Prod.map id f), (u.skolemize ps body).1.2.renumber f) ∧
      (u.skolemize ps body).2.Mirrors f
        (u'.skolemize (ps.map (Prod.map id f)) (body.renumber f)).2 := by
  obtain ⟨hids, hmirrors⟩ := h.freshAll (ps.map Prod.fst)
  simp only [Unifier.skolemize, Ty.map_fst_renumber]
  refine ⟨?_, hmirrors⟩
  have hskolems : (ps.map Prod.fst).zip ((u.freshAll (ps.map Prod.fst)).1.map f) =
      ((ps.map Prod.fst).zip (u.freshAll (ps.map Prod.fst)).1).map (Prod.map id f) := by
    rw [← List.zip_map, List.map_id]
  rw [hids, hskolems, ← Ty.instantiateWith_renumber hf]
  simp [Ty.renumber, comp_def]

theorem Mirrors.bind (h : u.Mirrors f u') (hf : Injective f) {v : TyVar}
    (hv : u.subst.find? v = none) (t : Ty) :
    Mirrors f { u with subst := u.subst.insert v t }
      { u' with subst := u'.subst.insert (f v) (t.renumber f) } := by
  have hv' : u'.subst.find? (f v) = none := by rw [h.subst v, hv, Option.map_none]
  refine ⟨h.subst.insert hf v t, ?_, h.fresh⟩
  rw [Subst.length_insert hv, Subst.length_insert hv']
  exact Nat.succ_le_succ h.length

end Unifier

/-- The reason with other numbers. -/
def AssignError.renumber (f : TyVar → TyVar) : AssignError → AssignError
  | mismatch src dst => mismatch (src.renumber f) (dst.renumber f)
  | selfReference t => selfReference (t.renumber f)
  | escape name others => escape name others

theorem AssignError.renumber_id (e : AssignError) : e.renumber id = e := by
  cases e with
  | mismatch src dst => exact congrArg₂ mismatch (Ty.renumber_id src) (Ty.renumber_id dst)
  | selfReference t => exact congrArg selfReference (Ty.renumber_id t)
  | escape name others => rfl

/-- What a comparison stops with, with other numbers. -/
def Unify.Stop.renumber (f : TyVar → TyVar) : Unify.Stop → Unify.Stop
  | refused e => refused (e.renumber f)
  | deeper => deeper

theorem AssignError.message_renumber (hf : Injective f) (e : AssignError) :
    (e.renumber f).message = e.message := by
  cases e with
  | mismatch src dst =>
    simp only [renumber, message, Ty.text_renumber hf]
  | selfReference t =>
    simp only [renumber, message, Ty.text_renumber hf]
  | escape name others => rfl

namespace Unify

variable {u u' : Unifier} {m m' g g' : Unify Unit} {n : Nat}

/-- The outcome of a step of the first session, and that of the second session. -/
structure Mirrored (f : TyVar → TyVar) (F : Set TyVar) (u : Unifier)
    (r r' : Except Stop Unit × Unifier) : Prop where
  result : r'.1 = r.1.mapError (Stop.renumber f)
  mirrors : r.2.Mirrors f r'.2
  advances : u.Advances F F r.2

/-- From sessions that mirror each other, the two steps come to the same outcome. -/
def Tracks (f : TyVar → TyVar) (F : Set TyVar) (c : TyVar) (m m' : Unify Unit) : Prop :=
  ∀ u u', u.Apart F → u.Mirrors f u' → c ≤ u.counter → Mirrored f F u (m u) (m' u')

theorem mirrored_pure (hu : u.Apart F) (h : u.Mirrors f u') :
    Mirrored f F u ((pure () : Unify Unit) u) ((pure () : Unify Unit) u') :=
  ⟨rfl, h, .refl hu⟩

theorem mirrored_throw (hu : u.Apart F) (h : u.Mirrors f u') (e : Stop) :
    Mirrored f F u ((throw e : Unify Unit) u) ((throw (e.renumber f) : Unify Unit) u') :=
  ⟨rfl, h, .refl hu⟩

theorem tracks_bind (hm : Tracks f F c m m') (hg : Tracks f F c g g') :
    Tracks f F c (m >>= fun _ => g) (m' >>= fun _ => g') := by
  intro u u' hu h hc
  have hfirst := hm u u' hu h hc
  obtain ⟨r, mid, hrun⟩ : ∃ r mid, m u = (r, mid) := ⟨_, _, rfl⟩
  obtain ⟨r', mid', hrun'⟩ : ∃ r' mid', m' u' = (r', mid') := ⟨_, _, rfl⟩
  rw [hrun, hrun'] at hfirst
  cases r with
  | error e =>
    obtain rfl : r' = .error (e.renumber f) := hfirst.result
    rwa [bind_of_error hrun, bind_of_error hrun']
  | ok a =>
    obtain rfl : r' = .ok a := hfirst.result
    rw [bind_of_ok hrun, bind_of_ok hrun']
    have hadvances : u.Advances F F mid := hfirst.advances
    have hsecond := hg mid mid' hadvances.apart hfirst.mirrors (Int.le_trans hc hadvances.counter)
    exact ⟨hsecond.result, hsecond.mirrors, hadvances.trans hsecond.advances⟩

theorem tracks_forM {ps ps' : List (Ty × Ty)} {k k' : Ty × Ty → Unify Unit}
    (hps : ps' = ps.map (Prod.map (Ty.renumber f) (Ty.renumber f)))
    (hk : ∀ p ∈ ps, Tracks f F c (k p) (k' (Prod.map (Ty.renumber f) (Ty.renumber f) p))) :
    Tracks f F c (ps.forM k) (ps'.forM k') := by
  subst hps
  induction ps with
  | nil => exact fun u u' hu h _ => mirrored_pure hu h
  | cons p rest ih =>
    rw [List.forall_mem_cons] at hk
    exact tracks_bind hk.1 (ih hk.2)

/-- Binding a variable that is not bound. -/
theorem bindVar_mirrored (hf : Injective f) (hu : u.Apart F) (h : u.Mirrors f u') {v : TyVar} {t : Ty}
    (hv : u.subst.find? v = none) (hvar : (Ty.var v).Apart F u.counter) (ht : t.Apart F u.counter) :
    Mirrored f F u (bindVar v t u) (bindVar (f v) (t.renumber f) u') := by
  have hbind : Mirrored f F u
      ((if v ∈ (u.resolve t).freeVars then throw (.refused (.selfReference (u.resolve t)))
        else set { u with subst := u.subst.insert v t } : Unify Unit) u)
      ((if f v ∈ (u'.resolve (t.renumber f)).freeVars then
          throw (.refused (.selfReference (u'.resolve (t.renumber f))))
        else set { u' with subst := u'.subst.insert (f v) (t.renumber f) } : Unify Unit) u') := by
    simp only [h.resolve hf hu, Ty.freeVars_renumber hf, List.mem_map_of_injective hf]
    split
    · exact mirrored_throw hu h (.refused (.selfReference (u.resolve t)))
    · rename_i hfree
      exact ⟨rfl, h.bind hf hv t, hu.bind hv hvar ht hfree⟩
  rw [bindVar, get_bind, bindVar, get_bind]
  cases t with
  | var w =>
    simp only [Ty.renumber, hf.eq_iff]
    split
    · exact mirrored_pure hu h
    · exact hbind
  | _ => exact hbind

/-- The same type parameters escape, by name. -/
theorem escaping_mirrored (hf : Injective f) (hu : u.Apart F) (h : u.Mirrors f u')
    (vars : List TyVar) (skolems : List (String × TyVar)) :
    escaping u' (vars.map f) (skolems.map (Prod.map id f)) = escaping u vars skolems := by
  have hvar : ∀ v, u'.resolve (.var (f v)) = (u.resolve (.var v)).renumber f :=
    fun v => h.resolve hf hu (.var v)
  rw [escaping, escaping, List.filterMap_map]
  refine congrArg (fun g => List.filterMap g vars) (funext fun v => ?_)
  simp only [comp_apply, List.find?_map, Option.map_map, comp_def, hvar, Prod.map_fst, Prod.map_snd, id,
    Ty.mentions_renumber hf]

/-- The task with other numbers. -/
def Task.renumber (f : TyVar → TyVar) : Task → Task
  | equate s d => equate (s.renumber f) (d.renumber f)
  | accept => accept
  | bind v t => bind (f v) (t.renumber f)
  | generalize s ps b => generalize (s.renumber f) (ps.map (Prod.map id f)) (b.renumber f)
  | specialize ps b d => specialize (ps.map (Prod.map id f)) (b.renumber f) (d.renumber f)
  | parts pairs => parts (pairs.map (Prod.map (Ty.renumber f) (Ty.renumber f)))
  | refuse s d => refuse (s.renumber f) (d.renumber f)

theorem task_renumber (hf : Injective f) (s d : Ty) :
    task (s.renumber f) (d.renumber f) = (task s d).renumber f := by
  rw [task, task, Ty.eqv_renumber hf]
  split
  · rfl
  cases s <;> cases d <;> try rfl
  case con.con =>
    simp only [Ty.renumber, differing, Ty.renumberAll_eq_map, List.length_map]
    split
    · rw [List.zip_map]
      rfl
    · simp [Task.renumber, Ty.renumber, Ty.renumberAll_eq_map]

theorem confine_mirrored (hf : Injective f) (hu : u.Apart F) (h : u.Mirrors f u') (vars : List TyVar)
    (skolems : List (String × TyVar)) :
    Mirrored f F u (confine vars skolems u)
      (confine (vars.map f) (skolems.map (Prod.map id f)) u') := by
  rw [confine, get_bind, confine, get_bind, escaping_mirrored hf hu h]
  cases escaping u vars skolems with
  | nil => exact mirrored_pure hu h
  | cons name others => exact mirrored_throw hu h (.refused (.escape name others))

/-- Comparisons come to the same outcome, and have to go deeper in the same places. -/
theorem assign_tracks (hf : Injective f) (n : Nat) {c : TyVar} {src dst : Ty} (hsrc : src.Apart F c)
    (hdst : dst.Apart F c) :
    Tracks f F c (assign n src dst) (assign n (src.renumber f) (dst.renumber f)) := by
  induction n generalizing c src dst with
  | zero => exact fun u u' hu h _ => mirrored_throw hu h .deeper
  | succ n ih =>
    intro u u' hu h hc
    have hs := hu.shallow (hsrc.mono hc fun _ _ => .rfl)
    have hd := hu.shallow (hdst.mono hc fun _ _ => .rfl)
    have hsvar : ∀ v, u.shallow src = .var v → u.subst.find? v = none := fun v => hu.unbound
    have hdvar : ∀ v, u.shallow dst = .var v → u.subst.find? v = none := fun v => hu.unbound
    have hposes := poses_task (u.shallow src) (u.shallow dst)
    rw [assign_succ, assign_succ, h.shallow hu, h.shallow hu, task_renumber hf]
    generalize u.shallow src = s at hs hsvar hposes ⊢
    generalize u.shallow dst = d at hd hdvar hposes ⊢
    generalize task s d = t at hposes ⊢
    cases t with
    | equate => exact ⟨rfl, ⟨h.subst, h.length, h.fresh⟩, hu.equate _⟩
    | accept => exact mirrored_pure hu h
    | bind =>
      cases hposes with
      | bindSource => exact bindVar_mirrored hf hu h (hsvar _ rfl) hs hd
      | bindTarget => exact bindVar_mirrored hf hu h (hdvar _ rfl) hd hs
    | generalize s ps b =>
      cases hposes
      obtain ⟨hadvances, hbody⟩ := hu.skolemize hd
      obtain ⟨hskolems, hmirrors⟩ := h.skolemize hf ps b
      have hvars : (s.renumber f).freeVars ++
          (Ty.poly (ps.map (Prod.map id f)) (b.renumber f)).freeVars =
            (s.freeVars ++ (Ty.poly ps b).freeVars).map f := by
        rw [List.map_append, ← Ty.freeVars_renumber hf, ← Ty.freeVars_renumber hf, Ty.renumber]
      rw [Task.run, get_bind, set_bind, Task.renumber, Task.run, get_bind, set_bind, hskolems, hvars]
      have hconfine : Tracks f F (u.skolemize ps b).2.counter
          (confine (s.freeVars ++ (Ty.poly ps b).freeVars) (u.skolemize ps b).1.1)
          (confine ((s.freeVars ++ (Ty.poly ps b).freeVars).map f)
            ((u.skolemize ps b).1.1.map (Prod.map id f))) :=
        fun _ _ hu h _ => confine_mirrored hf hu h _ _
      have hrun := tracks_bind (ih (hadvances.type hs) hbody) hconfine _ _ hadvances.apart hmirrors
        (Int.le_refl _)
      exact ⟨hrun.result, hrun.mirrors, hadvances.trans hrun.advances⟩
    | specialize ps b =>
      cases hposes
      obtain ⟨hadvances, hbody⟩ := hu.instantiate hs
      obtain ⟨hinstance, hmirrors⟩ := h.instantiate hf ps b
      rw [Task.run, get_bind, set_bind, Task.renumber, Task.run, get_bind, set_bind, hinstance]
      have hrun := ih hbody (hadvances.type hd) _ _ hadvances.apart hmirrors (Int.le_refl _)
      exact ⟨hrun.result, hrun.mirrors, hadvances.trans hrun.advances⟩
    | parts pairs =>
      have hpairs := (inherits_apart F u.counter).parts hposes hs hd
      exact tracks_forM rfl (fun p hp => ih (hpairs p hp).1 (hpairs p hp).2) u u' hu h (Int.le_refl _)
    | refuse => exact mirrored_throw hu h (.refused (.mismatch _ _))

end Unify

namespace Unifier

variable {u u' : Unifier} {n : Nat} {src dst : Ty}

/-- Whether a type fits another is answered in the same way. -/
theorem Mirrors.assign? (h : u.Mirrors f u') (hf : Injective f) (hu : u.Apart F)
    (hsrc : src.Apart F u.counter) (hdst : dst.Apart F u.counter) :
    match u.assign? n src dst with
    | none => u'.assign? n (src.renumber f) (dst.renumber f) = none
    | some (r, later) =>
      ∃ later', u'.assign? n (src.renumber f) (dst.renumber f) =
        some (r.mapError (AssignError.renumber f), later') ∧ later.Mirrors f later' ∧
          u.Advances F F later := by
  have hrun := Unify.assign_tracks hf n hsrc hdst u u' hu h (Int.le_refl _)
  rw [assign?_eq, assign?_eq]
  obtain ⟨result, later, hfirst⟩ : ∃ r later, Unify.assign n src dst u = (r, later) := ⟨_, _, rfl⟩
  obtain ⟨result', later', hsecond⟩ : ∃ r later,
    Unify.assign n (src.renumber f) (dst.renumber f) u' = (r, later) := ⟨_, _, rfl⟩
  rw [hfirst, hsecond] at hrun ⊢
  obtain ⟨hresult, hmirrors, hadvances⟩ := hrun
  obtain rfl : result' = result.mapError (Unify.Stop.renumber f) := hresult
  -- Where it fails, the bindings of before are restored, but the numbers stay taken.
  have hkept : Mirrors f { later with subst := u.subst } { later' with subst := u'.subst } :=
    ⟨h.subst, h.length, hmirrors.fresh⟩
  have hrestored : u.Advances F F { later with subst := u.subst } := hadvances.restore hu
  cases result with
  | ok _ => exact ⟨later', rfl, hmirrors, hadvances⟩
  | error e =>
    cases e with
    | deeper => rfl
    | refused e =>
      cases e with
      | mismatch a b =>
        refine ⟨_, ?_, hkept, hrestored⟩
        simp only [conclude, Except.mapError, Unify.Stop.renumber, AssignError.renumber,
          hkept.resolve hf hrestored.apart]
      | selfReference t => exact ⟨_, rfl, hkept, hrestored⟩
      | escape name others => exact ⟨_, rfl, hkept, hrestored⟩

end Unifier

end ProofScript
