import ProofScript.Proofs.Capture
import ProofScript.Proofs.Checking.Course

/-!
# What the course of a check keeps

A recorded step starts with types at hand. It keeps variables and binders apart, it binds only variables
that these types lead to, and a constant that no variable from before leads to when an arrow returns is not
led to later either. Each of the three is kept by one step after the other.
-/

namespace ProofScript

open Program Stateful

variable {F F' : Set TyVar} {Z : Set TyVar} {K : String → TyVar → Prop}

/-! ## Types that lead to a constant -/

namespace Subst

variable {σ : Subst} {n : String} {i c : TyVar} {t : Ty}

/-- No variable up to a number leads to the constant. -/
def Hides (σ : Subst) (c : TyVar) (n : String) (i : TyVar) : Prop :=
  ∀ v ≤ c, ¬ σ.Exposes n i (.var v)

/-- Types from before the constant do not lead to it if variables from before do not. -/
theorem Hides.not_exposes {c' : TyVar} (h : σ.Hides c n i) (ht : t.Orderly F c') (hc : c' ≤ c)
    (hi : c < i) : ¬ σ.Exposes n i t := by
  intro hexposes
  cases hexposes with
  | here hm =>
    have hle := ht.mentions t hm
    lia
  | within hv hs hexposes =>
    exact h _ (Int.le_trans (ht.le t hv) hc) (exposes_var.mpr ⟨_, hs, hexposes⟩)

end Subst

/-! ## Bindings of confined types -/

namespace Unifier

variable {u u' : Unifier} {t : Ty}

/-- Variables and binders are apart, and only variables are bound. -/
structure Tidy (F : Set TyVar) (u : Unifier) : Prop where
  apart : u.Apart F
  bound : ∀ v t, u.subst.find? v = some t → v ∈ F

theorem Advances.tidy (h : u.Advances F F u') (hu : u.Tidy F) : u'.Tidy F where
  apart := h.apart
  bound v t hv := by
    by_contra hF
    have hle : v ≤ u.counter := by
      by_contra hlt
      exact hF (hu.apart.fresh v (Int.not_le.mp hlt))
    rw [h.kept v hle hF] at hv
    exact hF (hu.bound v t hv)

theorem Advances.tidy_of_subst (h : u.Advances F F' u') (hsubst : u'.subst = u.subst)
    (hu : u.Tidy F) : u'.Tidy F' where
  apart := h.apart
  bound v t hv := by
    rw [hsubst] at hv
    exact (h.uses v (hu.apart.subst.orderly v t hv).1).mpr (hu.bound v t hv)

theorem Confined.apply (h : u.Confined Z K) (ht : t.Confined Z K) :
    (t.apply u.subst).Confined Z K where
  vars v hv := by
    rcases Ty.mem_freeVars_of_apply t hv with ⟨hv, -⟩ | ⟨w, hw, s, hs, hv⟩
    · exact ht.vars v hv
    · exact (h.bound w (ht.vars w hw) s hs).vars v hv
  consts n i hm := by
    rcases (Ty.mentions_apply t).mp hm with hm | ⟨w, hw, s, hs, hm⟩
    · exact ht.consts n i hm
    · exact (h.bound w (ht.vars w hw) s hs).consts n i hm

theorem Confined.resolve (h : u.Confined Z K) (ht : t.Confined Z K) :
    (u.resolve t).Confined Z K :=
  Subst.resolve_induct (p := fun t => t.Confined Z K) ht fun _ ht => h.apply ht

/-- What is confined to variables and constants other than those that lead to a constant hides it. -/
theorem Confined.hides {c : TyVar} {n : String} {i : TyVar}
    (h : u'.Confined {v | u.counter < v ∨ ¬ u.subst.Exposes n i (.var v)} fun m j => ¬ (m = n ∧ j = i))
    (hu : u.subst.Hides c n i) : u'.subst.Hides c n i := by
  intro v hv hexposes
  refine h.of_exposes ⟨fun w hw => .inr ?_, by simp [Ty.mentions]⟩ hexposes ⟨rfl, rfl⟩
  rw [Ty.freeVars, List.mem_singleton] at hw
  exact hw ▸ hu v hv

/-- Numbers may be taken. -/
theorem Confined.advance (h : u.Confined Z K) (hcounter : u.counter ≤ u'.counter)
    (hsubst : u'.subst = u.subst) : u.Spreads Z K u' where
  confined :=
    { vars := fun v hv => h.vars v (Int.lt_of_le_of_lt hcounter hv)
      consts := fun n i hi => h.consts n i (Int.lt_of_le_of_lt hcounter hi)
      bound := fun v hv t ht => h.bound v hv t (hsubst ▸ ht) }
  kept v t hv := hsubst ▸ hv
  outside v _ := by rw [hsubst]

end Unifier

namespace Unifier

variable {u u' : Unifier} {n : Nat} {src dst : Ty} {r : Except AssignError Unit}

/-- A comparison from the outside binds only variables that confined types may use. -/
theorem Confined.assign? (hu : u.Apart F) (hsrc : src.Apart F u.counter)
    (hdst : dst.Apart F u.counter) (hc : u.Confined Z K) (hcsrc : src.Confined Z K)
    (hcdst : dst.Confined Z K) (h : u.assign? n src dst = some (r, u')) : u.Spreads Z K u' := by
  refine (carries_assign? (Unify.carries_spreads F Z K) (fun hlater => ?_) ⟨hu, hc⟩ ⟨hsrc, hcsrc⟩
    ⟨hdst, hcdst⟩ h).2
  exact ⟨hlater.1.restore hu, hc.advance hlater.1.counter rfl⟩

end Unifier

namespace Checker

/-! ## Points and events -/

section

variable {c c' : TyVar}

/-- The latest number that is taken when the event happens. -/
def Event.start : Event → TyVar
  | .reaches p => p.unifier.counter
  | .compares u _ _ _ => u.counter
  | .returns p _ _ _ => p.unifier.counter

/-- Variables and binders are apart, and only variables are bound, where the types at hand are included. -/
structure Point.Tidy (F : Set TyVar) (p : Point) : Prop where
  unifier : p.unifier.Tidy F
  known : ∀ t ∈ p.known, t.Apart F p.unifier.counter

/-- All that is at hand at the point is confined. -/
structure Point.Confined (Z : Set TyVar) (K : String → TyVar → Prop) (p : Point) : Prop where
  unifier : p.unifier.Confined Z K
  known : ∀ t ∈ p.known, t.Confined Z K

/-- No variable up to a number and nothing that is at hand leads to the constant. -/
structure Point.Hides (c : TyVar) (n : String) (i : TyVar) (p : Point) : Prop where
  vars : p.unifier.subst.Hides c n i
  known : ∀ t ∈ p.known, ¬ p.unifier.subst.Exposes n i t

/-- The event comes to tidy points only, and an arrow returns to the scope that it was begun in, where what
was bound then still is. -/
structure Event.Tidy (F : Set TyVar) (e : Event) : Prop where
  points : ∀ p, e.Comes p → p.Tidy F
  begun : ∀ p opened gs f, e = .returns p opened gs f → opened.counter ≤ p.unifier.counter ∧
    opened.subst.Apart F opened.counter ∧ (∀ t ∈ p.scope.identifiers, t.Apart F opened.counter) ∧
    ∀ v t, opened.subst.find? v = some t → p.unifier.subst.find? v = some t

/-- The event is tidy, where the variables are those of `F` and numbers that are not yet taken. The numbers of
an arrow's type parameters are used for nothing within the type that they are bound in. -/
structure Event.Sound (F : Set TyVar) (e : Event) : Prop where
  tidy : ∃ F₀, (∀ v ≤ e.start, v ∈ F ↔ v ∈ F₀) ∧ (∀ v, e.start < v → v ∈ F₀) ∧ e.Tidy F₀
  params : ∀ p opened gs f, e = .returns p opened gs f →
    ∀ v ∈ Generic.vars gs, v ∉ f.binders ∧ v ∉ f.freeVars

def Event.Confined (Z : Set TyVar) (K : String → TyVar → Prop) (e : Event) : Prop :=
  ∀ p, e.Comes p → p.Confined Z K

def Event.Hides (c : TyVar) (n : String) (i : TyVar) (e : Event) : Prop :=
  ∀ p, e.Comes p → p.Hides c n i

/-- An arrow returns that was begun at `opened`, and no variable that the identifiers in scope left open
then leads to the constant, which stands for a type parameter of the arrow. -/
def Event.Seals (opened : Unifier) (n : String) (i : TyVar) (e : Event) : Prop :=
  ∃ p gs f, e = .returns p opened gs f ∧ (∃ g ∈ gs, g.1 = n ∧ g.2.2 = i) ∧
    ∀ t ∈ p.scope.identifiers, ∀ v ∈ (opened.resolve t).freeVars,
      ¬ p.unifier.subst.Exposes n i (.var v)

theorem Event.Sound.mono {e : Event} (h : e.Sound F) (hF : ∀ v ≤ e.start, v ∈ F' ↔ v ∈ F) :
    e.Sound F' where
  tidy := by
    obtain ⟨F₀, huses, hnew, htidy⟩ := h.tidy
    exact ⟨F₀, fun v hv => (hF v hv).trans (huses v hv), hnew, htidy⟩
  params := h.params

theorem Point.Confined.hides {p : Point} {u : Unifier} {n : String} {i : TyVar}
    (h : p.Confined {v | u.counter < v ∨ ¬ u.subst.Exposes n i (.var v)} fun m j => ¬ (m = n ∧ j = i))
    (hu : u.subst.Hides c n i) : p.Hides c n i where
  vars := h.unifier.hides hu
  known t ht hexposes := h.unifier.of_exposes (h.known t ht) hexposes ⟨rfl, rfl⟩

end

/-! ## What a run keeps -/

/-- The state that a run ends in and the types that it finds, unless it stops. -/
def Recorder.last {α : Type} (found : α → List Ty) :
    Except Stop α × Trace → Option (Unifier × List Ty)
  | (.ok a, x) => some (x.state.unifier, found a)
  | (.error _, _) => none

/-- The events later than the return of an arrow hide a constant, and so does the state in the end. -/
structure Hidden (u : Unifier) (c : TyVar) (n : String) (i : TyVar) (later : List Event)
    (last : Option (Unifier × List Ty)) : Prop where
  older : u.counter ≤ c
  newer : c < i
  events : ∀ e ∈ later, e.Hides c n i
  state : ∀ u' found, last = some (u', found) → i ≤ u'.counter ∧
    u'.subst.Hides c n i ∧ ∀ t ∈ found, ¬ u'.subst.Exposes n i t

/-- What a step keeps that goes from `u` to `u'` with the types `ts` at hand. -/
structure Carried (F : Set TyVar) (ts : List Ty) (u : Unifier) (found : List Ty) (u' : Unifier) :
    Prop where
  sound : ∃ F', u.Advances F F' u' ∧ u'.Tidy F' ∧ ∀ t ∈ found, t.Apart F' u'.counter
  confined : ∀ Z K, K "True" 0 → u.Confined Z K → (∀ t ∈ ts, t.Confined Z K) →
    u.Spreads Z K u' ∧ ∀ t ∈ found, t.Confined Z K

/-- What a run keeps that starts in `u` with the types `ts` at hand. -/
structure Safe (F : Set TyVar) (ts : List Ty) (u : Unifier) (events : List Event)
    (last : Option (Unifier × List Ty)) : Prop where
  sorted : events.Pairwise fun e e' => e.start ≤ e'.start
  sound : ∃ F' c, u.counter ≤ c ∧ (∀ v ≤ u.counter, v ∈ F' ↔ v ∈ F) ∧
    (∀ e ∈ events, u.counter ≤ e.start ∧ e.start ≤ c ∧ e.Sound F') ∧
    ∀ u' found, last = some (u', found) → c = u'.counter ∧ u.Advances F F' u' ∧ u'.Tidy F' ∧
      ∀ t ∈ found, t.Apart F' u'.counter
  confined : ∀ Z K, K "True" 0 → u.Confined Z K → (∀ t ∈ ts, t.Confined Z K) →
    (∀ e ∈ events, e.Confined Z K) ∧
    ∀ u' found, last = some (u', found) → u.Spreads Z K u' ∧ ∀ t ∈ found, t.Confined Z K
  hidden : ∀ before e after, events = before ++ e :: after → ∀ opened n i, e.Seals opened n i →
    Hidden u opened.counter n i (e :: after) last

/-- The recorded step is safe wherever the given types are at hand. -/
def Recorder.Keeps {α : Type} (ts : List Ty) (found : α → List Ty) (m : Recorder α) : Prop :=
  ∀ x, ∃ events, (m x).2.events = x.events ++ events ∧
    ∀ F, x.state.unifier.Tidy F → (∀ t ∈ ts, t.Apart F x.state.unifier.counter) →
      Safe F ts x.state.unifier events (last found (m x))

/-- The second types are apart and confined where the first ones are. -/
structure Derives (ts ts' : List Ty) : Prop where
  apart : ∀ {F : Set TyVar} {c : TyVar}, (∀ t ∈ ts, t.Apart F c) → ∀ t ∈ ts', t.Apart F c
  confined : ∀ {Z : Set TyVar} {K : String → TyVar → Prop}, (∀ t ∈ ts, t.Confined Z K) →
    ∀ t ∈ ts', t.Confined Z K

namespace Derives

variable {ts ts' ts'' : List Ty}

theorem of_subset (h : ts' ⊆ ts) : Derives ts ts' :=
  ⟨fun hts t ht => hts t (h ht), fun hts t ht => hts t (h ht)⟩

theorem append (h : Derives ts ts') (h' : Derives ts ts'') : Derives ts (ts' ++ ts'') where
  apart hts t ht := (List.mem_append.mp ht).elim (h.apart hts t) (h'.apart hts t)
  confined hts t ht := (List.mem_append.mp ht).elim (h.confined hts t) (h'.confined hts t)

theorem any : Derives ts [.any] where
  apart _ t ht := apart_any (List.mem_singleton.mp ht)
  confined _ t ht := by
    rw [List.mem_singleton.mp ht]
    exact ⟨by simp [Ty.freeVars], by simp [Ty.mentions]⟩

theorem void : Derives ts [.con "void" []] where
  apart _ t ht := by
    rw [List.mem_singleton.mp ht]
    exact ⟨trivial, by simp [Ty.freeVars, Ty.freeVarsAll]⟩
  confined _ t ht := by
    rw [List.mem_singleton.mp ht]
    exact ⟨by simp [Ty.freeVars, Ty.freeVarsAll], by simp [Ty.mentions, Ty.mentionsAny]⟩

theorem thunk {r : Ty} (h : .thunk r ∈ ts) : Derives ts [r] where
  apart hts := by simpa using Ty.apart_thunk.mp (hts _ h)
  confined hts := by simpa using Ty.confined_thunk.mp (hts _ h)

theorem fn {a r : Ty} (h : .fn a r ∈ ts) : Derives ts [a, r] where
  apart hts := by simpa using Ty.apart_fn.mp (hts _ h)
  confined hts := by simpa using Ty.confined_fn.mp (hts _ h)

theorem func {param : Option Ty} {r : Ty} (hparam : ∀ a ∈ param, a ∈ ts) (hr : r ∈ ts) :
    Derives ts [.func param r] where
  apart hts t ht := by
    rw [List.mem_singleton.mp ht]
    exact Ty.apart_func.mpr ⟨fun a ha => hts a (hparam a ha), hts r hr⟩
  confined hts t ht := by
    rw [List.mem_singleton.mp ht]
    cases param with
    | none => exact Ty.confined_thunk.mpr (hts r hr)
    | some a => exact Ty.confined_fn.mpr ⟨hts a (hparam a rfl), hts r hr⟩

end Derives

theorem Carried.refl {ts : List Ty} {u : Unifier} {found : List Ty} (hu : u.Tidy F)
    (hts : ∀ t ∈ ts, t.Apart F u.counter) (h : Derives ts found) : Carried F ts u found u where
  sound := ⟨F, .refl hu.apart, hu, h.apart hts⟩
  confined _ _ _ hc hcts := ⟨.refl hc, h.confined hcts⟩

theorem Carried.safe {ts : List Ty} {u u' : Unifier} {found : List Ty}
    (h : Carried F ts u found u') : Safe F ts u [] (some (u', found)) where
  sorted := .nil
  sound := by
    obtain ⟨F', hadvances, htidy, hfound⟩ := h.sound
    refine ⟨F', u'.counter, hadvances.counter, hadvances.uses, by simp, ?_⟩
    rintro _ _ ⟨⟩
    exact ⟨rfl, hadvances, htidy, hfound⟩
  confined Z K hK hc hcts := by
    refine ⟨by simp, ?_⟩
    rintro _ _ ⟨⟩
    exact h.confined Z K hK hc hcts
  hidden before e after heq := by simp at heq

namespace Safe

variable {ts : List Ty} {u mid : Unifier} {events more : List Event} {found : List Ty}
  {last : Option (Unifier × List Ty)}

/-- The run stops, and nothing happens. -/
theorem stops : Safe F ts u [] none where
  sorted := .nil
  sound := ⟨F, u.counter, Int.le_refl _, fun _ _ => .rfl, by simp, by simp⟩
  confined _ _ _ _ _ := by simp
  hidden before e after heq := by simp at heq

/-- What is hidden stays hidden. -/
theorem hidden_later {c : TyVar} {n : String} {i : TyVar} {later : List Event}
    (hu : u.Tidy F) (hts : ∀ t ∈ ts, t.Apart F u.counter)
    (h : Hidden u c n i later (some (mid, found))) (hmid : mid.Tidy F')
    (h' : Safe F' (found ++ ts) mid more last) : Hidden u c n i (later ++ more) last := by
  obtain ⟨hle, hvars, hfound⟩ := h.state mid found rfl
  have hc := Unify.confined_hidden hmid.apart (n := n) hle
  have htrue : ¬ ("True" = n ∧ 0 = i) := by
    rintro ⟨-, rfl⟩
    exact Int.not_le.mpr h.newer (Int.le_trans hu.apart.nonneg h.older)
  have hcts : ∀ t ∈ found ++ ts, ¬ mid.subst.Exposes n i t := by
    intro t ht
    rcases List.mem_append.mp ht with ht | ht
    · exact hfound t ht
    · exact hvars.not_exposes (hts t ht).orderly h.older h.newer
  obtain ⟨hevents, hend⟩ := h'.confined _ _ htrue hc fun t ht =>
    Unify.confined_of_not_exposes (hcts t ht)
  refine ⟨h.older, h.newer, fun e he => ?_, fun u' found' hlast => ?_⟩
  · rcases List.mem_append.mp he with he | he
    · exact h.events e he
    · exact fun p hp => (hevents e he p hp).hides hvars
  · obtain ⟨hspreads, hcfound⟩ := hend u' found' hlast
    obtain ⟨_, c', hcounter, -, -, hsound⟩ := h'.sound
    obtain ⟨rfl, -⟩ := hsound u' found' hlast
    exact ⟨Int.le_trans hle hcounter, hspreads.confined.hides hvars, fun t ht hexposes =>
      hspreads.confined.of_exposes (hcfound t ht) hexposes ⟨rfl, rfl⟩⟩

theorem append (hu : u.Tidy F) (hts : ∀ t ∈ ts, t.Apart F u.counter)
    (h : Safe F ts u events (some (mid, found)))
    (h' : ∀ F', mid.Tidy F' → (∀ t ∈ found ++ ts, t.Apart F' mid.counter) →
      Safe F' (found ++ ts) mid more last) : Safe F ts u (events ++ more) last := by
  obtain ⟨F₁, c, -, -, hevents, hend⟩ := h.sound
  obtain ⟨rfl, hadvances, hmid, hfound⟩ := hend mid found rfl
  have hlater : ∀ t ∈ found ++ ts, t.Apart F₁ mid.counter := by
    intro t ht
    rcases List.mem_append.mp ht with ht | ht
    · exact hfound t ht
    · exact hadvances.type (hts t ht)
  have hsecond := h' F₁ hmid hlater
  constructor
  case sorted =>
    obtain ⟨F₂, c, -, -, hmore, -⟩ := hsecond.sound
    refine List.pairwise_append.mpr ⟨h.sorted, hsecond.sorted, fun e he e' he' => ?_⟩
    exact Int.le_trans (hevents e he).2.1 (hmore e' he').1
  case sound =>
    obtain ⟨F₂, c, hc, huses, hmore, hend'⟩ := hsecond.sound
    refine ⟨F₂, c, Int.le_trans hadvances.counter hc, fun v hv => ?_, fun e he => ?_, ?_⟩
    · exact (huses v (Int.le_trans hv hadvances.counter)).trans (hadvances.uses v hv)
    · rcases List.mem_append.mp he with he | he
      · obtain ⟨hle, hstart, hsound⟩ := hevents e he
        exact ⟨hle, Int.le_trans hstart hc, hsound.mono fun v hv => huses v (Int.le_trans hv hstart)⟩
      · obtain ⟨hle, hstart, hsound⟩ := hmore e he
        exact ⟨Int.le_trans hadvances.counter hle, hstart, hsound⟩
    · intro u' found' hlast
      obtain ⟨hcounter, hadvances', htidy, hfound'⟩ := hend' u' found' hlast
      exact ⟨hcounter, hadvances.trans hadvances', htidy, hfound'⟩
  case confined =>
    intro Z K hK hc hcts
    obtain ⟨hevents, hend⟩ := h.confined Z K hK hc hcts
    obtain ⟨hspreads, hcfound⟩ := hend mid found rfl
    obtain ⟨hmore, hend'⟩ := hsecond.confined Z K hK hspreads.confined fun t ht =>
      (List.mem_append.mp ht).elim (hcfound t) (hcts t)
    refine ⟨fun e he => (List.mem_append.mp he).elim (hevents e) (hmore e), fun u' found' hlast => ?_⟩
    obtain ⟨hspreads', hcfound'⟩ := hend' u' found' hlast
    exact ⟨hspreads.trans hspreads', hcfound'⟩
  case hidden =>
    intro before e after heq opened n i hseals
    rcases List.append_eq_append_iff.mp heq with ⟨rest, rfl, hmore⟩ | ⟨rest, hevents, hrest⟩
    · obtain ⟨hopened, hnew, hlater, hlast⟩ := hsecond.hidden rest e after hmore opened n i hseals
      exact ⟨Int.le_trans hadvances.counter hopened, hnew, hlater, hlast⟩
    · cases rest with
      | nil =>
        obtain ⟨hopened, hnew, hlater, hlast⟩ :=
          hsecond.hidden [] e after (by simpa using hrest.symm) opened n i hseals
        exact ⟨Int.le_trans hadvances.counter hopened, hnew, hlater, hlast⟩
      | cons x rest =>
        obtain ⟨rfl, rfl⟩ : e = x ∧ after = rest ++ more := by simpa using hrest
        exact hidden_later hu hts (h.hidden before e rest hevents opened n i hseals) hmid hsecond

end Safe

namespace Recorder.Keeps

variable {α β : Type} {ts : List Ty} {found : α → List Ty} {found' : β → List Ty}

theorem pure {a : α} (h : Derives ts (found a)) : Keeps ts found (pure a) :=
  fun _ => ⟨[], (List.append_nil _).symm, fun _ hu hts => (Carried.refl hu hts h).safe⟩

theorem mono {m : Recorder α} {ts' : List Ty} (h : Keeps ts' found m) (hts' : Derives ts ts') :
    Keeps ts found m := by
  intro x
  obtain ⟨events, heq, hsafe⟩ := h x
  refine ⟨events, heq, fun F hu hts => ?_⟩
  obtain ⟨hsorted, hsound, hconfined, hhidden⟩ := hsafe F hu (hts'.apart hts)
  exact ⟨hsorted, hsound, fun Z K hK hc hcts => hconfined Z K hK hc (hts'.confined hcts), hhidden⟩

theorem of_subset {m : Recorder α} {ts' : List Ty} (h : Keeps ts' found m) (hsub : ts' ⊆ ts) :
    Keeps ts found m :=
  h.mono (.of_subset hsub)

/-- One step after the other, where the second may use what the first finds. -/
theorem bind {m : Recorder α} {f : α → Recorder β} (h : Keeps ts found m)
    (hf : ∀ a x y, m x = (.ok a, y) → Keeps (found a ++ ts) found' (f a)) :
    Keeps ts found' (m >>= f) := by
  intro x
  obtain ⟨events, heq, hsafe⟩ := h x
  obtain ⟨r, y, hrun⟩ : ∃ r y, m x = (r, y) := ⟨_, _, rfl⟩
  rw [hrun] at heq hsafe
  cases r with
  | error e =>
    rw [bind_of_error hrun]
    exact ⟨events, heq, hsafe⟩
  | ok a =>
    rw [bind_of_ok hrun]
    obtain ⟨more, hmore, hsafe'⟩ := hf a x y hrun y
    refine ⟨events ++ more, by rw [hmore, heq, List.append_assoc], fun F hu hts => ?_⟩
    exact (hsafe F hu hts).append hu hts hsafe'

/-- What is derived from what a run finds may be found instead. -/
theorem derive {m : Recorder α} {found' : α → List Ty} (h : Keeps ts found m)
    (hfound : ∀ a x y, m x = (.ok a, y) → Derives (found a ++ ts) (found' a)) :
    Keeps ts found' m := by
  rw [← bind_pure m]
  exact h.bind fun a x y hrun => pure (hfound a x y hrun)

/-- A step of the checker that writes down nothing. -/
theorem lift {m : Checker α}
    (h : ∀ s a s', m s = (.ok a, s') → ∀ F, s.unifier.Tidy F →
      (∀ t ∈ ts, t.Apart F s.unifier.counter) → Carried F ts s.unifier (found a) s'.unifier) :
    Keeps ts found (lift m) := by
  intro x
  refine ⟨[], (List.append_nil _).symm, fun F hu hts => ?_⟩
  obtain ⟨r, s', hrun⟩ : ∃ r s', m x.state = (r, s') := ⟨_, _, rfl⟩
  rw [lift_of_eq hrun]
  cases r with
  | error e => exact .stops
  | ok a => exact (h x.state a s' hrun F hu hts).safe

theorem lift_bind {m : Checker α} {f : α → Checker β}
    (h : Keeps ts found' (Recorder.lift m >>= fun a => Recorder.lift (f a))) :
    Keeps ts found' (Recorder.lift (m >>= f)) := by
  have heq : (Recorder.lift m >>= fun a => Recorder.lift (f a)) = Recorder.lift (m >>= f) := by
    funext x
    obtain ⟨r, s', hrun⟩ : ∃ r s', m x.state = (r, s') := ⟨_, _, rfl⟩
    cases r with
    | error e => rw [bind_of_error (lift_of_eq hrun), lift_of_eq (bind_of_error hrun)]
    | ok a =>
      rw [bind_of_ok (lift_of_eq hrun), Recorder.lift, Recorder.lift, bind_of_ok hrun]
  exact heq ▸ h

/-- An event other than the return of an arrow. -/
theorem note {e : Unifier → Event} (hstart : ∀ u, (e u).start = u.counter)
    (hreturns : ∀ u p opened gs f, e u ≠ .returns p opened gs f)
    (htidy : ∀ F u, u.Tidy F → (∀ t ∈ ts, t.Apart F u.counter) → ∀ p, (e u).Comes p → p.Tidy F)
    (hconfined : ∀ F Z K u, u.Tidy F → (∀ t ∈ ts, t.Apart F u.counter) → u.Confined Z K →
      (∀ t ∈ ts, t.Confined Z K) → (e u).Confined Z K) :
    Keeps ts (fun _ => []) (note e) := by
  intro x
  refine ⟨[e x.state.unifier], rfl, fun F hu hts => ?_⟩
  have hend : ∀ u' found, last (fun _ => []) (Recorder.note e x) = some (u', found) →
      u' = x.state.unifier ∧ found = [] := by
    rintro u' found ⟨⟩
    exact ⟨rfl, rfl⟩
  constructor
  case sorted => exact List.pairwise_singleton _ _
  case sound =>
    refine ⟨F, x.state.unifier.counter, Int.le_refl _, fun _ _ => .rfl, ?_, ?_⟩
    · rw [List.forall_mem_singleton, hstart]
      refine ⟨Int.le_refl _, Int.le_refl _, ⟨F, fun _ _ => .rfl, ?_, htidy F _ hu hts, ?_⟩, ?_⟩
      · rw [hstart]
        exact hu.apart.fresh
      · exact fun p opened gs f heq => absurd heq (hreturns _ p opened gs f)
      · exact fun p opened gs f heq => absurd heq (hreturns _ p opened gs f)
    · intro u' found hlast
      obtain ⟨rfl, rfl⟩ := hend u' found hlast
      exact ⟨rfl, .refl hu.apart, hu, by simp⟩
  case confined =>
    intro Z K _ hc hcts
    refine ⟨by simpa using hconfined F Z K _ hu hts hc hcts, fun u' found hlast => ?_⟩
    obtain ⟨rfl, rfl⟩ := hend u' found hlast
    exact ⟨.refl hc, by simp⟩
  case hidden =>
    rintro before e' after heq opened n i ⟨p, gs, f, rfl, -⟩
    cases before with
    | nil =>
      simp only [List.nil_append, List.cons.injEq] at heq
      exact absurd heq.1 (hreturns _ p opened gs f)
    | cons y before => simp at heq

theorem reaching {sc : Scope} {ts' : List Ty} (hsc : sc.known ⊆ ts) (hts' : ts' ⊆ ts) :
    Keeps ts (fun _ => []) (Recorder.note fun u => .reaches ⟨u, sc, ts'⟩) := by
  have hmem : ∀ u, ∀ t ∈ (Point.mk u sc ts').known, t ∈ ts := fun u t ht =>
    (List.mem_append.mp ht).elim (fun ht => hsc ht) fun ht => hts' ht
  refine note (fun _ => rfl) (by simp) ?_ ?_
  · rintro F u hu hts p ⟨⟩
    exact ⟨hu, fun t ht => hts t (hmem u t ht)⟩
  · rintro F Z K u - - hc hcts p ⟨⟩
    exact ⟨hc, fun t ht => hcts t (hmem u t ht)⟩

theorem comparing {sc : Scope} {src dst : Ty} (hsc : sc.known ⊆ ts) (hsrc : src ∈ ts)
    (hdst : dst ∈ ts) : Keeps ts (fun _ => []) (comparing sc src dst) := by
  refine note (fun _ => rfl) (by simp) ?_ ?_
  · intro F u hu hts p hp
    cases hp with | compares hvisits => ?_
    obtain ⟨hadvances, hcompared⟩ :=
      (Unify.carries_advances F).visits hvisits hu.apart (hts _ hsrc) (hts _ hdst)
    refine ⟨hadvances.tidy hu, fun t ht => ?_⟩
    rcases List.mem_append.mp ht with ht | ht
    · exact hadvances.type (hts t (hsc ht))
    · exact hcompared t ht
  · intro F Z K u hu hts hc hcts p hp
    cases hp with | compares hvisits => ?_
    obtain ⟨⟨-, hspreads⟩, hcompared⟩ := (Unify.carries_spreads F Z K).visits hvisits ⟨hu.apart, hc⟩
      ⟨hts _ hsrc, hcts _ hsrc⟩ ⟨hts _ hdst, hcts _ hdst⟩
    refine ⟨hspreads.confined, fun t ht => ?_⟩
    rcases List.mem_append.mp ht with ht | ht
    · exact hcts t (hsc ht)
    · exact (hcompared t ht).2

/-- A step that the point it reaches is written down of. -/
theorem step {sc : Scope} {m : Checker α} (hsc : sc.known ⊆ ts)
    (h : Keeps ts found (Recorder.lift m)) : Keeps ts found (Recorder.step sc found m) := by
  refine h.bind fun a _ _ _ => ?_
  refine (reaching ?_ ?_).bind fun _ _ _ _ => pure (.of_subset ?_)
  · exact fun t ht => List.mem_append_right _ (hsc ht)
  · exact List.subset_append_left _ _
  · exact fun t ht => List.mem_append_right _ (List.mem_append_left _ ht)

end Recorder.Keeps

end Checker

end ProofScript
