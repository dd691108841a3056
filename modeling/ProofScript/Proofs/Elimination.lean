import ProofScript.Proofs.Agreement
import ProofScript.Proofs.Checking.Weakening

/-!
# Rules that are left out

A program declares only the rules that its theorems need. Where every rule that is mentioned is
declared, checking the program comes to an end if checking it with the whole library does, and gives the
same diagnostics.
-/

namespace ProofScript

open Program Stateful Function

namespace Checker

variable {systemF : Bool} {f : TyVar → TyVar} {sc sc' : Scope} {s s' : State}
  {names hidden : List String} {k k' : Nat} {p : Primitive}

/-- The numbers that are not taken. -/
abbrev untaken (u : Unifier) : Set TyVar := {v | u.counter < v}

/-- The state and the scope behind the declarations of some rules. -/
structure Ready (systemF : Bool) (names : List String) (sc : Scope) (s : State) : Prop where
  pristine : Pristine systemF s
  loaded : Loaded names sc
  apart : s.unifier.Apart (untaken s.unifier)
  values : sc.Apart (untaken s.unifier) s.unifier.counter

/-- The next rule is declared, and nothing that was bound before changes. -/
theorem Ready.step (h : Ready systemF names sc s) (hp : Loads systemF p)
    (hrequires : p.requires ⊆ names) (hnew : p.name ∉ names) (k : Nat) :
    ∃ after mid F, stmt sc k p.decl s = (.ok after, mid) ∧
      s.unifier.Advances (untaken s.unifier) F mid.unifier ∧ s.Keeps mid ∧
      Ready systemF (p.name :: names) after mid := by
  obtain ⟨after, mid, hrun, hloaded, hpristine⟩ :=
    (hp names sc k h.loaded hrequires hnew).succeeds h.pristine (by simp)
  obtain ⟨F, hadvances, hkeeps, hafter⟩ := stmt_advances h.apart h.values hrun
  refine ⟨after, mid, F, hrun, hadvances, hkeeps, hpristine, hloaded, hadvances.apart.settle, ?_⟩
  constructor
  · intro x a ha
    refine ⟨(hafter.values x a ha).orderly.mono (Int.le_refl _) ?_, ?_⟩
    · exact fun _ hv hlt => absurd hlt (Int.not_lt.mpr hv)
    · simp [hloaded.closed x a ha]
  · rw [hloaded.types]
    simp [Closed]

/-- The second run has declared all rules that the first one has, and some hidden ones. -/
structure Aligned (hidden : List String) (f : TyVar → TyVar) (sc : Scope) (s : State) (sc' : Scope)
    (s' : State) : Prop where
  renumbers : Renumbers f
  taken : ∀ v ≤ s.unifier.counter, f v ≤ s'.unifier.counter
  depth : s'.depth = s.depth
  unifier : s.unifier.Mirrors f s'.unifier
  aliases : s'.aliases = s.aliases
  values : sc.Mirrors f hidden [] sc'

theorem Aligned.mirrors (h : Aligned hidden f sc s sc' s') (hs : Ready systemF names sc s)
    (hs' : Pristine systemF s') (d : Nat) : s.Mirrors f d (untaken s.unifier) s' where
  apart := hs.apart
  depth := Nat.le_of_eq h.depth.symm
  unifier := h.unifier
  aliases := h.aliases
  findings := by rw [hs.pristine.clean, hs'.clean, List.map_nil]

/-- Both runs take as many numbers. -/
theorem taken_of_mirrors {u u' mid mid' : Unifier} (h : u.Mirrors f u') (hmid : mid.Mirrors f mid')
    (hle : u.counter ≤ mid.counter) (htaken : ∀ v ≤ u.counter, f v ≤ u'.counter) :
    ∀ v ≤ mid.counter, f v ≤ mid'.counter := by
  have hshift := h.fresh (mid.counter - u.counter + 1) (by lia)
  have hnext := hmid.fresh 1 (by decide)
  rw [show u.counter + (mid.counter - u.counter + 1) = mid.counter + 1 by lia, hnext] at hshift
  intro v hv
  by_cases hold : v ≤ u.counter
  · have hle := htaken v hold
    lia
  · have hnew := h.fresh (v - u.counter) (by lia)
    rw [show u.counter + (v - u.counter) = v by lia] at hnew
    lia

/-- A rule that both runs declare. -/
theorem Aligned.keep (h : Aligned hidden f sc s sc' s') (hs : Ready systemF names sc s)
    {names' : List String} (hs' : Ready systemF names' sc' s') (hp : Loads systemF p)
    (hrequires : p.requires ⊆ names) (hrequires' : p.requires ⊆ names') (hnew : p.name ∉ names)
    (hnew' : p.name ∉ names') (hfree : ∀ x ∈ Walk.free.stmt [] p.decl, x ∉ hidden)
    (hconstant : p.decl.constant? = some p.name) (hk : k ≤ k') :
    ∃ after mid after' mid', stmt sc k p.decl s = (.ok after, mid) ∧
      stmt sc' k' p.decl s' = (.ok after', mid') ∧ Ready systemF (p.name :: names) after mid ∧
      Ready systemF (p.name :: names') after' mid' ∧ Aligned hidden f after mid after' mid' := by
  obtain ⟨after, mid, -, hrun, -, -, hready⟩ := hs.step hp hrequires hnew k
  obtain ⟨after', mid', -, hrun', -, -, hready'⟩ := hs'.step hp hrequires' hnew' k'
  obtain ⟨d, hd⟩ := Nat.exists_eq_add_of_le hk
  have hdeclared : ∀ name ∈ p.decl.constant?, name ∈ sc'.declared ↔ name ∈ sc.declared := by
    intro name hname
    rw [hconstant, Option.mem_some_iff] at hname
    rw [hs.loaded.declared, hs'.loaded.declared, ← hname]
    exact iff_of_false hnew' hnew
  obtain ⟨_, _, hsame, F, honward, hbehind, -⟩ := (stmt_tracks h.renumbers
    (h.mirrors hs hs'.pristine d) hs.values h.values hd p.decl hfree hdeclared).of_ok hrun
  obtain ⟨hafter, rfl⟩ := Prod.mk.inj (hsame.symm.trans hrun')
  obtain rfl := Except.ok.inj hafter
  refine ⟨after, mid, _, _, hrun, hrun', hready, hready', h.renumbers,
    taken_of_mirrors h.unifier honward.mirrors.unifier honward.advances.counter h.taken, ?_,
    honward.mirrors.unifier, honward.mirrors.aliases, hbehind.mirrors.mono (List.nil_subset _)⟩
  rw [honward.keeps.depth, honward.keeps'.depth, h.depth]

/-- Numbers above `c` are moved behind `c'`. -/
def shiftAbove (f : TyVar → TyVar) (c c' : TyVar) (v : TyVar) : TyVar :=
  if v ≤ c then f v else v + (c' - c)

theorem shiftAbove_of_le {c c' v : TyVar} (h : v ≤ c) : shiftAbove f c c' v = f v := if_pos h

theorem shiftAbove_of_lt {c c' v : TyVar} (h : c < v) : shiftAbove f c c' v = v + (c' - c) :=
  if_neg (Int.not_le.mpr h)

theorem renumbers_shiftAbove {c c' : TyVar} (hf : Renumbers f) (hc : 0 ≤ c)
    (htaken : ∀ v ≤ c, f v ≤ c') : Renumbers (shiftAbove f c c') where
  injective v w hvw := by
    unfold shiftAbove at hvw
    split at hvw
    · split at hvw
      · exact hf.injective hvw
      · have := htaken v ‹_›
        lia
    · split at hvw
      · have := htaken w ‹_›
        lia
      · lia
  zero := by rw [shiftAbove_of_le hc, hf.zero]

/-- A rule that only the second run declares. -/
theorem Aligned.skip (h : Aligned hidden f sc s sc' s') (hs : Ready systemF names sc s)
    {names' : List String} (hs' : Ready systemF names' sc' s') (hp : Loads systemF p)
    (hrequires' : p.requires ⊆ names') (hnew' : p.name ∉ names')
    (hconstant : p.decl.constant? = some p.name) (hhidden : p.name ∈ hidden) (k' : Nat) :
    ∃ g after' mid', stmt sc' k' p.decl s' = (.ok after', mid') ∧
      Ready systemF (p.name :: names') after' mid' ∧ Aligned hidden g sc s after' mid' := by
  obtain ⟨after', mid', F, hrun', hadvances, hkeeps, hready'⟩ := hs'.step hp hrequires' hnew' k'
  have htaken : ∀ v ≤ s.unifier.counter, f v ≤ mid'.unifier.counter :=
    fun v hv => Int.le_trans (h.taken v hv) hadvances.counter
  have hsame : ∀ v ≤ s.unifier.counter,
      f v = shiftAbove f s.unifier.counter mid'.unifier.counter v :=
    fun v hv => (shiftAbove_of_le hv).symm
  refine ⟨shiftAbove f s.unifier.counter mid'.unifier.counter, after', mid', hrun', hready',
    renumbers_shiftAbove h.renumbers hs.apart.nonneg htaken, ?_, hkeeps.depth.trans h.depth,
    ⟨?_, ?_, ?_⟩, ?_, ?_, ?_⟩
  · intro v hv
    rw [shiftAbove_of_le hv]
    exact htaken v hv
  · intro v
    by_cases hv : v ≤ s.unifier.counter
    · rw [shiftAbove_of_le hv, hadvances.kept (f v) (h.taken v hv) (Int.not_lt.mpr (h.taken v hv)),
        h.unifier.subst v]
      cases hfind : s.unifier.subst.find? v with
      | none => rfl
      | some t =>
        rw [Option.map_some, Option.map_some,
          Ty.renumber_congr hsame t (hs.apart.subst.orderly v t hfind).2]
    · have hlt := Int.not_le.mp hv
      rw [shiftAbove_of_lt hlt, hs.apart.find?_of_lt hlt, hready'.apart.find?_of_lt (by lia)]
      rfl
  · exact Nat.le_trans h.unifier.length hadvances.length
  · intro n hn
    rw [shiftAbove_of_lt (by lia)]
    lia
  · rw [hkeeps.aliases, h.aliases]
  · intro x hx
    have hname : p.decl.constant? ≠ some x := by
      rw [hconstant]
      rintro ⟨⟩
      exact hx.elim (by simp) fun hvisible => hvisible hhidden
    rw [(stmt_values hrun').2 x hname, h.values.values x hx]
    cases hfind : sc.values.find? x with
    | none => rfl
    | some a =>
      rw [Option.map_some, Option.map_some,
        Ty.renumber_congr hsame a (hs.values.values x a hfind).orderly]
  · rw [hready'.loaded.types, hs.loaded.types]
    rfl

/-- Behind the rules that the first run keeps and all rules of the second one, the runs are still
aligned. -/
theorem file_aligned {keep : String → Bool} {ps : List Primitive} (rest : List Stmt)
    (hps : ∀ p ∈ ps, Loads systemF p ∧ p.decl.constant? = some p.name)
    (hkeep : ∀ p ∈ ps, keep p.name = true → (∀ r ∈ p.requires, keep r = true) ∧
      ∀ x ∈ Walk.free.stmt [] p.decl, x ∉ hidden)
    (hhidden : ∀ p ∈ ps, keep p.name = false → p.name ∈ hidden)
    (hnodup : (names ++ ps.map Primitive.name).Nodup) (hrequires : requiresBefore names ps = true)
    (h : Aligned hidden f sc s sc' s') (hs : Ready systemF (names.filter keep) sc s)
    (hs' : Ready systemF names sc' s') (hk : k ≤ k') :
    ∃ g last t last' t',
      file sc k ((ps.filter fun p => keep p.name).map Primitive.decl ++ rest) s =
        file last (k + Stmt.countAll ((ps.filter fun p => keep p.name).map Primitive.decl)) rest t ∧
      file sc' k' (ps.map Primitive.decl ++ rest) s' =
        file last' (k' + Stmt.countAll (ps.map Primitive.decl)) rest t' ∧
      Ready systemF (((ps.map Primitive.name).reverse ++ names).filter keep) last t ∧
      Ready systemF ((ps.map Primitive.name).reverse ++ names) last' t' ∧
      Aligned hidden g last t last' t' := by
  induction ps generalizing f sc s sc' s' names k k' with
  | nil => exact ⟨f, sc, s, sc', s', rfl, rfl, hs, hs', h⟩
  | cons p ps ih =>
    rw [List.forall_mem_cons] at hps hkeep hhidden
    rw [requiresBefore, Bool.and_eq_true, List.all_eq_true] at hrequires
    rw [List.map_cons] at hnodup
    have hbefore : p.requires ⊆ names := fun r hr => by simpa using hrequires.1 r hr
    have hnew : p.name ∉ names := fun hmem =>
      (List.nodup_append.mp hnodup).2.2 _ hmem _ (by simp) rfl
    have hnodup' := List.perm_middle.nodup hnodup
    -- The names behind this rule are those of the rest of the rules behind it.
    have hlater : ((p :: ps).map Primitive.name).reverse ++ names =
        (ps.map Primitive.name).reverse ++ p.name :: names := by simp
    rw [hlater, List.map_cons, List.cons_append, Stmt.countAll, ← Nat.add_assoc]
    cases hp : keep p.name with
    | true =>
      obtain ⟨hkept, hfree⟩ := hkeep.1 hp
      obtain ⟨after, mid, after', mid', hrun, hrun', hready, hready', haligned⟩ :=
        h.keep hs hs' hps.1.1 (fun r hr => List.mem_filter.mpr ⟨hbefore hr, hkept r hr⟩) hbefore
          (fun hmem => hnew (List.mem_filter.mp hmem).1) hnew hfree hps.1.2 hk
      have hnames : p.name :: names.filter keep = (p.name :: names).filter keep := by simp [hp]
      rw [hnames] at hready
      obtain ⟨g, last, t, last', t', hfile, hfile', hlast⟩ := ih hps.2 hkeep.2 hhidden.2 hnodup'
        hrequires.2 haligned hready hready' (Nat.add_le_add_right hk p.decl.count)
      refine ⟨g, last, t, last', t', ?_, ?_, hlast⟩
      · rw [List.filter_cons_of_pos (by exact hp), List.map_cons, List.cons_append,
          file_rule hps.1.2 hrun, hfile, Stmt.countAll, Nat.add_assoc]
      · rw [file_rule hps.1.2 hrun', hfile']
    | false =>
      obtain ⟨g, after', mid', hrun', hready', haligned⟩ :=
        h.skip hs hs' hps.1.1 hbefore hnew hps.1.2 (hhidden.1 hp) k'
      have hnames : names.filter keep = (p.name :: names).filter keep := by simp [hp]
      rw [hnames] at hs
      obtain ⟨g', last, t, last', t', hfile, hfile', hlast⟩ := ih hps.2 hkeep.2 hhidden.2 hnodup'
        hrequires.2 haligned hs hready' (Nat.le_add_right_of_le hk)
      refine ⟨g', last, t, last', t', ?_, ?_, hlast⟩
      · rw [List.filter_cons_of_neg (by simp [hp]), hfile]
      · rw [file_rule hps.1.2 hrun', hfile']

theorem ready_empty {n : Nat} (hn : 2 ≤ n) {aliases : List String}
    (h : Library.typeNames systemF ⊆ aliases) :
    Ready systemF [] .empty { State.empty n with aliases := aliases } where
  pristine := ⟨hn, ⟨h, by simp [State.empty]⟩, fun _ _ hv => by cases hv⟩
  loaded := loaded_empty
  apart := apart_empty
  values := ⟨fun _ _ h => (by cases h), by simp [Scope.empty, Closed]⟩

theorem aligned_empty (hidden : List String) (s : State) : Aligned hidden id .empty s .empty s where
  renumbers := renumbers_id
  taken _ hv := hv
  depth := rfl
  unifier := s.unifier.mirrors_id
  aliases := rfl
  values := ⟨fun _ _ => rfl, rfl⟩

end Checker

namespace Library

/-- All declarations of the library that a program of the mode may have. -/
def available (systemF : Bool) : List Primitive := all.filter fun p => systemF || !p.systemF

/-- Does a program that uses these rules declare the rule? -/
def declares (used : List String) (name : String) : Bool :=
  name ∈ used.flatMap (reach all.length)

/-- The rules that a program that uses these rules does not declare. -/
def omitted (used : List String) : List String :=
  (rules.map Primitive.name).filter fun name => !declares used name

theorem mem_omitted {used : List String} {name : String} :
    name ∈ omitted used ↔ name ∈ rules.map Primitive.name ∧ declares used name = false := by
  simp [omitted]

/-- A rule that is declared requires and mentions rules that are. -/
theorem declares_requires {used : List String} {p : Primitive} (hp : p ∈ rules)
    (h : declares used p.name = true) :
    (∀ r ∈ p.requires, declares used r = true) ∧
      ∀ x ∈ Walk.free.stmt [] p.decl, x ∉ omitted used := by
  have hmentions : ∀ p ∈ rules, ∀ x ∈ Walk.free.stmt [] p.decl, x ∈ p.requires := by decide
  have hrequires : ∀ r ∈ p.requires, declares used r = true := fun r hr =>
    decide_eq_true (mem_reach_requires hp (of_decide_eq_true h) hr)
  refine ⟨hrequires, fun x hx homitted => ?_⟩
  have hdeclared := hrequires x (hmentions p hp x hx)
  rw [(mem_omitted.mp homitted).2] at hdeclared
  cases hdeclared

/-- What is used is not omitted. -/
theorem not_mem_omitted {used names : List String}
    (h : ∀ n ∈ names, (findRule? n).isSome = true → n ∈ used) : ∀ x ∈ names, x ∉ omitted used := by
  have hrules : ∀ name ∈ rules.map Primitive.name, (findRule? name).isSome = true := by decide
  intro x hx homitted
  obtain ⟨hrule, hnot⟩ := mem_omitted.mp homitted
  have hused := h x hx (hrules x hrule)
  exact of_decide_eq_false hnot (List.mem_flatMap.mpr ⟨x, hused, mem_reach_self _ x⟩)

theorem available_eq (systemF : Bool) :
    available systemF = (types.filter fun p => systemF || !p.systemF) ++ rules := by
  have hrules : ∀ p ∈ rules, p.systemF = false := by decide
  have hall : all = types ++ rules := by simp [all, rules]
  rw [available, hall, List.filter_append]
  congr 1
  exact List.filter_eq_self.mpr fun p hp => by simp [hrules p hp]

theorem available_eq_select (systemF : Bool) :
    available systemF = select (rules.map Primitive.name) systemF := by
  have hreach : selectRules (rules.map Primitive.name) = rules :=
    List.filter_eq_self.mpr fun p hp =>
      decide_eq_true (List.mem_flatMap.mpr ⟨p.name, List.mem_map_of_mem hp, mem_reach_self _ _⟩)
  rw [select_eq, hreach, available_eq]

end Library

theorem countAll_le {stmts more : List Stmt} (h : stmts.Sublist more) :
    Stmt.countAll stmts ≤ Stmt.countAll more := by
  induction h with
  | slnil => exact Nat.le_refl _
  | cons _ _ ih => exact Nat.le_add_left_of_le ih
  | cons_cons _ _ ih => exact Nat.add_le_add_left ih _

/-- A program that mentions and declares no rule that it omits is checked alike with the whole library. -/
theorem Checker.findings?_available {n : Nat} (hn : 2 ≤ n) {used : List String} (systemF : Bool)
    {decls : List Stmt} (hfree : ∀ x ∈ Walk.free.stmts [] [] decls, x ∉ Library.omitted used)
    (hconstants : ∀ x ∈ constants decls, x ∉ Library.omitted used) :
    ∃ f d, Injective f ∧
      findings? n ((Library.available systemF).map Primitive.decl ++ decls) =
        (findings? n ((Library.select used systemF).map Primitive.decl ++ decls)).map
          fun r => r.map fun fs => fs.map (Finding.renumber f d) := by
  have htypes : ∀ p ∈ Library.types.filter fun p => systemF || !p.systemF,
      (aliasArity? p.name).isSome = true ∧ ∃ tparams t, p.decl = .typeAlias p.name tparams t :=
    fun p hp => isAlias_types p (List.mem_filter.mp hp).1
  have hready : Ready systemF [] .empty { State.empty n with
      aliases := ((Library.types.filter fun p => systemF || !p.systemF).map Primitive.name).reverse ++
        (State.empty n).aliases } := ready_empty hn (by simp [State.empty, Library.typeNames])
  obtain ⟨f, last, mid, last', mid', hfile, hfile', hmid, hmid', haligned⟩ :=
    file_aligned decls loads_rules (fun p hp => Library.declares_requires hp)
      (fun p hp hskipped => Library.mem_omitted.mpr ⟨List.mem_map_of_mem hp, hskipped⟩)
      Library.nodup_rules Library.requiresBefore_rules (aligned_empty _ _) hready hready
      (Nat.le_refl (0 + Stmt.countAll
        ((Library.types.filter fun p => systemF || !p.systemF).map Primitive.decl)))
  have hagree : ∀ name ∉ Library.omitted used, name ∈ last'.declared ↔ name ∈ last.declared := by
    intro name hname
    rw [hmid.loaded.declared, hmid'.loaded.declared, List.mem_filter]
    refine ⟨fun hmem => ⟨hmem, ?_⟩, And.left⟩
    by_contra hnot
    exact hname (Library.mem_omitted.mpr ⟨by simpa using hmem, Bool.eq_false_iff.mpr hnot⟩)
  have hsublist : ((Library.rules.filter fun p => Library.declares used p.name).map
      Primitive.decl).Sublist (Library.rules.map Primitive.decl) :=
    List.filter_sublist.map Primitive.decl
  obtain ⟨d, hd⟩ := Nat.exists_eq_add_of_le (Nat.add_le_add_left (countAll_le hsublist)
    (0 + Stmt.countAll ((Library.types.filter fun p => systemF || !p.systemF).map Primitive.decl)))
  have hdecls := file_parallel haligned.renumbers (haligned.mirrors hmid hmid'.pristine d) hmid.values
    haligned.values hagree hd hfree hconstants
  have hruns : Parallel (.empty n) (.empty n)
      (file .empty 0 ((Library.select used systemF).map Primitive.decl ++ decls))
      (file .empty 0 ((Library.available systemF).map Primitive.decl ++ decls))
      fun _ t _ t' => t'.findings = t.findings.map (Finding.renumber f d) := by
    refine hdecls.of_eq haligned.depth ?_ ?_
    · rw [Library.select_eq, List.map_append, List.append_assoc, file_types htypes]
      exact hfile
    · rw [Library.available_eq, List.map_append, List.append_assoc, file_types htypes]
      exact hfile'
  refine ⟨f, d, haligned.renumbers.injective, ?_⟩
  exact (findings?_of_parallel hruns).resolve_left fun h => Nat.lt_irrefl n h.2

/-! ## Printing -/

namespace Program

theorem Layout.gapAll?_append (parts more : List Layout) :
    Layout.gapAll? (parts ++ more) = (Layout.gapAll? parts).or (Layout.gapAll? more) := by
  induction parts with
  | nil => rfl
  | cons p rest ih =>
    rw [List.cons_append, Layout.gapAll?, Layout.gapAll?, ih]
    cases p.gap? <;> rfl

theorem blockLayout_append (depth : Nat) (stmts more : List Stmt) :
    Stmt.blockLayout depth (stmts ++ more) =
      Stmt.blockLayout depth stmts ++ Stmt.blockLayout depth more := by
  induction stmts with
  | nil => rfl
  | cons st rest ih => rw [List.cons_append, Stmt.blockLayout, Stmt.blockLayout, ih]; rfl

theorem print_eq_ok {stmts : List Stmt} :
    (∃ p, print stmts = .ok p) ↔ Layout.gapAll? (fileLayout stmts) = none := by
  rw [print, textOf]
  cases Layout.gapAll? (fileLayout stmts) <;> simp [Except.map]

end Program

/-- The whole library can be printed in front of what can be printed behind a part of it. -/
theorem emit_available {primitives : List Primitive} {decls : List Stmt} {p : Printed}
    (h : emit primitives decls = .ok p) (systemF : Bool) :
    ∃ whole, emit (Library.available systemF) decls = .ok whole := by
  have hlibrary : Layout.gapAll? (fileLayout ((Library.available systemF).map Primitive.decl)) =
      none := by
    cases systemF <;> decide
  have hgap := print_eq_ok.mp ⟨p, h⟩
  refine print_eq_ok.mpr ?_
  rw [fileLayout, blockLayout_append, Layout.gapAll?_append, Option.or_eq_none_iff] at hgap ⊢
  exact ⟨hlibrary, hgap.2⟩

/-- What a diagnostic says, wherever it stands in the program. -/
def Diagnostic.report (d : Diagnostic) : String × Wording × Option Location :=
  (d.code, d.message, d.origin)

/-! ## Diagnostics -/

namespace Checker

theorem diagnostic_message (p : Printed) (x : Finding) :
    (x.diagnostic p).message = x.objection.message := by
  dsimp only [Finding.diagnostic, Diagnostic.atOffset]
  split <;> rfl

/-- The diagnostics of a finding and of the finding with other numbers say the same. -/
theorem report_renumber {f : TyVar → TyVar} (hf : Injective f) (p whole : Printed) {x : Finding}
    {loc : Location} (horigin : x.node.origin = some loc) (d : Nat) :
    ((x.renumber f d).diagnostic whole).report = (x.diagnostic p).report := by
  have horigin' : (x.renumber f d).node.origin = some loc := horigin
  rw [Diagnostic.report, Diagnostic.report, diagnostic_code, diagnostic_code, diagnostic_message,
    diagnostic_message, diagnostic_origin horigin, diagnostic_origin horigin', Finding.renumber,
    Objection.code_renumber, Objection.message_renumber hf]

end Checker

namespace Program.Printed

variable {p p' : Printed} {rs rs' : List (String × Wording × Option Location)}

/-- What the diagnostics of a program say, if its comparisons of types end within a depth. -/
def reports? (p : Printed) (n : Nat) :
    Option (Except Gap (List (String × Wording × Option Location))) :=
  (p.check? n).map fun r => r.map fun ds => ds.map Diagnostic.report

/-- Checking the program comes to an end, with diagnostics that say this. -/
def Reports (p : Printed) (rs : List (String × Wording × Option Location)) : Prop :=
  ∃ n, p.reports? n = some (.ok rs)

theorem reports?_mono {n n' : Nat} (hn : n ≤ n') (h : p.reports? n = some (.ok rs)) :
    p.reports? n' = some (.ok rs) := by
  obtain ⟨r, hr, hrs⟩ := Option.map_eq_some_iff.mp h
  rw [reports?, check?_mono hn hr, Option.map_some, hrs]

/-- Checking a program comes to one end only. -/
theorem Reports.unique (h : p.Reports rs) (h' : p.Reports rs') : rs = rs' := by
  obtain ⟨n, hrs⟩ := h
  obtain ⟨n', hrs'⟩ := h'
  have hlater := reports?_mono (Nat.le_max_left n n') hrs
  rw [reports?_mono (Nat.le_max_right n n') hrs'] at hlater
  cases hlater
  rfl

/-- Checking two programs comes to the same end if it does within every depth that is large enough. -/
theorem reports_congr {m : Nat} (h : ∀ n, m ≤ n → p.reports? n = p'.reports? n)
    (rs : List (String × Wording × Option Location)) : p.Reports rs ↔ p'.Reports rs := by
  constructor
  · rintro ⟨n, hrs⟩
    have hlater := reports?_mono (Nat.le_max_left n m) hrs
    exact ⟨_, (h _ (Nat.le_max_right n m)).symm.trans hlater⟩
  · rintro ⟨n, hrs⟩
    have hlater := reports?_mono (Nat.le_max_left n m) hrs
    exact ⟨_, (h _ (Nat.le_max_right n m)).trans hlater⟩

end Program.Printed

/-- What is found leads to reports. -/
theorem Checker.reports?_of_findings? {p : Printed} {n : Nat} {fs : List Finding}
    (h : findings? n p.stmts = some (.ok fs)) :
    p.reports? n = some (.ok (fs.map fun x => (x.diagnostic p).report)) := by
  rw [Printed.reports?, Printed.check?, h, Option.map_some, Option.map_some, Except.map, Except.map,
    List.map_map]
  rfl

/-- Where nothing is found within a depth, nothing is reported. -/
theorem Checker.reports?_of_none {p : Printed} {n : Nat} (h : findings? n p.stmts = none) :
    p.reports? n = none := by
  rw [Printed.reports?, Printed.check?, h]
  rfl

/-- Checking the program of a script and checking its theorems behind the whole library miss no node, and
come to the same end if every rule that the document mentions is referred to by name. -/
theorem check_available {src : List UInt8} {systemF : Bool} {c : Compilation}
    (h : (compile src systemF).1 = .ok c) :
    ∃ whole, emit (Library.available systemF) c.decls = .ok whole ∧
      (∀ n g, c.program.check? n ≠ some (.error g) ∧ whole.check? n ≠ some (.error g)) ∧
      (c.document.notesRules systemF = true → ∀ rs, c.program.Reports rs ↔ whole.Reports rs) := by
  obtain ⟨whole, hemit⟩ := emit_available (emit_of_compile h) systemF
  have hwhole := emit_stmts hemit
  have hfound := findings_of_compile h
  have hfound' := findings_of_decls h (Library.available_eq_select systemF ▸ hwhole)
  refine ⟨whole, hemit,
    fun n g => ⟨Checker.check?_ne_gap (hfound n) g, Checker.check?_ne_gap (hfound' n) g⟩,
    fun hnotes => Printed.reports_congr (m := 2) fun n hn => ?_⟩
  have hfree : ∀ x ∈ Walk.free.stmts [] [] c.decls, x ∉ Library.omitted c.used := by
    refine Library.not_mem_omitted fun n hn hrule => (mem_used_of_compile h n).mpr ?_
    rw [free_of_compile h] at hn
    exact Document.notesRules_iff.mp hnotes n hn hrule
  have hconstants : ∀ x ∈ constants c.decls, x ∉ Library.omitted c.used := by
    refine Library.not_mem_omitted fun n hn hrule => ?_
    rw [(formed_of_compile h).2.2 n hn] at hrule
    cases hrule
  obtain ⟨f, d, hf, hsame⟩ := Checker.findings?_available hn systemF hfree hconstants
  rw [← hwhole, ← primitives_of_compile h, ← emit_stmts (emit_of_compile h)] at hsame
  rcases hfound n with hnone | ⟨fs, hfs, hapt⟩
  · rw [hnone] at hsame
    rw [Checker.reports?_of_none hnone, Checker.reports?_of_none hsame]
  · rw [hfs] at hsame
    rw [Checker.reports?_of_findings? hfs, Checker.reports?_of_findings? hsame, List.map_map]
    refine congrArg (fun rs => some (Except.ok rs)) (List.map_congr_left fun x hx => ?_)
    obtain ⟨_, ⟨⟨loc, -, horigin⟩, -⟩, -⟩ := hapt x hx
    exact (Checker.report_renumber hf c.program whole horigin d).symm

/-- Where a script compiles, its program declares rules in library order, each once and behind what it
requires. These are exactly the rules that the free names of its theorems reach if and only if each rule
among these names is referred to by name, and then the whole library in their place leads to the same
diagnostics, and to an end of checking if they do. -/
theorem compile_selects {src : List UInt8} {systemF : Bool} {c : Compilation}
    (h : (compile src systemF).1 = .ok c) :
    c.primitives.Sublist Library.all ∧ (c.primitives.map Primitive.name).Nodup ∧
      Checker.requiresBefore [] c.primitives = true ∧
      ((∀ name, name ∈ Library.ruleNames c.primitives ↔
        Library.Reached (Walk.free.stmts [] [] c.decls) name) ↔ c.document.notesRules systemF = true) ∧
      ∃ whole, emit (Library.available systemF) c.decls = .ok whole ∧
        (∀ n g, c.program.check? n ≠ some (.error g) ∧ whole.check? n ≠ some (.error g)) ∧
        (c.document.notesRules systemF = true → ∀ rs, c.program.Reports rs ↔ whole.Reports rs) := by
  obtain ⟨hsublist, hnodup, hrequires⟩ := Library.select_ordered c.used systemF
  rw [← primitives_of_compile h] at hsublist hnodup hrequires
  exact ⟨hsublist, hnodup, hrequires, ruleNames_of_compile h, check_available h⟩

/-- The argument `True` stands for the rule `true_`, which is not declared: the program is rejected, and
it is accepted with the whole library. -/
theorem compile_selects_tacit :
    ∃ c whole, (compile (Text.bytes "theorem t : True\nby id True;") false).1 = .ok c ∧
      (¬ ∀ name, name ∈ Library.ruleNames c.primitives ↔
        Library.Reached (Walk.free.stmts [] [] c.decls) name) ∧
      ¬ c.program.Reports [] ∧ emit (Library.available false) c.decls = .ok whole ∧
      whole.Reports [] := by
  generalize hsrc : Text.bytes _ = src
  have hnotes : (compile src false).1.toOption.any (fun c => !c.document.notesRules false &&
      (c.program.reports? 2).any (fun r => r.toOption.any fun rs => !rs.isEmpty) &&
      (emit (Library.available false) c.decls).toOption.any fun whole =>
        (whole.reports? 2).any fun r => r.toOption.any List.isEmpty) = true := by
    rw [← hsrc]
    decide +kernel
  obtain ⟨c, h, hc⟩ := exists_ok_of_any hnotes
  obtain ⟨-, -, -, hexact, whole, hemit, -, -⟩ := compile_selects h
  simp only [hemit, Bool.and_eq_true, Bool.not_eq_true'] at hc
  obtain ⟨⟨hmissed, hrejected⟩, haccepted⟩ := hc
  obtain ⟨rs, hrejected, hne⟩ := exists_some_ok_of_any hrejected
  obtain ⟨rs', haccepted, hnil⟩ := exists_some_ok_of_any (r := whole.reports? 2) haccepted
  obtain rfl := List.isEmpty_iff.mp hnil
  refine ⟨c, whole, h, ?_, fun hreports => ?_, hemit, 2, haccepted⟩
  · rw [hexact, hmissed]
    exact Bool.false_ne_true
  · obtain rfl := hreports.unique ⟨2, hrejected⟩
    cases hne

end ProofScript
