import ProofScript.Host.Machine
import ProofScript.Proofs.Updates

/-!
# The server has no hidden history

Handled one after the other on a machine that stays as it is, messages leave nothing behind but the
text of each open document: the server answers questions about a document, and shows problems of it, as
one that has only seen the document opened with that text. A closed document leaves nothing at all.
-/

namespace ProofScript

/-! ## Steps that only ask the machine -/

namespace Machine

variable {α β : Type}

/-- Where the step comes to an end, the machine is as it was. -/
def Reads (f : StateT Machine Option α) : Prop :=
  ∀ machine a after, f machine = some (a, after) → after = machine

theorem Reads.pure (a : α) : Reads (pure a) := by
  rintro machine _ _ ⟨⟩
  rfl

theorem Reads.bind {f : StateT Machine Option α} {g : α → StateT Machine Option β} (hf : Reads f)
    (hg : ∀ a, Reads (g a)) : Reads (f >>= g) := by
  intro machine b after hrun
  obtain ⟨⟨a, mid⟩, hfirst, hlater⟩ := Option.bind_eq_some_iff.mp hrun
  obtain rfl := hf machine a mid hfirst
  exact hg a _ b after hlater

theorem reads_ask (f : Machine → α) : Reads (do return f (← get)) := by
  rintro machine _ _ ⟨⟩
  rfl

theorem reads_wait [Inhabited α] (f : Nat → Option α) :
    Reads (Waits.wait f : StateT Machine Option α) := by
  intro machine a after hrun
  obtain ⟨b, -, hrun⟩ := Option.bind_eq_some_iff.mp hrun
  cases hrun
  rfl

/-- Steps that leave the machine as it is, one after the other. -/
theorem bind_run {machine : Machine} {f : StateT Machine Option α} {g : α → StateT Machine Option β}
    {x : Option α} {y : α → Option β} (hf : f machine = x.map (·, machine))
    (hg : ∀ a, g a machine = (y a).map (·, machine)) :
    (f >>= g) machine = (x >>= y).map (·, machine) := by
  change (f machine).bind (fun p => g p.1 p.2) = (x.bind y).map (·, machine)
  rw [hf]
  cases x with
  | none => rfl
  | some a => exact hg a

end Machine

open Machine

theorem Oracle.choose_reads (kind : OracleKind) (settings : CompilerSettings) :
    Reads (Oracle.choose (m := StateT Machine Option) kind settings) := by
  cases kind with
  | builtin => exact .pure _
  | tsc => exact .pure _
  | auto =>
    refine (reads_ask _).bind fun found => ?_
    split
    · exact .pure _
    · exact .pure _

section

variable [Readers]

theorem CompilerSettings.findVersion_reads (s : CompilerSettings) :
    Reads (s.findVersion (m := StateT Machine Option)) := by
  refine (reads_ask _).bind fun result => ?_
  cases result with
  | error f => exact .pure _
  | ok run =>
    dsimp only
    split
    · exact .pure _
    · exact .pure _

theorem CompilerSettings.check_reads (s : CompilerSettings) (p : Program.Printed) :
    Reads (s.check (m := StateT Machine Option) p) := by
  refine s.findVersion_reads.bind fun version => ?_
  cases version with
  | error f => exact .pure _
  | ok v =>
    refine (reads_ask _).bind fun result => ?_
    cases result with
    | error f => exact .pure _
    | ok run => exact .pure _

theorem Oracle.check_reads (o : Oracle) (p : Program.Printed) :
    Reads (o.check (m := StateT Machine Option) p) := by
  cases o with
  | external settings => exact settings.check_reads p
  | builtin =>
    refine (reads_ask _).bind fun cancelled => ?_
    split
    · exact .pure _
    · refine (reads_wait _).bind fun found => ?_
      cases found with
      | error g => exact .pure _
      | ok found => exact .pure _

namespace Server

namespace Analysis

theorem check_reads (a : Analysis) (config : ProjectConfig) (c : Compilation) :
    Reads (a.check (m := StateT Machine Option) config c) := by
  refine (Oracle.choose_reads _ _).bind fun oracle => (Oracle.check_reads _ _).bind fun result => ?_
  split
  · exact .pure _
  · exact .pure _

/-- What is known about a text on a machine, if its analysis ends. -/
def known (machine : Machine) (path text : String) : Option Analysis :=
  (ofText (m := StateT Machine Option) path text machine).map Prod.fst

end Analysis

/-! ## Runs of a server -/

section

variable {m : Type → Type} [Monad m]

/-- Handles requests one after the other: what is pushed, and the state behind them. -/
def serve (analyse : String → String → m Analysis) (s : Server) :
    List Request → m (List Notification × Server)
  | [] => return ([], s)
  | r :: rest => do
    let (outcome, s) ← s.handleWith analyse r
    let (pushed, s) ← serve analyse s rest
    return (outcome.pushed ++ pushed, s)

end

end Server

end

namespace Server

/-! ## The text of a document -/

/-- The text and the version of a document behind a message about it. A message about a document that is
not open, a change without texts and one of a lower version are ignored. -/
def next (uri : String) (d : Option (String × Int)) : Request → Option (String × Int)
  | .didOpen u version text => if u = uri then some (text, version) else d
  | .didChange u version changes =>
    if u = uri then
      match d, changes.getLast? with
      | some (old, latest), some text => some (if latest ≤ version then (text, version) else (old, latest))
      | _, _ => d
    else d
  | .didSave u text => if u = uri then d.map fun (old, version) => (text.getD old, version) else d
  | .didClose u => if u = uri then none else d
  | _ => d

/-- The text and the version of a document behind some messages, if it is open then. -/
def current (uri : String) (rs : List Request) : Option (String × Int) := rs.foldl (next uri) none

/-- The problems of a document that were published last. -/
def lastProblems? (uri : String) (pushed : List Notification) : Option (List Problem) :=
  pushed.reverse.findSome? fun
    | .problems u _ ps => if u = uri then some ps else none
    | .failure _ => none

theorem lastProblems?_append (uri : String) (pushed more : List Notification) :
    lastProblems? uri (pushed ++ more) = (lastProblems? uri more).or (lastProblems? uri pushed) := by
  rw [lastProblems?, List.reverse_append, List.findSome?_append]
  rfl

theorem lastProblems?_failure (uri : String) (failure : Option String) :
    lastProblems? uri (failure.toList.map .failure) = none := by
  cases failure with
  | none => rfl
  | some message => rfl

theorem lastProblems?_problems (uri u : String) (version : Int) (ps : List Problem) :
    lastProblems? uri [.problems u version ps] = if u = uri then some ps else none := by
  by_cases h : u = uri
  · simp [lastProblems?, h]
  · simp [lastProblems?, h]

/-! ## One message -/

variable {s s' : Server} {uri : String} {known : String → String → Option Analysis} {o : Outcome}

theorem lastProblems?_finish (u : Update) (a : Analysis) :
    lastProblems? uri (s.finish u a).1.pushed =
      if s.accepts u ∧ u.uri = uri then some a.problems else none := by
  by_cases haccepts : s.accepts u = true
  · rw [(finish_of_accepts haccepts).1, lastProblems?_append, lastProblems?_failure,
      lastProblems?_problems]
    simp [haccepts]
  · rw [(finish_of_not_accepts haccepts).1, lastProblems?_failure]
    simp [haccepts]

theorem find?_finish (u : Update) (a : Analysis) :
    (s.finish u a).2.find? uri =
      if s.accepts u ∧ u.uri = uri then some ⟨u.text, u.version, a.systemF, a.symbols⟩
      else s.find? uri := by
  by_cases haccepts : s.accepts u = true
  · rw [(finish_of_accepts haccepts).2, find?_store]
    simp [haccepts, eq_comm]
  · rw [(finish_of_not_accepts haccepts).2]
    simp [haccepts]

/-- How an update ends, if it does. -/
theorem update_eq_some {text : String} {version : Option Int}
    (h : s.update known uri text version = some (o, s')) :
    (∃ r, s.begin uri text version = .error r ∧ o = .refuse r ∧ s' = s) ∨
      ∃ u a, s.begin uri text version = .ok u ∧ known u.path u.text = some a ∧
        o = (s.finish u a).1 ∧ s' = (s.finish u a).2 := by
  unfold update at h
  cases hbegin : s.begin uri text version with
  | error r =>
    rw [hbegin] at h
    cases h
    exact .inl ⟨r, rfl, rfl, rfl⟩
  | ok u =>
    rw [hbegin] at h
    obtain ⟨a, ha, hfinish⟩ := Option.bind_eq_some_iff.mp h
    obtain ⟨ho, hs'⟩ := Prod.mk.inj (Option.some.inj hfinish)
    exact .inr ⟨u, a, rfl, ha, ho.symm, hs'.symm⟩

/-- Nothing is stored or published about other documents. -/
theorem update_apart {u text : String} {version : Option Int} (hne : u ≠ uri)
    (hrun : s.update known u text version = some (o, s')) :
    s'.find? uri = s.find? uri ∧ lastProblems? uri o.pushed = none := by
  rcases update_eq_some hrun with ⟨r, -, rfl, rfl⟩ | ⟨begun, a, hbegin, -, rfl, rfl⟩
  · exact ⟨rfl, rfl⟩
  · obtain ⟨d, path, -, -, rfl⟩ := begin_eq_ok.mp hbegin
    rw [find?_finish, lastProblems?_finish]
    simp [hne]

/-- What a server stores and has published about a document of which it knows the text and the version,
if it is open. A document whose URI names no file stays as it was opened. -/
inductive Reflects (known : String → String → Option Analysis) (uri : String) :
    Option (String × Int) → Server → List Notification → Prop
  | closed {s : Server} {pushed : List Notification} : s.find? uri = none →
    (lastProblems? uri pushed).getD [] = [] → Reflects known uri none s pushed
  | placeless {s : Server} {pushed : List Notification} {text : String} {version latest : Int}
      {f : Uri.Fault} : Uri.toPath uri = .error f → s.find? uri = some ⟨"", version, false, none⟩ →
    (lastProblems? uri pushed).getD [] = [] → Reflects known uri (some (text, latest)) s pushed
  | stored {s : Server} {pushed : List Notification} {text : String} {version : Int}
      {path : List UInt8} {a : Analysis} : Uri.toPath uri = .ok path →
    known (Text.ofBytes path) text = some a →
    s.find? uri = some ⟨text, version, a.systemF, a.symbols⟩ →
    lastProblems? uri pushed = some a.problems → Reflects known uri (some (text, version)) s pushed

variable {d : Option (String × Int)} {pushed : List Notification} {text : String}

/-- A message that stores and publishes nothing about a document leaves it as it is. -/
theorem Reflects.keep {more : List Notification} (h : Reflects known uri d s pushed)
    (hfind : s'.find? uri = s.find? uri) (hmore : lastProblems? uri more = none) :
    Reflects known uri d s' (pushed ++ more) := by
  have hlast : lastProblems? uri (pushed ++ more) = lastProblems? uri pushed := by
    rw [lastProblems?_append, hmore, Option.none_or]
  cases h with
  | closed hs hpushed => exact .closed (hfind.trans hs) (by rw [hlast, hpushed])
  | placeless hpath hs hpushed => exact .placeless hpath (hfind.trans hs) (by rw [hlast, hpushed])
  | stored hpath ha hs hpushed => exact .stored hpath ha (hfind.trans hs) (hlast.trans hpushed)

/-- An update of a document whose URI names no file is refused. -/
theorem Reflects.refuse {current : String} {v latest : Int} {version : Option Int} {f : Uri.Fault}
    (hpath : Uri.toPath uri = .error f) (hs : s.find? uri = some ⟨"", v, false, none⟩)
    (hpushed : (lastProblems? uri pushed).getD [] = [])
    (hrun : s.update known uri text version = some (o, s')) :
    Reflects known uri (some (current, latest)) s' (pushed ++ o.pushed) := by
  rcases update_eq_some hrun with ⟨r, -, rfl, rfl⟩ | ⟨_, _, hbegin, -⟩
  · refine .placeless hpath hs ?_
    rw [lastProblems?_append]
    exact hpushed
  · obtain ⟨_, _, -, hok, -⟩ := begin_eq_ok.mp hbegin
    cases hpath.symm.trans hok

/-- An update of a stored document that is not out of date replaces all that is known about it. -/
theorem Reflects.replace {version : Option Int} {path : List UInt8} {stored : OpenDocument}
    (hpath : Uri.toPath uri = .ok path) (hd : s.find? uri = some stored)
    (hversion : stored.version ≤ version.getD stored.version)
    (hrun : s.update known uri text version = some (o, s')) :
    Reflects known uri (some (text, version.getD stored.version)) s' (pushed ++ o.pushed) := by
  have hbegin : s.begin uri text version =
      .ok ⟨uri, Text.ofBytes path, text, version.getD stored.version⟩ :=
    begin_eq_ok.mpr ⟨stored, path, hd, hpath, rfl⟩
  have haccepts : s.accepts ⟨uri, Text.ofBytes path, text, version.getD stored.version⟩ = true :=
    accepts_iff.mpr ⟨stored, hd, hversion⟩
  rcases update_eq_some hrun with ⟨_, hrefused, -⟩ | ⟨u, a, hbegin', ha, rfl, rfl⟩
  · cases hbegin.symm.trans hrefused
  obtain rfl := Except.ok.inj (hbegin.symm.trans hbegin')
  refine .stored hpath ha ?_ ?_
  · rw [find?_finish, if_pos ⟨haccepts, rfl⟩]
  · rw [lastProblems?_append, lastProblems?_finish, if_pos ⟨haccepts, rfl⟩, Option.some_or]

/-- An update that is out of date changes nothing. -/
theorem Reflects.drop {old : String} {version latest : Int}
    (h : Reflects known uri (some (old, latest)) s pushed) (hversion : version < latest)
    (hrun : s.update known uri text (some version) = some (o, s')) :
    Reflects known uri (some (old, latest)) s' (pushed ++ o.pushed) := by
  rcases update_eq_some hrun with ⟨_, -, rfl, rfl⟩ | ⟨u, a, hbegin, -, rfl, rfl⟩
  · exact h.keep rfl rfl
  obtain ⟨stored, path, hd, hpath, rfl⟩ := begin_eq_ok.mp hbegin
  have hdrop : ¬ s.accepts ⟨uri, Text.ofBytes path, text, version⟩ = true := by
    rw [accepts_iff]
    rintro ⟨found, hfound, hle⟩
    cases h with
    | placeless herror => cases herror.symm.trans hpath
    | stored _ _ hs =>
      rw [hs, Option.some.injEq] at hfound
      subst hfound
      exact Int.not_le.mpr hversion hle
  refine h.keep ?_ ?_
  · rw [find?_finish, if_neg (fun hand => hdrop hand.1)]
  · rw [lastProblems?_finish, if_neg (fun hand => hdrop hand.1)]

theorem Reflects.shown_of_placeless {f : Uri.Fault} (h : Reflects known uri d s pushed)
    (hpath : Uri.toPath uri = .error f) : (lastProblems? uri pushed).getD [] = [] := by
  cases h with
  | closed _ hpushed => exact hpushed
  | placeless _ _ hpushed => exact hpushed
  | stored hok => cases hpath.symm.trans hok

theorem Reflects.open_ {version : Int} (h : Reflects known uri d s pushed)
    (hrun : s.handleWith known (.didOpen uri version text) = some (o, s')) :
    Reflects known uri (some (text, version)) s' (pushed ++ o.pushed) := by
  have hfind := find?_openDocument s uri version
  cases hpath : Uri.toPath uri with
  | error f => exact .refuse hpath hfind (h.shown_of_placeless hpath) hrun
  | ok path => exact .replace hpath hfind (Int.le_refl _) hrun

theorem Reflects.change {old : String} {latest version : Int}
    (h : Reflects known uri (some (old, latest)) s pushed)
    (hrun : s.update known uri text (some version) = some (o, s')) :
    Reflects known uri (some (if latest ≤ version then (text, version) else (old, latest))) s'
      (pushed ++ o.pushed) := by
  split
  · cases h with
    | placeless hpath hs hpushed => exact .refuse hpath hs hpushed hrun
    | stored hpath _ hs _ => exact .replace hpath hs ‹_› hrun
  · exact h.drop (Int.not_le.mp ‹_›) hrun

/-- An update of a document that is not open is refused. -/
theorem Reflects.ignore {version : Option Int} (h : Reflects known uri none s pushed)
    (hrun : s.update known uri text version = some (o, s')) :
    Reflects known uri none s' (pushed ++ o.pushed) := by
  rcases update_eq_some hrun with ⟨_, -, rfl, rfl⟩ | ⟨_, _, hbegin, -⟩
  · exact h.keep rfl rfl
  · obtain ⟨_, _, hd, -, -⟩ := begin_eq_ok.mp hbegin
    cases h with
    | closed hs => cases hs.symm.trans hd

theorem Reflects.save {old : String} {latest : Int} {text : Option String}
    (h : Reflects known uri (some (old, latest)) s pushed)
    (hrun : s.handleWith known (.didSave uri text) = some (o, s')) :
    Reflects known uri (some (text.getD old, latest)) s' (pushed ++ o.pushed) := by
  cases h with
  | placeless hpath hs hpushed =>
    simp only [handleWith, savedText?, hs, Option.map_some] at hrun
    exact .refuse hpath hs hpushed hrun
  | stored hpath _ hs _ =>
    simp only [handleWith, savedText?, hs, Option.map_some] at hrun
    exact .replace hpath hs (Int.le_refl _) hrun

/-- An update of another document. -/
theorem Reflects.apart {u : String} {version : Option Int} (h : Reflects known uri d s pushed)
    (hne : u ≠ uri) (hrun : s.update known u text version = some (o, s')) :
    Reflects known uri d s' (pushed ++ o.pushed) :=
  h.keep (update_apart hne hrun).1 (update_apart hne hrun).2

/-- The first update of another document. -/
theorem Reflects.openApart {u : String} {version : Int} (h : Reflects known uri d s pushed)
    (hne : u ≠ uri) (hrun : s.handleWith known (.didOpen u version text) = some (o, s')) :
    Reflects known uri d s' (pushed ++ o.pushed) := by
  obtain ⟨hfind, hquiet⟩ := update_apart hne hrun
  refine h.keep (hfind.trans ?_) hquiet
  rw [openDocument, find?_insert, if_neg (Ne.symm hne)]

theorem Reflects.close (h : Reflects known uri d s pushed) (u : String) :
    Reflects known uri (if u = uri then none else d) (s.close u).2
      (pushed ++ (s.close u).1.pushed) := by
  split
  · subst u
    have hlast : lastProblems? uri (s.close uri).1.pushed = some [] :=
      (lastProblems?_problems uri uri 0 []).trans (if_pos rfl)
    refine .closed (find?_close s uri) ?_
    rw [lastProblems?_append, hlast]
    rfl
  · rename_i hne
    refine h.keep ?_ ?_
    · exact (find?_erase s u uri).trans (if_neg (Ne.symm hne))
    · exact (lastProblems?_problems uri u 0 []).trans (if_neg hne)

/-- What is stored and published reflects the text of the document behind every message. -/
theorem Reflects.next {r : Request} (h : Reflects known uri d s pushed) (hr : r ≠ .shutdown)
    (hrun : s.handleWith known r = some (o, s')) :
    Reflects known uri (next uri d r) s' (pushed ++ o.pushed) := by
  have hquiet : ∀ x : Outcome, x.pushed = [] → some (x, s) = some (o, s') →
      Reflects known uri d s' (pushed ++ o.pushed) := by
    rintro x hx ⟨⟩
    rw [hx, List.append_nil]
    exact h
  cases r with
  | shutdown => exact absurd rfl hr
  | didOpen u version text =>
    rw [Server.next]
    split
    · subst u
      exact h.open_ hrun
    · exact h.openApart ‹_› hrun
  | didChange u version changes =>
    cases hlast : changes.getLast? with
    | none =>
      have hsame : Server.next uri d (.didChange u version changes) = d := by
        simp only [Server.next, hlast]
        cases d <;> simp
      rw [hsame]
      simp only [handleWith, hlast] at hrun
      exact hquiet _ rfl hrun
    | some text =>
      simp only [handleWith, hlast] at hrun
      simp only [Server.next, hlast]
      split
      · subst u
        cases d with
        | none => exact h.ignore hrun
        | some d => exact h.change hrun
      · exact h.apart ‹_› hrun
  | didSave u text =>
    rw [Server.next]
    split
    · subst u
      cases d with
      | none =>
        cases h with
        | closed hs hpushed =>
          simp only [handleWith, savedText?, hs, Option.map_none] at hrun
          exact hquiet _ rfl hrun
      | some d => exact h.save hrun
    · simp only [handleWith] at hrun
      cases hsaved : s.savedText? u text with
      | none =>
        rw [hsaved] at hrun
        exact hquiet _ rfl hrun
      | some saved =>
        rw [hsaved] at hrun
        exact h.apart ‹_› hrun
  | didClose u =>
    cases hrun
    exact h.close u
  | _ => exact hquiet _ rfl hrun

theorem serve_cons_eq_some {r : Request} {rest : List Request} {served : List Notification × Server}
    (h : serve known s (r :: rest) = some served) :
    ∃ o mid more, s.handleWith known r = some (o, mid) ∧ serve known mid rest = some more ∧
      served = (o.pushed ++ more.1, more.2) := by
  obtain ⟨⟨o, mid⟩, hfirst, hlater⟩ := Option.bind_eq_some_iff.mp h
  obtain ⟨more, hmore, hserved⟩ := Option.bind_eq_some_iff.mp hlater
  exact ⟨o, mid, more, hfirst, hmore, (Option.some.inj hserved).symm⟩

theorem Reflects.serve {rs : List Request} {served : List Notification × Server}
    (h : Reflects known uri d s pushed) (hrs : .shutdown ∉ rs)
    (hrun : Server.serve known s rs = some served) :
    Reflects known uri (rs.foldl (Server.next uri) d) served.2 (pushed ++ served.1) := by
  induction rs generalizing s d pushed served with
  | nil =>
    cases hrun
    rwa [List.append_nil]
  | cons r rest ih =>
    rw [List.mem_cons, not_or] at hrs
    obtain ⟨o, mid, more, hfirst, hmore, rfl⟩ := serve_cons_eq_some hrun
    have hrest := ih (h.next (Ne.symm hrs.1) hfirst) hrs.2 hmore
    rwa [List.append_assoc] at hrest

/-! ## Messages without an end -/

/-- The analysis of the text of a document does not end. -/
def Stuck (known : String → String → Option Analysis) (uri text : String) : Prop :=
  ∃ path, Uri.toPath uri = .ok path ∧ known (Text.ofBytes path) text = none

/-- Is the request a question about a document? -/
def asks (uri : String) : Request → Bool
  | .definition u _ | .hover u _ | .formatting u | .documentSymbol u => u = uri
  | _ => false

/-- What questions about a document depend on: all of it but the version. -/
def seen (s : Server) (uri : String) : Option (String × Bool × Option SymbolTable) :=
  (s.find? uri).map fun d => (d.text, d.systemF, d.symbols)

theorem bindings_eq (s : Server) (uri : String) :
    s.bindings uri = ((s.seen uri).bind fun d => d.2.2).elim [] SymbolTable.bindings := by
  rw [bindings, seen]
  cases s.find? uri with
  | none => rfl
  | some d => rfl

/-- What is stored and published about a document follows from its text. -/
theorem Reflects.unique {d d' : Option (String × Int)} {pushed pushed' : List Notification}
    (h : Reflects known uri d s pushed) (h' : Reflects known uri d' s' pushed')
    (htext : d.map Prod.fst = d'.map Prod.fst) : s.seen uri = s'.seen uri ∧
      (lastProblems? uri pushed).getD [] = (lastProblems? uri pushed').getD [] := by
  rw [seen, seen]
  cases h with
  | closed hs hpushed =>
    cases h' with
    | closed hs' hpushed' => exact ⟨by rw [hs, hs'], hpushed.trans hpushed'.symm⟩
    | placeless | stored => cases htext
  | placeless hpath hs hpushed =>
    cases h' with
    | closed => cases htext
    | placeless _ hs' hpushed' => exact ⟨by rw [hs, hs']; rfl, hpushed.trans hpushed'.symm⟩
    | stored hok => cases hpath.symm.trans hok
  | stored hpath ha hs hpushed =>
    cases h' with
    | closed => cases htext
    | placeless herror => cases hpath.symm.trans herror
    | stored hpath' ha' hs' hpushed' =>
      obtain rfl := Except.ok.inj (hpath.symm.trans hpath')
      cases htext
      obtain rfl := Option.some.inj (ha.symm.trans ha')
      exact ⟨by rw [hs, hs']; rfl, by rw [hpushed, hpushed']⟩

section

variable [Readers]

/-- On a machine, after some messages, a server answers questions about a document like another one,
and the same problems of it are shown. Where the message of a problem may name any of several type
parameters, it has the same texts to choose from. -/
structure Alike (machine : Machine) (uri : String) (a b : List Notification × Server) : Prop where
  answers : ∀ q, asks uri q = true → ∃ o,
    a.2.handleWith (m := StateT Machine Option) Analysis.ofText q machine = some ((o, a.2), machine) ∧
      b.2.handleWith (m := StateT Machine Option) Analysis.ofText q machine = some ((o, b.2), machine)
  problems : (lastProblems? uri a.1).getD [] = (lastProblems? uri b.1).getD []

end

/-- A machine without files. -/
def bare : Machine := ⟨.empty, "/", [], [], false⟩

end Server

end ProofScript
