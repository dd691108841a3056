import ProofScript.Proofs.Updates

/-!
# Messages that overlap

Messages about one document may be handled at the same time. The handling of each has several steps,
each of which reads or changes the stored document, and those of different messages come in any order.

The version of a document never decreases while it stays open. Its text is the one that was sent for the
version, and problems are published in the order of the versions, if some orders of steps are excluded
that nothing in the server prevents: the check of versions before an update is stored does not tell
sessions apart, a save finds the version of its text in two steps, and what is stored in one order may be
published in another one.
-/

namespace ProofScript.Server

/-! ## Messages and their handling -/

/-- A message about the text of a document. -/
inductive Message where
  | opened (version : Int) (text : String)
  | changed (version : Int) (text : String)
  | saved (text : Option String)
  | closed
deriving DecidableEq, Repr

/-- The message as a request about a document. -/
def Message.request (uri : String) : Message → Request
  | opened version text => .didOpen uri version text
  | changed version text => .didChange uri version [text]
  | saved text => .didSave uri text
  | closed => .didClose uri

/-- What the handling of a message does next. -/
inductive Stage where
  | marking (version : Int) (text : String)
  | reading (text : Option String)
  | beginning (text : String) (version : Option Int)
  | finishing (u : Update)
  | closing
deriving DecidableEq, Repr

/-- The handling of a message, with the session and the version that its text belongs to. -/
structure Handler where
  session : Nat
  version : Int
  stage : Stage
deriving DecidableEq, Repr

/-- A server that handles messages about one document. What is to be published waits in the outbox,
together with the session it belongs to, unless it takes problems back.

The fields behind these have no influence on the server: the session of the client, its latest version
and text, all texts that it has sent for a version of a session, the session that the document is open
for, how often it has been opened, and whether a text of it has been stored since. -/
structure World where
  server : Server
  handlers : List Handler
  outbox : List (Option Nat × Notification)
  pushed : List (Option Nat × Notification)
  sessions : Nat
  latest : Int
  content : String
  sent : List ((Nat × Int) × String)
  session : Nat
  openings : Nat
  loaded : Bool

/-- Nothing has been sent. -/
def World.start : World := ⟨empty, [], [], [], 0, 0, "", [], 0, 0, false⟩

/-- What happens: a message arrives, a handler takes its next step, for which texts are analysed in some
way, or something that waits is published. -/
inductive Event where
  | send (message : Message)
  | advance (index : Nat) (analyse : String → String → Analysis)
  | publish (index : Nat)

namespace World

/-- A message arrives. -/
def receive (w : World) : Message → World
  | .opened version text => { w with
      sessions := w.sessions + 1, latest := version, content := text
      sent := ((w.sessions + 1, version), text) :: w.sent
      handlers := w.handlers ++ [⟨w.sessions + 1, version, .marking version text⟩] }
  | .changed version text => { w with
      latest := version, content := text, sent := ((w.sessions, version), text) :: w.sent
      handlers := w.handlers ++ [⟨w.sessions, version, .beginning text (some version)⟩] }
  | .saved text => { w with handlers := w.handlers ++ [⟨w.sessions, w.latest, .reading text⟩] }
  | .closed => { w with handlers := w.handlers ++ [⟨w.sessions, w.latest, .closing⟩] }

/-- The handler is done. -/
def drop (w : World) (i : Nat) : World := { w with handlers := w.handlers.eraseIdx i }

/-- The handler has a new stage. -/
def put (w : World) (i : Nat) (h : Handler) : World := { w with handlers := w.handlers.set i h }

/-- The handler, after its text was read: the stored text belongs to what is stored, a text of the
message to the message. -/
def reader (w : World) (uri : String) (h : Handler) (text : String) : Option String → Handler
  | some _ => { h with stage := .beginning text none }
  | none => ⟨w.session, ((w.server.find? uri).map OpenDocument.version).getD h.version,
      .beginning text none⟩

/-- A handler takes its next step. -/
def advance (w : World) (uri : String) (i : Nat) (h : Handler)
    (analyse : String → String → Analysis) : World :=
  match h.stage with
  | .marking version text =>
    { w with
      server := w.server.openDocument uri version
      session := h.session, openings := w.openings + 1, loaded := false
    }.put i { h with stage := .beginning text (some version) }
  | .reading text =>
    match w.server.savedText? uri text with
    | none => w.drop i
    | some saved => w.put i (w.reader uri h saved text)
  | .beginning text version =>
    match w.server.begin uri text version with
    | .error _ => w.drop i
    | .ok u => w.put i { h with stage := .finishing u }
  | .finishing u =>
    let (outcome, s) := w.server.finish u (analyse u.path u.text)
    { w with
      server := s, loaded := w.loaded || w.server.accepts u
      outbox := w.outbox ++ outcome.pushed.map (some h.session, ·)
    }.drop i
  | .closing =>
    let (outcome, s) := w.server.close uri
    { w with server := s, outbox := w.outbox ++ outcome.pushed.map (none, ·) }.drop i

/-- The world behind an event. A handler or a notification that does not exist does nothing. -/
def step (uri : String) (w : World) : Event → World
  | .send m => w.receive m
  | .advance i analyse => (w.handlers[i]?).elim w fun h => w.advance uri i h analyse
  | .publish i => (w.outbox[i]?).elim w fun p =>
      { w with outbox := w.outbox.eraseIdx i, pushed := w.pushed ++ [p] }

/-- The world behind some events. -/
def run (uri : String) (w : World) (es : List Event) : World := es.foldl (step uri) w

/-- The stored document. -/
def stored? (w : World) (uri : String) : Option OpenDocument := w.server.find? uri

/-- The stored text is the one that was sent for the stored version in the session it was opened for. -/
def Current (uri : String) (w : World) : Prop :=
  ∀ d ∈ w.stored? uri, w.sent.lookup (w.session, d.version) = some d.text

instance (uri : String) (w : World) : Decidable (w.Current uri) :=
  inferInstanceAs (Decidable (∀ d ∈ w.stored? uri, _))

/-- The versions that problems were published for in a session. -/
def versions (session : Nat) (ps : List (Option Nat × Notification)) : List Int :=
  ps.filterMap fun
    | (some k, .problems _ version _) => if k = session then some version else none
    | _ => none

/-! ## Steps -/

variable {uri : String} {w w' : World} {i : Nat} {h : Handler}

/-- The failure of an analysis, as it waits to be told. -/
def failures (session : Nat) (a : Analysis) : List (Option Nat × Notification) :=
  a.failure.toList.map fun message => (some session, .failure message)

/-- What the next step of a handler may do. -/
inductive Next (uri : String) (w : World) (i : Nat) (h : Handler) : World → Prop
  | marks {version : Int} {text : String} : h.stage = .marking version text →
    Next uri w i h ({ w with
      server := w.server.openDocument uri version
      session := h.session, openings := w.openings + 1, loaded := false
    }.put i { h with stage := .beginning text (some version) })
  | skips {text : Option String} : h.stage = .reading text → Next uri w i h (w.drop i)
  | takes {text : String} : h.stage = .reading (some text) →
    Next uri w i h (w.put i { h with stage := .beginning text none })
  | reads {d : OpenDocument} : h.stage = .reading none → w.stored? uri = some d →
    Next uri w i h (w.put i ⟨w.session, d.version, .beginning d.text none⟩)
  | refuses {text : String} {version : Option Int} : h.stage = .beginning text version →
    (∀ d path, w.stored? uri = some d → Uri.toPath uri ≠ .ok path) → Next uri w i h (w.drop i)
  | begins {text : String} {version : Option Int} {d : OpenDocument} {path : String} :
    h.stage = .beginning text version → w.stored? uri = some d →
    Next uri w i h (w.put i { h with stage := .finishing ⟨uri, path, text, version.getD d.version⟩ })
  | stores {u : Update} (a : Analysis) : h.stage = .finishing u → w.server.accepts u = true →
    Next uri w i h ({ w with
      server := w.server.store u a, loaded := true
      outbox := w.outbox ++
        (failures h.session a ++ [(some h.session, Notification.problems u.uri u.version a.problems)])
    }.drop i)
  | supersedes {u : Update} (a : Analysis) : h.stage = .finishing u → ¬ w.server.accepts u = true →
    Next uri w i h ({ w with outbox := w.outbox ++ failures h.session a }.drop i)
  | closes : h.stage = .closing →
    Next uri w i h ({ w with
      server := w.server.erase uri, outbox := w.outbox ++ [(none, Notification.problems uri 0 [])] }.drop i)

theorem next_advance (uri : String) (w : World) (i : Nat) (h : Handler)
    (analyse : String → String → Analysis) : Next uri w i h (w.advance uri i h analyse) := by
  unfold advance
  cases hstage : h.stage with
  | marking version text => exact .marks hstage
  | reading text =>
    cases hread : w.server.savedText? uri text with
    | none =>
      simp only [hread]
      exact .skips hstage
    | some saved =>
      simp only [hread]
      obtain ⟨d, hd, rfl⟩ := Option.map_eq_some_iff.mp hread
      cases text with
      | some text => exact .takes hstage
      | none =>
        rw [reader, hd]
        exact .reads hstage hd
  | beginning text version =>
    cases hbegin : w.server.begin uri text version with
    | ok u =>
      simp only [hbegin]
      obtain ⟨d, path, hd, -, rfl⟩ := begin_eq_ok.mp hbegin
      exact .begins hstage hd
    | error r =>
      simp only [hbegin]
      refine .refuses hstage fun d path hd hpath => ?_
      rw [begin_eq_ok.mpr ⟨d, path, hd, hpath, rfl⟩] at hbegin
      cases hbegin
  | finishing u =>
    have hfailures : ∀ a : Analysis, (a.failure.toList.map Notification.failure).map (some h.session, ·) =
        failures h.session a := fun a => List.map_map
    by_cases haccepts : w.server.accepts u = true
    · obtain ⟨hpushed, hserver⟩ := finish_of_accepts (a := analyse u.path u.text) haccepts
      dsimp only
      rw [hpushed, hserver, haccepts, List.map_append, hfailures, Bool.or_true]
      exact .stores _ hstage haccepts
    · obtain ⟨hpushed, hserver⟩ := finish_of_not_accepts (a := analyse u.path u.text) haccepts
      dsimp only
      rw [hpushed, hserver, Bool.eq_false_iff.mpr haccepts, hfailures, Bool.or_false]
      exact .supersedes _ hstage haccepts
  | closing => exact .closes hstage

/-! ## Messages that do not overlap -/

theorem step_newest {hs : List Handler} (hhandlers : w.handlers = hs ++ [h])
    (analyse : String → String → Analysis) :
    w.step uri (.advance hs.length analyse) = w.advance uri hs.length h analyse := by
  rw [step, hhandlers, List.getElem?_concat_length]
  rfl

theorem step_idle (hi : w.handlers[i]? = none) (analyse : String → String → Analysis) :
    w.step uri (.advance i analyse) = w := by
  rw [step, hi]
  rfl

/-- The newest handler has done what the handling of a whole request does, and is gone. -/
structure Handled (hs : List Handler) (waiting : List (Option Nat × Notification))
    (r : Outcome × Server) (w : World) : Prop where
  server : w.server = r.2
  handlers : w.handlers = hs
  outbox : w.outbox.map Prod.snd = waiting.map Prod.snd ++ r.1.pushed

variable {hs : List Handler} {known : String → String → Analysis}

theorem Handled.idle {waiting : List (Option Nat × Notification)} {r : Outcome × Server}
    (hw : Handled hs waiting r w) : Handled hs waiting r (w.step uri (.advance hs.length known)) := by
  rwa [step_idle]
  rw [hw.handlers]
  exact List.getElem?_eq_none (Nat.le_refl _)

theorem drop_newest (hhandlers : w.handlers = hs ++ [h]) : (w.drop hs.length).handlers = hs := by
  rw [drop, hhandlers, List.eraseIdx_append_of_length_le (Nat.le_refl _), Nat.sub_self]
  exact List.append_nil hs

theorem put_newest (hhandlers : w.handlers = hs ++ [h]) (next : Handler) :
    (w.put hs.length next).handlers = hs ++ [next] := by
  rw [put, hhandlers, List.set_append_right _ _ (Nat.le_refl _), Nat.sub_self]
  rfl

theorem map_snd_waiting (tag : Option Nat) (waiting : List (Option Nat × Notification))
    (ps : List Notification) :
    (waiting ++ ps.map (tag, ·)).map Prod.snd = waiting.map Prod.snd ++ ps := by
  simp [Function.comp_def]

theorem handled_update {session : Nat} {v : Int} {text : String} {version : Option Int}
    (hhandlers : w.handlers = hs ++ [⟨session, v, .beginning text version⟩]) :
    Handled hs w.outbox (w.server.update (m := Id) known uri text version)
      (w.run uri [.advance hs.length known, .advance hs.length known]) := by
  rw [run, List.foldl_cons, step_newest hhandlers, advance]
  cases hbegin : w.server.begin uri text version with
  | error r =>
    rw [update_of_refused hbegin]
    simp only [hbegin]
    exact Handled.idle ⟨rfl, drop_newest hhandlers, (List.append_nil _).symm⟩
  | ok u =>
    rw [update_of_begin hbegin]
    simp only [hbegin]
    have hnext := put_newest hhandlers ⟨session, v, .finishing u⟩
    rw [List.foldl_cons, step_newest hnext]
    exact ⟨rfl, drop_newest hnext, map_snd_waiting ..⟩

/-- A message whose steps come one after the other is handled as a whole request is. -/
theorem handled_alone (uri : String) (w : World) (known : String → String → Analysis) (m : Message) :
    Handled w.handlers w.outbox (w.server.handleWith (m := Id) known (m.request uri))
      (w.run uri (.send m :: List.replicate 3 (.advance w.handlers.length known))) := by
  let newest : Event := .advance w.handlers.length known
  cases m with
  | opened version text =>
    have hreceived : (w.receive (.opened version text)).handlers = w.handlers ++
        [⟨w.sessions + 1, version, .marking version text⟩] := rfl
    change Handled _ _ _ (((w.receive (.opened version text)).step uri newest).run uri [newest, newest])
    rw [step_newest hreceived]
    have hmarked : ((w.receive (.opened version text)).advance uri w.handlers.length
        ⟨w.sessions + 1, version, .marking version text⟩ known).handlers =
        w.handlers ++ [⟨w.sessions + 1, version, .beginning text (some version)⟩] :=
      put_newest hreceived _
    exact handled_update hmarked
  | changed version text =>
    have hreceived : (w.receive (.changed version text)).handlers = w.handlers ++
        [⟨w.sessions, version, .beginning text (some version)⟩] := rfl
    exact (handled_update hreceived).idle
  | saved text =>
    have hreceived : (w.receive (.saved text)).handlers = w.handlers ++
        [⟨w.sessions, w.latest, .reading text⟩] := rfl
    change Handled _ _ _ (((w.receive (.saved text)).step uri newest).run uri [newest, newest])
    rw [step_newest hreceived, advance, Message.request, handleWith.eq_def]
    have hserver : (w.receive (.saved text)).server = w.server := rfl
    cases hread : w.server.savedText? uri text with
    | none =>
      simp only [hserver, hread]
      exact Handled.idle (Handled.idle ⟨rfl, drop_newest hreceived, (List.append_nil _).symm⟩)
    | some saved =>
      simp only [hserver, hread]
      cases text with
      | some | none => exact handled_update (put_newest hreceived _)
  | closed =>
    have hreceived : (w.receive .closed).handlers = w.handlers ++
        [⟨w.sessions, w.latest, .closing⟩] := rfl
    change Handled _ _ _ (((w.receive .closed).step uri newest).run uri [newest, newest])
    rw [step_newest hreceived]
    exact Handled.idle (Handled.idle ⟨rfl, drop_newest hreceived, map_snd_waiting ..⟩)

theorem forall_mem_set {P : Handler → Prop} (hall : ∀ h ∈ hs, P h) (hnext : P h) :
    ∀ h' ∈ hs.set i h, P h' := by
  intro h' hh'
  rcases List.mem_or_eq_of_mem_set hh' with hh' | rfl
  · exact hall h' hh'
  · exact hnext

/-! ## Orders of events -/

/-- A client tells changes of a text in the order of their versions, and saves the text it has. -/
def Proper (w : World) : Event → Prop
  | .send (.changed version _) => 0 < w.sessions ∧ w.latest < version
  | .send (.saved text) => 0 < w.sessions ∧ ∀ t ∈ text, t = w.content
  | _ => True

/-- The handler opens the document for a later session, or stores an update in the session of it. -/
def StepsInSession (w : World) (h : Handler) : Prop :=
  match h.stage with
  | .marking _ _ => w.session < h.session
  | .finishing u => w.server.accepts u = true → h.session = w.session
  | _ => True

/-- A document is opened for later sessions only, and updates are stored in their session only. -/
def InSession (w : World) : Event → Prop
  | .advance i _ => ∀ h ∈ w.handlers[i]?, w.StepsInSession h
  | _ => True

/-- The handler of a save finds a text, or the version that its text belongs to. -/
def StepsCoherently (uri : String) (w : World) (h : Handler) : Prop :=
  match h.stage with
  | .reading none => w.loaded = true
  | .beginning _ none => ∀ d ∈ w.stored? uri, d.version = h.version
  | _ => True

/-- A save reads the stored text only if there is one, and begins an update only if what is stored then
is the version that its text belongs to. -/
def Coherent (uri : String) (w : World) : Event → Prop
  | .advance i _ => ∀ h ∈ w.handlers[i]?, w.StepsCoherently uri h
  | _ => True

/-- What waits longest is published first. -/
def InTurn (_ : World) : Event → Prop
  | .publish i => i = 0
  | _ => True

instance (w : World) : (e : Event) → Decidable (w.Proper e)
  | .send (.changed version _) => inferInstanceAs (Decidable (0 < w.sessions ∧ w.latest < version))
  | .send (.saved text) => inferInstanceAs (Decidable (0 < w.sessions ∧ ∀ t ∈ text, t = w.content))
  | .send (.opened ..) | .send .closed | .advance .. | .publish _ => .isTrue trivial

instance (w : World) : (h : Handler) → Decidable (w.StepsInSession h)
  | ⟨session, _, .marking ..⟩ => inferInstanceAs (Decidable (w.session < session))
  | ⟨session, _, .finishing u⟩ =>
    inferInstanceAs (Decidable (w.server.accepts u = true → session = w.session))
  | ⟨_, _, .reading _⟩ | ⟨_, _, .beginning ..⟩ | ⟨_, _, .closing⟩ => .isTrue trivial

instance (w : World) : (e : Event) → Decidable (w.InSession e)
  | .advance i _ => inferInstanceAs (Decidable (∀ h ∈ w.handlers[i]?, w.StepsInSession h))
  | .send _ | .publish _ => .isTrue trivial

instance (uri : String) (w : World) : (h : Handler) → Decidable (w.StepsCoherently uri h)
  | ⟨_, _, .reading none⟩ => inferInstanceAs (Decidable (w.loaded = true))
  | ⟨_, version, .beginning _ none⟩ =>
    inferInstanceAs (Decidable (∀ d ∈ w.stored? uri, d.version = version))
  | ⟨_, _, .reading (some _)⟩ | ⟨_, _, .beginning _ (some _)⟩ | ⟨_, _, .marking ..⟩
  | ⟨_, _, .finishing _⟩ | ⟨_, _, .closing⟩ => .isTrue trivial

instance (uri : String) (w : World) : (e : Event) → Decidable (w.Coherent uri e)
  | .advance i _ => inferInstanceAs (Decidable (∀ h ∈ w.handlers[i]?, w.StepsCoherently uri h))
  | .send _ | .publish _ => .isTrue trivial

instance (w : World) : (e : Event) → Decidable (w.InTurn e)
  | .publish i => inferInstanceAs (Decidable (i = 0))
  | .send _ | .advance .. => .isTrue trivial

/-- All events of a run happen in such an order. -/
def Always (P : World → Event → Prop) (uri : String) : World → List Event → Prop
  | _, [] => True
  | w, e :: rest => P w e ∧ Always P uri (w.step uri e) rest

instance Always.decidable (P : World → Event → Prop) [∀ w e, Decidable (P w e)] (uri : String) :
    (w : World) → (es : List Event) → Decidable (Always P uri w es)
  | _, [] => .isTrue trivial
  | w, e :: rest =>
    have := Always.decidable P uri (w.step uri e) rest
    inferInstanceAs (Decidable (P w e ∧ Always P uri (w.step uri e) rest))

/-- What each step preserves in such an order holds behind a run. -/
theorem Always.run {P : World → Event → Prop} {I : World → Prop}
    (hstep : ∀ w e, I w → P w e → I (w.step uri e)) {es : List Event} (hw : I w)
    (hes : Always P uri w es) : I (w.run uri es) := by
  induction es generalizing w with
  | nil => exact hw
  | cons e rest ih => exact ih (hstep w e hw hes.1) hes.2

theorem Always.and {P Q : World → Event → Prop} {es : List Event} (hP : Always P uri w es)
    (hQ : Always Q uri w es) : Always (fun w e => P w e ∧ Q w e) uri w es := by
  induction es generalizing w with
  | nil => trivial
  | cons e rest ih => exact ⟨⟨hP.1, hQ.1⟩, ih hP.2 hQ.2⟩

/-! ## Versions of the stored document -/

/-- Unless the document is opened anew, it is only stored if it was before, under no lower version. -/
def Persists (uri : String) (w w' : World) : Prop :=
  w.openings ≤ w'.openings ∧ (w'.openings = w.openings → ∀ d', w'.stored? uri = some d' →
    ∃ d, w.stored? uri = some d ∧ d.version ≤ d'.version)

theorem persists_of_server (hserver : w'.server = w.server) (hopenings : w'.openings = w.openings) :
    Persists uri w w' := by
  refine ⟨Nat.le_of_eq hopenings.symm, fun _ d' hd' => ⟨d', ?_, Int.le_refl _⟩⟩
  rwa [stored?, hserver] at hd'

theorem Persists.trans {mid : World} (hfirst : Persists uri w mid) (hsecond : Persists uri mid w') :
    Persists uri w w' := by
  refine ⟨Nat.le_trans hfirst.1 hsecond.1, fun hopenings d' hd' => ?_⟩
  have hfirst' := hfirst.1
  have hsecond' := hsecond.1
  obtain ⟨dm, hdm, hle'⟩ := hsecond.2 (by omega) d' hd'
  obtain ⟨d, hd, hle⟩ := hfirst.2 (by omega) dm hdm
  exact ⟨d, hd, Int.le_trans hle hle'⟩

theorem Next.persists (hnext : Next uri w i h w') : Persists uri w w' := by
  cases hnext with
  | marks => exact ⟨Nat.le_succ _, fun hsame => absurd hsame (Nat.succ_ne_self _)⟩
  | skips | takes | reads | refuses | begins | supersedes => exact persists_of_server rfl rfl
  | @stores u a _ haccepts =>
    refine ⟨Nat.le_refl _, fun _ d' hd' => ?_⟩
    obtain ⟨d, hd, hle⟩ := accepts_iff.mp haccepts
    have hfind := find?_store w.server u a uri
    rw [show (w.server.store u a).find? uri = some d' from hd'] at hfind
    split at hfind
    · subst uri
      exact ⟨d, hd, by rw [Option.some.inj hfind]; exact hle⟩
    · exact ⟨d', hfind.symm, Int.le_refl _⟩
  | closes =>
    refine ⟨Nat.le_refl _, fun _ d' hd' => ?_⟩
    have herase := find?_erase w.server uri uri
    rw [if_pos rfl] at herase
    cases herase.symm.trans hd'

theorem step_persists (uri : String) (w : World) (e : Event) : Persists uri w (w.step uri e) := by
  cases e with
  | send m => cases m with
    | opened | changed | saved | closed => exact persists_of_server rfl rfl
  | advance i analyse =>
    rw [step]
    cases w.handlers[i]? with
    | none => exact persists_of_server rfl rfl
    | some h => exact (next_advance uri w i h analyse).persists
  | publish i =>
    rw [step]
    cases w.outbox[i]? with
    | none => exact persists_of_server rfl rfl
    | some p => exact persists_of_server rfl rfl

theorem run_persists (uri : String) (w : World) (es : List Event) : Persists uri w (w.run uri es) := by
  induction es generalizing w with
  | nil => exact persists_of_server rfl rfl
  | cons e rest ih => exact (step_persists uri w e).trans (ih _)

end World

/-! ## The text of the stored document -/

namespace Handler

/-- The text of a handler is the one that was sent for its version in its session. -/
def Faithful (uri : String) (sent : List ((Nat × Int) × String)) (h : Handler) : Prop :=
  match h.stage with
  | .marking version text => version = h.version ∧ sent.lookup (h.session, version) = some text
  | .reading text => ∀ t ∈ text, sent.lookup (h.session, h.version) = some t
  | .beginning text version =>
    (∀ v ∈ version, v = h.version) ∧ sent.lookup (h.session, h.version) = some text
  | .finishing u => u.uri = uri ∧ sent.lookup (h.session, u.version) = some u.text
  | .closing => True

/-- A text of a session is to be stored under a version. -/
def Loads (session : Nat) (version : Int) (h : Handler) : Prop :=
  h.session = session ∧
    ((∃ text, h.stage = .beginning text (some version)) ∨
      ∃ u, h.stage = .finishing u ∧ u.version = version)

theorem not_loads_of_reading {h : Handler} {session : Nat} {version : Int} {text : Option String}
    (hstage : h.stage = .reading text) : ¬ h.Loads session version := by
  simp [Loads, hstage]

theorem Loads.of_beginning {h : Handler} {session : Nat} {v : Int} {text : String} {version : Option Int}
    (hload : h.Loads session v) (hstage : h.stage = .beginning text version) : version = some v := by
  rcases hload.2 with ⟨text', hbegins⟩ | ⟨u, hfinishes, -⟩
  · exact (Stage.beginning.inj (hstage.symm.trans hbegins)).2
  · cases hstage.symm.trans hfinishes

theorem Loads.of_finishing {h : Handler} {session : Nat} {v : Int} {u : Update}
    (hload : h.Loads session v) (hstage : h.stage = .finishing u) : u.version = v := by
  rcases hload.2 with ⟨text, hbegins⟩ | ⟨u', hfinishes, hversion⟩
  · cases hstage.symm.trans hbegins
  · rwa [Stage.finishing.inj (hstage.symm.trans hfinishes)]

end Handler

namespace World

variable {uri : String} {w w' : World} {i : Nat} {h : Handler}

/-- Texts were sent for the versions of a session one after the other, handlers have such texts, and
the stored text is one of the current session, unless it is still to be stored. -/
structure Faithful (uri : String) (w : World) : Prop where
  keys : ∀ e ∈ w.sent, e.1.1 ≤ w.sessions ∧ (e.1.1 = w.sessions → e.1.2 ≤ w.latest)
  content : 0 < w.sessions → w.sent.lookup (w.sessions, w.latest) = some w.content
  handlers : ∀ h ∈ w.handlers, h.Faithful uri w.sent
  stored : w.loaded = true → w.Current uri
  blank : ∀ d, w.stored? uri = some d → w.loaded = false → d.text = "" ∧
    ∀ path, Uri.toPath uri = .ok path → ∃ h ∈ w.handlers, h.Loads w.session d.version

theorem faithful_start (uri : String) : start.Faithful uri where
  keys := by simp [start]
  content h := absurd h (Nat.lt_irrefl 0)
  handlers := by simp [start]
  stored := nofun
  blank := by simp [start, stored?, find?_empty]

end World

namespace Handler

theorem Faithful.mono {uri : String} {sent sent' : List ((Nat × Int) × String)} {h : Handler}
    (hsent : ∀ k t, sent.lookup k = some t → sent'.lookup k = some t) (hh : h.Faithful uri sent) :
    h.Faithful uri sent' := by
  unfold Faithful at hh ⊢
  cases hstage : h.stage with
  | marking | beginning | finishing =>
    simp only [hstage] at hh ⊢
    exact ⟨hh.1, hsent _ _ hh.2⟩
  | reading text =>
    simp only [hstage] at hh ⊢
    exact fun t ht => hsent _ _ (hh t ht)
  | closing => trivial

end Handler

namespace World

variable {uri : String} {w w' : World} {i : Nat} {h : Handler}

/-- A text of the client that is later than all before. -/
theorem Faithful.tell (hw : w.Faithful uri) {session : Nat} {version : Int} {text : String}
    {stage : Stage} (hlater : w.sessions < session ∨ session = w.sessions ∧ w.latest < version)
    (hstage : (⟨session, version, stage⟩ : Handler).Faithful uri (((session, version), text) :: w.sent)) :
    ({ w with
      sessions := session, latest := version, content := text
      sent := ((session, version), text) :: w.sent
      handlers := w.handlers ++ [⟨session, version, stage⟩] } : World).Faithful uri := by
  have hnew : ∀ e ∈ w.sent, e.1 ≠ (session, version) := by
    intro e he heq
    have hkeys := hw.keys e he
    rw [heq] at hkeys
    rcases hlater with hlt | ⟨rfl, hlt⟩
    · exact absurd hkeys.1 (Nat.not_le.mpr hlt)
    · exact absurd (hkeys.2 rfl) (Int.not_le.mpr hlt)
  have hsent : ∀ k t, w.sent.lookup k = some t →
      (((session, version), text) :: w.sent).lookup k = some t :=
    fun k t hk => lookup_cons_of_lookup hnew hk
  refine ⟨?_, fun _ => List.lookup_cons_self, ?_,
    fun hloaded d hd => hsent _ _ (hw.stored hloaded d hd), ?_⟩
  · intro e he
    rcases List.mem_cons.mp he with rfl | he
    · exact ⟨Nat.le_refl _, fun _ => Int.le_refl _⟩
    · obtain ⟨hle, hlatest⟩ := hw.keys e he
      rcases hlater with hlt | ⟨rfl, hlt⟩
      · exact ⟨Nat.le_of_lt (Nat.lt_of_le_of_lt hle hlt),
          fun heq => absurd (Nat.le_trans (Nat.le_of_eq heq.symm) hle) (Nat.not_le.mpr hlt)⟩
      · exact ⟨hle, fun heq => Int.le_of_lt (Int.lt_of_le_of_lt (hlatest heq) hlt)⟩
  · exact List.forall_mem_append.mpr
      ⟨fun h hh => (hw.handlers h hh).mono hsent, List.forall_mem_singleton.mpr hstage⟩
  · intro d hd hloaded
    obtain ⟨htext, hloads⟩ := hw.blank d hd hloaded
    refine ⟨htext, fun path hpath => ?_⟩
    obtain ⟨h, hh, hload⟩ := hloads path hpath
    exact ⟨h, List.mem_append_left _ hh, hload⟩

/-- A message without a text that is new. -/
theorem Faithful.await (hw : w.Faithful uri) {h : Handler} (hh : h.Faithful uri w.sent) :
    ({ w with handlers := w.handlers ++ [h] } : World).Faithful uri where
  keys := hw.keys
  content := hw.content
  handlers := List.forall_mem_append.mpr ⟨hw.handlers, List.forall_mem_singleton.mpr hh⟩
  stored := hw.stored
  blank d hd hloaded := by
    obtain ⟨htext, hloads⟩ := hw.blank d hd hloaded
    refine ⟨htext, fun path hpath => ?_⟩
    obtain ⟨h', hh', hload⟩ := hloads path hpath
    exact ⟨h', List.mem_append_left _ hh', hload⟩

theorem Faithful.receive (hw : w.Faithful uri) {m : Message} (hm : w.Proper (.send m)) :
    (w.receive m).Faithful uri := by
  cases m with
  | opened version text =>
    exact hw.tell (.inl (Nat.lt_succ_self _)) ⟨rfl, List.lookup_cons_self⟩
  | changed version text =>
    exact hw.tell (.inr ⟨rfl, hm.2⟩) ⟨fun v hv => (Option.some.inj hv).symm, List.lookup_cons_self⟩
  | saved text =>
    refine hw.await fun t ht => ?_
    rw [hm.2 t ht]
    exact hw.content hm.1
  | closed => exact hw.await trivial

/-- Nothing but the handlers and the outbox changes. -/
theorem Faithful.pass (hw : w.Faithful uri) {hs : List Handler} (out : List (Option Nat × Notification))
    (hall : ∀ h ∈ hs, h.Faithful uri w.sent)
    (hkeep : ∀ d path, w.stored? uri = some d → Uri.toPath uri = .ok path →
      ∀ h ∈ w.handlers, h.Loads w.session d.version → ∃ h' ∈ hs, h'.Loads w.session d.version) :
    ({ w with handlers := hs, outbox := out } : World).Faithful uri where
  keys := hw.keys
  content := hw.content
  handlers := hall
  stored := hw.stored
  blank d hd hloaded := by
    obtain ⟨htext, hloads⟩ := hw.blank d hd hloaded
    refine ⟨htext, fun path hpath => ?_⟩
    obtain ⟨h, hh, hload⟩ := hloads path hpath
    exact hkeep d path hd hpath h hh hload

/-- A handler is done that does not store the text of the document. -/
theorem Faithful.quit (hw : w.Faithful uri) (hi : w.handlers[i]? = some h)
    (out : List (Option Nat × Notification))
    (hquits : ∀ d path, w.stored? uri = some d → Uri.toPath uri = .ok path →
      ¬ h.Loads w.session d.version) :
    (({ w with outbox := out } : World).drop i).Faithful uri := by
  refine hw.pass out (fun h' hh' => hw.handlers h' (List.mem_of_mem_eraseIdx hh')) ?_
  intro d path hd hpath h' hh' hload
  obtain ⟨j, hj⟩ := List.mem_iff_getElem?.mp hh'
  refine ⟨h', List.mem_eraseIdx_iff_getElem?.mpr ⟨j, fun heq => ?_, hj⟩, hload⟩
  subst heq
  rw [Option.some.inj (hi.symm.trans hj)] at hquits
  exact hquits d path hd hpath hload

/-- A handler goes on that still stores the text of the document if it did. -/
theorem Faithful.continue (hw : w.Faithful uri) (hi : w.handlers[i]? = some h) {next : Handler}
    (hnext : next.Faithful uri w.sent)
    (hkeep : ∀ v, h.Loads w.session v → next.Loads w.session v) : (w.put i next).Faithful uri := by
  refine hw.pass w.outbox (forall_mem_set hw.handlers hnext) ?_
  intro d path _ _ h' hh' hload
  obtain ⟨j, hj⟩ := List.mem_iff_getElem?.mp hh'
  by_cases heq : i = j
  · subst heq
    rw [← Option.some.inj (hi.symm.trans hj)] at hload
    exact ⟨next, List.mem_set (List.getElem?_eq_some_iff.mp hi).1 _, hkeep _ hload⟩
  · exact ⟨h', List.mem_iff_getElem?.mpr ⟨j, (List.getElem?_set_ne heq).trans hj⟩, hload⟩

/-- A document is opened: its text is still to be stored. -/
theorem Faithful.mark (hw : w.Faithful uri) (hi : w.handlers[i]? = some h) {version : Int} {text : String}
    (hstage : h.stage = .marking version text) :
    ({ w with
      server := w.server.openDocument uri version
      session := h.session, openings := w.openings + 1, loaded := false
    }.put i { h with stage := .beginning text (some version) }).Faithful uri := by
  have hh := hw.handlers h (List.mem_of_getElem? hi)
  simp only [Handler.Faithful, hstage] at hh
  obtain ⟨rfl, htext⟩ := hh
  refine ⟨hw.keys, hw.content, ?_, nofun, fun d hd _ => ?_⟩
  · exact forall_mem_set hw.handlers ⟨fun v hv => (Option.some.inj hv).symm, htext⟩
  · cases (find?_openDocument w.server uri h.version).symm.trans hd
    exact ⟨rfl, fun _ _ => ⟨_, List.mem_set (List.getElem?_eq_some_iff.mp hi).1 _, rfl, .inl ⟨text, rfl⟩⟩⟩

/-- An update takes the version of its text. -/
theorem Faithful.begin (hw : w.Faithful uri) (hi : w.handlers[i]? = some h) {text path : String}
    {version : Option Int} {d : OpenDocument} (hstage : h.stage = .beginning text version)
    (hd : w.stored? uri = some d) (hcoherent : w.StepsCoherently uri h) :
    (w.put i { h with stage := .finishing ⟨uri, path, text, version.getD d.version⟩ }).Faithful uri := by
  have hh := hw.handlers h (List.mem_of_getElem? hi)
  simp only [Handler.Faithful, hstage] at hh
  have hversion : version.getD d.version = h.version := by
    cases version with
    | none =>
      simp only [StepsCoherently, hstage] at hcoherent
      exact hcoherent d hd
    | some v => exact hh.1 v rfl
  refine hw.continue hi ⟨rfl, ?_⟩ fun v hload => ⟨hload.1, .inr ⟨_, rfl, ?_⟩⟩
  · rw [hversion]
    exact hh.2
  · rw [hload.of_beginning hstage]
    rfl

/-- An update is stored in the session of its text. -/
theorem Faithful.store (hw : w.Faithful uri) (hi : w.handlers[i]? = some h) {u : Update} (a : Analysis)
    (out : List (Option Nat × Notification)) (hstage : h.stage = .finishing u)
    (hsession : h.session = w.session) :
    (({ w with server := w.server.store u a, loaded := true, outbox := out } : World).drop i).Faithful
      uri := by
  have hh := hw.handlers h (List.mem_of_getElem? hi)
  simp only [Handler.Faithful, hstage] at hh
  obtain ⟨rfl, htext⟩ := hh
  refine ⟨hw.keys, hw.content, fun h' hh' => hw.handlers h' (List.mem_of_mem_eraseIdx hh'),
    fun _ d hd => ?_, nofun⟩
  have hstored := find?_store w.server u a u.uri
  rw [if_pos rfl] at hstored
  cases hstored.symm.trans hd
  rw [← hsession]
  exact htext

theorem Faithful.close (hw : w.Faithful uri) (i : Nat) (out : List (Option Nat × Notification)) :
    (({ w with server := w.server.erase uri, outbox := out } : World).drop i).Faithful uri := by
  have hstored := find?_erase w.server uri uri
  rw [if_pos rfl] at hstored
  exact ⟨hw.keys, hw.content, fun h hh => hw.handlers h (List.mem_of_mem_eraseIdx hh),
    fun _ d hd => (nomatch hstored.symm.trans hd), fun d hd => (nomatch hstored.symm.trans hd)⟩

theorem Next.faithful (hw : w.Faithful uri) (hi : w.handlers[i]? = some h)
    {analyse : String → String → Analysis} (hsession : w.InSession (.advance i analyse))
    (hcoherent : w.Coherent uri (.advance i analyse)) (hnext : Next uri w i h w') :
    w'.Faithful uri := by
  have hh := hw.handlers h (List.mem_of_getElem? hi)
  have hin := hsession h hi
  have hco := hcoherent h hi
  cases hnext with
  | marks hstage => exact hw.mark hi hstage
  | skips hstage =>
    exact hw.quit hi w.outbox fun _ _ _ _ => Handler.not_loads_of_reading hstage
  | @takes text hstage =>
    simp only [Handler.Faithful, hstage] at hh
    exact hw.continue hi ⟨nofun, hh text rfl⟩ fun v hload =>
      absurd hload (Handler.not_loads_of_reading hstage)
  | @reads d hstage hd =>
    simp only [StepsCoherently, hstage] at hco
    exact hw.continue hi ⟨nofun, hw.stored hco d hd⟩ fun v hload =>
      absurd hload (Handler.not_loads_of_reading hstage)
  | refuses hstage hrefused =>
    exact hw.quit hi w.outbox fun d path hd hpath _ => hrefused d path hd hpath
  | begins hstage hd => exact hw.begin hi hstage hd hco
  | stores a hstage haccepts =>
    simp only [StepsInSession, hstage] at hin
    exact hw.store hi a _ hstage (hin haccepts)
  | @supersedes u a hstage haccepts =>
    -- The text of the document itself is never out of date.
    simp only [Handler.Faithful, hstage] at hh
    refine hw.quit hi _ fun d _ hd _ hload => haccepts (accepts_iff.mpr ⟨d, hh.1 ▸ hd, ?_⟩)
    exact Int.le_of_eq (hload.of_finishing hstage).symm
  | closes hstage => exact hw.close i _

theorem step_faithful {e : Event} (hw : w.Faithful uri) (hproper : w.Proper e) (hsession : w.InSession e)
    (hcoherent : w.Coherent uri e) : (w.step uri e).Faithful uri := by
  cases e with
  | send m => exact hw.receive hproper
  | advance i analyse =>
    rw [step]
    cases hi : w.handlers[i]? with
    | none => exact hw
    | some h => exact (next_advance uri w i h analyse).faithful hw hi hsession hcoherent
  | publish i =>
    rw [step]
    cases w.outbox[i]? with
    | none => exact hw
    | some p => exact ⟨hw.keys, hw.content, hw.handlers, hw.stored, hw.blank⟩

/-! ## The order of what is published -/

theorem versions_append (k : Nat) (ps qs : List (Option Nat × Notification)) :
    versions k (ps ++ qs) = versions k ps ++ versions k qs := List.filterMap_append

theorem versions_failures (k session : Nat) (a : Analysis) : versions k (failures session a) = [] := by
  unfold failures versions
  cases a.failure with
  | none => rfl
  | some message => rfl

theorem versions_problems (k session : Nat) (uri : String) (version : Int) (ps : List Problem) :
    versions k [(some session, .problems uri version ps)] = if session = k then [version] else [] := by
  unfold versions
  split <;> simp_all

/-- The versions that are published or wait rise in each session, none is behind the stored one in the
current session, and there are none of later sessions. -/
structure Ordered (uri : String) (w : World) : Prop where
  sorted : ∀ k, (versions k (w.pushed ++ w.outbox)).Pairwise (· ≤ ·)
  bound : ∀ k, ∀ v ∈ versions k (w.pushed ++ w.outbox), k ≤ w.session ∧
    (k = w.session → ∀ d, w.stored? uri = some d → v ≤ d.version)
  target : ∀ h ∈ w.handlers, ∀ u, h.stage = .finishing u → u.uri = uri

theorem ordered_start (uri : String) : start.Ordered uri where
  sorted _ := List.Pairwise.nil
  bound _ := nofun
  target := nofun

/-- What is stored and what is to be published stays. -/
theorem Ordered.pass (hw : w.Ordered uri) (hserver : w'.server = w.server)
    (hsession : w'.session = w.session)
    (hversions : ∀ k, versions k (w'.pushed ++ w'.outbox) = versions k (w.pushed ++ w.outbox))
    (htarget : ∀ h ∈ w'.handlers, ∀ u, h.stage = .finishing u → u.uri = uri) : w'.Ordered uri where
  sorted k := by
    rw [hversions k]
    exact hw.sorted k
  bound k v hv := by
    rw [hversions k] at hv
    rw [hsession, stored?, hserver]
    exact hw.bound k v hv
  target := htarget

theorem versions_silent {out : List (Option Nat × Notification)} (hout : ∀ k, versions k out = [])
    (w : World) (k : Nat) :
    versions k (w.pushed ++ (w.outbox ++ out)) = versions k (w.pushed ++ w.outbox) := by
  rw [← List.append_assoc, versions_append, hout k, List.append_nil]

/-- What is stored is no earlier than what was, so neither is what is to be published. -/
theorem Ordered.store (hw : w.Ordered uri) (i : Nat) {u : Update} (a : Analysis) {d : OpenDocument}
    (huri : u.uri = uri) (hd : w.stored? uri = some d) (hle : d.version ≤ u.version) :
    (({ w with
      server := w.server.store u a, loaded := true
      outbox := w.outbox ++ (failures w.session a ++
        [(some w.session, Notification.problems u.uri u.version a.problems)]) } : World).drop i).Ordered
      uri := by
  have hstored := find?_store w.server u a uri
  rw [if_pos huri.symm] at hstored
  have hversions : ∀ k, versions k (w.pushed ++ (w.outbox ++ (failures w.session a ++
      [(some w.session, Notification.problems u.uri u.version a.problems)]))) =
      versions k (w.pushed ++ w.outbox) ++ if w.session = k then [u.version] else [] := fun k => by
    rw [← List.append_assoc, versions_append, versions_append k (failures _ _), versions_failures,
      versions_problems, List.nil_append]
  have hbefore : ∀ v ∈ versions w.session (w.pushed ++ w.outbox), v ≤ u.version := fun v hv =>
    Int.le_trans ((hw.bound _ v hv).2 rfl d hd) hle
  refine ⟨fun k => ?_, fun k v hv => ?_, fun h hh => hw.target h (List.mem_of_mem_eraseIdx hh)⟩
  · change (versions k (w.pushed ++ (w.outbox ++ _))).Pairwise (· ≤ ·)
    rw [hversions k]
    refine List.pairwise_append.mpr ⟨hw.sorted k, ?_, fun v hv v' hv' => ?_⟩
    · split
      · exact List.pairwise_singleton _ _
      · exact List.Pairwise.nil
    · split at hv'
      · subst k
        rw [List.mem_singleton.mp hv']
        exact hbefore v hv
      · cases hv'
  · change v ∈ versions k (w.pushed ++ (w.outbox ++ _)) at hv
    rw [hversions k] at hv
    rcases List.mem_append.mp hv with hv | hnew
    · refine ⟨(hw.bound k v hv).1, fun heq d' hd' => ?_⟩
      cases hstored.symm.trans hd'
      subst heq
      exact hbefore v hv
    · split at hnew
      · subst k
        refine ⟨Nat.le_refl _, fun _ d' hd' => ?_⟩
        cases hstored.symm.trans hd'
        exact Int.le_of_eq (List.mem_singleton.mp hnew)
      · cases hnew

theorem Ordered.close (hw : w.Ordered uri) (i : Nat) :
    (({ w with
      server := w.server.erase uri
      outbox := w.outbox ++ [(none, Notification.problems uri 0 [])] } : World).drop i).Ordered uri := by
  have hstored := find?_erase w.server uri uri
  rw [if_pos rfl] at hstored
  have hversions : ∀ k, versions k (w.pushed ++ (w.outbox ++ [(none, Notification.problems uri 0 [])])) =
      versions k (w.pushed ++ w.outbox) := versions_silent (fun _ => rfl) w
  refine ⟨fun k => ?_, fun k v hv => ?_, fun h hh => hw.target h (List.mem_of_mem_eraseIdx hh)⟩
  · change (versions k (w.pushed ++ (w.outbox ++ _))).Pairwise (· ≤ ·)
    rw [hversions k]
    exact hw.sorted k
  · change v ∈ versions k (w.pushed ++ (w.outbox ++ _)) at hv
    rw [hversions k] at hv
    exact ⟨(hw.bound k v hv).1, fun _ d hd => nomatch hstored.symm.trans hd⟩

theorem Ordered.receive (hw : w.Ordered uri) (m : Message) : (w.receive m).Ordered uri := by
  cases m with
  | opened | changed | saved | closed =>
    refine hw.pass rfl rfl (fun _ => rfl) (List.forall_mem_append.mpr ⟨hw.target, ?_⟩)
    exact List.forall_mem_singleton.mpr nofun

theorem Next.ordered (hw : w.Ordered uri) (hi : w.handlers[i]? = some h)
    {analyse : String → String → Analysis} (hsession : w.InSession (.advance i analyse))
    (hnext : Next uri w i h w') : w'.Ordered uri := by
  have hin := hsession h hi
  cases hnext with
  | @marks version text hstage =>
    simp only [StepsInSession, hstage] at hin
    refine ⟨hw.sorted, fun k v hv => ?_, forall_mem_set hw.target nofun⟩
    have hle := (hw.bound k v hv).1
    exact ⟨Nat.le_of_lt (Nat.lt_of_le_of_lt hle hin),
      fun heq => absurd (Nat.le_trans (Nat.le_of_eq heq.symm) hle) (Nat.not_le.mpr hin)⟩
  | skips | refuses =>
    exact hw.pass rfl rfl (fun _ => rfl) fun h hh => hw.target h (List.mem_of_mem_eraseIdx hh)
  | takes | reads => exact hw.pass rfl rfl (fun _ => rfl) (forall_mem_set hw.target nofun)
  | begins =>
    refine hw.pass rfl rfl (fun _ => rfl) (forall_mem_set hw.target fun u hu => ?_)
    cases hu
    rfl
  | @stores u a hstage haccepts =>
    simp only [StepsInSession, hstage] at hin
    obtain ⟨d, hd, hle⟩ := accepts_iff.mp haccepts
    have huri := hw.target h (List.mem_of_getElem? hi) u hstage
    rw [hin haccepts]
    exact hw.store i a huri (huri ▸ hd) hle
  | supersedes a =>
    exact hw.pass rfl rfl (versions_silent (fun k => versions_failures k _ a) w) fun h hh =>
      hw.target h (List.mem_of_mem_eraseIdx hh)
  | closes => exact hw.close i

theorem step_ordered {e : Event} (hw : w.Ordered uri) (hsession : w.InSession e) (hturn : w.InTurn e) :
    (w.step uri e).Ordered uri := by
  cases e with
  | send m => exact hw.receive m
  | advance i analyse =>
    rw [step]
    cases hi : w.handlers[i]? with
    | none => exact hw
    | some h => exact (next_advance uri w i h analyse).ordered hw hi hsession
  | publish i =>
    obtain rfl : i = 0 := hturn
    rw [step]
    cases hp : w.outbox with
    | nil => exact hw
    | cons p rest =>
      refine hw.pass rfl rfl (fun k => ?_) hw.target
      change versions k ((w.pushed ++ [p]) ++ rest) = _
      rw [hp, List.append_assoc]
      rfl

/-! ## Whole runs -/

/-- Unless the document is opened anew in between, it is stored later only if it was before, under no
lower version. If the client counts versions up, updates are stored in their session and saves meet the
version of their text, then the stored text is the one that was sent for the stored version, or empty
before a text is stored, which then is about to be if the document is a file. If updates are stored in
their session and what waits is published in turn, then the versions that problems are published for do
not decrease in any session. -/
theorem updates_settle (uri : String) (es more : List Event) :
    ((start.run uri (es ++ more)).openings = (start.run uri es).openings →
      ∀ d' ∈ (start.run uri (es ++ more)).stored? uri,
        ∃ d ∈ (start.run uri es).stored? uri, d.version ≤ d'.version) ∧
    (Always Proper uri start es → Always InSession uri start es → Always (Coherent uri) uri start es →
      ((start.run uri es).loaded = true → (start.run uri es).Current uri) ∧
      ((start.run uri es).loaded = false → ∀ d ∈ (start.run uri es).stored? uri, d.text = "" ∧
        ∀ path, Uri.toPath uri = .ok path →
          ∃ h ∈ (start.run uri es).handlers, h.Loads (start.run uri es).session d.version)) ∧
    (Always InSession uri start es → Always InTurn uri start es →
      ∀ session, (versions session (start.run uri es).pushed).Pairwise (· ≤ ·)) := by
  refine ⟨fun hopenings => ?_, fun hproper hsession hcoherent => ?_, fun hsession hturn k => ?_⟩
  · have hpersists := run_persists uri (start.run uri es) more
    rw [run, run, List.foldl_append] at hopenings ⊢
    exact hpersists.2 hopenings
  · have hfaithful : (start.run uri es).Faithful uri :=
      ((hproper.and hsession).and hcoherent).run
        (fun w e hw he => step_faithful hw he.1.1 he.1.2 he.2) (faithful_start uri)
    exact ⟨hfaithful.stored, fun hloaded d hd => hfaithful.blank d hd hloaded⟩
  · have hordered : (start.run uri es).Ordered uri :=
      (hsession.and hturn).run (fun w e hw he => step_ordered hw he.1 he.2) (ordered_start uri)
    have hsorted := hordered.sorted k
    rw [versions_append] at hsorted
    exact (List.pairwise_append.mp hsorted).1

/-- A handler takes its next step. -/
def next (i : Nat) : Event := .advance i fun _ _ => default

/-- A document is opened. -/
def opening : List Event := [.send (.opened 1 "P"), next 0, next 0, next 0]

/-- A change is handled while the analysis of the one before goes on. -/
def superseding : List Event :=
  opening ++ [.publish 0, .send (.changed 2 "Q"), next 0,
    .send (.changed 3 "R"), next 1, next 1, .publish 0, next 0]

theorem superseding_settles :
    (∃ d ∈ (start.run "file:///a" opening).stored? "file:///a", d.version ≤ 3) ∧
      (start.run "file:///a" superseding).Current "file:///a" ∧
      ((start.run "file:///a" superseding).stored? "file:///a").map OpenDocument.text = some "R" ∧
      (versions 1 (start.run "file:///a" superseding).pushed).Pairwise (· ≤ ·) ∧
      versions 1 (start.run "file:///a" superseding).pushed = [1, 3] := by
  obtain ⟨hrises, -⟩ := updates_settle "file:///a" opening (superseding.drop opening.length)
  obtain ⟨-, hcurrent, hsorted⟩ := updates_settle "file:///a" superseding []
  have hstored : ((start.run "file:///a" superseding).stored? "file:///a").isSome := by decide +kernel
  have hversion : ∀ d ∈ (start.run "file:///a" superseding).stored? "file:///a", d.version = 3 := by
    decide +kernel
  obtain ⟨d', hd'⟩ := Option.isSome_iff_exists.mp hstored
  obtain ⟨d, hd, hle⟩ := hrises (by decide +kernel) d' hd'
  refine ⟨⟨d, hd, hversion d' hd' ▸ hle⟩, ?_, by decide +kernel, ?_, by decide +kernel⟩
  · exact (hcurrent (by decide +kernel) (by decide +kernel) (by decide +kernel)).1 (by decide +kernel)
  · exact hsorted (by decide +kernel) (by decide +kernel) 1

/-- A save finds the text of one version, and then the next version. -/
def saving : List Event :=
  opening ++ [.send (.saved none), next 0, .send (.changed 2 "Q"), next 1, next 1, next 0, next 0]

/-- A document is opened anew while an analysis of it goes on. -/
def reopening : List Event :=
  opening ++ [.send (.changed 2 "Q"), next 0, .send .closed, next 1,
    .send (.opened 1 "R"), next 1, next 1, next 1, next 0]

/-- The problems of a later version are published first. -/
def publishing : List Event :=
  opening ++ [.send (.changed 2 "Q"), next 0, next 0, .publish 1, .publish 0]

/-- None of the conditions can be left out: a text is stored for a version or in a session that it was not
sent for, and problems are published for the version before. The text of a document that is no file is
never stored. -/
theorem conditions_needed :
    (Always Proper "file:///a" start saving ∧ Always InSession "file:///a" start saving ∧
      (start.run "file:///a" saving).loaded = true ∧
      ¬ (start.run "file:///a" saving).Current "file:///a") ∧
    (Always Proper "file:///a" start reopening ∧
      Always (Coherent "file:///a") "file:///a" start reopening ∧
      (start.run "file:///a" reopening).loaded = true ∧
      ¬ (start.run "file:///a" reopening).Current "file:///a") ∧
    (Always Proper "file:///a" start publishing ∧ Always InSession "file:///a" start publishing ∧
      versions 1 (start.run "file:///a" publishing).pushed = [2, 1]) ∧
    ((start.run "untitled:a" opening).handlers = [] ∧
      ((start.run "untitled:a" opening).stored? "untitled:a").map OpenDocument.text = some "") := by
  refine ⟨⟨?_, ?_, ?_, ?_⟩, ⟨?_, ?_, ?_, ?_⟩, ⟨?_, ?_, ?_⟩, ⟨?_, ?_⟩⟩ <;> decide +kernel

end World

end ProofScript.Server
