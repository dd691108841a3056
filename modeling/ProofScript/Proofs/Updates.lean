import ProofScript.Proofs.Lookups
import ProofScript.Server

/-!
# Updates of a server

What the steps of an update do to the stored documents, and what they publish.
-/

namespace ProofScript.Server

variable {s : Server} {uri : String} {u : Update} {a : Analysis}

/-! ## Stored documents -/

theorem find?_empty (uri : String) : empty.find? uri = none := rfl

theorem find?_erase (s : Server) (u uri : String) :
    (s.erase u).find? uri = if uri = u then none else s.find? uri := by
  split
  · subst uri
    refine lookup_eq_none_iff_not_mem.mpr fun hmem => ?_
    obtain ⟨e, he, heq⟩ := List.mem_map.mp hmem
    exact of_decide_eq_true (List.mem_filter.mp he).2 heq
  · exact lookup_filter_ne ‹_› s.documents

theorem find?_insert (s : Server) (u uri : String) (d : OpenDocument) :
    (s.insert u d).find? uri = if uri = u then some d else s.find? uri := by
  split
  · subst uri
    exact List.lookup_cons_self
  · have hne : (uri == u) = false := by simpa
    have herase := find?_erase s u uri
    rw [if_neg ‹_›] at herase
    rw [← herase, find?, insert, List.lookup_cons, hne]
    rfl

theorem find?_openDocument (s : Server) (uri : String) (version : Int) :
    (s.openDocument uri version).find? uri = some ⟨"", version, false, none⟩ := by
  rw [openDocument, find?_insert, if_pos rfl]

theorem find?_close (s : Server) (uri : String) : (s.close uri).2.find? uri = none := by
  rw [close, find?_erase, if_pos rfl]

/-! ## Steps of an update -/

theorem begin_eq_ok {text : String} {version : Option Int} :
    s.begin uri text version = .ok u ↔ ∃ d path, s.find? uri = some d ∧
      Uri.toPath uri = .ok path ∧ u = ⟨uri, Text.ofBytes path, text, version.getD d.version⟩ := by
  unfold begin
  cases s.find? uri with
  | none => simp
  | some d =>
    cases Uri.toPath uri with
    | error f => simp
    | ok path => simp [eq_comm]

theorem accepts_iff : s.accepts u = true ↔ ∃ d, s.find? u.uri = some d ∧ d.version ≤ u.version := by
  unfold accepts
  cases s.find? u.uri with
  | none => simp
  | some d => simp

theorem finish_of_accepts (h : s.accepts u = true) :
    (s.finish u a).1.pushed =
        a.failure.toList.map .failure ++ [.problems u.uri u.version a.problems] ∧
      (s.finish u a).2 = s.store u a := by
  unfold finish
  rw [if_pos h]
  exact ⟨rfl, rfl⟩

theorem finish_of_not_accepts (h : ¬ s.accepts u = true) :
    (s.finish u a).1.pushed = a.failure.toList.map .failure ∧ (s.finish u a).2 = s := by
  unfold finish
  rw [if_neg h]
  exact ⟨rfl, rfl⟩

theorem find?_store (s : Server) (u : Update) (a : Analysis) (uri : String) :
    (s.store u a).find? uri =
      if uri = u.uri then some ⟨u.text, u.version, a.systemF, a.symbols⟩ else s.find? uri :=
  find?_insert s u.uri uri _

/-! ## Updates without other messages between their steps -/

variable {known : String → String → Analysis} {text : String} {version : Option Int}

theorem update_of_begin (h : s.begin uri text version = .ok u) :
    s.update (m := Id) known uri text version = s.finish u (known u.path u.text) := by
  unfold update
  rw [h]
  rfl

theorem update_of_refused {r : Refusal} (h : s.begin uri text version = .error r) :
    s.update (m := Id) known uri text version = (.refuse r, s) := by
  unfold update
  rw [h]
  rfl

end ProofScript.Server
