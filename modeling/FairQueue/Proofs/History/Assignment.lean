import FairQueue.Proofs.History.Standing

/-!
Every item is assigned once, in the order in which the items came, and leaves with the call that it
was assigned to.
-/

namespace FairQueue.Session

variable {α : Type} {s s' : Session α} {h : Handoff α} {step : Step α} {steps : List (Step α)}

theorem step_eq_none (hstep : (s.step step).1 = none) :
    step.action = .close ∧ s.sleepers = [] ∧ (s.step step).2 = s.close step := by
  cases haction : step.action with
  | close =>
      cases hsleepers : s.sleepers with
      | nil => simp [Session.step, haction, hsleepers]
      | cons x sleepers => simp [Session.step, haction, hsleepers, stillOpen] at hstep
  | next name =>
      simp only [Session.step, haction] at hstep
      split at hstep <;> cases hstep
  | start c removal | wake c =>
      simp only [Session.step, haction] at hstep
      split at hstep <;> cases hstep
  | _ => simp [Session.step, haction, stillOpen] at hstep

theorem Represents.closing_eq (hrepresents : s.Represents h) (hstep : (s.step step).1 = none) :
    (s.step step).2.anonymous = h.closing step.refusing := by
  obtain ⟨-, hnobody, hentry⟩ := step_eq_none hstep
  obtain ⟨r, served, waiting, hseated, hsleepers, rfl⟩ := hrepresents
  rw [hnobody, eq_comm, List.append_eq_nil_iff, List.map_eq_nil_iff] at hsleepers
  obtain ⟨rfl, rfl⟩ := hsleepers
  rw [hentry]
  exact close_anonymous step hseated

theorem Represents.closed (hrepresents : s.Represents h) (hstep : (s.step step).1 = none) :
    s.queue.line.servedItems = [] ∧ (∀ c, s.held? c = none) ∧
      (s.step step).2.destroyed = s.queue.items := by
  have hdestroyed := congrArg Entry.destroyed (hrepresents.closing_eq hstep)
  have hitems := hrepresents.items_eq
  obtain ⟨-, hnobody, -⟩ := step_eq_none hstep
  obtain ⟨r, served, waiting, hseated, hsleepers, rfl⟩ := hrepresents
  rw [hnobody, eq_comm, List.append_eq_nil_iff, List.map_eq_nil_iff] at hsleepers
  obtain ⟨rfl, rfl⟩ := hsleepers
  refine ⟨hseated.servedItems_eq_nil, fun c => ?_, hdestroyed.trans hitems⟩
  simp [held?, Session.occupancy?, sleeper?, hnobody]

theorem assigned_append_items (hcount : Handoff.CountFits (some Handoff.empty) steps)
    (hlast : (run (some (ofQueue Queue.empty)) steps).1 = some s) :
    Incident.assigned (history (ofQueue Queue.empty) steps) ++ s.queue.items =
      steps.flatMap (·.action.offered) := by
  obtain ⟨h, hh, hrepresents⟩ := exists_represents represents_empty hcount hlast
  have hassigned :=
    (represents_empty.path_history hcount hh).assigned_append_items represents_empty.sound
  rw [represents_empty.newItems_history hcount hlast] at hassigned
  rw [← hrepresents.items_eq]
  exact hassigned

theorem Represents.refusing_of_lost {c : Consumer} {item : α} (hrepresents : s.Represents h)
    (hcount : Handoff.CountFits (some h) steps) :
    ∀ p ∈ steps.zip (run (some s) steps).2, .lost c item ∈ p.2.incidents p.1.action →
      p.1.action = .wake c ∧ p.1.refusing = true ∧ p.2.destroyed = [item] := by
  rintro ⟨step, entry⟩ hp hlost
  have hmem : (step, entry.anonymous) ∈ steps.zip (Handoff.run (some h) steps).2 := by
    rw [← (run_represents (.some hrepresents) hcount).1, List.zip_map_right]
    exact List.mem_map_of_mem hp
  exact Handoff.refusing_of_lost (step, entry.anonymous) hmem
    (entry.incidents_anonymous step.action ▸ hlost)

/-- The items assigned, in order, and then those still stored are all the items ever put into the
queue, in the order in which they came. A consumer returns or loses what it was handed, in the same
order, but for the item that its slot still keeps, and nothing else happens to it in between. It
loses an item only in a step whose event the log refuses, and then this is all that is destroyed in
the step. Once the queue is closed no slot keeps an item,
and those stored are destroyed, the oldest first. -/
theorem run_assigns_in_order {opening : Opening} (hopen : open? opening = some s)
    (hcount : Handoff.CountFits (some Handoff.empty) steps)
    (hlast : (run (some s) steps).1 = some s') :
    Incident.assigned (s.history steps) ++ s'.queue.items = steps.flatMap (·.action.offered) ∧
      (∀ c, Incident.handedTo c (s.history steps) =
        Incident.collectedBy c (s.history steps) ++ (s'.held? c).toList) ∧
      (∀ before c item after, s.history steps = before ++ .handed c item :: after →
        after.find? (·.concerns c) = some (.returned c item) ∨
          after.find? (·.concerns c) = some (.lost c item) ∨
          after.find? (·.concerns c) = none ∧ s'.held? c = some item) ∧
      (∀ p ∈ steps.zip (run (some s) steps).2, ∀ c item,
        .lost c item ∈ p.2.incidents p.1.action →
          p.1.action = .wake c ∧ p.1.refusing = true ∧ p.2.destroyed = [item]) ∧
      ∀ step, (s'.step step).1 = none →
        s'.queue.line.servedItems = [] ∧ (∀ c, s'.held? c = none) ∧
          (s'.step step).2.destroyed = s'.queue.items := by
  obtain ⟨rfl, -⟩ := open?_eq_some_iff.mp hopen
  obtain ⟨h', hh', hrepresents⟩ := exists_represents represents_empty hcount hlast
  have hpath := represents_empty.path_history hcount hh'
  have hsound : (Handoff.empty : Handoff α).ledger.Sound := represents_empty.sound
  refine ⟨?_, fun c => ?_, fun before c item after hsplit => ?_, fun p hp c item hlost => ?_,
    fun step hstep => hrepresents.closed hstep⟩
  · exact assigned_append_items hcount hlast
  · have hhanded := hpath.handedTo_eq hsound c
    rw [hrepresents.heldBy_eq] at hhanded
    exact hhanded
  · rw [hsplit] at hpath
    obtain ⟨l, hbefore, hrest⟩ := hpath.exists_of_append
    have hsound' := hbefore.sound hsound
    cases hrest with
    | cons hhanded hafter =>
        have hsound'' := hhanded.sound hsound'
        cases hhanded with
        | handed =>
            refine (hafter.outcome hsound'' List.mem_concat_self).imp_right fun houtcome =>
              houtcome.imp_right fun hheld => ⟨hheld.1, hrepresents.held?_of_served hheld.2⟩
  · exact represents_empty.refusing_of_lost hcount p hp hlost

/-- One item of a batch waits for its consumer and the other one is stored. -/
theorem run_assigns_in_order_batch :
    let opened : Session Nat := ofQueue Queue.empty
    let last := ((opened.act (.start 1 .take) []).1.act (.putAll ⟨[7, 8], none⟩) []).1
    Incident.assigned (opened.history
        [⟨.start 1 .take, false, []⟩, ⟨.putAll ⟨[7, 8], none⟩, false, []⟩]) ++ last.queue.items =
      [7, 8] := by
  intro opened last
  have hcount : Handoff.CountFits (some Handoff.empty)
      ([⟨.start 1 .take, false, []⟩, ⟨.putAll ⟨[7, 8], none⟩, false, []⟩] : List (Step Nat)) := by
    decide
  have hlast : (run (some opened)
      [⟨.start 1 .take, false, []⟩, ⟨.putAll ⟨[7, 8], none⟩, false, []⟩]).1 = some last := by decide
  exact (run_assigns_in_order (show open? .plain = some opened from rfl) hcount hlast).1

end FairQueue.Session
