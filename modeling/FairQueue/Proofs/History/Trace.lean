import FairQueue.Proofs.Handoff.Safety
import FairQueue.Proofs.History.Ledger

/-!
The history of a session is one that its ledger allows: incident after incident, from the seats
taken before its steps to the seats taken after them.
-/

namespace FairQueue

open Ledger

variable {α : Type}

namespace Turn

variable {t : Turn α} {refusing : Bool}

@[simp] theorem notified_entry : (t.entry refusing).notified = t.notified := by
  unfold entry
  split <;> rfl

theorem event?_entry (hreply : ∀ panic, t.reply ≠ .panicked panic) :
    (t.entry refusing).event? = t.event := by
  unfold entry
  split
  · simp only [Entry.event?]
    exact Eq.symm ‹_›
  · cases hr : t.reply with
    | panicked panic => exact absurd hr (hreply panic)
    | _ => cases t.event <;> rfl

theorem accepted_entry (hreply : t.reply = .done) : (t.entry refusing).accepted = true := by
  unfold entry
  split
  · rfl
  · simp only [Entry.accepted, hreply]

end Turn

namespace Handoff

variable {h : Handoff α} {action : Action α} {clock : Clock} {refusing : Bool} {c : Consumer}

/-- The part of a hand-off queue that its history tells of. -/
def ledger (h : Handoff α) : Ledger α where
  items := h.items
  waiting := h.waiting
  served := h.served

theorem path_stored {items : List α} {served : List (Waiter × α)} (l : List α) :
    Path ⟨items, [], served⟩ (l.map .stored) ⟨items ++ l, [], served⟩ := by
  induction l generalizing items with
  | nil => simpa using Path.nil
  | cons item l ih =>
      have hrest : Path ⟨items ++ [item], [], served⟩ _ _ := ih
      rw [List.append_assoc] at hrest
      exact .cons .stored hrest

theorem path_deal {items : List α} {waiting : List Waiter} {served : List (Waiter × α)}
    (l : List α) :
    Path ⟨items, waiting, served⟩ (Incident.deal l ((waiting.take l.length).map (·.consumer)))
      ⟨items ++ l.drop waiting.length, waiting.drop l.length, served ++ waiting.zip l⟩ := by
  induction waiting generalizing l served with
  | nil => simpa [Incident.deal] using path_stored l
  | cons w waiting ih =>
      cases l with
      | nil => simpa [Incident.deal] using Path.nil
      | cons item l =>
          have hrest : Path ⟨items, waiting, served ++ [(w, item)]⟩ _ _ := ih l
          have hhanded := Path.cons .handed hrest
          simpa [Incident.deal] using hhanded

theorem path_popped {items : List α} {waiting : List Waiter} {served : List (Waiter × α)}
    (count : Nat) :
    Path ⟨items, waiting, served⟩ ((items.take count).map .popped)
      ⟨items.drop count, waiting, served⟩ := by
  induction count generalizing items with
  | zero => exact .nil
  | succ count ih =>
      cases items with
      | nil => exact .nil
      | cons item items => exact .cons .popped ih

theorem path_putAll (items : List α) :
    Path h.ledger (Incident.deal items ((h.waiting.take items.length).map (·.consumer)))
      (h.putAll items).ledger :=
  path_deal items

theorem path_popMany (count : Nat) :
    Path h.ledger ((h.popMany count).1.map .popped) (h.popMany count).2.ledger :=
  path_popped count

theorem path_pop {item : α} {items : List α} (hitems : h.items = item :: items) :
    Path h.ledger [.popped item] (h.popMany 1).2.ledger := by
  have hpopped := path_popMany (h := h) 1
  have hfirst : (h.popMany 1).1 = [item] := by simp [popMany, hitems]
  rwa [hfirst] at hpopped

theorem turn_wake_of_served {w : Waiter} {item : α} (clock : Clock) (hsound : h.ledger.Sound)
    (hmem : (w, item) ∈ h.served) :
    h.turn (.wake w.consumer) clock =
      { queue := h.collect w.consumer
        clock
        reply := .delivered (some item)
        event := some w.collection } := by
  have hinside : h.inside.find? (·.consumer = w.consumer) = some w :=
    find?_eq_some_of_nodup hsound.names (List.mem_append_left _ (List.mem_map_of_mem hmem))
  have hserved : h.served.find? (·.1.consumer = w.consumer) = some (w, item) :=
    find?_eq_some_of_nodup (f := (·.1.consumer)) hsound.served_names hmem
  simp only [turn, hinside, resume, hserved]

theorem happens_join (hnew : c ∉ h.inside.map (·.consumer)) (hitems : h.items = [])
    (patience : Patience) :
    Happens h.ledger (.joined c) (h.join { consumer := c, patience }).ledger := by
  have hjoined : Happens ⟨[], h.waiting, h.served⟩ (.joined c)
      ⟨[], h.waiting ++ [{ consumer := c, patience }], h.served⟩ :=
    .joined (w := { consumer := c, patience }) hnew
  simpa [ledger, join, hitems] using hjoined

theorem Consumes.path {t : Turn α} (hconsumes : h.Consumes c action clock t) :
    Path h.ledger ((t.entry refusing).incidents action) t.queue.ledger := by
  cases hconsumes with
  | busy | idle => cases refusing <;> exact .nil
  | started hnew hstarts =>
      cases hstarts with
      | popped hitems => cases refusing <;> exact path_pop hitems
      | late => cases refusing <;> exact .nil
      | asleep hitems => cases refusing <;> exact .single (happens_join hnew hitems _)
      | @gaveUp patience _ hitems =>
          have hgaveUp : Happens (h.join { consumer := c, patience }).ledger (.gaveUp c) _ :=
            .gaveUp (w := { consumer := c, patience }) List.mem_concat_self
          cases refusing <;> exact .cons (happens_join hnew hitems _) (.single hgaveUp)
  | @resumed w _ _ hinside hresumes =>
      cases hresumes with
      | @collected v item hmem hname =>
          have hreturned : Happens h.ledger (.returned w.consumer item)
              (h.collect w.consumer).ledger := hname ▸ .returned hmem
          have hlost : Happens h.ledger (.lost w.consumer item)
              (h.collect w.consumer).ledger := hname ▸ .lost hmem
          unfold Waiter.collection Patience.collection
          cases refusing with
          | false => cases w.patience <;> exact .single hreturned
          | true => cases w.patience <;> exact .single hlost
      | asleep => cases refusing <;> exact .nil
      | gaveUp hwaiting =>
          have hgaveUp : Happens h.ledger (.gaveUp w.consumer) (h.leave w.consumer).ledger :=
            .gaveUp hwaiting
          cases refusing <;> exact .single hgaveUp

theorem path_poll :
    Path h.ledger ((h.popMany 1).1.head?.toList.map .popped) (h.popMany 1).2.ledger := by
  rw [h.toList_head?_popMany]
  exact path_popMany 1

theorem path_turn :
    Path h.ledger (((h.turn action clock).entry refusing).incidents action)
      (h.turn action clock).queue.ledger := by
  cases action with
  | put item =>
      simp only [Entry.incidents, Turn.accepted_entry (show (h.turn (.put item) clock).reply = .done
        from rfl), if_true, Turn.notified_entry]
      exact path_putAll [item]
  | putAll source =>
      cases hfailure : source.failure? with
      | some request =>
          simp only [turn, hfailure]
          cases refusing <;> exact .nil
      | none =>
          have hreply : (h.turn (.putAll source) clock).reply = .done := by simp [turn, hfailure]
          simp only [Entry.incidents, Turn.accepted_entry hreply, if_true, Turn.notified_entry]
          simp only [turn, hfailure]
          exact path_putAll source.items
  | poll => cases refusing <;> exact path_poll
  | drain max => cases refusing <;> exact path_popMany _
  | next name =>
      simp only [turn]
      split
      · cases refusing <;> exact path_poll
      · cases refusing <;> exact .nil
  | start c removal => exact (h.consumes_start c removal clock).path
  | wake c => exact (h.consumes_wake c clock).path
  | _ => cases refusing <;> exact .nil

theorem sound_turn (hsound : h.ledger.Sound) (action : Action α) (clock : Clock) :
    (h.turn action clock).queue.ledger.Sound := by
  have hpath : Path h.ledger (((h.turn action clock).entry false).incidents action)
      (h.turn action clock).queue.ledger := path_turn
  exact hpath.sound hsound

theorem newItems_turn :
    Incident.newItems (((h.turn action clock).entry refusing).incidents action) =
      action.offered := by
  rw [Entry.newItems_incidents]
  cases action with
  | put item =>
      rw [Turn.accepted_entry (show (h.turn (.put item) clock).reply = .done from rfl)]
      rfl
  | putAll source =>
      cases hfailure : source.failure? with
      | some request =>
          simp only [turn, Action.offered, hfailure, reduceCtorEq, if_false]
          cases refusing <;> rfl
      | none =>
          have hreply : (h.turn (.putAll source) clock).reply = .done := by simp [turn, hfailure]
          simp [Turn.accepted_entry hreply, Action.offered, Action.cargo, hfailure]
  | _ => exact ite_self _

end Handoff

theorem incidents_closedEntry (action : Action α) :
    (Session.closedEntry : Entry α).incidents action = [] := by
  cases action <;> rfl

theorem Handoff.run_none (steps : List (Step α)) :
    (run (none : Option (Handoff α)) steps).1 = none := by
  induction steps with
  | nil => rfl
  | cons step steps ih => exact ih

theorem historyOf_closed (steps : List (Step α)) :
    historyOf steps (Handoff.run none steps).2 = [] := by
  induction steps with
  | nil => rfl
  | cons step steps ih => simpa [Handoff.run, Handoff.step?, incidents_closedEntry] using ih

namespace Handoff

variable {h : Handoff α}

/-- The history of a run is a path from the seats taken before it to those taken after it. -/
theorem exists_path (h : Handoff α) (steps : List (Step α)) :
    ∃ l, Path h.ledger (historyOf steps (run (some h) steps).2) l ∧
      ∀ h', (run (some h) steps).1 = some h' → l = h'.ledger := by
  induction steps generalizing h with
  | nil => exact ⟨h.ledger, .nil, by rintro h' ⟨⟩; rfl⟩
  | cons step steps ih =>
      by_cases hopen : step.action = .close → h.inside ≠ []
      · simp only [run, step?, step_of_open hopen]
        obtain ⟨l, hpath, hlast⟩ := ih _
        exact ⟨l, path_turn.append hpath, hlast⟩
      · obtain ⟨haction, hinside⟩ : step.action = .close ∧ h.inside = [] := by simpa using hopen
        refine ⟨h.ledger, ?_, ?_⟩
        · simp only [run, step?, step_close haction hinside, historyOf_cons, historyOf_closed,
            haction]
          exact .nil
        · intro h' hlast
          simp [run, step?, step_close haction hinside, run_none] at hlast

theorem newItems_run {h h' : Handoff α} {steps : List (Step α)}
    (hlast : (run (some h) steps).1 = some h') :
    Incident.newItems (historyOf steps (run (some h) steps).2) =
      steps.flatMap (·.action.offered) := by
  induction steps generalizing h with
  | nil => rfl
  | cons step steps ih =>
      by_cases hopen : step.action = .close → h.inside ≠ []
      · simp only [run, step?, step_of_open hopen] at hlast ⊢
        rw [historyOf_cons, Incident.newItems_append, newItems_turn, ih hlast, List.flatMap_cons]
      · obtain ⟨haction, hinside⟩ : step.action = .close ∧ h.inside = [] := by simpa using hopen
        simp [run, step?, step_close haction hinside, run_none] at hlast

theorem Consumes.destroyed {c : Consumer} {action : Action α} {clock : Clock} {t : Turn α}
    (hconsumes : h.Consumes c action clock t) : t.destroyed = [] := by
  cases hconsumes with
  | busy | idle => rfl
  | started hnew hstarts => cases hstarts <;> rfl
  | resumed hinside hresumes => cases hresumes <;> rfl

/-- What a consumer takes along is destroyed only if the log refuses to hear of it. -/
theorem Consumes.refusing_of_destroyed {c : Consumer} {action : Action α} {clock : Clock}
    {t : Turn α} {refusing : Bool} {item : α} (hconsumes : h.Consumes c action clock t)
    (hmem : item ∈ (t.entry refusing).destroyed) :
    refusing = true ∧ (t.entry refusing).destroyed = [item] := by
  cases refusing with
  | false =>
      rw [Turn.destroyed_entry, hconsumes.destroyed] at hmem
      cases hmem
  | true =>
      refine ⟨rfl, ?_⟩
      cases hconsumes with
      | busy | idle => cases hmem
      | started hnew hstarts => cases hstarts <;> cases hmem
      | resumed hinside hresumes =>
          cases hresumes with
          | asleep | gaveUp => cases hmem
          | collected =>
              obtain rfl := List.mem_singleton.mp hmem
              rfl

/-- A consumer loses the item that it was handed only in a step whose event the log refuses. -/
theorem refusing_of_lost {h : Option (Handoff α)} {steps : List (Step α)} {c : Consumer}
    {item : α} :
    ∀ p ∈ steps.zip (run h steps).2, .lost c item ∈ p.2.incidents p.1.action →
      p.1.action = .wake c ∧ p.1.refusing = true ∧ p.2.destroyed = [item] := by
  induction steps generalizing h with
  | nil => simp
  | cons step steps ih =>
      rw [run, List.zip_cons_cons, List.forall_mem_cons]
      refine ⟨fun hlost => ?_, ih⟩
      obtain ⟨haction, hdestroyed⟩ := Entry.of_lost_mem_incidents hlost
      dsimp only at haction hdestroyed ⊢
      refine ⟨haction, ?_⟩
      cases h with
      | none => cases hdestroyed
      | some h =>
          have hentry : (step? (some h) step).2 =
              (h.turn (.wake c) { now := h.now, jumps := step.jumps }).entry step.refusing := by
            rw [step?, h.step_of_ne_close (by simp [haction]), haction]
          rw [hentry] at hdestroyed ⊢
          exact (h.consumes_wake c _).refusing_of_destroyed hdestroyed

end Handoff

end FairQueue
