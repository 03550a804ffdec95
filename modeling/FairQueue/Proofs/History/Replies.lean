import FairQueue.Proofs.History.Trace

/-!
What callers are told, read off the history: the items that calls return are those of its incidents,
and a call that returns none leaves none behind.
-/

namespace FairQueue

variable {α : Type}

namespace Incident

/-- The item that a call returns. -/
def delivered? : Incident α → Option α
  | popped item | returned _ item => some item
  | _ => none

def delivered (history : List (Incident α)) : List α :=
  history.filterMap delivered?

theorem delivered_append (is is' : List (Incident α)) :
    delivered (is ++ is') = delivered is ++ delivered is' :=
  List.filterMap_append

theorem delivered_eq_nil {is : List (Incident α)} (his : ∀ i ∈ is, i.delivered? = none) :
    delivered is = [] :=
  List.filterMap_eq_nil_iff.mpr his

theorem delivered_map {f : α → Incident α} (hf : ∀ item, (f item).delivered? = some item)
    (items : List α) : delivered (items.map f) = items := by
  have hsome : delivered? ∘ f = some := funext hf
  rw [delivered, List.filterMap_map, hsome]
  exact List.filterMap_some

theorem delivered_deal (items : List α) (consumers : List Consumer) :
    delivered (deal items consumers) = [] := by
  refine delivered_eq_nil fun i hi => ?_
  rcases List.mem_append.mp hi with hi | hi
  all_goals
    obtain ⟨_, -, rfl⟩ := List.mem_map.mp hi
    rfl

end Incident

/-- A call that the action makes finds no item to return. -/
def Entry.EmptyHanded (e : Entry α) (action : Action α) : Prop :=
  e.reply = .delivered none ∨
    ∃ max items, action = .drain (some max) ∧ e.reply = .items items ∧ items.length < max

theorem Entry.EmptyHanded.anonymous {e : Entry α} {action : Action α}
    (hempty : e.EmptyHanded action) : e.anonymous.EmptyHanded action := by
  rcases hempty with hnone | ⟨max, items, haction, hitems, hlength⟩
  · exact .inl (by simp [Entry.anonymous, hnone, Reply.anonymous])
  · exact .inr ⟨max, items, haction, by simp [Entry.anonymous, hitems, Reply.anonymous], hlength⟩

namespace Turn

variable {t : Turn α} {refusing : Bool}

theorem freight_entry_of_nil (hfreight : t.reply.freight = []) :
    (t.entry refusing).reply.freight = [] := by
  unfold entry
  split
  · rfl
  · exact hfreight

theorem reply_entry (t : Turn α) (refusing : Bool) :
    (t.entry refusing).reply = t.reply ∨
      ∃ event, (t.entry refusing).reply = .panicked (.refused event) := by
  unfold entry
  split
  · exact .inr ⟨_, rfl⟩
  · exact .inl rfl

end Turn

namespace Handoff

open Ledger

variable {h : Handoff α} {t : Turn α} {action : Action α} {clock : Clock} {refusing : Bool}
  {c : Consumer}

theorem Consumes.delivered (hconsumes : h.Consumes c action clock t) :
    Incident.delivered ((t.entry refusing).incidents action) =
      (t.entry refusing).reply.freight := by
  cases hconsumes with
  | busy | idle => cases refusing <;> rfl
  | started hnew hstarts =>
      cases hstarts <;> cases refusing <;> rfl
  | @resumed w _ _ hinside hresumes =>
      cases hresumes with
      | collected =>
          unfold Waiter.collection Patience.collection
          cases w.patience <;> cases refusing <;> rfl
      | asleep | gaveUp => cases refusing <;> rfl

/-- The items that calls return in a turn are those that its reply brings. -/
theorem delivered_turn :
    Incident.delivered (((h.turn action clock).entry refusing).incidents action) =
      ((h.turn action clock).entry refusing).reply.freight := by
  cases action with
  | put item =>
      rw [Turn.freight_entry_of_nil rfl]
      simp only [Entry.incidents]
      split
      · exact Incident.delivered_deal _ _
      · rfl
  | putAll source =>
      have hfreight : (h.turn (.putAll source) clock).reply.freight = [] := by
        simp only [turn]
        split <;> rfl
      rw [Turn.freight_entry_of_nil hfreight]
      simp only [Entry.incidents]
      split
      · exact Incident.delivered_deal _ _
      · rfl
  | start c removal => exact (h.consumes_start c removal clock).delivered
  | wake c => exact (h.consumes_wake c clock).delivered
  | poll | next name | drain max => exact Incident.delivered_map (fun _ => rfl) _
  | query query =>
      rw [Turn.freight_entry_of_nil (by cases query <;> rfl)]
      rfl
  | _ =>
      rw [Turn.freight_entry_of_nil rfl]
      rfl

theorem delivered_run (h : Option (Handoff α)) (steps : List (Step α)) :
    Incident.delivered (historyOf steps (run h steps).2) =
      (run h steps).2.flatMap (·.reply.freight) := by
  induction steps generalizing h with
  | nil => rfl
  | cons step steps ih =>
      rw [run, historyOf_cons, Incident.delivered_append, ih, List.flatMap_cons]
      congr 1
      cases h with
      | none =>
          rw [step?, incidents_closedEntry]
          rfl
      | some h =>
          by_cases hopen : step.action = .close → h.inside ≠ []
          · rw [step?, step_of_open hopen]
            exact delivered_turn
          · obtain ⟨haction, hinside⟩ : step.action = .close ∧ h.inside = [] := by simpa using hopen
            rw [step?, step_close haction hinside, haction]
            cases hrefusing : step.refusing <;> simp [closing] <;> rfl

/-- Nothing is stored while a consumer waits, so none is left behind by one that gives up. -/
theorem Consumes.items_eq_nil (hconsumes : h.Consumes c action clock t)
    (hidle : h.items = [] ∨ h.waiting = []) (hreply : t.reply = .delivered none) :
    t.queue.items = [] := by
  cases hconsumes with
  | busy | idle => cases hreply
  | started hnew hstarts =>
      cases hstarts with
      | popped | asleep => cases hreply
      | late hitems | gaveUp hitems => exact hitems
  | resumed hinside hresumes =>
      cases hresumes with
      | collected | asleep => cases hreply
      | gaveUp hwaiting => exact hidle.resolve_right (List.ne_nil_of_mem hwaiting)

theorem items_poll (hfirst : (h.popMany 1).1.head? = none) : (h.popMany 1).2.items = [] := by
  cases hitems : h.items with
  | nil => simp [popMany, hitems]
  | cons item items => simp [popMany, hitems] at hfirst

theorem items_of_delivered_none (hsound : h.ledger.Sound)
    (hreply : (h.turn action clock).reply = .delivered none) :
    (h.turn action clock).queue.items = [] := by
  cases action with
  | poll => exact items_poll (Reply.delivered.inj hreply)
  | next name =>
      simp only [turn] at hreply ⊢
      split at hreply
      · rw [if_pos ‹_›]
        exact items_poll (Reply.delivered.inj hreply)
      · cases hreply
  | start c removal => exact (h.consumes_start c removal clock).items_eq_nil hsound.idle hreply
  | wake c => exact (h.consumes_wake c clock).items_eq_nil hsound.idle hreply
  | putAll source =>
      simp only [turn] at hreply
      split at hreply <;> cases hreply
  | query query => cases query <;> cases hreply
  | _ => cases hreply

/-- A call that finds no item leaves none behind. -/
theorem items_of_emptyHanded (hsound : h.ledger.Sound)
    (hempty : ((h.turn action clock).entry refusing).EmptyHanded action) :
    (h.turn action clock).queue.items = [] := by
  rcases Turn.reply_entry (h.turn action clock) refusing with hreply | ⟨event, hpanic⟩
  · rcases hempty with hnone | ⟨max, items, rfl, hitems, hlength⟩
    · exact items_of_delivered_none hsound (hreply.symm.trans hnone)
    · obtain rfl : h.items.take max = items := Reply.items.inj (hreply.symm.trans hitems)
      refine List.drop_eq_nil_of_le ?_
      change h.items.length ≤ max
      rw [List.length_take] at hlength
      omega
  · rcases hempty with hnone | ⟨max, items, -, hitems, -⟩
    · cases hpanic.symm.trans hnone
    · cases hpanic.symm.trans hitems

end Handoff

end FairQueue
