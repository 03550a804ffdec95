import FairQueue.Proofs.Handoff.Basic
import FairQueue.Proofs.Lists

/-!
What a turn of a consumer in its own call can come to. Whatever holds of such a turn is proved by
these few cases, and no other module looks into the turn itself.
-/

namespace FairQueue.Handoff

variable {α : Type} {h : Handoff α} {c : Consumer} {removal : Removal} {w : Waiter} {t : Turn α}

/-- How the first turn of a call ends. -/
inductive Starts (h : Handoff α) (c : Consumer) (removal : Removal) : Turn α → Prop where
  /-- An item was stored, and the call returns it. -/
  | popped {item : α} {items : List α} {clock : Clock} (hitems : h.items = item :: items) :
      Starts h c removal { queue := (h.popMany 1).2, clock, reply := .delivered (some item) }
  /-- It is too late for the call to join the line. -/
  | late {clock : Clock} (hitems : h.items = []) :
      Starts h c removal { queue := h, clock, reply := .delivered none }
  | asleep {patience : Patience} {clock : Clock} {limit : Option Time} (hitems : h.items = [])
      (hpatience : removal = .take → patience = .endless h.waiting.length) :
      Starts h c removal
        { queue := h.join { consumer := c, patience }, clock, reply := .asleep limit }
  /-- The deadline passes while the consumer joins the line. -/
  | gaveUp {patience : Patience} {clock : Clock} (hitems : h.items = []) :
      Starts h c removal
        { queue := (h.join { consumer := c, patience }).leave c
          clock
          reply := .delivered none
          event := some (.timedOut 0) }

/-- How a turn of a call ends that was asleep. -/
inductive Resumes (h : Handoff α) (w : Waiter) (clock : Clock) : Turn α → Prop where
  /-- The consumer was served an item, and takes it along without a look at the clock. -/
  | collected {v : Waiter} {item : α} (hmem : (v, item) ∈ h.served)
      (hname : v.consumer = w.consumer) :
      Resumes h w clock
        { queue := h.collect w.consumer
          clock
          reply := .delivered (some item)
          event := some w.collection }
  | asleep {later : Clock} {limit : Option Time} (hwaiting : w ∈ h.waiting) :
      Resumes h w clock { queue := h, clock := later, reply := .asleep limit }
  | gaveUp {later : Clock} (hwaiting : w ∈ h.waiting) :
      Resumes h w clock
        { queue := h.leave w.consumer
          clock := later
          reply := .delivered none
          event := some (.timedOut 0) }

/-- A consumer that joins the line and leaves it at once has changed nothing. -/
theorem leave_join (hnew : c ∉ h.inside.map (·.consumer)) (patience : Patience) :
    (h.join { consumer := c, patience }).leave c = h := by
  have hothers : h.waiting.filter (·.consumer ≠ c) = h.waiting := by
    refine filter_ne_eq_self fun hc => hnew ?_
    rw [inside, List.map_append]
    exact List.mem_append_right _ hc
  simp only [leave, join, List.filter_append, hothers]
  simp

theorem starts_take (clock : Clock) : h.Starts c removal (h.take c clock) := by
  cases hitems : h.items with
  | nil =>
      rw [take_of_nil hitems]
      exact .asleep hitems fun _ => rfl
  | cons item items =>
      rw [take_of_cons hitems]
      exact .popped hitems

theorem starts_takeUntil (hremoval : removal ≠ .take) (deadline : Time) (clock : Clock) :
    h.Starts c removal (h.takeUntil c deadline clock) := by
  cases hitems : h.items with
  | nil =>
      by_cases hnow : deadline ≤ clock.now
      · rw [takeUntil_of_past hitems hnow]
        exact .late hitems
      · rw [takeUntil_of_early hitems hnow]
        unfold bide
        split
        · exact .gaveUp hitems
        · exact .asleep hitems fun htake => absurd htake hremoval
  | cons item items =>
      rw [takeUntil_of_cons hitems]
      exact .popped hitems

theorem starts (h : Handoff α) (c : Consumer) (removal : Removal) (clock : Clock) :
    h.Starts c removal (h.start c removal clock) := by
  cases removal with
  | take => exact starts_take clock
  | takeUntil deadline => exact starts_takeUntil (by simp) deadline clock
  | takeWithin span =>
      simp only [start]
      split
      · exact starts_takeUntil (by simp) _ _
      · exact starts_take _

theorem resumes (hw : w ∈ h.inside) (clock : Clock) : h.Resumes w clock (h.resume w clock) := by
  unfold resume
  split
  · rename_i v item hfind
    exact .collected (List.mem_of_find?_eq_some hfind) (by simpa using List.find?_some hfind)
  · rename_i hfind
    have hwaiting := mem_waiting_of_find? hw hfind
    split
    · exact .asleep hwaiting
    · unfold bide
      split
      · exact .gaveUp hwaiting
      · exact .asleep hwaiting

/-- How a turn of a consumer in its own call ends. -/
inductive Consumes (h : Handoff α) : Consumer → Action α → Clock → Turn α → Prop where
  | busy {c : Consumer} {removal : Removal} {clock : Clock} :
      Consumes h c (.start c removal) clock { queue := h, clock, reply := .rejected .busy }
  | started {c : Consumer} {removal : Removal} {clock : Clock} {t : Turn α}
      (hnew : c ∉ h.inside.map (·.consumer)) (hstarts : h.Starts c removal t) :
      Consumes h c (.start c removal) clock t
  | idle {c : Consumer} {clock : Clock} :
      Consumes h c (.wake c) clock { queue := h, clock, reply := .rejected .idle }
  | resumed {w : Waiter} {clock : Clock} {t : Turn α} (hinside : w ∈ h.inside)
      (hresumes : h.Resumes w clock t) :
      Consumes h w.consumer (.wake w.consumer) clock t

theorem consumes_start (h : Handoff α) (c : Consumer) (removal : Removal) (clock : Clock) :
    h.Consumes c (.start c removal) clock (h.turn (.start c removal) clock) := by
  simp only [turn]
  split
  · exact .busy
  · exact .started ‹_› (h.starts c removal clock)

theorem consumes_wake (h : Handoff α) (c : Consumer) (clock : Clock) :
    h.Consumes c (.wake c) clock (h.turn (.wake c) clock) := by
  simp only [turn]
  split
  · rename_i w hfind
    obtain rfl : w.consumer = c := by simpa using List.find?_some hfind
    have hinside := List.mem_of_find?_eq_some hfind
    exact .resumed hinside (resumes hinside clock)
  · exact .idle

theorem Consumes.reply {action : Action α} {clock : Clock} {panic : Panic}
    (hconsumes : h.Consumes c action clock t) : t.reply ≠ .panicked panic := by
  cases hconsumes with
  | busy | idle => simp
  | started hnew hstarts => cases hstarts <;> simp
  | resumed hinside hresumes => cases hresumes <;> simp

theorem Consumes.removed_eq {action : Action α} {clock : Clock}
    (hconsumes : h.Consumes c action clock t) :
    t.queue.removed = h.removed + t.reply.freight.length := by
  cases hconsumes with
  | busy | idle => rfl
  | started hnew hstarts =>
      cases hstarts with
      | popped hitems => simp [popMany, hitems, Reply.freight]
      | late | asleep | gaveUp => rfl
  | resumed hinside hresumes => cases hresumes <;> rfl

/-- A turn counts the items that it takes out of the queue. -/
theorem removed_turn (h : Handoff α) (action : Action α) (clock : Clock) :
    (h.turn action clock).queue.removed =
      h.removed + (h.turn action clock).reply.freight.length := by
  have hmany : ∀ count, (h.popMany count).2.removed =
      h.removed + (h.popMany count).1.length := by
    intro count
    simp [popMany]
  have hpoll : (h.popMany 1).2.removed =
      h.removed + (h.popMany 1).1.head?.toList.length := by
    rw [toList_head?_popMany, hmany]
  cases action with
  | putAll source =>
      simp only [turn]
      split <;> rfl
  | poll => exact hpoll
  | next name =>
      simp only [turn]
      split
      · exact hpoll
      · rfl
  | drain max => exact hmany _
  | start c removal => exact (h.consumes_start c removal clock).removed_eq
  | wake c => exact (h.consumes_wake c clock).removed_eq
  | query query => cases query <;> rfl
  | _ => rfl

end FairQueue.Handoff
