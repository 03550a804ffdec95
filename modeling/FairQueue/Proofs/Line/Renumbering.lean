import FairQueue.Line.Request
import FairQueue.Proofs.Line.Links

/-!
What a line does has nothing to do with the bells of its slots. A line whose slots are given new
bells, each its own number, answers every request as before, but for the bells in the answers, and
is left as before, but for the bells in the slots.
-/

namespace FairQueue

variable {α : Type}

namespace Slot

/-- The slot with another bell, used as before. -/
def withBell (s : Slot α) (bell : Nat) : Slot α :=
  { s with bell }

@[simp] theorem occupancy_withBell (s : Slot α) (bell : Nat) :
    (s.withBell bell).occupancy = s.occupancy := rfl

end Slot

/-- The place with the number of its slot for a bell. -/
def Place.renumbered (p : Place) : Place :=
  { p with bell := p.slot }

namespace Line

/-- The line with a new bell in every slot, the slot's own number. -/
def renumbered (l : Line α) : Line α :=
  { l with slots := l.slots.mapIdx fun i slot => slot.withBell i }

def Reply.renumbered : Reply α → Reply α
  | .joined place => .joined place.renumbered
  | .served place => .served place.renumbered
  | .unserved item => .unserved item
  | .delivered item => .delivered item

theorem Reply.eq_delivered_of_renumbered {reply : Reply α} {item? : Option α}
    (h : reply.renumbered = .delivered item?) : reply = .delivered item? := by
  cases reply with
  | delivered item => exact h
  | joined place | served place | unserved item => cases h

variable (l : Line α) (i : Nat)

@[simp] theorem size_slots_renumbered : l.renumbered.slots.size = l.slots.size := by
  simp [renumbered]

@[simp] theorem front_renumbered : l.renumbered.front = l.front := rfl

@[simp] theorem back_renumbered : l.renumbered.back = l.back := rfl

@[simp] theorem vacancy_renumbered : l.renumbered.vacancy = l.vacancy := rfl

@[simp] theorem size_renumbered : l.renumbered.size = l.size := rfl

theorem getElem?_slots_renumbered :
    l.renumbered.slots[i]? = l.slots[i]?.map (·.withBell i) := by
  simp [renumbered]

@[simp] theorem occupancy?_renumbered : l.renumbered.occupancy? i = l.occupancy? i := by
  simp [occupancy?, getElem?_slots_renumbered, Function.comp_def]

theorem bell?_renumbered (hi : i < l.slots.size) : l.renumbered.bell? i = some i := by
  simp [bell?, getElem?_slots_renumbered, Array.getElem?_eq_getElem hi, Slot.withBell,
    -Array.getElem?_eq_getElem]

theorem slot_renumbered : l.renumbered.slot i = (l.slot i).map (·.withBell i) := by
  unfold slot
  rw [getElem?_slots_renumbered, size_slots_renumbered]
  cases l.slots[i]? <;> rfl

theorem occupy_renumbered (o : Occupancy α) :
    l.renumbered.occupy i o = (l.occupy i o).renumbered := by
  have hslots : (l.renumbered.occupy i o).slots = (l.occupy i o).renumbered.slots := by
    refine Array.ext_getElem? fun j => ?_
    simp only [getElem?_slots_occupy, getElem?_slots_renumbered]
    split <;> simp [Slot.withBell, Function.comp_def]
  exact congrArg (fun slots => { l with slots }) hslots

theorem release_renumbered : l.renumbered.release i = (l.release i).renumbered := by
  simp only [release, occupy_renumbered, vacancy_renumbered]
  rfl

theorem setBehind_renumbered (behind : Option Nat) :
    l.renumbered.setBehind i behind = (l.setBehind i behind).map renumbered := by
  unfold setBehind
  rw [slot_renumbered]
  cases l.slot i with
  | error fault => rfl
  | ok slot =>
      cases hoccupancy : slot.occupancy <;>
        simp [hoccupancy, occupy_renumbered, Except.map, bind, Except.bind, pure, Except.pure,
          throw, throwThe, MonadExceptOf.throw]

theorem setAhead_renumbered (ahead : Option Nat) :
    l.renumbered.setAhead i ahead = (l.setAhead i ahead).map renumbered := by
  unfold setAhead
  rw [slot_renumbered]
  cases l.slot i with
  | error fault => rfl
  | ok slot =>
      cases hoccupancy : slot.occupancy <;>
        simp [hoccupancy, occupy_renumbered, Except.map, bind, Except.bind, pure, Except.pure,
          throw, throwThe, MonadExceptOf.throw]

theorem follow_renumbered (last behind : Option Nat) :
    l.renumbered.follow last behind = (l.follow last behind).map renumbered := by
  cases last with
  | none => rfl
  | some j => exact setBehind_renumbered l j behind

theorem lead_renumbered (first ahead : Option Nat) :
    l.renumbered.lead first ahead = (l.lead first ahead).map renumbered := by
  cases first with
  | none => rfl
  | some j => exact setAhead_renumbered l j ahead

theorem acquire_renumbered :
    l.renumbered.acquire = l.acquire.map fun (i, l) => (i, l.renumbered) := by
  unfold acquire
  rw [vacancy_renumbered]
  cases l.vacancy with
  | none => simp [renumbered, Slot.withBell, Except.map]
  | some i =>
      simp only [slot_renumbered]
      cases l.slot i with
      | error fault => rfl
      | ok slot =>
          cases hoccupancy : slot.occupancy <;>
            simp [hoccupancy, Except.map, bind, Except.bind, pure, Except.pure, throw, throwThe,
              MonadExceptOf.throw]
          rfl

theorem join_renumbered :
    l.renumbered.join = l.join.map fun (place, l) => (place.renumbered, l.renumbered) := by
  rw [join_eq, join_eq, acquire_renumbered]
  cases l.acquire with
  | error fault => rfl
  | ok acquired =>
      obtain ⟨i, l₁⟩ := acquired
      simp only [Except.map, bind, Except.bind, occupy_renumbered, back_renumbered,
        follow_renumbered]
      cases (l₁.occupy i (.waiting l₁.back none)).follow l₁.back (some i) with
      | error fault => rfl
      | ok l₂ =>
          simp only [slot_renumbered]
          cases l₂.slot i with
          | error fault => rfl
          | ok slot => rfl

theorem detach_renumbered : l.renumbered.detach i = (l.detach i).map renumbered := by
  cases hslot : l.slot i with
  | error fault => simp [detach, slot_renumbered, hslot, Except.map, bind, Except.bind]
  | ok slot =>
      cases hused : slot.occupancy with
      | vacant next | served item =>
          simp [detach, slot_renumbered, hslot, hused, Except.map, bind, Except.bind, throw,
            throwThe, MonadExceptOf.throw]
      | waiting ahead behind =>
          have hoccupancy : l.occupancy? i = some (.waiting ahead behind) := by
            simp [occupancy?, slot_eq_ok_iff.mp hslot, hused]
          rw [detach_of_waiting hoccupancy,
            detach_of_waiting ((occupancy?_renumbered l i).trans hoccupancy), follow_renumbered]
          cases l.follow ahead behind with
          | error fault => rfl
          | ok l₁ =>
              simp only [Except.map, bind, Except.bind, lead_renumbered]
              cases l₁.lead behind ahead with
              | error fault => rfl
              | ok l₂ => by_cases hsize : l₂.size = 0 <;> simp [hsize] <;> rfl

theorem serve_renumbered (item : α) :
    l.renumbered.serve item =
      (l.serve item).map fun (place, l) => (place.map Place.renumbered, l.renumbered) := by
  unfold serve
  rw [front_renumbered]
  cases l.front with
  | none => rfl
  | some i =>
      simp only [detach_renumbered]
      cases l.detach i with
      | error fault => rfl
      | ok l₁ =>
          simp only [Except.map, bind, Except.bind, slot_renumbered]
          cases l₁.slot i with
          | error fault => rfl
          | ok slot =>
              simp only [occupy_renumbered]
              rfl

theorem collect_renumbered :
    l.renumbered.collect i = (l.collect i).map fun (item, l) => (item, l.renumbered) := by
  unfold collect
  rw [slot_renumbered]
  cases l.slot i with
  | error fault => rfl
  | ok slot =>
      cases hused : slot.occupancy <;>
        simp [hused, release_renumbered, Except.map, bind, Except.bind, pure, Except.pure, throw,
          throwThe, MonadExceptOf.throw]

theorem leave_renumbered :
    l.renumbered.leave i = (l.leave i).map fun (item, l) => (item, l.renumbered) := by
  unfold leave
  rw [slot_renumbered, collect_renumbered, detach_renumbered]
  cases l.slot i with
  | error fault => rfl
  | ok slot =>
      cases hused : slot.occupancy with
      | vacant next | served item => simp [hused, Except.map, bind, Except.bind]
      | waiting ahead behind =>
          cases l.detach i <;>
            simp [hused, release_renumbered, Except.map, bind, Except.bind, pure, Except.pure]

/-- The answer to a request and the line that it leaves do not depend on the bells, but for the
bells in them. -/
theorem perform_renumbered (request : Request α) :
    l.renumbered.perform request =
      (l.perform request).map fun (reply, l) => (reply.renumbered, l.renumbered) := by
  cases request with
  | join =>
      simp only [perform, join_renumbered]
      cases l.join <;> rfl
  | serve item =>
      simp only [perform, serve_renumbered]
      cases l.serve item with
      | error fault => rfl
      | ok served =>
          obtain ⟨place?, l₁⟩ := served
          cases place? <;> rfl
  | collect i =>
      simp only [perform, collect_renumbered]
      cases l.collect i <;> rfl
  | leave i =>
      simp only [perform, leave_renumbered]
      cases l.leave i <;> rfl

end Line

end FairQueue
