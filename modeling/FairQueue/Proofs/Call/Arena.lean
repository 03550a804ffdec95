import FairQueue.Proofs.Call.Moment
import FairQueue.Proofs.Line.Links

/-!
How many slots there are. Only a consumer that joins the line may need a new slot; whatever else
happens uses the slots that were made before.
-/

namespace FairQueue

variable {α β : Type}

namespace Line

variable {l : Line α}

theorem size_setBehind (l : Line α) (i : Nat) (behind : Option Nat) :
    Yields (fun l' => l'.slots.size = l.slots.size) (l.setBehind i behind) := by
  refine (yields_any _).bind fun slot _ => ?_
  split
  · exact yields_pure (l.size_slots_occupy i _)
  · exact yields_throw _

theorem size_setAhead (l : Line α) (i : Nat) (ahead : Option Nat) :
    Yields (fun l' => l'.slots.size = l.slots.size) (l.setAhead i ahead) := by
  refine (yields_any _).bind fun slot _ => ?_
  split
  · exact yields_pure (l.size_slots_occupy i _)
  · exact yields_throw _

theorem size_follow (l : Line α) (last behind : Option Nat) :
    Yields (fun l' => l'.slots.size = l.slots.size) (l.follow last behind) := by
  cases last with
  | none => exact yields_pure rfl
  | some j => exact l.size_setBehind j behind

theorem size_lead (l : Line α) (first ahead : Option Nat) :
    Yields (fun l' => l'.slots.size = l.slots.size) (l.lead first ahead) := by
  cases first with
  | none => exact yields_pure rfl
  | some j => exact l.size_setAhead j ahead

theorem size_detach (l : Line α) (i : Nat) :
    Yields (fun l' => l'.slots.size = l.slots.size) (l.detach i) := by
  cases hoccupancy : l.occupancy? i with
  | some o =>
      obtain ⟨slot, hslot, hused, -⟩ := slot_of_occupancy? hoccupancy
      cases o with
      | waiting ahead behind =>
          rw [detach_of_waiting hoccupancy]
          refine (l.size_follow _ _).bind fun l₁ hl₁ => (l₁.size_lead _ _).bind fun l₂ hl₂ => ?_
          split
          · exact yields_throw _
          · exact yields_pure (hl₂.trans hl₁)
      | _ =>
          simp only [detach, hslot, hused, bind, Except.bind]
          exact yields_throw _
  | none =>
      have hslot : l.slots[i]? = none := by simpa [occupancy?] using hoccupancy
      intro l' hl'
      simp [detach, slot, hslot, bind, Except.bind] at hl'

theorem size_release (l : Line α) (i : Nat) : (l.release i).slots.size = l.slots.size :=
  l.size_slots_occupy i _

theorem size_serve (l : Line α) (item : α) :
    Yields (fun result => result.2.slots.size = l.slots.size) (l.serve item) := by
  unfold serve
  split
  · exact yields_pure rfl
  · refine (l.size_detach _).bind fun l' hl' => (yields_any _).bind fun slot _ => yields_pure ?_
    exact (l'.size_slots_occupy _ _).trans hl'

theorem size_collect (l : Line α) (i : Nat) :
    Yields (fun result => result.2.slots.size = l.slots.size) (l.collect i) := by
  refine (yields_any _).bind fun slot _ => ?_
  split
  · exact yields_pure (l.size_release i)
  · exact yields_pure rfl
  · exact yields_throw _

theorem size_leave (l : Line α) (i : Nat) :
    Yields (fun result => result.2.slots.size = l.slots.size) (l.leave i) := by
  refine (yields_any _).bind fun slot _ => ?_
  split
  · exact (l.size_detach i).bind fun l' hl' => yields_pure ((l'.size_release i).trans hl')
  · exact l.size_collect i

end Line

namespace Queue

variable (q : Queue α)

theorem size_countRemoval :
    Yields (fun q' => q'.line.slots.size = q.line.slots.size) q.countRemoval := by
  unfold countRemoval
  split
  · exact yields_pure rfl
  · exact yields_throw _

theorem size_put (item : α) :
    Yields (fun result => result.2.line.slots.size = q.line.slots.size) (q.put item) := by
  refine (q.line.size_serve item).bind fun result hresult => ?_
  split
  · exact yields_pure hresult
  · split
    · exact yields_pure hresult
    · exact yields_throw _

theorem size_pop :
    Yields (fun result => result.2.line.slots.size = q.line.slots.size) q.pop := by
  simp only [pop]
  split
  · exact yields_pure rfl
  · exact (size_countRemoval _).bind fun q' hq' => yields_pure hq'

theorem size_collect (slot : Nat) :
    Yields (fun result => result.2.line.slots.size = q.line.slots.size) (q.collect slot) := by
  refine (q.line.size_collect slot).bind fun result hresult => ?_
  split
  · exact (size_countRemoval _).bind fun q' hq' => yields_pure (hq'.trans hresult)
  · exact yields_pure hresult

theorem size_leave (slot : Nat) :
    Yields (fun result => result.2.line.slots.size = q.line.slots.size) (q.leave slot) := by
  refine (q.line.size_leave slot).bind fun result hresult => ?_
  split
  · exact (size_countRemoval _).bind fun q' hq' => yields_pure (hq'.trans hresult)
  · exact yields_pure hresult

end Queue

/-- The number of slots stays the same across whatever is not a start of a call. -/
theorem Moment.lasting_slots :
    Lasting fun m m' : Moment α => m'.1.line.slots.size = m.1.line.slots.size where
  trans h h' := h'.trans h
  later _ _ _ _ := rfl
  broken _ _ := rfl
  put item q _ := q.size_put item
  pop q _ := q.size_pop
  collect slot q _ := q.size_collect slot
  leave slot q _ := q.size_leave slot

/-- A step makes no slot unless a call starts in it. -/
theorem Session.slots_step {s s' : Session α} {step : Step α}
    (hstart : ∀ c removal, step.action ≠ .start c removal) (hstep : (s.step step).1 = some s') :
    s'.queue.line.slots.size = s.queue.line.slots.size :=
  Moment.lasting_slots.of_step (fun c removal haction => absurd haction (hstart c removal)) hstep

end FairQueue
