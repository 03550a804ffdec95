import FairQueue.Proofs.Call.Moment
import FairQueue.Session.Action

/-!
What it tells of a call that it leaves the lock intact. All that it asked for under the lock was
granted, so that no item was removed that could not be counted; and a lock once broken stays broken.
-/

namespace FairQueue

variable {α β γ : Type}

namespace Queue

variable (q : Queue α)

theorem broken_countRemoval : Yields (fun q' => q'.broken = q.broken) q.countRemoval := by
  unfold countRemoval
  split
  · exact yields_pure rfl
  · exact yields_throw _

theorem broken_put (item : α) : Yields (fun result => result.2.broken = q.broken) (q.put item) := by
  refine (yields_any (q.line.serve item)).bind fun served _ => ?_
  split
  · exact yields_pure rfl
  · split
    · exact yields_pure rfl
    · exact yields_throw _

theorem broken_pop : Yields (fun result => result.2.broken = q.broken) q.pop := by
  simp only [pop]
  split
  · exact yields_pure rfl
  · exact (broken_countRemoval _).bind fun q' hq' => yields_pure hq'

theorem broken_join : Yields (fun result => result.2.broken = q.broken) q.join := by
  unfold join
  split
  · exact (yields_any q.line.join).bind fun _ _ => yields_pure rfl
  · refine (yields_any _).bind fun _ _ => ?_
    exact (yields_any q.line.join).bind fun _ _ => yields_pure rfl

theorem broken_collect (slot : Nat) :
    Yields (fun result => result.2.broken = q.broken) (q.collect slot) := by
  refine (yields_any (q.line.collect slot)).bind fun collected _ => ?_
  split
  · exact (broken_countRemoval _).bind fun q' hq' => yields_pure hq'
  · exact yields_pure rfl

theorem broken_leave (slot : Nat) :
    Yields (fun result => result.2.broken = q.broken) (q.leave slot) := by
  refine (yields_any (q.line.leave slot)).bind fun left _ => ?_
  split
  · exact (broken_countRemoval _).bind fun q' hq' => yields_pure hq'
  · exact yields_pure rfl

variable {q} {q' : Queue α} {item : α} {items : List α} {item? : Option α} {i : Nat} {l : Line α}

/-- An item is only counted as removed while the count stays in its range. -/
theorem removed_lt_of_countRemoval (h : q.countRemoval = .ok q') :
    q.removed + 1 < UInt64.size ∧ q' = { q with removed := q.removed + 1 } := by
  unfold countRemoval at h
  split at h
  · exact ⟨‹_›, (Except.ok.inj h).symm⟩
  · cases h

theorem pop_of_cons (hitems : q.items = item :: items) (hpop : q.pop = .ok (item?, q')) :
    q.removed + 1 < UInt64.size ∧ item? = some item ∧
      q' = { q with items, removed := q.removed + 1 } := by
  simp only [pop, hitems, bind, Except.bind] at hpop
  split at hpop
  · cases hpop
  · rename_i counted hcount
    obtain ⟨hlt, rfl⟩ := removed_lt_of_countRemoval hcount
    cases hpop
    exact ⟨hlt, rfl, rfl⟩

theorem removed_lt_of_collect (hline : q.line.collect i = .ok (some item, l))
    (hcollect : q.collect i = .ok (item?, q')) : q.removed + 1 < UInt64.size := by
  simp only [collect, hline, bind, Except.bind] at hcollect
  split at hcollect
  · cases hcollect
  · rename_i counted hcount
    exact (removed_lt_of_countRemoval hcount).1

end Queue

/-- A lock once broken stays broken. -/
theorem Moment.lasting_broken :
    Lasting fun m m' : Moment α => m.1.broken = true → m'.1.broken = true where
  trans h h' hbroken := h' (h hbroken)
  later _ _ _ _ := id
  broken _ _ _ := rfl
  put item q _ result hresult := (q.broken_put item result hresult).trans
  pop q _ result hresult := (q.broken_pop result hresult).trans
  collect slot q _ result hresult := (q.broken_collect slot result hresult).trans
  leave slot q _ result hresult := (q.broken_leave slot result hresult).trans

namespace Call

variable {scene : Scene α}

theorem remains_map (call : Call α β) (f : β → γ) :
    remains ((f <$> call) scene) = remains (call scene) := by
  simp only [Functor.map, EStateM.map]
  cases call scene <;> rfl

/-- A call that leaves the lock intact was answered under it. -/
theorem answered_of_intact {operation : Queue α → Except Fault (β × Queue α)} {next : β → Call α γ}
    (hintact : (remains ((locked operation >>= next) scene)).queue.broken = false) :
    ∃ result queue, operation scene.queue = .ok (result, queue) ∧
      (remains (next result { scene with queue })).queue.broken = false := by
  cases hbroken : scene.queue.broken with
  | true =>
      rw [bind_of_error (locked_of_broken hbroken)] at hintact
      cases hbroken.symm.trans hintact
  | false =>
      cases hoperation : operation scene.queue with
      | error fault =>
          rw [bind_of_error (locked_of_error hbroken hoperation)] at hintact
          cases hintact
      | ok answer =>
          rw [bind_of_ok (locked_of_ok hbroken hoperation)] at hintact
          exact ⟨answer.1, answer.2, rfl, hintact⟩

variable (scene) (hremoved : scene.queue.removed < UInt64.size)

include hremoved

/-- A call that polls first and leaves the lock intact has counted what it popped. -/
theorem fits_of_poll {next : Option α → Call α β}
    (hintact : (remains ((poll >>= next) scene)).queue.broken = false) :
    scene.queue.removed + min 1 scene.queue.items.length < UInt64.size := by
  obtain ⟨item?, q, hpop, -⟩ := answered_of_intact hintact
  cases hitems : scene.queue.items with
  | nil => simpa using hremoved
  | cons item items =>
      obtain ⟨hlt, -⟩ := Queue.pop_of_cons hitems hpop
      rw [List.length_cons]
      omega

theorem fits_of_pollMany (count : Nat)
    (hintact : (remains (pollMany count scene)).queue.broken = false) :
    scene.queue.removed + min count scene.queue.items.length < UInt64.size := by
  induction count generalizing scene with
  | zero => simpa using hremoved
  | succ count ih =>
      obtain ⟨item?, q, hpop, hrest⟩ := answered_of_intact hintact
      cases hitems : scene.queue.items with
      | nil => simpa using hremoved
      | cons item items =>
          obtain ⟨hlt, rfl, rfl⟩ := Queue.pop_of_cons hitems hpop
          let popped : Scene α := { scene with queue :=
            { scene.queue with items, removed := scene.queue.removed + 1 } }
          have hmore : (remains (pollMany count popped)).queue.broken = false := by
            rw [← remains_map (pollMany count) (item :: ·)]
            exact hrest
          have hfits : scene.queue.removed + 1 + min count items.length < UInt64.size :=
            ih popped hlt hmore
          rw [List.length_cons]
          omega

theorem fits_of_drain (max : Option Nat)
    (hintact : (remains (drain max scene)).queue.broken = false) :
    scene.queue.removed + min (max.getD scene.queue.items.length) scene.queue.items.length <
      UInt64.size := by
  obtain ⟨size, q, hlook, hrest⟩ := answered_of_intact hintact
  cases hlook
  exact fits_of_pollMany scene hremoved _ hrest

theorem fits_of_call (removal : Removal)
    (hintact : (remains (removal.call scene)).queue.broken = false) :
    scene.queue.removed + min 1 scene.queue.items.length < UInt64.size := by
  cases removal with
  | take | takeUntil deadline => exact fits_of_poll scene hremoved hintact
  | takeWithin span =>
      change (remains (takeWithin span scene)).queue.broken = false at hintact
      rw [takeWithin_eq] at hintact
      let later : Scene α := { scene with clock := scene.clock.read.2 }
      split at hintact
      all_goals exact fits_of_poll later hremoved hintact

omit hremoved in
theorem fits_of_resume {sleeper : Sleeper} {item : α} {l : Line α}
    (hserved : scene.queue.line.collect sleeper.place.slot = .ok (some item, l))
    (hintact : (remains (resume sleeper scene)).queue.broken = false) :
    scene.queue.removed + 1 < UInt64.size := by
  obtain ⟨item?, q, hcollect, -⟩ := answered_of_intact hintact
  exact Queue.removed_lt_of_collect hserved hcollect

end Call

end FairQueue
