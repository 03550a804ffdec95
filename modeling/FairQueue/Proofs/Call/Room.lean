import FairQueue.Proofs.Call.Refusal

/-!
Calls where memory has an end. With room for the items that a call brings in, it comes to the same
as where memory has none. Without it the call breaks off under the lock, and from then on every call
breaks off where it needs the lock.
-/

namespace FairQueue

namespace Queue

variable {α : Type} {q : Queue α} {itemSize count : Nat}

theorem fits_iff :
    fits itemSize count = true ↔
      count < UInt64.size ∧ itemSize * count < 0x8000000000000000 := by
  simp only [fits, Bool.and_eq_true, decide_eq_true_eq]

theorem fits_zero (itemSize : Nat) : fits itemSize 0 = true :=
  fits_iff.mpr ⟨by decide, by simp⟩

theorem fits_of_le {fewer : Nat} (hfits : fits itemSize count = true) (hle : fewer ≤ count) :
    fits itemSize fewer = true := by
  obtain ⟨hcount, hbytes⟩ := fits_iff.mp hfits
  refine fits_iff.mpr ⟨Nat.lt_of_le_of_lt hle hcount, ?_⟩
  exact Nat.lt_of_le_of_lt (Nat.mul_le_mul_left itemSize hle) hbytes

/-- With room for twice as much there is room. -/
theorem fits_of_twice (hfits : fits (2 * itemSize) count = true) : fits itemSize count = true := by
  obtain ⟨hcount, hbytes⟩ := fits_iff.mp hfits
  refine fits_iff.mpr ⟨hcount, Nat.lt_of_le_of_lt ?_ hbytes⟩
  exact Nat.mul_le_mul_right count (Nat.le_mul_of_pos_left itemSize Nat.two_pos)

end Queue

namespace Call

variable {α β γ : Type} {scene : Scene α} {q : Queue α} {item : α} {items : List α}
  {source : Source α} {operation : Queue α → Except Fault (β × Queue α)} {itemSize : Nat}

section Intact

variable (hintact : scene.queue.broken = false)

include hintact

theorem lockedWithRoom_of_ok {result : β}
    (hroom : scene.queue.reserve itemSize items.length = .ok ())
    (hok : operation scene.queue = .ok (result, q)) :
    lockedWithRoom itemSize items operation scene = .ok result { scene with queue := q } := by
  have hboth : (do scene.queue.reserve itemSize items.length; operation scene.queue) =
      .ok (result, q) := by
    simp only [hroom, hok, bind, Except.bind]
  rw [lockedWithRoom, holding_eq, locked_of_ok hintact hboth]

theorem lockedWithRoom_of_error {fault : Fault}
    (hfull : scene.queue.reserve itemSize items.length = .error fault) :
    lockedWithRoom itemSize items operation scene =
      .error (.fault fault)
        { scene with
          queue := { scene.queue with broken := true }
          destroyed := scene.destroyed ++ items } := by
  have hbreaks : (do scene.queue.reserve itemSize items.length; operation scene.queue) =
      .error fault := by
    simp only [hfull, bind, Except.bind]
  rw [lockedWithRoom, holding_eq, locked_of_error hintact hbreaks]

theorem putSized_eq {place : Option Place} (hroom : scene.queue.reserve itemSize 1 = .ok ())
    (hput : scene.queue.put item = .ok (place, q)) :
    putSized itemSize item scene = put item scene := by
  have hlocked : lockedWithRoom itemSize [item] (·.put item) scene =
      .ok place { scene with queue := q } := lockedWithRoom_of_ok hintact hroom hput
  rw [putSized, put, bind_of_ok hlocked, bind_of_ok (locked_of_ok hintact hput)]

theorem putAllSized_eq {places : List Place} (h : source.failure? = none)
    (hroom : scene.queue.reserve itemSize source.items.length = .ok ())
    (hput : scene.queue.putAll source.items = .ok (places, q)) :
    putAllSized itemSize source scene = putAll source scene := by
  have hlocked : lockedWithRoom itemSize source.items (·.putAll source.items) scene =
      .ok places { scene with queue := q } := lockedWithRoom_of_ok hintact hroom hput
  have hlocked' : locked (·.putAll source.items) scene = .ok places { scene with queue := q } :=
    locked_of_ok hintact hput
  rw [putAllSized, putAll, bind_of_ok (draw_of_none h), bind_of_ok (draw_of_none h)]
  split
  · rfl
  · rw [bind_of_ok hlocked, bind_of_ok hlocked']

theorem putSized_of_noRoom {fault : Fault}
    (hfull : scene.queue.reserve itemSize 1 = .error fault) :
    putSized itemSize item scene =
      .error (.fault fault)
        { scene with
          queue := { scene.queue with broken := true }
          destroyed := scene.destroyed ++ [item] } := by
  have hlocked : lockedWithRoom itemSize [item] (·.put item) scene = _ :=
    lockedWithRoom_of_error hintact hfull
  rw [putSized, bind_of_error hlocked]

theorem putAllSized_of_noRoom {fault : Fault} (h : source.failure? = none)
    (hitems : source.items ≠ [])
    (hfull : scene.queue.reserve itemSize source.items.length = .error fault) :
    putAllSized itemSize source scene =
      .error (.fault fault)
        { scene with
          queue := { scene.queue with broken := true }
          destroyed := scene.destroyed ++ source.items } := by
  have hlocked : lockedWithRoom itemSize source.items (·.putAll source.items) scene = _ :=
    lockedWithRoom_of_error hintact hfull
  rw [putAllSized, bind_of_ok (draw_of_none h), if_neg (by simpa using hitems)]
  exact bind_of_error hlocked _

end Intact

theorem putAllSized_of_failure {request : Nat} (h : source.failure? = some request) :
    putAllSized itemSize source scene =
      .error (.sourceFailed request)
        { scene with destroyed := scene.destroyed ++ source.items.take request } := by
  rw [putAllSized, bind_of_error (draw_of_failure h)]

/-- A batch that is not there, or whose source fails, does not get to the lock. -/
theorem putAllSized_eq_of_nothing (h : source.failure? = none → source.items = []) :
    putAllSized itemSize source scene = putAll source scene := by
  cases hfailure : source.failure? with
  | some request =>
      rw [putAll_of_failure hfailure, putAllSized_of_failure hfailure]
  | none =>
      rw [putAll_of_nil hfailure (h hfailure), putAllSized, bind_of_ok (draw_of_none hfailure),
        h hfailure]
      rfl

/-- On a broken lock the call breaks off where it needs the lock, and leaves the queue alone. -/
def Halts (call : Call α β) : Prop :=
  ∀ scene : Scene α, scene.queue.broken = true →
    ∃ left : Scene α, call scene = .error .lockBroken left ∧ left.queue = scene.queue

theorem halts_locked (operation : Queue α → Except Fault (β × Queue α)) :
    Halts (locked operation) :=
  fun scene hbroken => ⟨scene, locked_of_broken hbroken, rfl⟩

theorem Halts.bind {call : Call α β} (h : Halts call) (next : β → Call α γ) :
    Halts (call >>= next) := by
  intro scene hbroken
  obtain ⟨left, hcall, hleft⟩ := h scene hbroken
  exact ⟨left, bind_of_error hcall next, hleft⟩

theorem Halts.map {call : Call α β} (h : Halts call) (f : β → γ) : Halts (f <$> call) := by
  intro scene hbroken
  obtain ⟨left, hcall, hleft⟩ := h scene hbroken
  refine ⟨left, ?_, hleft⟩
  simp only [Functor.map, EStateM.map, hcall]

theorem Halts.holding {part : Call α β} (h : Halts part) (items : List α) :
    Halts (holding items part) := by
  intro scene hbroken
  obtain ⟨left, hpart, hleft⟩ := h scene hbroken
  refine ⟨{ left with destroyed := left.destroyed ++ items }, ?_, hleft⟩
  rw [holding_eq, hpart]

theorem halts_poll : Halts (poll : Call α (Option α)) :=
  halts_locked _

theorem halts_look (f : Queue α → β) : Halts (look f) :=
  halts_locked _

theorem halts_drain (max : Option Nat) : Halts (drain max : Call α (List α)) :=
  (halts_look _).bind _

theorem halts_take : Halts (take : Call α (Progress α)) :=
  halts_poll.bind _

theorem halts_takeUntil (deadline : Time) : Halts (takeUntil deadline : Call α (Progress α)) :=
  halts_poll.bind _

theorem halts_takeWithin (span : Time) : Halts (takeWithin span : Call α (Progress α)) := by
  intro scene hbroken
  rw [takeWithin_eq]
  cases scene.clock.now.plus? span with
  | some deadline =>
      exact halts_takeUntil deadline { scene with clock := scene.clock.read.2 } hbroken
  | none => exact halts_take { scene with clock := scene.clock.read.2 } hbroken

theorem halts_resume (sleeper : Sleeper) : Halts (resume sleeper : Call α (Progress α)) :=
  (halts_locked _).bind _

theorem halts_lockedWithRoom (itemSize : Nat) (items : List α)
    (operation : Queue α → Except Fault (β × Queue α)) :
    Halts (lockedWithRoom itemSize items operation) :=
  (halts_locked _).holding items

theorem halts_putSized (itemSize : Nat) (item : α) : Halts (putSized itemSize item) :=
  (halts_lockedWithRoom _ _ _).bind _

/-- A batch that is there halts as well, with all of its items in hand. -/
theorem putAllSized_of_broken (itemSize : Nat) (hbroken : scene.queue.broken = true)
    (h : source.failure? = none) (hitems : source.items ≠ []) :
    ∃ left : Scene α, putAllSized itemSize source scene = .error .lockBroken left ∧
      left.queue = scene.queue := by
  have hhalts : Halts (lockedWithRoom itemSize source.items (·.putAll source.items) >>=
      announceAll source.items.length) := (halts_lockedWithRoom _ _ _).bind _
  obtain ⟨left, hcall, hleft⟩ := hhalts scene hbroken
  refine ⟨left, ?_, hleft⟩
  rw [putAllSized, bind_of_ok (draw_of_none h), if_neg (by simpa using hitems)]
  exact hcall

end Call

end FairQueue
