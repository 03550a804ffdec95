import FairQueue.Proofs.Call.Refusal
import FairQueue.Session.Basic

/-!
What every step keeps. A relation between the moments before and after that holds across each
operation under the lock, and does not mind the time that passes, holds across every call and every
step of a session.
-/

namespace FairQueue

variable {α β γ : Type}

/-- The operation ends in a result of this kind, unless it finds a rule broken. -/
def Yields (P : β → Prop) (operation : Except Fault β) : Prop :=
  ∀ result, operation = .ok result → P result

section Yields

variable {P : β → Prop} {Q : γ → Prop} {result : β}

theorem Yields.bind {operation : Except Fault β} {next : β → Except Fault γ}
    (h : Yields P operation) (hnext : ∀ result, P result → Yields Q (next result)) :
    Yields Q (operation >>= next) := by
  intro last hlast
  cases operation with
  | error fault => cases hlast
  | ok result => exact hnext result (h result rfl) last hlast

theorem yields_pure (h : P result) : Yields P (pure result) := by
  rintro _ ⟨⟩
  exact h

theorem yields_throw (fault : Fault) : Yields P (throw fault) := by
  intro _ hresult
  cases hresult

theorem yields_any (operation : Except Fault β) : Yields (fun _ => True) operation :=
  fun _ _ => trivial

end Yields

/-- A queue, and what time it is. -/
abbrev Moment (α : Type) : Type :=
  Queue α × Time

def Scene.moment (scene : Scene α) : Moment α :=
  (scene.queue, scene.clock.now)

def Session.moment (s : Session α) : Moment α :=
  (s.queue, s.now)

/-- The relation holds across the operation. -/
def Queue.Leads (R : Moment α → Moment α → Prop)
    (operation : Queue α → Except Fault (β × Queue α)) : Prop :=
  ∀ q now, Yields (fun result => R (q, now) (result.2, now)) (operation q)

namespace Call

/-- What a call leaves, however it ends. -/
def remains : EStateM.Result Panic (Scene α) β → Scene α
  | .ok _ scene | .error _ scene => scene

/-- The relation holds across the call, however it ends. -/
def Leads (R : Moment α → Moment α → Prop) (call : Call α β) : Prop :=
  ∀ scene : Scene α, R scene.moment (remains (call scene)).moment

namespace Leads

variable {R : Moment α → Moment α → Prop} {call : Call α β} {s : Session α} {step : Step α}

theorem map (h : Leads R call) (f : β → γ) : Leads R (f <$> call) := by
  intro scene
  have hcall := h scene
  simp only [Functor.map, EStateM.map]
  cases hend : call scene <;> rw [hend] at hcall <;> exact hcall

theorem holding (h : Leads R call) (items : List α) : Leads R (holding items call) := by
  intro scene
  have hcall := h scene
  rw [holding_eq]
  cases hend : call scene <;> rw [hend] at hcall <;> exact hcall

theorem make {call : Call α (Reply α)} (h : Leads R call) :
    R s.moment (s.make step call).1.moment := by
  have hcall := h (s.scene step)
  unfold Session.make
  cases hend : call (s.scene step) <;> rw [hend] at hcall <;> exact hcall

theorem consume {c : Consumer} {call : Call α (Progress α)} (h : Leads R call) :
    R s.moment (s.consume step c call).1.moment := by
  have hcall := h (s.scene step)
  unfold Session.consume
  cases hend : call (s.scene step) with
  | error panic scene =>
      rw [hend] at hcall
      exact hcall
  | ok progress scene =>
      rw [hend] at hcall
      dsimp only
      split
      · unfold Session.withSleeper
        split <;> exact hcall
      · exact hcall

end Leads

end Call

namespace Moment

open Call

/-- The relation holds across the time that passes and across whatever is done to the stored items
and for the consumers at the front of the line. -/
structure Steady (R : Moment α → Moment α → Prop) : Prop where
  trans : ∀ {m₁ m₂ m₃}, R m₁ m₂ → R m₂ m₃ → R m₁ m₃
  later : ∀ (q : Queue α) {now now' : Time}, now ≤ now' → R (q, now) (q, now')
  broken : ∀ (q : Queue α) (now : Time), R (q, now) ({ q with broken := true }, now)
  put : ∀ item, Queue.Leads R (·.put item)
  pop : Queue.Leads R (·.pop)

/-- The relation also holds across what a consumer in the line does. -/
structure Lasting (R : Moment α → Moment α → Prop) : Prop extends Steady R where
  collect : ∀ slot, Queue.Leads R (·.collect slot)
  leave : ∀ slot, Queue.Leads R (·.leave slot)

namespace Steady

variable {R : Moment α → Moment α → Prop} (h : Steady R)

include h

theorem putAll (items : List α) : Queue.Leads R (·.putAll items) := by
  induction items with
  | nil => exact fun q now => yields_pure (h.later q (Time.le_refl now))
  | cons item items ih =>
      intro q now
      refine (h.put item q now).bind fun first hfirst => ?_
      refine (ih first.2 now).bind fun rest hrest => yields_pure ?_
      exact h.trans hfirst hrest

/-- Whatever leaves the queue and the clock alone. -/
theorem leads_of_moment_eq {call : Call α β}
    (hcall : ∀ scene, (remains (call scene)).moment = scene.moment) : Leads R call := by
  intro scene
  rw [hcall]
  exact h.later _ (Time.le_refl _)

theorem leads_pure (result : β) : Leads R (pure result : Call α β) :=
  h.leads_of_moment_eq fun _ => rfl

theorem leads_bind {call : Call α β} {next : β → Call α γ} (hcall : Leads R call)
    (hnext : ∀ result, Leads R (next result)) : Leads R (call >>= next) := by
  intro scene
  have hfirst := hcall scene
  cases hend : call scene with
  | ok result scene' =>
      rw [hend] at hfirst
      rw [bind_of_ok hend]
      exact h.trans hfirst (hnext result scene')
  | error panic scene' =>
      rw [hend] at hfirst
      rw [bind_of_error hend]
      exact hfirst

theorem leads_locked {operation : Queue α → Except Fault (β × Queue α)}
    (hoperation : Queue.Leads R operation) : Leads R (locked operation) := by
  intro scene
  cases hbroken : scene.queue.broken with
  | true =>
      rw [locked_of_broken hbroken]
      exact h.later _ (Time.le_refl _)
  | false =>
      cases hend : operation scene.queue with
      | ok result =>
          rw [locked_of_ok hbroken hend]
          exact hoperation scene.queue scene.clock.now result hend
      | error fault =>
          rw [locked_of_error hbroken hend]
          exact h.broken scene.queue scene.clock.now

theorem leads_look (f : Queue α → β) : Leads R (look f) :=
  h.leads_locked fun q now => yields_pure (h.later q (Time.le_refl now))

theorem leads_readClock : Leads R (readClock : Call α Time) := by
  intro scene
  rw [readClock_eq]
  exact h.later scene.queue scene.clock.now_le_read

theorem leads_ring (bells : List Nat) : Leads R (ring bells : Call α Unit) :=
  h.leads_of_moment_eq fun _ => rfl

theorem leads_report (event : Event) : Leads R (report event : Call α Unit) := by
  refine h.leads_of_moment_eq fun scene => ?_
  rw [report_eq]
  cases scene.refusing <;> rfl

theorem leads_draw (source : Source α) : Leads R source.draw := by
  refine h.leads_of_moment_eq fun scene => ?_
  cases hfailure : source.failure? with
  | some request =>
      rw [draw_of_failure hfailure]
      rfl
  | none =>
      rw [draw_of_none hfailure]
      rfl

theorem leads_put (item : α) : Leads R (Call.put item) := by
  refine h.leads_bind (h.leads_locked (h.put item)) fun place => ?_
  cases place with
  | none => exact h.leads_pure ()
  | some place => exact h.leads_bind (h.leads_ring _) fun _ => h.leads_report _

theorem leads_putAll (source : Source α) : Leads R (Call.putAll source) := by
  refine h.leads_bind (h.leads_draw source) fun items => ?_
  split
  · exact h.leads_pure ()
  · refine h.leads_bind (h.leads_locked (h.putAll items)) fun places => ?_
    exact h.leads_bind (h.leads_ring _) fun _ => h.leads_report _

theorem leads_poll : Leads R (poll : Call α (Option α)) :=
  h.leads_locked h.pop

theorem leads_pollMany (count : Nat) : Leads R (pollMany count : Call α (List α)) := by
  induction count with
  | zero => exact h.leads_pure []
  | succ count ih =>
      refine h.leads_bind h.leads_poll fun item => ?_
      cases item with
      | none => exact h.leads_pure []
      | some item => exact h.leads_bind ih fun items => h.leads_pure (item :: items)

theorem leads_drain (max : Option Nat) : Leads R (drain max : Call α (List α)) :=
  h.leads_bind (h.leads_look _) fun size => h.leads_pollMany (max.getD size)

/-- The relation holds across every step in which no consumer runs. -/
theorem of_step {s s' : Session α} {step : Step α}
    (hstart : ∀ c removal, step.action ≠ .start c removal) (hwake : ∀ c, step.action ≠ .wake c)
    (hstep : (s.step step).1 = some s') : R s.moment s'.moment := by
  obtain ⟨action, refusing, jumps⟩ := step
  cases action with
  | put item =>
      obtain rfl := Option.some.inj hstep
      exact (h.leads_bind (h.leads_put item) fun _ => h.leads_pure _).make
  | putAll source =>
      obtain rfl := Option.some.inj hstep
      exact (h.leads_bind (h.leads_putAll source) fun _ => h.leads_pure _).make
  | poll =>
      obtain rfl := Option.some.inj hstep
      exact (h.leads_poll.map _).make
  | drain max =>
      obtain rfl := Option.some.inj hstep
      exact ((h.leads_drain max).map _).make
  | query query =>
      obtain rfl := Option.some.inj hstep
      exact (h.leads_look _).make
  | openIterator name =>
      obtain rfl := Option.some.inj hstep
      exact h.later _ (Time.le_refl _)
  | advance span =>
      obtain rfl := Option.some.inj hstep
      exact h.later _ (Time.le_add _ _)
  | next name =>
      simp only [Session.step] at hstep
      split at hstep <;> obtain rfl := Option.some.inj hstep
      · exact (h.leads_poll.map _).make
      · exact h.later _ (Time.le_refl _)
  | close =>
      simp only [Session.step] at hstep
      split at hstep
      · cases hstep
      · obtain rfl := Option.some.inj hstep
        exact h.later _ (Time.le_refl _)
  | start c removal => exact absurd rfl (hstart c removal)
  | wake c => exact absurd rfl (hwake c)

end Steady

namespace Lasting

variable {R : Moment α → Moment α → Prop} (h : Lasting R)

include h

theorem leads_waitUntil (place : Place) (deadline : Time) :
    Leads R (waitUntil place deadline : Call α (Progress α)) := by
  refine h.leads_bind h.leads_readClock fun now => ?_
  split
  · refine h.leads_bind (h.leads_locked (h.leave place.slot)) fun item => ?_
    cases item with
    | none => exact h.leads_bind (h.leads_report _) fun _ => h.leads_pure _
    | some item => exact h.leads_pure _
  · exact h.leads_pure _

theorem leads_resume (sleeper : Sleeper) : Leads R (resume sleeper : Call α (Progress α)) := by
  refine h.leads_bind (h.leads_locked (h.collect sleeper.place.slot)) fun item => ?_
  cases item with
  | some item => exact h.leads_bind ((h.leads_report _).holding [item]) fun _ => h.leads_pure _
  | none =>
      cases sleeper.patience with
      | endless ahead => exact h.leads_pure _
      | deadline time => exact h.leads_waitUntil sleeper.place time

section Join

variable (hjoin : Queue.Leads R (β := Place) (·.join))

include hjoin

theorem leads_take : Leads R (take : Call α (Progress α)) := by
  refine h.leads_bind h.leads_poll fun item => ?_
  cases item with
  | some item => exact h.leads_pure _
  | none =>
      refine h.leads_bind (h.leads_look _) fun ahead => ?_
      exact h.leads_bind (h.leads_locked hjoin) fun place => h.leads_pure _

theorem leads_takeUntil (deadline : Time) :
    Leads R (takeUntil deadline : Call α (Progress α)) := by
  refine h.leads_bind h.leads_poll fun item => ?_
  cases item with
  | some item => exact h.leads_pure _
  | none =>
      refine h.leads_bind h.leads_readClock fun now => ?_
      split
      · exact h.leads_pure _
      · exact h.leads_bind (h.leads_locked hjoin) fun place => h.leads_waitUntil place deadline

theorem leads_removal (removal : Removal) :
    Leads R (removal.call : Call α (Progress α)) := by
  cases removal with
  | take => exact h.leads_take hjoin
  | takeUntil deadline => exact h.leads_takeUntil hjoin deadline
  | takeWithin span =>
      refine h.leads_bind h.leads_readClock fun now => ?_
      cases now.plus? span with
      | some deadline => exact h.leads_takeUntil hjoin deadline
      | none => exact h.leads_take hjoin

end Join

/-- The relation holds across every step, if it holds across joining the line where a call starts.
-/
theorem of_step {s s' : Session α} {step : Step α}
    (hjoin : ∀ c removal, step.action = .start c removal → Queue.Leads R (β := Place) (·.join))
    (hstep : (s.step step).1 = some s') : R s.moment s'.moment := by
  obtain ⟨action, refusing, jumps⟩ := step
  cases action with
  | start c removal =>
      simp only [Session.step] at hstep
      split at hstep <;> obtain rfl := Option.some.inj hstep
      · exact h.later _ (Time.le_refl _)
      · exact (h.leads_removal (hjoin c removal rfl) removal).consume
  | wake c =>
      simp only [Session.step] at hstep
      split at hstep <;> obtain rfl := Option.some.inj hstep
      · exact (h.leads_resume _).consume
      · exact h.later _ (Time.le_refl _)
  | _ =>
      refine h.toSteady.of_step ?_ ?_ hstep
      · rintro c removal ⟨⟩
      · rintro c ⟨⟩

end Lasting

end Moment

end FairQueue
