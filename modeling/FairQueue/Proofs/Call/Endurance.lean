import FairQueue.Proofs.Call.Refusal
import FairQueue.Session.Action

/-!
One turn of a call, made by a consumer with a deadline and by a more patient one in its place. While
the clock stands still both turns go the same way, unless the less patient consumer comes back
empty-handed.
-/

namespace FairQueue

namespace Removal

/-- When a call that starts now gives up, if it ever does. -/
def deadline? (removal : Removal) (now : Time) : Option Time :=
  match removal with
  | take => none
  | takeWithin span => now.plus? span
  | takeUntil deadline => some deadline

/-- With how much patience a call that starts now waits behind `ahead` others. -/
def patience (removal : Removal) (now : Time) (ahead : Nat) : Patience :=
  match removal.deadline? now with
  | some deadline => .deadline deadline
  | none => .endless ahead

end Removal

namespace Patience

def limit? (patience : Patience) (now : Time) : Option Time :=
  match patience with
  | endless _ => none
  | deadline time => some (time - now)

/-- A consumer with this patience does not give up before `time`. -/
def Outlasts (patience : Patience) (time : Time) : Prop :=
  ∀ later, patience = deadline later → time ≤ later

theorem Outlasts.lt {patience : Patience} {time now later : Time} (h : patience.Outlasts time)
    (hnow : now < time) (hlater : patience = deadline later) : now < later :=
  Time.lt_of_lt_of_le hnow (h later hlater)

end Patience

theorem Removal.patience_outlasts {removal : Removal} {now time : Time}
    (hlonger : ∀ later, removal.deadline? now = some later → time ≤ later) (ahead : Nat) :
    (removal.patience now ahead).Outlasts time := by
  intro later hlater
  unfold patience at hlater
  split at hlater
  · rename_i heq
    cases hlater
    exact hlonger _ heq
  · cases hlater

namespace Event

/-- What a consumer with this patience reports in the place of another one. -/
def withPatience (patience : Patience) : Event → Event
  | collectedBehind slot _ | collected slot => patience.collection slot
  | event => event

@[simp] theorem withPatience_collection (patience patience' : Patience) (slot : Nat) :
    (patience.collection slot).withPatience patience' = patience'.collection slot := by
  cases patience <;> rfl

end Event

namespace Progress

variable {α : Type}

/-- The same turn of a consumer with another patience. -/
def withPatience (patience : Patience) (now : Time) : Progress α → Progress α
  | returned item => .returned item
  | asleep sleeper _ => .asleep { sleeper with patience } (patience.limit? now)

end Progress

def Scene.withPatience {α : Type} (patience : Patience) (scene : Scene α) : Scene α :=
  { scene with logged := scene.logged.map (Event.withPatience patience) }

namespace Line

variable {α : Type} {l l' : Line α} {i : Nat}

/-- A consumer whose slot keeps no item leaves without one. -/
theorem leave_of_collect_none (hcollect : l.collect i = .ok (none, l')) :
    l' = l ∧ ∀ item l'', l.leave i ≠ .ok (some item, l'') := by
  simp only [collect, bind, Except.bind] at hcollect
  split at hcollect
  · cases hcollect
  · rename_i slot hslot
    split at hcollect
    · cases hcollect
    · rename_i hwaiting
      refine ⟨(Prod.mk.inj (Except.ok.inj hcollect)).2.symm, fun item l'' hleave => ?_⟩
      simp only [leave, bind, Except.bind, hslot, hwaiting] at hleave
      split at hleave <;> cases hleave
    · cases hcollect

end Line

namespace Queue

variable {α : Type} {q q' : Queue α} {i : Nat}

theorem leave_of_collect_none (hcollect : q.collect i = .ok (none, q')) :
    q' = q ∧ ∀ item q'', q.leave i ≠ .ok (some item, q'') := by
  simp only [collect, bind, Except.bind] at hcollect
  split at hcollect
  · cases hcollect
  · rename_i collected hline
    obtain ⟨_ | item, l⟩ := collected
    · obtain ⟨rfl, hleave⟩ := Line.leave_of_collect_none hline
      refine ⟨(Prod.mk.inj (Except.ok.inj hcollect)).2.symm, fun item q'' hq => ?_⟩
      simp only [leave, bind, Except.bind] at hq
      split at hq
      · cases hq
      · rename_i left hleft
        obtain ⟨_ | item', l''⟩ := left
        · cases hq
        · exact hleave _ _ hleft
    · dsimp only at hcollect
      split at hcollect <;> cases hcollect

theorem pop_none (hpop : q.pop = .ok (none, q')) : q' = q := by
  unfold pop at hpop
  split at hpop
  · exact (Prod.mk.inj (Except.ok.inj hpop)).2.symm
  · simp only [bind, Except.bind] at hpop
    split at hpop <;> cases hpop

theorem items_of_pop_none (hpop : q.pop = .ok (none, q')) : q.items = [] := by
  cases hitems : q.items with
  | nil => rfl
  | cons item items =>
      simp only [pop, hitems, bind, Except.bind] at hpop
      split at hpop <;> cases hpop

end Queue

namespace Call

variable {α β γ : Type} {scene scene' : Scene α} {deadline : Time} {patience : Patience}
  {place : Place} {sleeper : Sleeper} {removal removal' : Removal} {progress : Progress α}
  {item : α} {q : Queue α}

theorem exists_of_bind {call : Call α β} {next : β → Call α γ} {result : γ}
    (h : (call >>= next) scene = .ok result scene') :
    ∃ middle scene₁, call scene = .ok middle scene₁ ∧ next middle scene₁ = .ok result scene' := by
  cases hcall : call scene with
  | ok middle scene₁ => exact ⟨middle, scene₁, rfl, (bind_of_ok hcall next).symm.trans h⟩
  | error panic scene₁ =>
      rw [bind_of_error hcall] at h
      cases h

theorem exists_of_locked {operation : Queue α → Except Fault (β × Queue α)} {result : β}
    (h : locked operation scene = .ok result scene') :
    scene.queue.broken = false ∧
      ∃ queue, operation scene.queue = .ok (result, queue) ∧ scene' = { scene with queue } := by
  cases hbroken : scene.queue.broken with
  | true =>
      rw [locked_of_broken hbroken] at h
      cases h
  | false =>
      cases hoperation : operation scene.queue with
      | error fault =>
          rw [locked_of_error hbroken hoperation] at h
          cases h
      | ok result' =>
          rw [locked_of_ok hbroken hoperation] at h
          cases h
          exact ⟨rfl, _, rfl, rfl⟩

/-- A call that uses the queue breaks off there without a word, or goes on with what it was told. -/
theorem locked_bind {P : EStateM.Result Panic (Scene α) γ → Prop}
    {operation : Queue α → Except Fault (β × Queue α)} {next : β → Call α γ}
    (hbroken : ∀ panic (left : Scene α), (∀ event, panic ≠ .refused event) →
      left.queue.line = scene.queue.line → left.logged = scene.logged → P (.error panic left))
    (hnext : ∀ result queue, operation scene.queue = .ok (result, queue) →
      P (next result { scene with queue })) :
    P ((locked operation >>= next) scene) := by
  cases hintact : scene.queue.broken with
  | true =>
      rw [bind_of_error (locked_of_broken hintact)]
      exact hbroken _ _ nofun rfl rfl
  | false =>
      cases hoperation : operation scene.queue with
      | error fault =>
          rw [bind_of_error (locked_of_error hintact hoperation)]
          exact hbroken _ _ nofun rfl rfl
      | ok result =>
          rw [bind_of_ok (locked_of_ok hintact hoperation)]
          exact hnext result.1 result.2 hoperation

variable (hstill : scene.clock.jumps = []) (hlogged : scene.logged = [])

include hstill

theorem readClock_still :
    (readClock scene : EStateM.Result Panic (Scene α) Time) = .ok scene.clock.now scene := by
  rw [readClock_eq, Clock.read_snd_of_nil hstill]

theorem waitUntil_still (hnow : scene.clock.now < deadline) :
    waitUntil place deadline scene =
      .ok (.asleep { place, patience := .deadline deadline } (some (deadline - scene.clock.now)))
        scene := by
  rw [waitUntil_early (Time.not_le.mpr hnow), Clock.read_snd_of_nil hstill]

/-- A consumer at its deadline returns with what it leaves the line with. -/
theorem waitUntil_late (hnow : deadline ≤ scene.clock.now)
    (hwait : waitUntil place deadline scene = .ok progress scene') :
    ∃ item? q, scene.queue.leave place.slot = .ok (item?, q) ∧ progress = .returned item? := by
  rw [waitUntil, bind_of_ok (readClock_still hstill), if_pos hnow] at hwait
  obtain ⟨item?, left, hlocked, hreport⟩ := exists_of_bind hwait
  obtain ⟨-, q, hleave, -⟩ := exists_of_locked hlocked
  refine ⟨item?, q, hleave, ?_⟩
  cases item? with
  | some item =>
      cases hreport
      rfl
  | none =>
      have hlast : (report (.timedOut place.slot) >>= fun _ => pure (.returned none)) left =
          .ok progress scene' := hreport
      obtain ⟨-, reported, -, hpure⟩ := exists_of_bind hlast
      cases hpure
      rfl

/-- Whether it is given a deadline or a span, a call with a deadline is the same call. -/
theorem call_still (removal : Removal) :
    removal.call scene =
      match removal.deadline? scene.clock.now with
      | some deadline => takeUntil deadline scene
      | none => take scene := by
  cases removal with
  | take | takeUntil deadline => rfl
  | takeWithin span =>
      change takeWithin span scene = _
      rw [takeWithin_eq, Clock.read_snd_of_nil hstill]
      rfl

theorem call_item (hintact : scene.queue.broken = false)
    (hpop : scene.queue.pop = .ok (some item, q)) (removal : Removal) :
    removal.call scene = .ok (.returned (some item)) { scene with queue := q } := by
  rw [call_still hstill]
  split
  · exact takeUntil_item hintact hpop
  · exact take_item hintact hpop

theorem call_join (hintact : scene.queue.broken = false)
    (hpop : scene.queue.pop = .ok (none, scene.queue)) (hjoin : scene.queue.join = .ok (place, q))
    (hearly : ∀ later, removal.deadline? scene.clock.now = some later → scene.clock.now < later) :
    let patience := removal.patience scene.clock.now scene.queue.line.size
    removal.call scene =
      .ok (.asleep { place, patience } (patience.limit? scene.clock.now))
        { scene with queue := q } := by
  intro patience
  rw [call_still hstill]
  cases hdeadline : removal.deadline? scene.clock.now with
  | some later =>
      have hpatience : patience = .deadline later := by
        simp only [patience, Removal.patience, hdeadline]
      have hnow := hearly later hdeadline
      simp only [hpatience]
      rw [takeUntil_join hintact hpop (Time.not_le.mpr hnow) hjoin, Clock.read_snd_of_nil hstill]
      let joined : Scene α := { scene with queue := q }
      have hstill' : joined.clock.jumps = [] := hstill
      exact waitUntil_still hstill' hnow
  | none =>
      have hpatience : patience = .endless scene.queue.line.size := by
        simp only [patience, Removal.patience, hdeadline]
      simp only [hpatience]
      exact take_join hintact hpop hjoin

/-- How the first turn of a call with a deadline ends, unless it is in vain. -/
theorem takeUntil_cases (hcall : takeUntil deadline scene = .ok progress scene')
    (hkept : progress ≠ .returned none) :
    scene.queue.broken = false ∧ ∃ q, scene' = { scene with queue := q } ∧
      ((∃ item, scene.queue.pop = .ok (some item, q) ∧ progress = .returned (some item)) ∨
        ∃ place limit, scene.queue.pop = .ok (none, scene.queue) ∧
          scene.queue.join = .ok (place, q) ∧ scene.clock.now < deadline ∧
          progress = .asleep { place, patience := .deadline deadline } limit) := by
  obtain ⟨item?, popped, hpoll, hrest⟩ := exists_of_bind hcall
  obtain ⟨hintact, q, hpop, rfl⟩ := exists_of_locked hpoll
  refine ⟨hintact, ?_⟩
  cases item? with
  | some item =>
      cases hrest
      exact ⟨q, rfl, .inl ⟨item, hpop, rfl⟩⟩
  | none =>
      obtain rfl := Queue.pop_none hpop
      by_cases hnow : deadline ≤ scene.clock.now
      · rw [takeUntil_past hintact hpop hnow] at hcall
        cases hcall
        exact absurd rfl hkept
      · have hread : (readClock >>= fun now => if deadline ≤ now then pure (.returned none)
            else locked (·.join) >>= (waitUntil · deadline)) scene = .ok progress scene' := hrest
        rw [bind_of_ok (readClock_still hstill), if_neg hnow] at hread
        obtain ⟨place, joined, hlocked, hwait⟩ := exists_of_bind hread
        obtain ⟨-, q, hjoin, rfl⟩ := exists_of_locked hlocked
        have hlt : scene.clock.now < deadline := Time.not_le.mp hnow
        let joined : Scene α := { scene with queue := q }
        have hstill' : joined.clock.jumps = [] := hstill
        have hasleep : waitUntil place deadline joined = _ := waitUntil_still hstill' hlt
        obtain ⟨hprogress, hscene⟩ := EStateM.Result.ok.inj (hasleep.symm.trans hwait)
        exact ⟨q, hscene.symm, .inr ⟨place, _, hpop, hjoin, hlt, hprogress.symm⟩⟩

include hlogged

/-- Unless the first turn of a call with a deadline is in vain, a call that gives up later or never
goes the same way. -/
theorem call_outlasts (hdeadline : removal.deadline? scene.clock.now = some deadline)
    (hlonger : ∀ later, removal'.deadline? scene.clock.now = some later → deadline ≤ later)
    (hcall : removal.call scene = .ok progress scene') (hkept : progress ≠ .returned none) :
    let patience := removal'.patience scene.clock.now scene.queue.line.size
    (∀ sleeper ∈ progress.sleeper?, sleeper.patience = .deadline deadline) ∧
      removal'.call scene =
        .ok (progress.withPatience patience scene.clock.now) (scene'.withPatience patience) := by
  intro patience
  simp only [call_still hstill, hdeadline] at hcall
  obtain ⟨hintact, q, rfl, hcases⟩ := takeUntil_cases hstill hcall hkept
  have hsame : ({ scene with queue := q } : Scene α).withPatience patience =
      { scene with queue := q } := by
    simp only [Scene.withPatience, hlogged, List.map_nil]
  rw [hsame]
  obtain ⟨item, hpop, rfl⟩ | ⟨place, limit, hpop, hjoin, hnow, rfl⟩ := hcases
  · refine ⟨?_, call_item hstill hintact hpop removal'⟩
    rintro sleeper ⟨⟩
  · refine ⟨?_, call_join hstill hintact hpop hjoin fun later hlater => ?_⟩
    · rintro sleeper ⟨⟩
      rfl
    · have hpatience : removal'.patience scene.clock.now 0 = .deadline later := by
        simp only [Removal.patience, hlater]
      exact (Removal.patience_outlasts hlonger 0).lt hnow hpatience

/-- Unless a consumer with a deadline wakes up in vain, it is the same with one that gives up later
or never, but for what they report. -/
theorem resume_outlasts (hpatience : sleeper.patience = .deadline deadline)
    (houtlasts : patience.Outlasts deadline) (hcall : resume sleeper scene = .ok progress scene')
    (hkept : progress ≠ .returned none) :
    (∀ sleeper' ∈ progress.sleeper?, sleeper'.patience = .deadline deadline) ∧
      resume { sleeper with patience } scene =
        .ok (progress.withPatience patience scene.clock.now) (scene'.withPatience patience) := by
  obtain ⟨place, patience₀⟩ := sleeper
  obtain rfl : patience₀ = .deadline deadline := hpatience
  obtain ⟨item?, collected, hlocked, -⟩ := exists_of_bind hcall
  obtain ⟨hintact, q, hcollect, rfl⟩ := exists_of_locked hlocked
  cases item? with
  | some item =>
      have hserved : ∀ patience : Patience, resume { place, patience } scene = _ :=
        fun patience => resume_served hintact hcollect
      rw [hserved, conclude_eq] at hcall
      rw [hserved, conclude_eq]
      cases hrefusing : scene.refusing with
      | true =>
          simp only [hrefusing] at hcall
          cases hcall
      | false =>
          simp only [hrefusing] at hcall
          cases hcall
          refine ⟨?_, ?_⟩
          · rintro sleeper ⟨⟩
          · simp only [Scene.withPatience, Progress.withPatience, hlogged, List.nil_append,
              Option.toList_some, List.map_cons, List.map_nil, Event.withPatience_collection]
  | none =>
      obtain ⟨rfl, hleave⟩ := Queue.leave_of_collect_none hcollect
      have hwaiting : ∀ patience : Patience, resume { place, patience } scene = _ :=
        fun patience => resume_waiting hintact hcollect
      rw [hwaiting] at hcall
      by_cases hnow : deadline ≤ scene.clock.now
      · -- at its deadline it leaves, and so it was in vain
        obtain ⟨item?, q, hleft, rfl⟩ := waitUntil_late hstill hnow hcall
        cases item? with
        | some item => exact absurd hleft (hleave item q)
        | none => exact absurd rfl hkept
      · have hlt := Time.not_le.mp hnow
        cases (waitUntil_still hstill hlt).symm.trans hcall
        have hsame : scene.withPatience patience = scene := by
          simp only [Scene.withPatience, hlogged, List.map_nil]
          rw [← hlogged]
        refine ⟨?_, ?_⟩
        · rintro sleeper ⟨⟩
          rfl
        · rw [hwaiting, hsame]
          cases patience with
          | endless ahead => rfl
          | deadline later => exact waitUntil_still hstill (houtlasts.lt hlt rfl)

end Call

end FairQueue
