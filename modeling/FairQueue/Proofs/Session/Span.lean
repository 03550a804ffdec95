import FairQueue.Proofs.Call.Moment
import FairQueue.Proofs.Call.Patience
import FairQueue.Proofs.Session.Patience
import FairQueue.Proofs.Session.Deadline

/-!
A call with a span. It is the call whose deadline is the end of the span, if the clock can come that
far, and the call without a deadline if not.
-/

namespace FairQueue

open Call

variable {α : Type}

/-- The clock never goes back, whatever happens. -/
theorem Moment.lasting_now : Lasting fun m m' : Moment α => m.2 ≤ m'.2 where
  trans := Time.le_trans
  later _ _ _ hnow := hnow
  broken _ _ := Time.le_refl _
  put _ _ now := fun _ _ => Time.le_refl now
  pop _ now := fun _ _ => Time.le_refl now
  collect _ _ now := fun _ _ => Time.le_refl now
  leave _ _ now := fun _ _ => Time.le_refl now

/-- The call that gives up at the given time, if there is one. -/
def Removal.ofDeadline? : Option Time → Removal
  | some deadline => takeUntil deadline
  | none => take

/-- At its deadline a call polls, and reads the clock if it finds nothing. -/
theorem Call.takeUntil_at_once {scene : Scene α} {deadline : Time}
    (hnow : deadline ≤ scene.clock.now) :
    takeUntil deadline scene =
      (Progress.returned <$> poll) { scene with
        clock := if !scene.queue.broken && scene.queue.items.isEmpty then scene.clock.read.2
          else scene.clock } := by
  by_cases hnothing : scene.queue.broken = false ∧ scene.queue.items = []
  · obtain ⟨hintact, hitems⟩ := hnothing
    let late : Scene α := { scene with clock := scene.clock.read.2 }
    have hlate : late.queue.broken = false := hintact
    have hpop : late.queue.pop = .ok (none, late.queue) := Seated.pop_nothing hitems
    rw [takeUntil_past hintact hpop hnow, if_pos (by simp [hintact, hitems])]
    exact (map_of_ok (poll_of_ok hlate hpop) _).symm
  · rw [if_neg (by simpa using hnothing)]
    cases hpoll : poll scene with
    | error panic scene' =>
        rw [takeUntil, bind_of_error hpoll]
        simp only [Functor.map, EStateM.map, hpoll]
    | ok item? scene' =>
        cases item? with
        | none =>
            obtain ⟨hintact, q, hpop, -⟩ := exists_of_locked hpoll
            exact absurd ⟨hintact, Queue.items_of_pop_none hpop⟩ hnothing
        | some item =>
            rw [takeUntil, bind_of_ok hpoll, map_of_ok hpoll]
            rfl

namespace Entry

/-- The consumer that takes this step comes back empty-handed, or breaks off when it has to report
so. -/
def GivesUp (e : Entry α) : Prop :=
  e.reply = .delivered none ∨ ∃ slot, e.event? = some (.timedOut slot)

/-- What may be seen of a turn that a consumer with this patience takes at `now` or later: the limit
of its sleep is the time that is left, and without a deadline it does not give up. -/
structure Befits (e : Entry α) (patience : Patience) (now : Time) : Prop where
  limit : ∀ limit ∈ e.limit?, ∃ later, now ≤ later ∧ patience.limit? later = some limit
  givesUp : e.GivesUp → ∃ deadline, patience = .deadline deadline

theorem Befits.of_le {e : Entry α} {patience : Patience} {now now' : Time}
    (h : e.Befits patience now') (hnow : now ≤ now') : e.Befits patience now where
  limit limit hlimit := by
    obtain ⟨later, hlater, hleft⟩ := h.limit limit hlimit
    exact ⟨later, Time.le_trans hnow hlater, hleft⟩
  givesUp := h.givesUp

theorem befits_of_silent {e : Entry α} (hlimit : e.limit? = none) (hkept : ¬ e.GivesUp)
    (patience : Patience) (now : Time) : e.Befits patience now where
  limit limit hmem := by
    rw [hlimit] at hmem
    cases hmem
  givesUp h := absurd h hkept

end Entry

namespace Session

variable {s s₁ : Session α} {c : Consumer} {patience : Patience} {now : Time} {step : Step α}
  {span : Time} {refusing : Bool} {jumps : List Time}

theorem now_le_step (hstep : (s.step step).1 = some s₁) : s.now ≤ s₁.now :=
  Moment.lasting_now.of_step (fun _ _ _ _ now _ _ => Time.le_refl now) hstep

/-- If `c` is asleep, then with this patience, and it is `now` or later. -/
structure Abides (s : Session α) (c : Consumer) (patience : Patience) (now : Time) : Prop where
  patience : ∀ sleeper ∈ s.sleeper? c, sleeper.patience = patience
  now_le : now ≤ s.now

/-- A turn comes to its end, or it breaks off when it has to report its event. -/
theorem consume_of_conclude {call : Call α (Progress α)} {event : Option Event} {freight : List α}
    {progress : Progress α} {scene : Scene α}
    (hcall : call (s.scene step) = conclude event freight progress scene) :
    (∃ t : Session α, s.consume step c call =
        (t.heard c progress,
          s.entry { scene with logged := scene.logged ++ event.toList } progress.reply)) ∨
      ∃ (t : Session α) (reported : Event) (scene' : Scene α), event = some reported ∧
        s.consume step c call =
          (t.heard c (.returned none), s.entry scene' (.panicked (.refused reported))) := by
  rw [conclude_eq] at hcall
  cases event with
  | none => exact .inl ⟨_, consume_of_ok hcall⟩
  | some reported =>
      cases hrefusing : scene.refusing with
      | false =>
          rw [hrefusing] at hcall
          exact .inl ⟨_, consume_of_ok hcall⟩
      | true =>
          rw [hrefusing] at hcall
          exact .inr ⟨_, reported, _, rfl, consume_of_error hcall⟩

/-- What is seen of a turn that ends in a way its patience allows, and how the consumer sleeps then.
-/
theorem befits_consume {call : Call α (Progress α)}
    (h : patience.Allows s.now (call (s.scene step))) :
    (∀ sleeper ∈ (s.consume step c call).1.sleeper? c, sleeper.patience = patience) ∧
      (s.consume step c call).2.Befits patience s.now := by
  generalize hend : call (s.scene step) = result at h
  have hawake : ∀ t : Session α, ∀ sleeper ∈ (t.heard c (.returned none)).sleeper? c,
      sleeper.patience = patience := by
    intro t sleeper hsleeper
    rw [sleeper?_heard] at hsleeper
    cases hsleeper
  cases h with
  | @broken panic scene hpanic hlogged =>
      rw [consume_of_error hend]
      refine ⟨hawake _, Entry.befits_of_silent rfl ?_ patience s.now⟩
      rintro (hreply | ⟨slot, hevent⟩)
      · cases hreply
      · cases panic with
        | refused event => exact hpanic event rfl
        | _ => simp [entry, hlogged, Entry.event?] at hevent
  | asleep hlater hlogged =>
      rw [consume_of_ok hend]
      refine ⟨?_, fun limit hlimit => ⟨_, hlater, hlimit⟩, ?_⟩
      · intro sleeper hsleeper
        rw [sleeper?_heard] at hsleeper
        cases hsleeper
        rfl
      · rintro (hreply | ⟨slot, hevent⟩)
        · cases hreply
        · simp [entry, hlogged, Entry.event?, Progress.reply] at hevent
  | @item event item scene hcollection hlogged =>
      obtain ⟨t, hconsume⟩ | ⟨t, reported, scene', rfl, hconsume⟩ := consume_of_conclude hend
      all_goals
        rw [hconsume]
        refine ⟨hawake _, Entry.befits_of_silent rfl ?_ patience s.now⟩
        rintro (hreply | ⟨slot, hevent⟩)
        · cases hreply
      · have hlast : event = some (.timedOut slot) := by
          simpa [entry, hlogged, Entry.event?, Progress.reply] using hevent
        obtain ⟨slot', hreported⟩ := hcollection _ hlast
        cases patience <;> cases hreported
      · cases hevent
        obtain ⟨slot', hreported⟩ := hcollection _ rfl
        cases patience <;> cases hreported
  | vain hpatience =>
      obtain ⟨t, hconsume⟩ | ⟨t, reported, scene', rfl, hconsume⟩ := consume_of_conclude hend
      all_goals
        rw [hconsume]
        refine ⟨hawake _, ?_, fun _ => ⟨_, hpatience⟩⟩
        rintro limit ⟨⟩

/-- Whatever step is taken, `c` abides by its patience until it starts another call. -/
theorem Abides.befits_step (h : s.Abides c patience now) (hstart : step.action.starts c = false) :
    (step.action.runs c = true → (s.step step).2.Befits patience now) ∧
      ∀ s₁, (s.step step).1 = some s₁ → s₁.Abides c patience now := by
  have hnow : ∀ s₁, (s.step step).1 = some s₁ → now ≤ s₁.now :=
    fun s₁ hstep => Time.le_trans h.now_le (now_le_step hstep)
  cases hruns : step.action.runs c with
  | false =>
      refine ⟨by rintro ⟨⟩, fun s₁ hstep => ⟨?_, hnow s₁ hstep⟩⟩
      rw [sleeper?_step hruns hstep]
      exact h.patience
  | true =>
      obtain ⟨action, refusing, jumps⟩ := step
      cases action with
      | wake d =>
          obtain rfl : d = c := of_decide_eq_true hruns
          cases hd : s.sleeper? d with
          | none =>
              have hidle : s.step ⟨.wake d, refusing, jumps⟩ =
                  stillOpen (s.answer (.rejected .idle)) := by
                simp only [Session.step, hd]
              rw [hidle]
              refine ⟨fun _ => Entry.befits_of_silent rfl ?_ patience now, ?_⟩
              · rintro (hreply | ⟨slot, hevent⟩) <;> contradiction
              · rintro s₁ ⟨⟩
                exact h
          | some sleeper =>
              obtain rfl := h.patience sleeper hd
              have hallows := Patience.allows_resume
                (show (s.scene ⟨.wake d, refusing, jumps⟩).logged = [] from rfl) sleeper
              obtain ⟨hkept, hbefits⟩ := befits_consume (c := d) hallows
              rw [step_wake hd] at hnow ⊢
              refine ⟨fun _ => hbefits.of_le h.now_le, ?_⟩
              rintro s₁ ⟨⟩
              exact ⟨hkept, hnow _ rfl⟩
      | start d removal => cases hstart.symm.trans hruns
      | _ => cases hruns

theorem Abides.befits_run {s? : Option (Session α)} {steps : List (Step α)}
    (h : ∀ s ∈ s?, s.Abides c patience now)
    (hstart : ∀ step ∈ steps, step.action.starts c = false) :
    ∀ p ∈ steps.zip (run s? steps).2, p.1.action.runs c = true → p.2.Befits patience now := by
  induction steps generalizing s? with
  | nil =>
      intro p hp
      cases hp
  | cons step steps ih =>
      obtain ⟨hfirst, hrest⟩ := List.forall_mem_cons.mp hstart
      change ∀ p ∈ (step, (step? s? step).2) :: steps.zip (run (step? s? step).1 steps).2, _
      rw [List.forall_mem_cons]
      cases s? with
      | none =>
          refine ⟨fun _ => Entry.befits_of_silent rfl ?_ patience now, ih ?_ hrest⟩
          · rintro (hreply | ⟨slot, hevent⟩) <;> contradiction
          · rintro s ⟨⟩
      | some s =>
          obtain ⟨hshown, hkept⟩ := (h s rfl).befits_step hfirst
          exact ⟨hshown, ih hkept hrest⟩

/-- What is seen of a call to its end, whatever session it starts in. -/
theorem befits_of_start (hc : s.sleeper? c = none) (removal : Removal) (refusing : Bool)
    (jumps : List Time) {later : List (Step α)}
    (hstart : ∀ step ∈ later, step.action.starts c = false) :
    ∀ p ∈ (⟨.start c removal, refusing, jumps⟩ :: later).zip
        (run (some s) (⟨.start c removal, refusing, jumps⟩ :: later)).2,
      p.1.action.runs c = true → p.2.Befits (removal.patience s.now s.queue.line.size) s.now := by
  let first : Step α := ⟨.start c removal, refusing, jumps⟩
  have hallows := Patience.allows_call (show (s.scene first).logged = [] from rfl) removal
  obtain ⟨hkept, hbefits⟩ := befits_consume (c := c) hallows
  have hnow : s.now ≤ (s.consume first c removal.call).1.now :=
    now_le_step (congrArg Prod.fst (step_start hc removal refusing jumps))
  rw [run_cons (congrArg Prod.fst (step_start hc removal refusing jumps)), List.zip_cons_cons,
    List.forall_mem_cons, step_start hc]
  refine ⟨fun _ => hbefits, Abides.befits_run ?_ hstart⟩
  rintro s₁ ⟨⟩
  exact ⟨hkept, hnow⟩

/-- A call with a deadline sleeps for the time that is left, and one without has no limit. -/
theorem exists_of_mem_limits (hc : s.sleeper? c = none) {removal : Removal}
    {later : List (Step α)} (hstart : ∀ step ∈ later, step.action.starts c = false) {limit : Time}
    (hmem : limit ∈ s.limits c (⟨.start c removal, refusing, jumps⟩ :: later)) :
    ∃ deadline now, removal.deadline? s.now = some deadline ∧ s.now ≤ now ∧
      limit = deadline - now := by
  obtain ⟨p, hp, hshown⟩ := List.mem_filterMap.mp hmem
  split at hshown
  · rename_i hruns
    have hbefits := befits_of_start hc removal refusing jumps hstart p hp hruns
    obtain ⟨now, hnow, hleft⟩ := hbefits.limit limit hshown
    unfold Removal.patience at hleft
    split at hleft
    · rename_i deadline hdeadline
      exact ⟨deadline, now, hdeadline, hnow, (Option.some.inj hleft).symm⟩
    · cases hleft
  · cases hshown

theorem consume_congr {call call' : Call α (Progress α)} {step' : Step α}
    (hcall : call (s.scene step) = call' ({ s with now }.scene step')) :
    s.consume step c call = { s with now }.consume step' c call' := by
  rw [consume, consume, hcall]
  rfl

/-- A call with a span reads the clock and then goes on as another call. -/
theorem step_takeWithin (hc : s.sleeper? c = none) (span : Time) (refusing : Bool)
    (jumps : List Time) :
    let reading := (Clock.mk s.now jumps).read.2
    s.step ⟨.start c (.takeWithin span), refusing, jumps⟩ =
      { s with now := reading.now }.step
        ⟨.start c (.ofDeadline? (s.now.plus? span)), refusing, reading.jumps⟩ := by
  intro reading
  let begun : Session α := { s with now := reading.now }
  have hc' : begun.sleeper? c = none := hc
  rw [step_start hc, step_start hc']
  refine congrArg stillOpen (consume_congr ((takeWithin_eq span).trans ?_))
  change (match s.now.plus? span with | some _ => _ | none => _) = _
  cases s.now.plus? span <;> rfl

theorem run_takeWithin_eq (hc : s.sleeper? c = none) (later : List (Step α)) :
    let reading := (Clock.mk s.now jumps).read.2
    let begun : Session α := { s with now := reading.now }
    run (some s) (⟨.start c (.takeWithin span), refusing, jumps⟩ :: later) =
      run (some begun)
        (⟨.start c (.ofDeadline? (s.now.plus? span)), refusing, reading.jumps⟩ :: later) := by
  intro reading begun
  have hfirst := step_takeWithin hc span refusing jumps
  simp only [run, step?, hfirst]
  rfl

/-- A call that need not sleep is a removal as any other. -/
theorem consume_returned {call : Call α (Progress α)} {call' : Call α (Option α)} {step' : Step α}
    (hc : s.sleeper? c = none)
    (hcall : call (s.scene step) = (Progress.returned <$> call') ({ s with now }.scene step')) :
    s.consume step c call = { s with now }.make step' (.delivered <$> call') := by
  have hsame : s.sleepers.filter (fun sleeper => sleeper.1 ≠ c) = s.sleepers :=
    filter_ne_eq_self (sleeper?_eq_none_iff.mp hc)
  have hawake : ∀ (queue : Queue α) (now : Time),
      { s with queue, now }.withoutSleeper c = { s with queue, now } := by
    intro queue now
    simp only [withoutSleeper, hsame]
  rw [consume, make, hcall]
  simp only [Functor.map, EStateM.map]
  cases call' ({ s with now }.scene step') with
  | ok item scene => exact Prod.ext (hawake _ _) rfl
  | error panic scene => exact Prod.ext (hawake _ _) rfl

/-- A call with a span of nothing polls, and reads the clock once more if it finds nothing. -/
theorem step_takeWithin_zero (hc : s.sleeper? c = none) (hspan : span.toNanos = 0)
    (hnow : s.now.secs ≤ Time.maxSecs) (refusing : Bool) (jumps : List Time) :
    let reading := (Clock.mk s.now jumps).read.2
    let clock := if !s.queue.broken && s.queue.items.isEmpty then reading.read.2 else reading
    s.step ⟨.start c (.takeWithin span), refusing, jumps⟩ =
      { s with now := clock.now }.step ⟨.poll, refusing, clock.jumps⟩ := by
  intro reading clock
  have hend : s.now + span = s.now := by
    refine Time.toNanos_injective ?_
    rw [Time.toNanos_add, hspan, Nat.add_zero]
  have hplus : s.now.plus? span = some s.now := by
    rw [Time.plus?, hend, if_pos hnow]
  rw [step_start hc]
  refine congrArg stillOpen (consume_returned hc ((takeWithin_eq span).trans ?_))
  change (match s.now.plus? span with | some _ => _ | none => _) = _
  rw [hplus]
  exact takeUntil_at_once (Clock.now_le_read { now := s.now, jumps })

/-- A call with a span, in any session. Where the end of the span can be represented, the call goes
its whole way as a call with that deadline that starts after one reading of the clock. Where it
cannot, the call goes its whole way as one without a deadline, and however far the clock moves on,
it never gives up. With a span of nothing it does what a poll does, except that it reads the clock.
Whenever it sleeps, it sleeps no longer than its span. -/
theorem run_takeWithin (hc : s.sleeper? c = none) (span : Time) (refusing : Bool)
    (jumps : List Time) :
    let first : Step α := ⟨.start c (.takeWithin span), refusing, jumps⟩
    let reading := (Clock.mk s.now jumps).read.2
    let begun : Session α := { s with now := reading.now }
    let sum := s.now.toNanos + span.toNanos
    (sum / 1000000000 ≤ Time.maxSecs → ∃ deadline : Time, deadline.toNanos = sum ∧ ∀ later,
        run (some s) (first :: later) =
          run (some begun) (⟨.start c (.takeUntil deadline), refusing, reading.jumps⟩ :: later)) ∧
      (Time.maxSecs < sum / 1000000000 → ∀ later,
        run (some s) (first :: later) =
            run (some begun) (⟨.start c .take, refusing, reading.jumps⟩ :: later) ∧
          ((∀ step ∈ later, step.action.starts c = false) →
            s.limits c (first :: later) = [] ∧
              ∀ p ∈ (first :: later).zip (run (some s) (first :: later)).2,
                p.1.action.runs c = true → ¬ p.2.GivesUp)) ∧
      (span.toNanos = 0 → s.now.secs ≤ Time.maxSecs →
        let clock := if !s.queue.broken && s.queue.items.isEmpty then reading.read.2 else reading
        s.step first = { s with now := clock.now }.step ⟨.poll, refusing, clock.jumps⟩) ∧
      ∀ later, (∀ step ∈ later, step.action.starts c = false) →
        ∀ limit ∈ s.limits c (first :: later), limit ≤ span := by
  intro first reading begun sum
  have hend := Time.plus?_eq s.now span
  have hpast : Time.maxSecs < sum / 1000000000 → s.now.plus? span = none :=
    fun hpast => hend.trans (if_neg (Nat.not_le.mpr hpast))
  refine ⟨fun hfits => ⟨s.now + span, Time.toNanos_add _ _, fun later => ?_⟩,
    fun hsum later => ⟨?_, fun hstart => ⟨?_, ?_⟩⟩, ?_, ?_⟩
  · rw [run_takeWithin_eq hc later, hend, if_pos hfits]
    rfl
  · rw [run_takeWithin_eq hc later, hpast hsum]
    rfl
  · refine List.eq_nil_iff_forall_not_mem.mpr fun limit hmem => ?_
    obtain ⟨deadline, now, hplus, -⟩ := exists_of_mem_limits hc hstart hmem
    cases hplus.symm.trans (hpast hsum)
  · intro p hp hruns hgivesUp
    obtain ⟨deadline, hpatience⟩ := (befits_of_start hc _ _ _ hstart p hp hruns).givesUp hgivesUp
    simp only [Removal.patience, Removal.deadline?, hpast hsum] at hpatience
    cases hpatience
  · intro hspan hnow
    exact step_takeWithin_zero hc hspan hnow refusing jumps
  · intro later hstart limit hmem
    obtain ⟨deadline, now, hplus, hnow, rfl⟩ := exists_of_mem_limits hc hstart hmem
    exact Time.sub_le_of_plus? hplus hnow

/-- A nanosecond before the last second of the clock a call may still wait for a nanosecond. A
second later it would wait for ever. -/
theorem run_takeWithin_carry :
    let span : Time := { secs := 0, nanos := 1 }
    let early : Session Nat := ((ofQueue Queue.empty).act
      (.advance { secs := Time.maxSecs - 1, nanos := 999999999 }) []).1
    let late : Session Nat := (early.act (.advance { secs := 1, nanos := 0 }) []).1
    let first : Step Nat := ⟨.start 1 (.takeWithin span), false, []⟩
    (∃ deadline : Time, deadline.toNanos = Time.maxSecs * 1000000000 ∧ ∀ later,
        run (some early) (first :: later) =
          run (some early) (⟨.start 1 (.takeUntil deadline), false, []⟩ :: later)) ∧
      (∀ later, run (some late) (first :: later) =
        run (some late) (⟨.start 1 .take, false, []⟩ :: later)) ∧
      late.step ⟨.start 1 (.takeWithin Time.zero), false, []⟩ = late.step ⟨.poll, false, []⟩ := by
  intro span early late first
  obtain ⟨hearly, -⟩ := run_takeWithin (show early.sleeper? 1 = none from rfl) span false []
  obtain ⟨deadline, hdeadline, hrun⟩ := hearly (by decide)
  obtain ⟨-, hlate, -⟩ := run_takeWithin (show late.sleeper? 1 = none from rfl) span false []
  obtain ⟨-, -, hzero, -⟩ :=
    run_takeWithin (show late.sleeper? 1 = none from rfl) Time.zero false []
  refine ⟨⟨deadline, hdeadline.trans (by decide), hrun⟩, fun later => ?_, ?_⟩
  · exact (hlate (by decide) later).1
  · exact hzero rfl (by decide)

end Session

end FairQueue
