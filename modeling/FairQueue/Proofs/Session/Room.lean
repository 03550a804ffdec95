import FairQueue.Proofs.Call.Room
import FairQueue.Proofs.Handoff.Safety
import FairQueue.Proofs.History.Incident

/-!
Sessions where memory has an end. As long as there is room for what is brought in, such a session is
the session where memory has none: no internal rule is found broken and the lock stays intact. The
first step that there is no room for breaks off under the lock, and nothing happens to the queue
after that.
-/

namespace FairQueue

open Call

theorem Removal.halts {α : Type} (removal : Removal) :
    Halts (removal.call : Call α (Progress α)) := by
  cases removal with
  | take => exact halts_take
  | takeWithin span => exact halts_takeWithin span
  | takeUntil deadline => exact halts_takeUntil deadline

theorem Action.offered_length_le {α : Type} (action : Action α) :
    action.offered.length ≤ action.cargo.length := by
  cases action with
  | putAll source =>
      simp only [offered, cargo]
      split <;> simp
  | _ => exact Nat.le_refl _

namespace Session

variable {α : Type} {s s' : Session α} {h : Handoff α} {step : Step α} {steps : List (Step α)}
  {itemSize : Nat} {c : Consumer}

/-- Whether there is room for the items that the step brings along in a buffer of their own, and in
the queue for all that are stored then. A buffer that is full grows to twice its size, so there is
to be room for twice as much. -/
def hasRoomFor (itemSize : Nat) (s : Session α) (step : Step α) : Bool :=
  Queue.fits (2 * itemSize) step.action.cargo.length &&
    (step.action.offered.isEmpty ||
      Queue.fits (2 * itemSize) (s.queue.needed step.action.offered.length))

/-- Whether the step brings in more items than a queue can hold. -/
def overfills (itemSize : Nat) (s : Session α) (step : Step α) : Bool :=
  !step.action.offered.isEmpty && !Queue.fits itemSize (s.queue.needed step.action.offered.length)

/-- Whether there is room for what each step brings in when its turn comes. -/
def hasRoom (itemSize : Nat) (s : Session α) : List (Step α) → Bool
  | [] => true
  | step :: steps =>
    s.hasRoomFor itemSize step &&
      match (s.step step).1 with
      | some s' => s'.hasRoom itemSize steps
      | none => true

theorem make_congr {call call' : Call α Unit} (hcall : call (s.scene step) = call' (s.scene step)) :
    s.make step (do call; return .done) = s.make step (do call'; return .done) := by
  have hboth : (do call; return .done : Call α (Reply α)) (s.scene step) =
      (do call'; return .done : Call α (Reply α)) (s.scene step) := by
    simp only [bind, EStateM.bind, hcall]
  rw [make, make, hboth]

theorem reserve_of_hasRoomFor (hoffered : step.action.offered ≠ [])
    (hroom : s.hasRoomFor itemSize step = true) :
    s.queue.reserve itemSize step.action.offered.length = .ok () := by
  obtain ⟨-, hstored⟩ := Bool.and_eq_true_iff.mp hroom
  refine if_pos (Queue.fits_of_twice ?_)
  simpa [hoffered] using hstored

/-- With room for what it brings in, a step comes to the same as where memory has no end. -/
theorem Represents.stepSized_eq (hrepresents : s.Represents h)
    (hroom : s.hasRoomFor itemSize step = true) : s.stepSized itemSize step = s.step step := by
  obtain ⟨r, served, waiting, hseated, -, -⟩ := hrepresents
  have hintact : (s.scene step).queue.broken = false := hseated.intact
  unfold stepSized Session.step
  cases haction : step.action with
  | put item =>
      have hreserve := reserve_of_hasRoomFor (by simp [haction, Action.offered, Action.cargo]) hroom
      rw [haction] at hreserve
      obtain ⟨place, q, hput⟩ := hseated.exists_put_ok item
      exact congrArg stillOpen (make_congr (putSized_eq hintact hreserve hput))
  | putAll source =>
      refine congrArg stillOpen (make_congr ?_)
      by_cases hnothing : source.failure? = none → source.items = []
      · exact putAllSized_eq_of_nothing hnothing
      · obtain ⟨hfailure, hitems⟩ : source.failure? = none ∧ source.items ≠ [] := by
          simpa using hnothing
        have hoffered : step.action.offered = source.items := by
          simp [haction, Action.offered, hfailure]
        have hreserve := reserve_of_hasRoomFor (by rwa [hoffered]) hroom
        rw [hoffered] at hreserve
        obtain ⟨line, r', hput, -⟩ := hseated.exists_putAll source.items
        exact putAllSized_eq hintact hfailure hreserve hput
  | _ => rfl

theorem hasRoom_cons (hroom : s.hasRoom itemSize (step :: steps) = true) :
    s.hasRoomFor itemSize step = true ∧
      ∀ s', (s.step step).1 = some s' → s'.hasRoom itemSize steps = true := by
  simp only [hasRoom, Bool.and_eq_true] at hroom
  refine ⟨hroom.1, fun s' hstep => ?_⟩
  simpa only [hstep] using hroom.2

theorem runSized_none (itemSize : Nat) (steps : List (Step α)) :
    runSized itemSize (none : Option (Session α)) steps = run none steps := by
  induction steps with
  | nil => rfl
  | cons step steps ih => simp only [runSized, run, stepSized?, step?, ih]

theorem runSized_cons (hstep : (s.stepSized itemSize step).1 = some s') (steps : List (Step α)) :
    runSized itemSize (some s) (step :: steps) =
      ((runSized itemSize (some s') steps).1,
        (s.stepSized itemSize step).2 :: (runSized itemSize (some s') steps).2) := by
  simp only [runSized, stepSized?, hstep]

theorem Represents.runSized_eq (hrepresents : s.Represents h)
    (hcount : Handoff.CountFits (some h) steps) (hroom : s.hasRoom itemSize steps = true) :
    runSized itemSize (some s) steps = run (some s) steps := by
  induction steps generalizing s h with
  | nil => rfl
  | cons step steps ih =>
      obtain ⟨hfirst, hrest⟩ := hasRoom_cons hroom
      have hstep : stepSized? itemSize (some s) step = s.step step :=
        hrepresents.stepSized_eq hfirst
      simp only [runSized, run, step?, hstep]
      cases hnext : (s.step step).1 with
      | none => rw [runSized_none]
      | some s' =>
          obtain ⟨h', -, hrepresents', hcount'⟩ := hrepresents.exists_of_step hcount hnext
          rw [ih hrepresents' hcount' (hrest s' hnext)]

theorem overfills_iff :
    s.overfills itemSize step = true ↔
      step.action.offered ≠ [] ∧
        Queue.fits itemSize (s.queue.needed step.action.offered.length) = false := by
  simp [overfills]

theorem make_of_noRoom {call : Call α (Reply α)} {items : List α}
    (hcall : call (s.scene step) =
      .error (.fault .noRoom)
        { s.scene step with queue := { s.queue with broken := true }, destroyed := items }) :
    s.make step call =
      ({ s with queue := { s.queue with broken := true } },
        { reply := .panicked (.fault .noRoom)
          notified := []
          logged := []
          destroyed := items
          stats := some s.queue.stats }) := by
  rw [make, hcall]
  rfl

/-- A step that brings in too much leaves the lock broken and nothing else behind. -/
theorem Represents.stepSized_of_overfills (hrepresents : s.Represents h)
    (hfull : s.overfills itemSize step = true) :
    s.stepSized itemSize step =
      stillOpen ({ s with queue := { s.queue with broken := true } },
        { reply := .panicked (.fault .noRoom)
          notified := []
          logged := []
          destroyed := step.action.offered
          stats := some s.queue.stats }) := by
  obtain ⟨r, served, waiting, hseated, -, -⟩ := hrepresents
  have hintact : (s.scene step).queue.broken = false := hseated.intact
  obtain ⟨hoffered, hlarge⟩ := overfills_iff.mp hfull
  have hreserve : s.queue.reserve itemSize step.action.offered.length = .error .noRoom :=
    if_neg (Bool.eq_false_iff.mp hlarge)
  unfold stepSized
  cases haction : step.action with
  | put item =>
      rw [haction] at hreserve
      have hput : putSized itemSize item (s.scene step) = _ := putSized_of_noRoom hintact hreserve
      exact congrArg stillOpen (make_of_noRoom (bind_of_error hput _))
  | putAll source =>
      have hfailure : source.failure? = none := by
        by_contra hfailure
        simp [haction, Action.offered, hfailure] at hoffered
      have hsame : (Action.putAll source).offered = source.items := by
        simp [Action.offered, hfailure]
      rw [haction, hsame] at hoffered hreserve
      have hput := putAllSized_of_noRoom hintact hfailure hoffered hreserve
      rw [hsame]
      exact congrArg stillOpen (make_of_noRoom (bind_of_error hput _))
  | _ => exact absurd (by rw [haction]; rfl) hoffered

/-- A step that fits a buffer of its own brings in too much only where items are stored, so that
nobody waits. -/
theorem Represents.isEmpty_of_overfills (hrepresents : s.Represents h)
    (hcargo : Queue.fits itemSize step.action.cargo.length = true)
    (hfull : s.overfills itemSize step = true) : s.queue.line.isEmpty = true := by
  obtain ⟨r, served, waiting, hseated, -, -⟩ := hrepresents
  rcases hseated.idle with hitems | rfl
  · obtain ⟨-, hlarge⟩ := overfills_iff.mp hfull
    have hoffered := Nat.le_trans (Nat.sub_le _ s.queue.line.size) step.action.offered_length_le
    have hless := Queue.fits_of_le hcargo hoffered
    rw [Queue.needed, hitems, List.length_nil, Nat.zero_add, hless] at hlarge
    cases hlarge
  · exact hseated.isEmpty_eq

/-- Whether the step gets as far as the lock. -/
def locks (s : Session α) (step : Step α) : Bool :=
  match step.action with
  | .put _ | .poll | .query _ => true
  | .putAll source => source.failure?.isNone && !source.items.isEmpty
  | .drain max => max != some 0
  | .next name => s.iterators.contains name
  | .start c _ => (s.sleeper? c).isNone
  | .wake c => (s.sleeper? c).isSome
  | .openIterator _ | .advance _ | .close => false

/-- The queue stays as it is, and whoever needs its lock is told that it is broken. -/
structure Stuck (s : Session α) (step : Step α) (next : Option (Session α) × Entry α) : Prop where
  queue : ∀ s', next.1 = some s' → s'.queue = s.queue
  told : s.locks step = true → next.2.reply = .panicked .lockBroken
  reply : ∀ panic, next.2.reply = .panicked panic → panic = .lockBroken ∨ panic.Foreign step

section Stuck

variable {next : Session α × Entry α}

theorem Stuck.of_told (hsame : next.1.queue = s.queue)
    (hreply : next.2.reply = .panicked .lockBroken) : s.Stuck step (stillOpen next) where
  queue _ hs' := Option.some.inj hs' ▸ hsame
  told _ := hreply
  reply _ hpanic := .inl (Reply.panicked.inj (hpanic.symm.trans hreply))

theorem Stuck.of_free (hsame : next.1.queue = s.queue) (hfree : s.locks step = false)
    (hreply : ∀ panic, next.2.reply = .panicked panic → panic.Foreign step) :
    s.Stuck step (stillOpen next) where
  queue _ hs' := Option.some.inj hs' ▸ hsame
  told hlocks := absurd hlocks (Bool.eq_false_iff.mp hfree)
  reply panic hpanic := .inr (hreply panic hpanic)

theorem stuck_answer {reply : Reply α} (hsame : s'.queue = s.queue) (hfree : s.locks step = false)
    (hreply : ∀ panic, reply ≠ .panicked panic) : s.Stuck step (stillOpen (s'.answer reply)) :=
  .of_free hsame hfree fun panic hpanic => absurd hpanic (hreply panic)

theorem stuck_close (haction : step.action = .close) (hnobody : s.queue.line.isEmpty = true) :
    s.Stuck step ((none : Option (Session α)), s.close step) := by
  refine ⟨fun s' hs' => (Option.some_ne_none s' hs'.symm).elim, fun hlocks => ?_,
    fun panic hreply => .inr ?_⟩
  · simp [locks, haction] at hlocks
  · cases hrefusing : step.refusing with
    | true =>
        rw [close, close_refused hnobody hrefusing] at hreply
        obtain rfl := Reply.panicked.inj hreply
        exact hrefusing
    | false =>
        rw [close, close_reported hnobody hrefusing] at hreply
        cases hreply

end Stuck

section Broken

variable (hbroken : s.queue.broken = true)

include hbroken

theorem stuck_make {call : Call α (Reply α)} (hhalts : Halts call) :
    s.Stuck step (stillOpen (s.make step call)) := by
  obtain ⟨left, hcall, hleft⟩ := hhalts (s.scene step) hbroken
  rw [make, hcall]
  exact .of_told hleft rfl

theorem stuck_consume {call : Call α (Progress α)} (hhalts : Halts call) :
    s.Stuck step (stillOpen (s.consume step c call)) := by
  obtain ⟨left, hcall, hleft⟩ := hhalts (s.scene step) hbroken
  rw [consume, hcall]
  exact .of_told hleft rfl

theorem stuck_putAll {source : Source α} (haction : step.action = .putAll source) :
    s.Stuck step (stillOpen (s.make step (do putAllSized itemSize source; return .done))) := by
  cases hfailure : source.failure? with
  | some request =>
      have hput : putAllSized itemSize source (s.scene step) = _ := putAllSized_of_failure hfailure
      rw [make, bind_of_error hput]
      refine .of_free rfl (by simp [locks, haction, hfailure]) fun panic hreply => ?_
      obtain rfl := Reply.panicked.inj hreply
      exact ⟨source, haction, hfailure⟩
  | none =>
      by_cases hitems : source.items = []
      · have hput : putAllSized itemSize source (s.scene step) = .ok () (s.scene step) := by
          rw [putAllSized_eq_of_nothing fun _ => hitems, putAll_of_nil hfailure hitems]
        rw [make, bind_of_ok hput]
        exact stuck_answer rfl (by simp [locks, haction, hitems]) (by simp)
      · have hlocked : (s.scene step).queue.broken = true := hbroken
        obtain ⟨left, hput, hleft⟩ := putAllSized_of_broken itemSize hlocked hfailure hitems
        rw [make, bind_of_error hput]
        exact .of_told hleft rfl

theorem stuck_stepSized (hnobody : s.queue.line.isEmpty = true) (itemSize : Nat) (step : Step α) :
    s.Stuck step (s.stepSized itemSize step) := by
  unfold stepSized Session.step
  cases haction : step.action with
  | put item => exact stuck_make hbroken ((halts_putSized _ _).bind _)
  | putAll source => exact stuck_putAll hbroken haction
  | poll => exact stuck_make hbroken (halts_poll.map _)
  | drain max => exact stuck_make hbroken ((halts_drain max).map _)
  | query query => exact stuck_make hbroken (halts_look _)
  | openIterator name | advance span =>
      exact stuck_answer rfl (by simp [locks, haction]) (by simp)
  | next name =>
      dsimp only
      split
      · exact stuck_make hbroken (halts_poll.map _)
      · rename_i hunknown
        exact stuck_answer rfl (by simpa [locks, haction] using hunknown) (by simp)
  | start c removal =>
      dsimp only
      split
      · rename_i hbusy
        exact stuck_answer rfl (by simp [locks, haction, hbusy]) (by simp)
      · exact stuck_consume hbroken removal.halts
  | wake c =>
      dsimp only
      split
      · exact stuck_consume hbroken (halts_resume _)
      · rename_i hidle
        exact stuck_answer rfl (by simp [locks, haction, hidle]) (by simp)
  | close =>
      dsimp only
      split
      · exact stuck_close haction hnobody
      · exact stuck_answer rfl (by simp [locks, haction]) (by simp)

/-- Whatever is done with a broken lock leaves the queue as it is. -/
theorem queue_runSized (hnobody : s.queue.line.isEmpty = true)
    (hlast : (runSized itemSize (some s) steps).1 = some s') : s'.queue = s.queue := by
  induction steps generalizing s with
  | nil =>
      obtain rfl := Option.some.inj hlast
      rfl
  | cons step steps ih =>
      have hstuck := stuck_stepSized hbroken hnobody itemSize step
      cases hnext : (s.stepSized itemSize step).1 with
      | none =>
          simp only [runSized, stepSized?, hnext, runSized_none, run_none] at hlast
          cases hlast
      | some s₁ =>
          have hsame := hstuck.queue s₁ hnext
          rw [runSized_cons hnext] at hlast
          exact (ih (hsame ▸ hbroken) (hsame ▸ hnobody) hlast).trans hsame

end Broken

theorem open?_eq_none_iff {opening : Opening} :
    (open? opening : Option (Session α)) = none ↔
      ∃ capacity size, opening = .withCapacity capacity size ∧
        (UInt64.size ≤ capacity ∨ 0x8000000000000000 ≤ size * capacity) := by
  cases opening with
  | plain =>
      constructor
      · intro hnone
        cases hnone
      · rintro ⟨capacity, size, heq, -⟩
        cases heq
  | withCapacity capacity size =>
      have hnone : (open? (.withCapacity capacity size) : Option (Session α)) = none ↔
          ¬ Queue.fits size capacity = true := by
        change (Queue.withCapacity? size capacity).map ofQueue = none ↔ _
        rw [Option.map_eq_none_iff, Queue.withCapacity?, ite_eq_right_iff]
        simp
      rw [hnone, Queue.fits_iff, not_and_or, Nat.not_lt, Nat.not_lt]
      constructor
      · exact fun hlarge => ⟨capacity, size, rfl, hlarge⟩
      · rintro ⟨capacity', size', heq, hlarge⟩
        obtain ⟨rfl, rfl⟩ := Opening.withCapacity.inj heq
        exact hlarge

/-- Where memory has an end. Making a queue fails only for want of room. As long as there is room
for what is brought in, all goes as where memory has no end: no call finds an internal rule broken,
the lock stays intact, and only a failing source or the log makes a call break off. The first step
that brings in more than a queue can hold breaks off under the lock and destroys what it brought.
The queue stays as it is from then on, and whoever needs its lock is told that it is broken. -/
theorem runSized_panics_foreign (itemSize : Nat) (opening : Opening)
    (hcount : Handoff.CountFits (some Handoff.empty) steps) :
    ((open? opening : Option (Session α)) = none ↔
        ∃ capacity size, opening = .withCapacity capacity size ∧
          (UInt64.size ≤ capacity ∨ 0x8000000000000000 ≤ size * capacity)) ∧
      ∀ s, open? opening = some s →
        (s.hasRoom itemSize steps = true →
          runSized itemSize (some s) steps = run (some s) steps ∧
            (∀ s', (runSized itemSize (some s) steps).1 = some s' → s'.queue.broken = false) ∧
            ∀ p ∈ steps.zip (runSized itemSize (some s) steps).2, ∀ panic,
              p.2.reply = .panicked panic → panic.Foreign p.1) ∧
          ∀ before step after s₁, steps = before ++ step :: after →
            s.hasRoom itemSize before = true →
            (runSized itemSize (some s) before).1 = some s₁ →
            Queue.fits itemSize step.action.cargo.length = true →
            s₁.overfills itemSize step = true →
            let s₂ : Session α := { s₁ with queue := { s₁.queue with broken := true } }
            s₁.stepSized itemSize step =
                stillOpen (s₂,
                  { reply := .panicked (.fault .noRoom)
                    notified := []
                    logged := []
                    destroyed := step.action.offered
                    stats := some s₁.queue.stats }) ∧
              ∀ later s₃, (runSized itemSize (some s₂) later).1 = some s₃ →
                s₃.queue = s₂.queue ∧ ∀ next, s₃.Stuck next (s₃.stepSized itemSize next) := by
  refine ⟨open?_eq_none_iff, fun s hopen => ?_⟩
  obtain ⟨rfl, -⟩ := open?_eq_some_iff.mp hopen
  constructor
  · intro hroom
    have hsame := represents_empty.runSized_eq hcount hroom
    rw [hsame]
    refine ⟨rfl, fun s' hlast => ?_, foreign_of_run (.some represents_empty) hcount⟩
    obtain ⟨h', -, hrepresents⟩ := exists_represents represents_empty hcount hlast
    exact broken_of_represents hrepresents
  · intro before step after s₁ hsplit hroom hbefore hcargo hfull s₂
    obtain ⟨hcount', -⟩ := Handoff.CountFits.of_append (hsplit ▸ hcount)
    rw [represents_empty.runSized_eq hcount' hroom] at hbefore
    obtain ⟨h₁, -, hrepresents⟩ := exists_represents represents_empty hcount' hbefore
    have hnobody : s₂.queue.line.isEmpty = true := hrepresents.isEmpty_of_overfills hcargo hfull
    have hbroken : s₂.queue.broken = true := rfl
    refine ⟨hrepresents.stepSized_of_overfills hfull, fun later s₃ hlast => ?_⟩
    have hsame := queue_runSized hbroken hnobody hlast
    exact ⟨hsame, stuck_stepSized (hsame ▸ hbroken) (hsame ▸ hnobody) itemSize⟩

/-- With items of eight bytes all goes well, but for a source that fails and a log that refuses its
events. Of items that fill an eighth of all addresses a queue can hold three, and no fourth one. -/
theorem runSized_panics_foreign_large :
    let steps : List (Step Nat) := [⟨.start 1 .take, false, []⟩,
      ⟨.putAll ⟨[7, 8], some 1⟩, false, []⟩, ⟨.put 7, true, []⟩, ⟨.wake 1, true, []⟩,
      ⟨.close, true, []⟩]
    let stored : Session Nat := { ofQueue Queue.empty with queue.items := [7] }
    let broken : Session Nat := { stored with queue.broken := true }
    (∀ p ∈ steps.zip (runSized 8 (open? (.withCapacity 4 8)) steps).2, ∀ panic,
        p.2.reply = .panicked panic → panic.Foreign p.1) ∧
      (stored.stepSized 0x2000000000000000 ⟨.putAll (.ofList [8, 9, 10]), false, []⟩).1 =
        some broken ∧
      broken.Stuck ⟨.poll, false, []⟩
        (broken.stepSized 0x2000000000000000 ⟨.poll, false, []⟩) := by
  intro steps stored broken
  have hcount : Handoff.CountFits (some Handoff.empty) steps := by decide
  have hcount' : Handoff.CountFits (some Handoff.empty)
      ([⟨.put 7, false, []⟩, ⟨.putAll (.ofList [8, 9, 10]), false, []⟩] : List (Step Nat)) := by
    decide
  have hopen : open? (.withCapacity 4 8) = some (ofQueue (Queue.empty : Queue Nat)) := rfl
  obtain ⟨hgood, -⟩ := (runSized_panics_foreign 8 (.withCapacity 4 8) hcount).2 _ hopen
  obtain ⟨-, hfull⟩ := (runSized_panics_foreign 0x2000000000000000 (.withCapacity 4 8) hcount').2 _
    hopen
  obtain ⟨hstep, hlater⟩ := hfull [⟨.put 7, false, []⟩]
    ⟨.putAll (.ofList [8, 9, 10]), false, []⟩ [] stored rfl (by decide) (by decide) (by decide)
    (by decide)
  rw [hopen]
  exact ⟨(hgood (by decide)).2.2, congrArg Prod.fst hstep, (hlater [] broken rfl).2 _⟩

/-- One item of no size is stored, and then comes a batch of as many as a word can count. -/
theorem exists_runSized_batch {items : List Unit} (hlength : items.length = UInt64.size - 1) :
    let steps : List (Step Unit) := [⟨.put (), false, []⟩, ⟨.putAll (.ofList items), false, []⟩,
      ⟨.query .size, false, []⟩]
    Handoff.CountFits (some Handoff.empty) steps ∧
      (∀ step ∈ steps, Queue.fits 0 step.action.cargo.length = true) ∧
      ∃ s, (runSized 0 (open? .plain) steps).1 = some s ∧ s.queue.broken = true ∧
        (runSized 0 (open? .plain) steps).2.map (·.reply) =
          [.done, .panicked (.fault .noRoom), .panicked .lockBroken] := by
  intro steps
  let stored : Session Unit := { ofQueue Queue.empty with queue.items := [()] }
  let batch : Step Unit := ⟨.putAll (.ofList items), false, []⟩
  have hcount : Handoff.CountFits (some Handoff.empty) steps := by
    simp [Handoff.CountFits, steps, Handoff.run, Handoff.step?, Handoff.step_of_ne_close,
      Handoff.turn, Source.failure?, Source.ofList, Handoff.stats, Handoff.putAll, Handoff.empty]
  have hcargo : Queue.fits 0 batch.action.cargo.length = true := by
    change Queue.fits 0 items.length = true
    rw [hlength]
    decide
  have hfull : stored.overfills 0 batch = true := by
    have hoffered : batch.action.offered = items := rfl
    refine overfills_iff.mpr ⟨?_, ?_⟩
    · rw [hoffered, ← List.length_pos_iff, hlength]
      decide
    · rw [hoffered, Queue.needed, hlength]
      decide
  have hopen : open? .plain = some (ofQueue (Queue.empty : Queue Unit)) := rfl
  have hput : ((ofQueue Queue.empty).stepSized 0 ⟨.put (), false, []⟩).1 = some stored := rfl
  have hstored : ((ofQueue Queue.empty).step ⟨.put (), false, []⟩).1 = some stored := rfl
  obtain ⟨h, -, hrepresents, -⟩ := represents_empty.exists_of_step hcount hstored
  have hbreaks := hrepresents.stepSized_of_overfills hfull
  refine ⟨hcount, ?_, { stored with queue.broken := true }, ?_⟩
  · simp only [steps, List.forall_mem_cons]
    exact ⟨by decide, hcargo, Queue.fits_zero 0, fun _ hmem => absurd hmem List.not_mem_nil⟩
  · rw [hopen, runSized_cons hput, runSized_cons (congrArg Prod.fst hbreaks), hbreaks]
    exact ⟨rfl, rfl, rfl⟩

/-- The batch breaks off with the lock held although nothing was removed, no log refused an event
and no source failed, and whoever looks at the queue afterwards breaks off, too. -/
theorem runSized_breaks_lock :
    let source : Source Unit := .ofList (List.replicate (UInt64.size - 1) ())
    let steps : List (Step Unit) := [⟨.put (), false, []⟩, ⟨.putAll source, false, []⟩,
      ⟨.query .size, false, []⟩]
    Handoff.CountFits (some Handoff.empty) steps ∧
      (∀ step ∈ steps, Queue.fits 0 step.action.cargo.length = true) ∧
      ∃ s, (runSized 0 (open? .plain) steps).1 = some s ∧ s.queue.broken = true ∧
        (runSized 0 (open? .plain) steps).2.map (·.reply) =
          [.done, .panicked (.fault .noRoom), .panicked .lockBroken] :=
  -- the batch is far too long to be looked at, so all goes by its length
  exists_runSized_batch List.length_replicate

end Session

end FairQueue
