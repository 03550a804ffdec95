import FairQueue.Proofs.Call.Arena
import FairQueue.Proofs.Call.Endurance
import FairQueue.Proofs.Call.Moment
import FairQueue.Proofs.Handoff.Outcomes
import FairQueue.Proofs.History.Notices
import FairQueue.Proofs.Line.Demand

/-!
How many slots a queue makes. Every step of a session is one step of the line, and what is seen of
it tells which slot is released, so that the line can be followed from the outside.
-/

namespace FairQueue

open Line Call

variable {α β : Type}

/-- The slot that a consumer gives back when it reports this event. -/
def Event.released? : Event → Option Nat
  | collectedBehind slot _ | collected slot | timedOut slot => some slot
  | _ => none

namespace Queue

variable {q q' : Queue α} {i : Nat} {item : α} {place : Place}

theorem line_countRemoval (hcount : q.countRemoval = .ok q') : q'.line = q.line := by
  unfold countRemoval at hcount
  split at hcount <;> cases hcount
  rfl

theorem line_pop {item? : Option α} (hpop : q.pop = .ok (item?, q')) : q'.line = q.line := by
  unfold pop at hpop
  split at hpop
  · cases hpop
    rfl
  · simp only [bind, Except.bind] at hpop
    split at hpop <;> cases hpop
    rename_i hcount
    rw [line_countRemoval hcount]

theorem line_join (hjoin : q.join = .ok (place, q')) : q.line.join = .ok (place, q'.line) := by
  simp only [join, bind, Except.bind] at hjoin
  cases hitems : q.items.isEmpty with
  | false => simp [hitems, throw, throwThe, MonadExceptOf.throw] at hjoin
  | true =>
      cases hline : q.line.join with
      | error fault => simp [hitems, hline] at hjoin
      | ok joined =>
          simp only [hitems, hline] at hjoin
          cases hjoin
          rfl

theorem line_collect (hcollect : q.collect i = .ok (some item, q')) :
    q.line.collect i = .ok (some item, q'.line) := by
  simp only [collect, bind, Except.bind] at hcollect
  split at hcollect
  · cases hcollect
  · rename_i collected hline
    obtain ⟨_ | kept, line⟩ := collected
    · cases hcollect
    · dsimp only at hcollect
      split at hcollect <;> cases hcollect
      rename_i hcount
      rw [hline, line_countRemoval hcount]

theorem line_leave {item? : Option α} (hleave : q.leave i = .ok (item?, q')) :
    q.line.leave i = .ok (item?, q'.line) := by
  simp only [leave, bind, Except.bind] at hleave
  split at hleave
  · cases hleave
  · rename_i left hline
    obtain ⟨_ | kept, line⟩ := left
    · cases hleave
      exact hline
    · dsimp only at hleave
      split at hleave <;> cases hleave
      rename_i hcount
      rw [hline, line_countRemoval hcount]

end Queue

/-- Whatever else happens, the consumers that are served keep their slots. -/
theorem Moment.steady_vacant :
    Steady fun m m' : Moment α => m.1.line.KeepsVacant m'.1.line where
  trans := .trans
  later q _ _ _ := .refl q.line
  broken q _ := .refl q.line
  put item q now := by
    rintro ⟨place, q'⟩ hput
    simp only [Queue.put, bind, Except.bind] at hput
    split at hput
    · cases hput
    · rename_i served hserve
      obtain ⟨_ | place, line⟩ := served
      · dsimp only at hput
        split at hput <;> cases hput
        exact .serve hserve
      · cases hput
        exact .serve hserve
  pop q now := by
    rintro ⟨item, q'⟩ hpop
    change q.line.KeepsVacant q'.line
    rw [Queue.line_pop hpop]
    exact .refl q.line

namespace Call

variable {scene : Scene α} {l : Line α} {r : Roster α} {place : Place} {starting : Bool}

/-- The event that a call reports, whether the log takes it or not. -/
def reported? : EStateM.Result Panic (Scene α) β → Option Event
  | .error (.refused event) _ => some event
  | result => (remains result).logged.head?

/-- The call does to this line what the event that it reports tells. Only a call that has just
started can come and go in one turn. -/
def Shifts (l : Line α) (starting : Bool) (result : EStateM.Result Panic (Scene α) β) : Prop :=
  l.Change (remains result).queue.line ((reported? result).bind Event.released?)
    (starting && reported? result matches some (.timedOut _))

theorem shifts_conclude {event : Option Event} {freight : List α} {result : β}
    (hlogged : scene.logged = [])
    (hline : l.Change scene.queue.line (event.bind Event.released?)
      (starting && event matches some (.timedOut _))) :
    Shifts l starting (conclude event freight result scene) := by
  rw [conclude_eq]
  cases event with
  | none => simpa [Shifts, reported?, remains, hlogged] using hline
  | some event =>
      cases scene.refusing with
      | true => exact hline
      | false => simpa [Shifts, reported?, remains, hlogged] using hline

/-- A call that breaks off without a word. -/
theorem shifts_broken {panic : Panic} (hpanic : ∀ event, panic ≠ .refused event)
    (hlogged : scene.logged = []) (hline : l.Change scene.queue.line none false) :
    Shifts l starting (.error panic scene : EStateM.Result Panic (Scene α) β) := by
  cases panic with
  | refused event => exact absurd rfl (hpanic event)
  | _ => simpa [Shifts, reported?, remains, hlogged] using hline

/-- A call that comes to its end without a word. -/
theorem shifts_silent {result : β} (hlogged : scene.logged = [])
    (hline : l.Change scene.queue.line none false) :
    Shifts l starting (.ok result scene : EStateM.Result Panic (Scene α) β) := by
  simpa [Shifts, reported?, remains, hlogged] using hline

variable (hlogged : scene.logged = [])

include hlogged

/-- A call may break off wherever it uses the queue, which is then left alone. -/
theorem shifts_locked {operation : Queue α → Except Fault (β × Queue α)}
    {next : β → Call α (Progress α)} (hkeeps : l.Change scene.queue.line none false)
    (hnext : ∀ result queue, operation scene.queue = .ok (result, queue) →
      Shifts l starting (next result { scene with queue })) :
    Shifts l starting ((locked operation >>= next) scene) := by
  refine locked_bind (fun panic left hpanic hline hleft => ?_) hnext
  exact shifts_broken hpanic (hleft.trans hlogged) (hline ▸ hkeeps)

/-- A consumer in the line stays there, or it leaves without an item and says so. -/
theorem shifts_waitUntil {deadline : Time} (hkeeps : l.Change scene.queue.line none false)
    (hleaves : ∀ line, scene.queue.line.leave place.slot = .ok (none, line) →
      l.Change line (some place.slot) starting)
    (hnone : ∀ item q, scene.queue.leave place.slot ≠ .ok (some item, q)) :
    Shifts l starting (waitUntil place deadline scene) := by
  let read : Scene α := { scene with clock := scene.clock.read.2 }
  have hread : read.logged = [] := hlogged
  rw [waitUntil, bind_of_ok (readClock_eq scene)]
  split
  · refine shifts_locked hread hkeeps fun item? q hleave => ?_
    cases item? with
    | some item => exact absurd hleave (hnone item q)
    | none =>
        have hleft : ({ read with queue := q } : Scene α).logged = [] := hlogged
        change Shifts _ _ ((do report (.timedOut place.slot); return Progress.returned none) _)
        rw [report_then_return]
        refine shifts_conclude hleft ?_
        simpa [Event.released?] using hleaves q.line (Queue.line_leave hleave)
  · exact shifts_silent hread hkeeps

theorem shifts_resume (sleeper : Sleeper) :
    Shifts scene.queue.line false (resume sleeper scene) := by
  obtain ⟨place, patience⟩ := sleeper
  have hkeeps : scene.queue.line.Change scene.queue.line none false := .keeps (.refl _)
  refine shifts_locked hlogged hkeeps fun item? q hcollect => ?_
  let woken : Scene α := { scene with queue := q }
  have hwoken : woken.logged = [] := hlogged
  cases item? with
  | some item =>
      have hcollected := Queue.line_collect hcollect
      have hline : scene.queue.line.Change woken.queue.line
          ((some (patience.collection place.slot)).bind Event.released?)
          (false && some (patience.collection place.slot) matches some (.timedOut _)) := by
        cases patience <;> exact .collects hcollected
      cases patience <;> exact shifts_conclude hwoken hline
  | none =>
      obtain ⟨rfl, hnone⟩ := Queue.leave_of_collect_none hcollect
      cases patience with
      | endless ahead => exact shifts_silent hwoken hkeeps
      | deadline time => exact shifts_waitUntil hwoken hkeeps (fun _ hleave => .leaves hleave) hnone

theorem shifts_take : Shifts scene.queue.line true (take scene) := by
  have hkeeps : scene.queue.line.Change scene.queue.line none false := .keeps (.refl _)
  refine shifts_locked hlogged hkeeps fun item? q hpop => ?_
  cases item? with
  | some item =>
      have hpopped := Queue.line_pop hpop
      exact shifts_silent hlogged (.keeps (hpopped ▸ .refl _))
  | none =>
      obtain rfl := Queue.pop_none hpop
      refine shifts_locked hlogged hkeeps fun ahead q hlook => ?_
      cases hlook
      refine shifts_locked hlogged hkeeps fun place q hjoin => ?_
      exact shifts_silent hlogged (.joins (Queue.line_join hjoin))

theorem shifts_takeUntil (h : scene.queue.line.Layout r none) (deadline : Time) :
    Shifts scene.queue.line true (takeUntil deadline scene) := by
  have hkeeps : scene.queue.line.Change scene.queue.line none false := .keeps (.refl _)
  refine shifts_locked hlogged hkeeps fun item? q hpop => ?_
  cases item? with
  | some item =>
      have hpopped := Queue.line_pop hpop
      exact shifts_silent hlogged (.keeps (hpopped ▸ .refl _))
  | none =>
      obtain rfl := Queue.pop_none hpop
      have hread := readClock_eq scene
      dsimp only
      rw [bind_of_ok hread]
      let late : Scene α := { scene with clock := scene.clock.read.2 }
      have hlate : late.logged = [] := hlogged
      split
      · exact shifts_silent hlate hkeeps
      · refine shifts_locked hlate hkeeps fun place q hjoin => ?_
        have hjoined := Queue.line_join hjoin
        obtain ⟨l', hjoin', hlayout⟩ := h.exists_join
        obtain ⟨rfl, rfl⟩ := Prod.mk.inj (Except.ok.inj (hjoin'.symm.trans hjoined))
        have hwaiting : r.next ∈ r.join.waiting := List.mem_concat_self
        obtain ⟨l₂, hleave₂, -⟩ := hlayout.exists_leave hwaiting
        let joined : Scene α := { late with queue := q }
        have hjoined' : joined.logged = [] := hlogged
        refine shifts_waitUntil hjoined' (.joins hjoined) ?_ ?_
        · intro q' hleave
          exact .passes hjoined hleave
        · intro item q' hleave
          cases hleave₂.symm.trans (Queue.line_leave hleave)

theorem shifts_call (h : scene.queue.line.Layout r none) (removal : Removal) :
    Shifts scene.queue.line true (removal.call scene) := by
  let read : Scene α := { scene with clock := scene.clock.read.2 }
  have hread : read.logged = [] := hlogged
  cases removal with
  | take => exact shifts_take hlogged
  | takeUntil deadline => exact shifts_takeUntil hlogged h deadline
  | takeWithin span =>
      change Shifts _ _ (takeWithin span scene)
      rw [takeWithin_eq]
      cases scene.clock.now.plus? span with
      | some deadline => exact shifts_takeUntil hread h deadline
      | none => exact shifts_take hread

end Call

namespace Entry

/-- The slot that is given back in this step: only a consumer that runs gives back its own. -/
def released? (e : Entry α) (action : Action α) : Option Nat :=
  match action with
  | .start _ _ | .wake _ => e.event?.bind Event.released?
  | _ => none

/-- Whether a call takes a slot and gives it back in this step. -/
def passes (e : Entry α) (action : Action α) : Bool :=
  match action with
  | .start _ _ => e.timedOut
  | _ => false

/-- Whether a call takes a slot in this step, if only to give it back at once. -/
def joins (e : Entry α) (action : Action α) : Bool :=
  match action with
  | .start _ _ => e.timedOut || (e.reply matches .asleep _)
  | _ => false

@[simp] theorem passes_anonymous (e : Entry α) (action : Action α) :
    e.anonymous.passes action = e.passes action := by
  cases action <;> simp [passes]

@[simp] theorem joins_anonymous (e : Entry α) (action : Action α) :
    e.anonymous.joins action = e.joins action := by
  have hreply : e.anonymous.reply = e.reply.anonymous := rfl
  cases action with
  | start c removal =>
      simp only [joins, timedOut_anonymous, hreply]
      cases e.reply <;> rfl
  | _ => rfl

end Entry

/-- A call that starts leaves one consumer more inside, or it passes, or it takes no slot. -/
theorem Handoff.length_inside_start (h : Handoff α) (c : Consumer) (removal : Removal)
    (clock : Clock) (refusing : Bool) {t : Turn α} (ht : h.turn (.start c removal) clock = t) :
    (t.queue.inside.length + if (t.entry refusing).passes (.start c removal) then 1 else 0) =
      h.inside.length + if (t.entry refusing).joins (.start c removal) then 1 else 0 := by
  have hconsumes : h.Consumes c (.start c removal) clock t := ht ▸ h.consumes_start c removal clock
  cases hconsumes with
  | busy => cases refusing <;> rfl
  | started hnew hstarts =>
      cases hstarts with
      | popped hitems => cases refusing <;> rfl
      | late hitems => cases refusing <;> rfl
      | asleep hitems hpatience =>
          simp [Turn.entry, Entry.passes, Entry.joins, Entry.timedOut, Entry.event?, join, inside,
            Nat.add_assoc]
      | gaveUp hitems =>
          simp only [leave_join hnew]
          cases refusing <;> rfl

namespace Session

variable {s s₁ : Session α} {h : Handoff α} {r : Roster α} {c : Consumer} {step : Step α}
  {steps : List (Step α)} {recent : List Nat} {starting : Bool}

/-- The slots given back in these steps, in order. -/
def releases (steps : List (Step α)) (entries : List (Entry α)) : List Nat :=
  (steps.zip entries).filterMap fun p => p.2.released? p.1.action

/-- The number of slots in use after each step, and with them the slot that is only taken and given
back in it. -/
def demands (s : Session α) : List (Step α) → List Nat
  | [] => []
  | step :: steps =>
    match s.step step with
    | (some s₁, entry) =>
      (s₁.queue.line.demand + if entry.passes step.action then 1 else 0) :: s₁.demands steps
    | (none, _) => []

theorem consume_shifts {call : Call α (Progress α)}
    (h : Shifts s.queue.line starting (call (s.scene step))) :
    s.queue.line.Change (s.consume step c call).1.queue.line
      ((s.consume step c call).2.event?.bind Event.released?)
      (starting && (s.consume step c call).2.timedOut) := by
  have hheard : ∀ (scene : Scene α) (progress : Progress α),
      ((s.after scene).heard c progress).queue = scene.queue := fun scene progress =>
    congrArg Session.queue (heard_eq s c progress scene.queue scene.clock.now)
  cases hend : call (s.scene step) with
  | ok progress scene =>
      rw [hend] at h
      rw [consume_of_ok hend]
      dsimp only
      rw [hheard]
      cases progress <;> exact h
  | error panic scene =>
      rw [hend] at h
      rw [consume_of_error hend]
      dsimp only
      rw [hheard]
      cases panic <;> exact h

/-- Every step of the session is a step of the line, as what is seen of it tells. -/
theorem change_step (h : s.queue.line.Layout r none) (hstep : (s.step step).1 = some s₁) :
    s.queue.line.Change s₁.queue.line ((s.step step).2.released? step.action)
      ((s.step step).2.passes step.action) := by
  obtain ⟨action, refusing, jumps⟩ := step
  cases action with
  | start c removal =>
      cases hc : s.sleeper? c with
      | some sleeper =>
          rw [step_busy hc] at hstep ⊢
          cases hstep
          exact .keeps (.refl _)
      | none =>
          rw [step_start hc] at hstep ⊢
          cases hstep
          have hlogged : (s.scene ⟨.start c removal, refusing, jumps⟩).logged = [] := rfl
          exact consume_shifts (shifts_call hlogged h removal)
  | wake c =>
      cases hc : s.sleeper? c with
      | some sleeper =>
          rw [step_wake hc] at hstep ⊢
          cases hstep
          have hlogged : (s.scene ⟨.wake c, refusing, jumps⟩).logged = [] := rfl
          exact consume_shifts (shifts_resume hlogged sleeper)
      | none =>
          simp only [Session.step, hc] at hstep ⊢
          cases hstep
          exact .keeps (.refl _)
  | _ =>
      refine .keeps (Moment.steady_vacant.of_step ?_ ?_ hstep)
      · rintro c removal ⟨⟩
      · rintro c ⟨⟩

/-- There are as many slots in use as consumers inside a call. -/
theorem Represents.demand_eq (hrepresents : s.Represents h) :
    s.queue.line.demand = h.inside.length := by
  have hslots := hrepresents.matched.slots
  obtain ⟨r, served, waiting, hseated, hsleepers, rfl⟩ := hrepresents
  have hperm : ((List.range s.queue.line.slots.size).filter s.queue.line.inUse).Perm
      (s.sleepers.map Seat.slot) := by
    refine (List.perm_ext_iff_of_nodup (List.nodup_range.filter _) ?_).mpr fun i => ?_
    · exact hsleepers ▸ hseated.slots
    · rw [List.mem_filter, List.mem_range, List.mem_map]
      constructor
      · rintro ⟨-, hi⟩
        exact hslots.surjOn hi
      · rintro ⟨x, hx, rfl⟩
        have hi := hslots.mapsTo hx
        exact ⟨hseated.layout.made ▸ hseated.layout.lt_of_inUse hi, hi⟩
  rw [demand, List.countP_eq_length_filter, hperm.length_eq, List.length_map, inside_handoff,
    List.length_map, hsleepers]

theorem Represents.demand_le (hrepresents : s.Represents h) :
    s.queue.line.demand ≤ s.queue.line.slots.size := by
  obtain ⟨r, served, waiting, hseated, -, -⟩ := hrepresents
  exact hseated.layout.made ▸ hseated.layout.demand_le

/-- How many slots are made in a step. -/
def newSlots (s : Session α) (step : Step α) : Nat :=
  if s.queue.line.isFull && (s.step step).2.joins step.action then 1 else 0

theorem newSlots_of_ne_start (hstart : ∀ c removal, step.action ≠ .start c removal) :
    s.newSlots step = 0 := by
  have hjoins : (s.step step).2.joins step.action = false := by
    unfold Entry.joins
    split
    · exact absurd ‹_› (hstart _ _)
    · rfl
  rw [newSlots, hjoins, Bool.and_false]
  rfl

theorem Represents.demand_start {removal : Removal} (hrepresents : s.Represents h)
    (hfits : ∀ stats ∈ (h.step step).2.stats, stats.removed < UInt64.size)
    (haction : step.action = .start c removal) (hstep : (s.step step).1 = some s₁) :
    (s₁.queue.line.demand + if (s.step step).2.passes step.action then 1 else 0) =
      s.queue.line.demand + if (s.step step).2.joins step.action then 1 else 0 := by
  have hclose : step.action ≠ .close := by simp [haction]
  obtain ⟨hentry, hnext⟩ := step_represents hrepresents hfits
  rw [hstep, h.step_of_ne_close hclose] at hnext
  cases hnext with
  | some hrepresents₁ =>
      have hdemand₁ : s₁.queue.line.demand = _ := hrepresents₁.demand_eq
      rw [h.step_of_ne_close hclose] at hentry
      rw [hrepresents.demand_eq, hdemand₁, ← Entry.passes_anonymous, ← Entry.joins_anonymous,
        hentry, haction]
      exact h.length_inside_start c removal _ _ rfl

/-- A step makes one slot when a call joins the line while all slots are in use, and none if not. -/
theorem Represents.size_step (hrepresents : s.Represents h)
    (hfits : ∀ stats ∈ (h.step step).2.stats, stats.removed < UInt64.size)
    (hstep : (s.step step).1 = some s₁) :
    s₁.queue.line.slots.size = s.queue.line.slots.size + s.newSlots step := by
  by_cases hstart : ∀ c removal, step.action ≠ .start c removal
  · rw [newSlots_of_ne_start hstart]
    exact slots_step hstart hstep
  · obtain ⟨c, removal, haction⟩ : ∃ c removal, step.action = .start c removal := by
      simpa using hstart
    have hdemand := hrepresents.demand_start hfits haction hstep
    have hle := hrepresents.demand_le
    obtain ⟨r, served, waiting, hseated, -, -⟩ := hrepresents
    have hlayout := hseated.layout
    obtain ⟨-, -, -, hsize⟩ := (change_step hlayout hstep).exists_roster hlayout
      (Roster.recalls_vacant hlayout.vacant_nodup)
    rw [hsize, hdemand, newSlots]
    cases (s.step step).2.joins step.action with
    | false => simpa using hle
    | true =>
        cases hfull : s.queue.line.isFull with
        | false =>
            have hless : s.queue.line.demand ≠ s.queue.line.slots.size :=
              mt isFull_iff.mpr (Bool.not_eq_true _ ▸ hfull)
            have hfree : max s.queue.line.slots.size (s.queue.line.demand + 1) =
                s.queue.line.slots.size := by
              omega
            simpa using hfree
        | true =>
            have hall := isFull_iff.mp hfull
            simp [hall]

/-- The steps of a session that stays open are a course of its line. -/
theorem course_run (h : s.queue.line.Layout r none) (hrecalls : r.Recalls recent)
    (hrun : (run (some s) steps).1 = some s₁) :
    Course s.queue.line (releases steps (run (some s) steps).2) (s.demands steps)
      s₁.queue.line := by
  induction steps generalizing s r recent with
  | nil =>
      cases hrun
      exact .nil _
  | cons step steps ih =>
      obtain ⟨s', hstep, hrest⟩ := exists_of_run_cons hrun
      have hchange := change_step h hstep
      obtain ⟨r', h', hrecalls', -⟩ := hchange.exists_roster h hrecalls
      have hcourse := Course.cons hchange (ih h' hrecalls' hrest)
      have hnext : s.step step = (some s', (s.step step).2) := Prod.ext hstep rfl
      rw [run_cons hstep, demands, hnext, releases, List.zip_cons_cons, List.filterMap_cons]
      cases hreleased : (s.step step).2.released? step.action <;> rw [hreleased] at hcourse <;>
        exact hcourse

/-- The arena grows to the peak demand and no further: in every run of a line about slots in use,
and in every run of a queue, however the calls in it end. -/
theorem run_makes_slots_on_demand :
    (∀ requests : List (Request α), Roster.empty.Admits requests →
        ∃ replies l, (Line.empty : Line α).run requests = .ok (replies, l) ∧
          l.Thrifty ((requests.zip replies).filterMap Line.released?).reverse
            (Line.empty.demands requests) ∧
          ∀ later replies' l', l.run later = .ok (replies', l') →
            ∀ i bell, l.bell? i = some bell → l'.bell? i = some bell) ∧
      ∀ (opening : Opening) (s s₁ : Session α) (steps : List (Step α)),
        open? opening = some s → (run (some s) steps).1 = some s₁ →
          s₁.queue.line.Thrifty (releases steps (run (some s) steps).2).reverse
              (s.demands steps) ∧
            ∀ later s₂, (run (some s₁) later).1 = some s₂ →
              ∀ i bell, s₁.queue.line.bell? i = some bell → s₂.queue.line.bell? i = some bell := by
  constructor
  · intro requests hadmits
    obtain ⟨l, hrun, h, -⟩ := layout_empty.exists_run hadmits
    have hcourse := Course.of_run layout_empty hrun
    refine ⟨_, l, hrun, hcourse.thrifty, fun later replies' l' hlater i bell => ?_⟩
    exact hcourse.bell?_kept (.of_run h hlater)
  · intro opening s s₁ steps hopen hrun
    obtain ⟨rfl, -⟩ := open?_eq_some_iff.mp hopen
    have hcourse := course_run layout_empty Roster.recalls_empty hrun
    obtain ⟨r, h, hrecalls, -⟩ := hcourse.exists_roster layout_empty Roster.recalls_empty
    refine ⟨hcourse.thrifty, fun later s₂ hlater i bell => ?_⟩
    exact hcourse.bell?_kept (course_run h hrecalls hlater)

/-- A second call takes a slot and gives it back at once, and then the first one gives back its own.
The next newcomer gets that one, and the one after it the other. -/
theorem run_makes_slots_on_demand_passing :
    let one : Time := { secs := 1, nanos := 0 }
    let steps : List (Step Nat) := [⟨.start 1 .take, false, []⟩,
      ⟨.start 2 (.takeUntil one), false, [one]⟩, ⟨.put 7, false, []⟩, ⟨.wake 1, false, []⟩,
      ⟨.start 3 .take, false, []⟩]
    ∃ s₁, (run (some (ofQueue Queue.empty)) steps).1 = some s₁ ∧
      s₁.queue.line.slots.size = [1, 2, 1, 0, 1].foldr max 0 ∧
      ∃ place l', s₁.queue.line.join = .ok (place, l') ∧
        [0, 1].find? s₁.queue.line.isVacant = some place.slot := by
  intro one steps
  let joined := ((ofQueue (Queue.empty : Queue Nat)).act (.start 1 .take) []).1
  let passed := (joined.act (.start 2 (.takeUntil one)) [one]).1
  let last := (((passed.act (.put 7) []).1.act (.wake 1) []).1.act (.start 3 .take) []).1
  have hrun : (run (some (ofQueue Queue.empty)) steps).1 = some last := by decide
  have hreleases :
      (releases steps (run (some (ofQueue Queue.empty)) steps).2).reverse = [0, 1] := by
    decide
  have hdemands : (ofQueue Queue.empty).demands steps = [1, 2, 1, 0, 1] := by decide
  have hthrifty := (run_makes_slots_on_demand.2 .plain _ last steps rfl hrun).1
  rw [hreleases, hdemands] at hthrifty
  obtain ⟨place, l', hjoin, -, -, -, hreused⟩ := hthrifty.join
  exact ⟨last, hrun, hthrifty.made, place, l', hjoin, (hreused ⟨1, by decide⟩).1⟩

end Session

end FairQueue
