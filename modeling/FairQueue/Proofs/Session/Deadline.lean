import FairQueue.Proofs.Handoff.Lapse
import FairQueue.Proofs.History.Notices
import FairQueue.Proofs.History.Reservation

/-!
A call with a deadline, turn by turn. Whatever the others do and however the clock moves on, it
comes back empty-handed from the first turn that reads the clock at or past its deadline, and from
no other one.
-/

namespace FairQueue

variable {α : Type}

/-- For how long the consumer that takes this step falls asleep. -/
def Entry.limit? (e : Entry α) : Option Time :=
  match e.reply with
  | .asleep limit => limit
  | _ => none

namespace Session

open Call

variable {s s' s₁ : Session α} {h : Handoff α} {step : Step α} {steps during later : List (Step α)}
  {c : Consumer} {deadline now : Time} {place : Place} {refusing : Bool} {jumps : List Time}
  {q : Queue α} {clock : Clock} {item : α} {items : List α}

/-- What is seen of a call that gives up its slot. -/
def timeUp (s : Session α) (slot : Nat) (refusing : Bool) : Entry α where
  reply := if refusing then .panicked (.refused (.timedOut slot)) else .delivered none
  notified := []
  logged := if refusing then [] else [.timedOut slot]
  destroyed := []
  stats := some s.queue.stats

/-- The call of `c` is over without an item, and none is stored. The consumer is not asleep and not
in the line, and all else is as before. -/
structure GivesUp (s : Session α) (c : Consumer) (s' : Session α) : Prop where
  sleepers : s'.sleepers = s.sleepers.filter (·.1 ≠ c)
  parked : s'.parked = s.parked.filter (· ≠ c)
  nothing : s.queue.items = []
  items : s'.queue.items = s.queue.items
  removed : s'.queue.removed = s.queue.removed
  held : ∀ d, s'.held? d = s.held? d
  iterators : s'.iterators = s.iterators

/-- A turn of a call that waits and reads the clock: from its deadline on it gives up, and before it
sleeps for exactly the time that is left. -/
structure Bides (s : Session α) (c : Consumer) (place : Place) (deadline reading : Time)
    (refusing : Bool) (next : Option (Session α) × Entry α) : Prop where
  due : deadline ≤ reading → ∃ s', next = (some s', s'.timeUp place.slot refusing) ∧ s.GivesUp c s'
  early : reading < deadline → ∃ s' : Session α,
    next = stillOpen (s'.answer (.asleep (some (deadline - reading)))) ∧
      Time.zero < deadline - reading ∧ reading + (deadline - reading) = deadline ∧
      reading ≤ s'.now ∧ s'.sleeper? c = some { place, patience := .deadline deadline } ∧
      c ∈ s'.parked ∧ s'.parked.filter (· ≠ c) = s.parked.filter (· ≠ c)

theorem Represents.givesUp (hrepresents : s.Represents h) (hitems : s.queue.items = [])
    (hrepresents' : s'.Represents { h.leave c with now })
    (hsleepers : s'.sleepers = s.sleepers.filter (·.1 ≠ c)) : s.GivesUp c s' where
  sleepers := hsleepers
  parked := by
    rw [hrepresents'.parked_eq, hrepresents.parked_eq, List.filter_map]
    rfl
  nothing := hitems
  items := hrepresents'.items_eq.symm.trans hrepresents.items_eq
  removed := hrepresents'.removed_eq.trans hrepresents.removed_eq.symm
  held d := hrepresents.held?_congr hrepresents' rfl
  iterators := hrepresents'.iterators_eq.trans hrepresents.iterators_eq.symm

section Turn

variable {call : Call α (Progress α)}
  (hcall : call (s.scene step) = waitUntil place deadline { s.scene step with queue := q, clock })

include hcall

theorem consume_due {q' : Queue α} (hintact : q.broken = false)
    (hleave : q.leave place.slot = .ok (none, q')) (hnow : deadline ≤ clock.now) :
    s.consume step c call =
      ({ s with queue := q', now := clock.read.2.now }.withoutSleeper c,
        s.concluded step.refusing (some (.timedOut place.slot)) [] (.delivered none) [] q') := by
  let joined : Scene α := { s.scene step with queue := q, clock }
  have hdue : waitUntil place deadline joined = _ := waitUntil_due hintact hnow hleave
  exact consume_eq (fun _ => rfl) (hcall.trans hdue)

theorem consume_early (hnow : clock.now < deadline) :
    let progress : Progress α :=
      .asleep { place, patience := .deadline deadline } (some (deadline - clock.now))
    s.consume step c call =
      ({ s with queue := q, now := clock.read.2.now }.heard c progress).answer progress.reply := by
  intro progress
  let joined : Scene α := { s.scene step with queue := q, clock }
  have hearly : waitUntil place deadline joined =
      conclude none [] progress { joined with clock := clock.read.2 } :=
    waitUntil_early (Time.not_le.mpr hnow)
  rw [consume_eq (fun hevent => absurd rfl hevent) (hcall.trans hearly), heard_eq, heard_eq]
  rfl

end Turn

/-- The consumer waits in the line, where the others stand as they did before, and reads the clock.
-/
theorem bides {call : Call α (Progress α)} {r r' : Roster α} {served : List (Seat × α)}
    {waiting waiting' : List Seat} {line : Line α} (hseated : Seated s.queue r served waiting)
    (hsleepers : s.sleepers = served.map (·.1) ++ waiting) (hitems : s.queue.items = [])
    (hseated' : Seated { s.queue with line } r' served waiting')
    (hmem : (c, { place, patience := .deadline deadline }) ∈ waiting')
    (hothers : waiting'.filter (·.1 ≠ c) = waiting.filter (·.1 ≠ c))
    (hasleep : ∀ limit,
      (s.heard c (.asleep { place, patience := .deadline deadline } limit)).sleepers =
        served.map (·.1) ++ waiting')
    (hcall : call (s.scene step) =
      waitUntil place deadline { s.scene step with queue := { s.queue with line }, clock }) :
    s.Bides c place deadline clock.now step.refusing (stillOpen (s.consume step c call)) := by
  have hrepresents : s.Represents (s.handoff served waiting) :=
    ⟨r, served, waiting, hseated, hsleepers, rfl⟩
  have hreturned : (s.heard c (.returned none)).sleepers =
      served.map (·.1) ++ waiting'.filter (·.1 ≠ c) := by
    have hnew : (served.map (·.1)).filter (·.1 ≠ c) = served.map (·.1) := by
      refine filter_ne_eq_self fun hserved => ?_
      obtain ⟨x, hx, hname⟩ := List.mem_map.mp hserved
      obtain ⟨y, hy, rfl⟩ := List.mem_map.mp hx
      exact hseated'.ne_of_waiting hy hmem hname
    change s.sleepers.filter (·.1 ≠ c) = _
    rw [hsleepers, List.filter_append, hnew, hothers]
  have hbehind : ((waiting'.map Seat.waiter).filter (·.consumer ≠ c)) =
      (waiting.map Seat.waiter).filter (·.consumer ≠ c) := by
    rw [List.filter_map, List.filter_map]
    exact congrArg _ hothers
  let joined : Scene α := { s.scene step with queue := { s.queue with line }, clock }
  have hjoined : joined.queue = { s.queue with line } := rfl
  have hclock : joined.clock = clock := rfl
  obtain ⟨e, he⟩ := bide_comesTo hseated' hjoined hmem rfl hasleep hreturned
  obtain ⟨hnext, -⟩ := e.follows (hcall.trans he)
  rw [hclock, Handoff.bide] at hnext
  constructor
  · intro hnow
    obtain ⟨line', hleave, -⟩ := hseated'.exists_leave hmem
    have hconsume := consume_due (c := c) hcall hseated'.intact hleave hnow
    have hleft : (s.consume step c call).1.Represents
        { (s.handoff served waiting).leave c with now := clock.read.2.now } := by
      rw [if_pos hnow] at hnext
      simpa only [Handoff.leave, handoff, hbehind] using hnext
    rw [hconsume] at hleft ⊢
    refine ⟨_, ?_, hrepresents.givesUp hitems hleft rfl⟩
    rw [stillOpen, concluded_some]
    cases step.refusing <;> rfl
  · intro hnow
    obtain ⟨stays, hstays, hconsume⟩ : ∃ stays : Session α, stays = _ ∧ _ = stays.answer _ :=
      ⟨_, rfl, consume_early (c := c) hcall hnow⟩
    have hrepresents' : stays.Represents
        { { s with queue := { s.queue with line } }.handoff served waiting' with
          now := clock.read.2.now } := by
      rw [hconsume, if_neg (Time.not_le.mpr hnow)] at hnext
      exact hnext
    have hasleep' : (c, { place, patience := .deadline deadline }) ∈ stays.sleepers := by
      rw [hstays, heard_eq, hasleep]
      exact List.mem_append_right _ hmem
    refine ⟨stays, congrArg stillOpen hconsume, Time.sub_pos_of_lt hnow, ?_, ?_, ?_, ?_, ?_⟩
    · exact Time.add_sub_of_le (Time.le_of_lt hnow)
    · rw [hrepresents'.now_eq]
      exact clock.now_le_read
    · exact sleeper?_of_mem hrepresents'.names hasleep'
    · rw [hrepresents'.parked_eq]
      exact List.mem_map_of_mem (List.mem_map_of_mem hmem)
    · rw [hrepresents'.parked_eq, hrepresents.parked_eq, List.filter_map, List.filter_map]
      exact congrArg _ hbehind

/-- The first turn of a call that finds nothing stored before its deadline. -/
theorem Represents.exists_start_bides (hrepresents : s.Represents h) (hc : s.sleeper? c = none)
    (hitems : s.queue.items = []) (hnow : s.now < deadline) (refusing : Bool) (jumps : List Time) :
    ∃ place queue, s.queue.join = .ok (place, queue) ∧
      s.Bides c place deadline (Clock.mk s.now jumps).read.2.now refusing
        (s.step ⟨.start c (.takeUntil deadline), refusing, jumps⟩) := by
  obtain ⟨r, served, waiting, hseated, hsleepers, -⟩ := hrepresents
  have hnew := sleeper?_eq_none_iff.mp hc
  obtain ⟨place, line, hjoin, hseated'⟩ :=
    hseated.exists_join hitems (hsleepers ▸ hnew) (.deadline deadline)
  let scene := s.scene ⟨.start c (.takeUntil deadline), refusing, jumps⟩
  have hintact : scene.queue.broken = false := hseated.intact
  have hcall : Call.takeUntil deadline scene = waitUntil place deadline
      { scene with queue := { s.queue with line }, clock := scene.clock.read.2 } :=
    takeUntil_join hintact (Seated.pop_nothing hitems) (Time.not_le.mpr hnow) hjoin
  refine ⟨place, _, hjoin, step_start hc _ refusing jumps ▸ ?_⟩
  refine bides hseated hsleepers hitems hseated' List.mem_concat_self ?_ ?_ hcall
  · rw [List.filter_append]
    simp
  · intro limit
    rw [sleepers_heard_asleep hnew, hsleepers, List.append_assoc]

/-- A turn of a call that is woken up without an item. -/
theorem Represents.wake_bides (hrepresents : s.Represents h)
    (hasleep : s.sleeper? c = some { place, patience := .deadline deadline })
    (hheld : s.held? c = none) (refusing : Bool) (jumps : List Time) :
    s.Bides c place deadline s.now refusing (s.step ⟨.wake c, refusing, jumps⟩) := by
  obtain ⟨r, served, waiting, hseated, hsleepers, rfl⟩ := id hrepresents
  let x : Seat := (c, { place, patience := .deadline deadline })
  have hx : x ∈ s.sleepers := mem_of_sleeper? hasleep
  have hmem : x ∈ waiting := by
    refine (List.mem_append.mp (hsleepers ▸ hx)).resolve_left fun hserved => ?_
    obtain ⟨⟨y, item⟩, hy, rfl⟩ := List.mem_map.mp hserved
    have hkept : s.held? c = some item :=
      hrepresents.held?_of_served (w := Seat.waiter x) (List.mem_map_of_mem hy)
    cases hheld.symm.trans hkept
  have hitems : s.queue.items = [] := hseated.idle.resolve_right (List.ne_nil_of_mem hmem)
  let scene := s.scene ⟨.wake c, refusing, jumps⟩
  have hintact : scene.queue.broken = false := hseated.intact
  have hcall : Call.resume x.2 scene = waitUntil place deadline scene :=
    resume_waiting hintact (hseated.collect_waiting hmem)
  rw [step_wake hasleep]
  refine bides hseated hsleepers hitems hseated hmem rfl ?_ hcall
  intro limit
  exact (sleepers_heard_again hrepresents.names hx).trans hsleepers

/-- Whenever `c` wakes up in these steps it falls asleep again. -/
def SleepsOn (s : Session α) (c : Consumer) (steps : List (Step α)) : Prop :=
  ∀ p ∈ steps.zip (run (some s) steps).2, p.1.action = .wake c → p.2.sleeps = true

instance [DecidableEq α] (s : Session α) (c : Consumer) (steps : List (Step α)) :
    Decidable (s.SleepsOn c steps) :=
  inferInstanceAs (Decidable (∀ p ∈ steps.zip (run (some s) steps).2,
    p.1.action = .wake c → p.2.sleeps = true))

/-- The limits with which `c` falls asleep in these steps. -/
def limits (s : Session α) (c : Consumer) (steps : List (Step α)) : List Time :=
  (steps.zip (run (some s) steps).2).filterMap fun p =>
    if p.1.action.runs c then p.2.limit? else none

theorem sleepsOn_cons (hstep : (s.step step).1 = some s₁) :
    s.SleepsOn c (step :: steps) ↔
      (step.action = .wake c → (s.step step).2.sleeps = true) ∧ s₁.SleepsOn c steps := by
  rw [SleepsOn, run_cons hstep, List.zip_cons_cons, List.forall_mem_cons]
  rfl

theorem limits_cons (hstep : (s.step step).1 = some s₁) :
    s.limits c (step :: steps) =
      (if step.action.runs c then (s.step step).2.limit? else none).toList ++
        s₁.limits c steps := by
  rw [limits, run_cons hstep, List.zip_cons_cons, List.filterMap_cons]
  split <;> simp_all [limits]

/-- The consumer is asleep in a call with this deadline. -/
structure Waits (s : Session α) (h : Handoff α) (c : Consumer) (place : Place) (deadline : Time) :
    Prop where
  represents : s.Represents h
  asleep : s.sleeper? c = some { place, patience := .deadline deadline }

namespace Waits

variable (hwaits : s.Waits h c place deadline)

include hwaits

theorem wake_bides (hheld : s.held? c = none) (refusing : Bool) (jumps : List Time) :
    s.Bides c place deadline s.now refusing (s.step ⟨.wake c, refusing, jumps⟩) :=
  hwaits.represents.wake_bides hwaits.asleep hheld refusing jumps

/-- An item that came in time is taken along, however late it is. -/
theorem exists_wake (hheld : s.held? c = some item)
    (hcount : Handoff.CountFits (some h) (⟨.wake c, refusing, jumps⟩ :: later)) :
    ∃ s', s.step ⟨.wake c, refusing, jumps⟩ =
        (some s',
          { reply := if refusing then .panicked (.refused (.collected place.slot))
              else .delivered (some item)
            notified := []
            logged := if refusing then [] else [.collected place.slot]
            destroyed := if refusing then [item] else []
            stats := some s'.queue.stats }) ∧
      s'.now = s.now := by
  obtain ⟨x, rfl, hreserves⟩ := hwaits.represents.exists_reserves hheld
  have hx : x.2 = { place, patience := .deadline deadline } :=
    Option.some.inj (hreserves.sleeper?_eq.symm.trans hwaits.asleep)
  obtain ⟨s', hstep, hnow, -⟩ := hreserves.exists_wake refusing jumps (hreserves.removed_lt hcount)
  rw [hx] at hstep
  exact ⟨s', hstep, hnow⟩

/-- If the consumer wakes up and falls asleep again, it sleeps for the time that is left. -/
theorem asleep_of_sleeps (hcount : Handoff.CountFits (some h) (⟨.wake c, refusing, jumps⟩ :: later))
    (hsleeps : (s.step ⟨.wake c, refusing, jumps⟩).2.sleeps = true) :
    ∃ s₁, (s.step ⟨.wake c, refusing, jumps⟩).1 = some s₁ ∧
      s₁.sleeper? c = some { place, patience := .deadline deadline } ∧
      (s.step ⟨.wake c, refusing, jumps⟩).2.limit? = some (deadline - s.now) := by
  cases hheld : s.held? c with
  | some item =>
      obtain ⟨s', hstep, -⟩ := hwaits.exists_wake hheld hcount
      rw [hstep] at hsleeps
      cases refusing <;> cases hsleeps
  | none =>
      obtain ⟨hdue, hearly⟩ := hwaits.wake_bides hheld refusing jumps
      by_cases hnow : deadline ≤ s.now
      · obtain ⟨s', hstep, -⟩ := hdue hnow
        rw [hstep] at hsleeps
        cases refusing <;> cases hsleeps
      · obtain ⟨s', hstep, -, -, -, hasleep, -⟩ := hearly (Time.not_le.mp hnow)
        rw [hstep]
        exact ⟨s', rfl, hasleep, rfl⟩

/-- Nobody closes the queue meanwhile. -/
theorem exists_next (step : Step α) : ∃ s₁, (s.step step).1 = some s₁ := by
  refine Option.ne_none_iff_exists'.mp fun hclosed => ?_
  obtain ⟨-, hnobody, -⟩ := step_eq_none hclosed
  have hmem := mem_of_sleeper? hwaits.asleep
  rw [hnobody] at hmem
  cases hmem

/-- Whatever step follows, the consumer is still asleep, unless it wakes up and does not fall asleep
again. -/
theorem exists_step (hcount : Handoff.CountFits (some h) (step :: later))
    (hsleeps : step.action = .wake c → (s.step step).2.sleeps = true)
    (hstep : (s.step step).1 = some s₁) :
    ∃ h₁, s₁.Waits h₁ c place deadline ∧ Handoff.CountFits (some h₁) later ∧ s.now ≤ s₁.now ∧
      ∀ limit, (if step.action.runs c then (s.step step).2.limit? else none) = some limit →
        limit = deadline - s.now := by
  obtain ⟨hrepresents₁, -, hcount₁⟩ := hwaits.represents.turn_of_step hcount hstep
  have hnow : s.now ≤ s₁.now := by
    rw [hrepresents₁.now_eq, hwaits.represents.now_eq]
    exact h.now_le_turn step.action { now := h.now, jumps := step.jumps }
  refine ⟨_, ⟨hrepresents₁, ?_⟩, hcount₁, hnow, ?_⟩
  · by_cases hwake : step.action = .wake c
    · obtain ⟨action, refusing, jumps⟩ := step
      obtain rfl : action = .wake c := hwake
      obtain ⟨s', hstep', hasleep, -⟩ := hwaits.asleep_of_sleeps hcount (hsleeps rfl)
      obtain rfl := Option.some.inj (hstep.symm.trans hstep')
      exact hasleep
    · exact sleeper?_of_mem hrepresents₁.names
        (mem_sleepers_step (mem_of_sleeper? hwaits.asleep) hwake hstep)
  · intro limit hlimit
    obtain ⟨action, refusing, jumps⟩ := step
    split at hlimit
    · rename_i hruns
      cases action with
      | wake d =>
          obtain rfl : d = c := of_decide_eq_true hruns
          obtain ⟨-, -, -, hleft⟩ := hwaits.asleep_of_sleeps hcount (hsleeps rfl)
          exact Option.some.inj (hlimit.symm.trans hleft)
      | start d removal =>
          obtain rfl : d = c := of_decide_eq_true hruns
          rw [step_busy hwaits.asleep] at hlimit
          cases hlimit
      | _ => cases hruns
    · cases hlimit

/-- While the consumer sleeps on its limits never grow. -/
theorem exists_run (hcount : Handoff.CountFits (some h) (during ++ later))
    (hsleeps : s.SleepsOn c during) :
    ∃ s₁ h₁, (run (some s) during).1 = some s₁ ∧ s₁.Waits h₁ c place deadline ∧
      Handoff.CountFits (some h₁) later ∧ (∀ limit ∈ s.limits c during, limit ≤ deadline - s.now) ∧
      (s.limits c during).Pairwise fun limit limit' => limit' ≤ limit := by
  induction during generalizing s h with
  | nil =>
      refine ⟨s, h, rfl, hwaits, hcount, ?_, List.Pairwise.nil⟩
      intro limit hlimit
      cases hlimit
  | cons step during ih =>
      obtain ⟨s₁, hstep⟩ := hwaits.exists_next step
      obtain ⟨hfirst, hrest⟩ := (sleepsOn_cons hstep).mp hsleeps
      obtain ⟨h₁, hwaits₁, hcount₁, hnow, hlimit⟩ := hwaits.exists_step hcount hfirst hstep
      obtain ⟨s₂, h₂, hlast, hwaits₂, hcount₂, hle, hpairwise⟩ := ih hwaits₁ hcount₁ hrest
      have hlater : ∀ limit ∈ s₁.limits c during, limit ≤ deadline - s.now :=
        fun limit hmem => Time.le_trans (hle limit hmem) (Time.sub_le_sub_left hnow deadline)
      refine ⟨s₂, h₂, ?_, hwaits₂, hcount₂, ?_, ?_⟩
      · rw [run_cons hstep]
        exact hlast
      all_goals
        rw [limits_cons hstep]
      · intro limit hmem
        rcases List.mem_append.mp hmem with hmem | hmem
        · rw [hlimit limit (Option.mem_toList.mp hmem)]
          exact Time.le_refl _
        · exact hlater limit hmem
      · refine List.pairwise_append.mpr ⟨?_, hpairwise, ?_⟩
        · cases (if step.action.runs c then (s.step step).2.limit? else none) with
          | none => exact List.Pairwise.nil
          | some limit => exact List.pairwise_singleton _ _
        · intro limit hmem limit' hmem'
          rw [hlimit limit (Option.mem_toList.mp hmem)]
          exact hlater limit' hmem'

end Waits

/-- A call that need not wait leaves everybody asleep as before. -/
theorem step_start_returned {item : Option α} (hc : s.sleeper? c = none)
    (hcall : Call.takeUntil deadline (s.scene ⟨.start c (.takeUntil deadline), refusing, jumps⟩) =
      .ok (.returned item) { s.scene ⟨.start c (.takeUntil deadline), refusing, jumps⟩ with
        queue := q
        clock := clock }) :
    s.step ⟨.start c (.takeUntil deadline), refusing, jumps⟩ =
      stillOpen ({ s with queue := q, now := clock.now }.answer (.delivered item)) := by
  have hsame : (s.heard c (.returned item)).sleepers = s.sleepers :=
    sleepers_heard_returned (sleeper?_eq_none_iff.mp hc)
  have hconclude : (Removal.takeUntil deadline).call
      (s.scene ⟨.start c (.takeUntil deadline), refusing, jumps⟩) =
        conclude none [] (.returned item) _ := hcall
  rw [step_start hc, consume_eq (fun hevent => absurd rfl hevent) hconclude, heard_eq, hsame]
  rfl

namespace Represents

variable (hrepresents : s.Represents h) (hc : s.sleeper? c = none)

include hrepresents hc

/-- An item that is stored is returned, without a look at the clock. -/
theorem step_start_item (hitems : s.queue.items = item :: items)
    (hcount :
      Handoff.CountFits (some h) (⟨.start c (.takeUntil deadline), refusing, jumps⟩ :: later)) :
    s.step ⟨.start c (.takeUntil deadline), refusing, jumps⟩ =
      stillOpen ({ s with queue := { s.queue with items, removed := s.queue.removed + 1 } }.answer
        (.delivered (some item))) := by
  obtain ⟨r, served, waiting, hseated, hsleepers, rfl⟩ := hrepresents
  let scene := s.scene ⟨.start c (.takeUntil deadline), refusing, jumps⟩
  have hintact : scene.queue.broken = false := hseated.intact
  have hremoved : s.queue.removed + 1 < UInt64.size := by
    have hnew := (not_congr (mem_inside_iff (c := c) hsleepers)).mpr (not_not.mpr hc)
    have hstored : (s.handoff served waiting).items = item :: items := hitems
    have hfits := hcount.of_cons.1
    simp only [Handoff.step?] at hfits
    rw [Handoff.step_of_ne_close _ (by simp)] at hfits
    have hturn := hfits _ (Turn.stats_entry _ _)
    change ((s.handoff served waiting).turn _ _).queue.removed < _ at hturn
    simp only [Handoff.turn, if_neg hnew, Handoff.start, Handoff.takeUntil_of_cons hstored] at hturn
    have hone : ((s.handoff served waiting).popMany 1).2.removed = s.queue.removed + 1 := by
      simp only [Handoff.popMany, hstored, List.length_cons]
      rw [Nat.min_eq_left (Nat.succ_pos _)]
      rfl
    exact hone ▸ hturn
  exact step_start_returned hc (takeUntil_item hintact (Seated.pop_item hitems hremoved))

/-- A call that comes too late does not join the line. -/
theorem step_start_past (hitems : s.queue.items = []) (hnow : deadline ≤ s.now) (refusing : Bool)
    (jumps : List Time) :
    s.step ⟨.start c (.takeUntil deadline), refusing, jumps⟩ =
      stillOpen ({ s with now := (Clock.mk s.now jumps).read.2.now }.answer (.delivered none)) := by
  let scene := s.scene ⟨.start c (.takeUntil deadline), refusing, jumps⟩
  have hintact : scene.queue.broken = false := broken_of_represents hrepresents
  exact step_start_returned hc (takeUntil_past hintact (Seated.pop_nothing hitems) hnow)

end Represents

/-- A call with a deadline, in any state that a queue can come to, whatever the others do and
however the clock moves on. An item that is stored it returns without a look at the clock. With none
stored it comes back at once, if it is too late already, and changes nothing. Otherwise it joins the
line, and from then on every turn without an item of its own gives up if the clock reads the
deadline or later, and sleeps for exactly the time that is left if not. The limits of its sleeps
never grow, and an item that it was served it takes along without a look at the clock. -/
theorem run_keeps_deadline {opening : Opening} {before : List (Step α)}
    (hopen : open? opening = some s)
    (hcount : Handoff.CountFits (some Handoff.empty)
      (before ++ [⟨.start c (.takeUntil deadline), refusing, jumps⟩]))
    (hbefore : (run (some s) before).1 = some s₁) (hc : s₁.sleeper? c = none) :
    let first : Step α := ⟨.start c (.takeUntil deadline), refusing, jumps⟩
    let reading := (Clock.mk s₁.now jumps).read.2.now
    (∀ item items, s₁.queue.items = item :: items →
        s₁.step first =
          stillOpen ({ s₁ with queue :=
            { s₁.queue with items, removed := s₁.queue.removed + 1 } }.answer
              (.delivered (some item)))) ∧
      (s₁.queue.items = [] → deadline ≤ s₁.now →
        s₁.step first = stillOpen ({ s₁ with now := reading }.answer (.delivered none))) ∧
      (s₁.queue.items = [] → s₁.now < deadline →
        ∃ place queue, s₁.queue.join = .ok (place, queue) ∧
          s₁.Bides c place deadline reading refusing (s₁.step first) ∧
          ∀ s₂ during refusing' jumps', reading < deadline → (s₁.step first).1 = some s₂ →
            s₂.SleepsOn c during →
            let last : Step α := ⟨.wake c, refusing', jumps'⟩
            Handoff.CountFits (some Handoff.empty) (before ++ first :: (during ++ [last])) →
              ∃ s₃, (run (some s₂) during).1 = some s₃ ∧
                ((s₁.limits c (first :: during)).Pairwise fun limit limit' => limit' ≤ limit) ∧
                (∀ item, s₃.held? c = some item →
                  ∃ s₄, s₃.step last =
                      (some s₄,
                        { reply := if refusing' then .panicked (.refused (.collected place.slot))
                            else .delivered (some item)
                          notified := []
                          logged := if refusing' then [] else [.collected place.slot]
                          destroyed := if refusing' then [item] else []
                          stats := some s₄.queue.stats }) ∧
                    s₄.now = s₃.now) ∧
                (s₃.held? c = none →
                  s₃.Bides c place deadline s₃.now refusing' (s₃.step last))) := by
  intro first reading
  obtain ⟨rfl, -⟩ := open?_eq_some_iff.mp hopen
  obtain ⟨hfits, hrest⟩ := hcount.of_append
  obtain ⟨h₁, hh₁, hrepresents₁⟩ := exists_represents represents_empty hfits hbefore
  rw [hh₁] at hrest
  refine ⟨?_, ?_, ?_⟩
  · intro item items hitems
    exact hrepresents₁.step_start_item hc hitems hrest
  · intro hitems hnow
    exact hrepresents₁.step_start_past hc hitems hnow refusing jumps
  · intro hitems hnow
    obtain ⟨place, queue, hjoin, hbides⟩ :=
      hrepresents₁.exists_start_bides hc hitems hnow refusing jumps
    refine ⟨place, queue, hjoin, hbides, ?_⟩
    intro s₂ during refusing' jumps' hreading hstep hsleeps last hcount'
    obtain ⟨s', hasleep, -, -, hlater, hsleeper, -, -⟩ := hbides.early hreading
    have hentry : s₁.step first = stillOpen (s'.answer (.asleep (some (deadline - reading)))) :=
      hasleep
    obtain rfl : s' = s₂ := Option.some.inj ((congrArg Prod.fst hasleep).symm.trans hstep)
    have hrest' := hcount'.of_append.2
    rw [hh₁] at hrest'
    obtain ⟨hrepresents₂, -, hcount₂⟩ := hrepresents₁.turn_of_step hrest' hstep
    have hwaits : s'.Waits _ c place deadline := ⟨hrepresents₂, hsleeper⟩
    obtain ⟨s₃, h₃, hlast, hwaits₃, hcount₃, hle, hpairwise⟩ := hwaits.exists_run hcount₂ hsleeps
    refine ⟨s₃, hlast, ?_, ?_, ?_⟩
    · have hfirst : s₁.limits c (first :: during) = (deadline - reading) :: s'.limits c during := by
        rw [limits_cons hstep, hentry]
        simp [first, Action.runs, Entry.limit?, stillOpen, answer]
      rw [hfirst]
      refine List.Pairwise.cons (fun limit hmem => ?_) hpairwise
      exact Time.le_trans (hle limit hmem) (Time.sub_le_sub_left hlater deadline)
    · intro item hheld
      exact hwaits₃.exists_wake hheld hcount₃
    · intro hheld
      exact hwaits₃.wake_bides hheld refusing' jumps'

/-- The clock moves on while a consumer joins the line, which wakes up too early and then gives up,
but the log refuses to hear of it. -/
theorem run_keeps_deadline_woken :
    let one : Time := { secs := 1, nanos := 0 }
    let five : Time := { secs := 5, nanos := 0 }
    let opened : Session Nat := ofQueue Queue.empty
    let joined := (opened.act (.start 1 (.takeUntil five)) [one]).1
    let woken := ((joined.act (.start 2 .take) []).1.act (.wake 1) [five]).1
    ((opened.limits 1 [⟨.start 1 (.takeUntil five), false, [one]⟩, ⟨.start 2 .take, false, []⟩,
        ⟨.wake 1, false, [five]⟩]).Pairwise fun limit limit' => limit' ≤ limit) ∧
      ∃ s₄, woken.step ⟨.wake 1, true, []⟩ = (some s₄, s₄.timeUp 0 true) ∧ woken.GivesUp 1 s₄ := by
  intro one five opened joined woken
  let during : List (Step Nat) := [⟨.start 2 .take, false, []⟩, ⟨.wake 1, false, [five]⟩]
  have hopen : open? .plain = some opened := rfl
  have hfits : Handoff.CountFits (some Handoff.empty)
      ([] ++ [⟨.start 1 (.takeUntil five), false, [one]⟩] : List (Step Nat)) := by decide
  have hcount : Handoff.CountFits (some Handoff.empty)
      ([] ++ ⟨.start 1 (.takeUntil five), false, [one]⟩ :: (during ++ [⟨.wake 1, true, []⟩])) := by
    decide
  obtain ⟨-, -, hwait⟩ := run_keeps_deadline hopen hfits (by rfl) (by rfl)
  obtain ⟨place, queue, hjoin, -, hturns⟩ := hwait rfl (by decide)
  obtain ⟨s₃, hlast, hlimits, -, hbides⟩ :=
    hturns joined during true [] (by decide) (by decide) (by decide) hcount
  obtain rfl : woken = s₃ := Option.some.inj ((show _ = some woken by decide).symm.trans hlast)
  obtain ⟨s₄, hstep, hgone⟩ := (hbides (by decide)).due (by decide)
  have hplace : place.slot = 0 := by
    have hfirst := congrArg (Except.map fun joined => joined.1.slot) hjoin
    exact (Except.ok.inj hfirst).symm
  rw [hplace] at hstep
  exact ⟨hlimits, s₄, hstep, hgone⟩

end Session

end FairQueue
