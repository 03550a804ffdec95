import FairQueue.Proofs.Call.GivingUp
import FairQueue.Proofs.Session.Deadline
import FairQueue.Proofs.Session.Intact

/-!
Nobody gives up a place that it was served on. From the moment a consumer joins the line, or finds
that its slot keeps no item, until it gives up its place the lock is not let go, and so nobody can
come in between.
-/

namespace FairQueue

open Call

variable {α : Type}

theorem Queue.line_collect_none {q q' : Queue α} {i : Nat}
    (hcollect : q.collect i = .ok (none, q')) : q.line.collect i = .ok (none, q'.line) := by
  simp only [collect, bind, Except.bind] at hcollect
  split at hcollect
  · cases hcollect
  · rename_i collected hline
    obtain ⟨_ | item, l⟩ := collected
    · cases hcollect
      exact hline
    · dsimp only at hcollect
      split at hcollect <;> cases hcollect

theorem Seated.occupancy?_of_waiting {q : Queue α} {r : Roster α} {served : List (Seat × α)}
    {waiting : List Seat} {x : Seat} (h : Seated q r served waiting) (hx : x ∈ waiting) :
    ∃ ahead behind, q.line.occupancy? x.slot = some (.waiting ahead behind) :=
  h.layout.linked.occupancy_of_mem (h.waiting_eq ▸ List.mem_map_of_mem hx)

namespace Session

variable {s s₁ : Session α} {h : Handoff α} {step : Step α} {c : Consumer} {place : Place}
  {q : Queue α} {clock : Clock} {approach : Call α (Approach α)} {removal : Removal}
  {sleeper : Sleeper}

/-- The consumer that runs in a step, if one does, and its turn until it gives up its place or the
turn is over. -/
def approach? (s : Session α) : Action α → Option (Consumer × Call α (Approach α))
  | .start c removal => if (s.sleeper? c).isSome then none else some (c, removal.approach)
  | .wake c => (s.sleeper? c).map fun sleeper => (c, approachAwake sleeper)
  | _ => none

/-- The consumer `c` waits in the line, on a slot that nobody else holds: it was asleep on it, and
nothing has happened to the queue since it woke up, or it has just joined the line. -/
structure Owns (s : Session α) (q : Queue α) (c : Consumer) (place : Place) : Prop where
  waits : ∃ ahead behind, q.line.occupancy? place.slot = some (.waiting ahead behind)
  alone : ∀ x ∈ s.sleepers, x.1 ≠ c → x.2.place.slot ≠ place.slot
  given : match s.sleeper? c with
    | some sleeper => sleeper.place = place ∧ q = s.queue
    | none => s.queue.join = .ok (place, q)

theorem step_eq_approach (happroach : s.approach? step.action = some (c, approach)) :
    s.step step = stillOpen (s.consume step c (approach >>= Approach.finish)) := by
  obtain ⟨action, refusing, jumps⟩ := step
  cases action with
  | start d removal =>
      simp only [approach?] at happroach
      split at happroach
      · cases happroach
      · rename_i hawake
        cases happroach
        rw [step_start (Option.not_isSome_iff_eq_none.mp hawake), call_eq_approach]
  | wake d =>
      obtain ⟨sleeper, hasleep, heq⟩ := Option.map_eq_some_iff.mp happroach
      cases heq
      rw [step_wake hasleep, resume_eq_approach]
  | _ => cases happroach

/-- Of a call that is about to give up: the lock is intact, the queue is as it was when the consumer
woke up, or with the consumer at the end of the line, and the rest is as it was but for the time. -/
theorem approach_due_cases {scene : Scene α}
    (happroach : s.approach? step.action = some (c, approach))
    (hdue : approach (s.scene step) = .ok (.due place) scene) :
    s.queue.broken = false ∧
      ((s.sleeper? c = none ∧ s.queue.items = [] ∧ s.queue.join = .ok (place, scene.queue)) ∨
        ∃ sleeper, s.sleeper? c = some sleeper ∧ sleeper.place = place ∧ scene.queue = s.queue ∧
          s.queue.collect place.slot = .ok (none, s.queue)) ∧
      ∃ clock, scene = { s.scene step with queue := scene.queue, clock } := by
  obtain ⟨action, refusing, jumps⟩ := step
  cases action with
  | start d removal =>
      simp only [approach?] at happroach
      split at happroach
      · cases happroach
      · rename_i hawake
        cases happroach
        obtain ⟨hintact, hitems, queue, clock, hjoin, rfl⟩ := approach_due hdue
        exact ⟨hintact, .inl ⟨Option.not_isSome_iff_eq_none.mp hawake, hitems, hjoin⟩, clock, rfl⟩
  | wake d =>
      obtain ⟨sleeper, hasleep, heq⟩ := Option.map_eq_some_iff.mp happroach
      cases heq
      obtain ⟨hintact, rfl, hcollect, clock, rfl⟩ := approachAwake_due hdue
      exact ⟨hintact, .inr ⟨sleeper, hasleep, rfl, rfl, hcollect⟩, clock, rfl⟩
  | _ => cases happroach

namespace Represents

variable (hrepresents : s.Represents h)

include hrepresents

/-- Whoever has just joined has a seat in the line. -/
theorem exists_seated_join (hasleep : s.sleeper? c = none) (hitems : s.queue.items = [])
    (hjoin : s.queue.join = .ok (place, q)) :
    ∃ r served waiting, Seated q r served waiting ∧
      (c, Sleeper.mk place (.endless 0)) ∈ waiting ∧
      ∀ x ∈ s.sleepers, x ∈ served.map (·.1) ++ waiting := by
  obtain ⟨r, served, waiting, hseated, hsleepers, -⟩ := hrepresents
  have hnew := sleeper?_eq_none_iff.mp hasleep
  -- how long it is going to wait has nothing to do with its seat
  obtain ⟨place', line, hjoin', hseated'⟩ :=
    hseated.exists_join hitems (hsleepers ▸ hnew) (.endless 0)
  obtain ⟨rfl, rfl⟩ := Prod.mk.inj (Except.ok.inj (hjoin'.symm.trans hjoin))
  refine ⟨_, served, _, hseated', List.mem_concat_self, fun x hx => ?_⟩
  rw [← List.append_assoc]
  exact List.mem_append_left _ (hsleepers ▸ hx)

/-- Whoever finds no item in its slot has a seat in the line. -/
theorem exists_seated_collect (hasleep : s.sleeper? c = some sleeper)
    (hcollect : s.queue.collect sleeper.place.slot = .ok (none, s.queue)) :
    ∃ r served waiting, Seated s.queue r served waiting ∧ (c, sleeper) ∈ waiting ∧
      ∀ x ∈ s.sleepers, x ∈ served.map (·.1) ++ waiting := by
  obtain ⟨r, served, waiting, hseated, hsleepers, -⟩ := hrepresents
  have hx := mem_of_sleeper? hasleep
  refine ⟨r, served, waiting, hseated, ?_, fun x hx => hsleepers ▸ hx⟩
  refine (List.mem_append.mp (hsleepers ▸ hx)).resolve_left fun hserved => ?_
  obtain ⟨y, hy, hseat⟩ := List.mem_map.mp hserved
  have hkept := hseated.kept y hy
  rw [hseat] at hkept
  obtain ⟨hyielded, -⟩ := hseated.layout.collect_served hkept
  have hnothing := Queue.line_collect_none hcollect
  cases hyielded.symm.trans hnothing

end Represents

/-- Whoever is about to give up owns a place in the line, and finds no item when it leaves. -/
theorem owns_of_due {scene : Scene α} (hrepresents : s.Represents h)
    (happroach : s.approach? step.action = some (c, approach))
    (hdue : approach (s.scene step) = .ok (.due place) scene) :
    s.Owns scene.queue c place ∧ scene.queue.broken = false ∧
      ∃ line, scene.queue.leave place.slot = .ok (none, { scene.queue with line }) := by
  obtain ⟨-, hcases, -⟩ := approach_due_cases happroach hdue
  obtain ⟨sleeper, rfl, hgiven, r, served, waiting, hseated, hmem, hothers⟩ :
      ∃ sleeper : Sleeper, sleeper.place = place ∧
        (match s.sleeper? c with
          | some sleeper => sleeper.place = place ∧ scene.queue = s.queue
          | none => s.queue.join = .ok (place, scene.queue)) ∧
        ∃ r served waiting, Seated scene.queue r served waiting ∧ (c, sleeper) ∈ waiting ∧
          ∀ x ∈ s.sleepers, x ∈ served.map (·.1) ++ waiting := by
    rcases hcases with ⟨hasleep, hitems, hjoin⟩ | ⟨sleeper, hasleep, hplace, hqueue, hcollect⟩
    · refine ⟨⟨place, .endless 0⟩, rfl, by rw [hasleep]; exact hjoin, ?_⟩
      exact hrepresents.exists_seated_join hasleep hitems hjoin
    · refine ⟨sleeper, hplace, by rw [hasleep]; exact ⟨hplace, hqueue⟩, ?_⟩
      rw [hqueue]
      exact hrepresents.exists_seated_collect hasleep (hplace ▸ hcollect)
  refine ⟨⟨hseated.occupancy?_of_waiting hmem, fun x hx hne hslot => ?_, hgiven⟩,
    hseated.intact, ?_⟩
  · have hsame := hseated.eq_of_slot_eq (hothers x hx) (List.mem_append_right _ hmem) hslot
    exact hne (congrArg Prod.fst hsame)
  · obtain ⟨line, hleave, -⟩ := hseated.exists_leave hmem
    exact ⟨line, hleave⟩

/-- The give-up path never meets a served slot. Whatever was done to a new queue, take any turn of
any call in it, the first one or one after a wake-up. If it comes to the point where the consumer
gives up its place, then that place is waiting in the line and belongs to this consumer and to
nobody else. So the consumer leaves the line without an item, nothing is counted as removed, and the
event that it reports is that its time is up. -/
theorem run_gives_up_waiting {opening : Opening} {before : List (Step α)}
    (hopen : open? opening = some s) (hbefore : (run (some s) before).1 = some s₁)
    (happroach : s₁.approach? step.action = some (c, approach)) :
    s₁.step step = stillOpen (s₁.consume step c (approach >>= Approach.finish)) ∧
      ∀ place scene, approach (s₁.scene step) = .ok (.due place) scene →
        s₁.Owns scene.queue c place ∧
        ∃ queue s₂, scene.queue.leave place.slot = .ok (none, queue) ∧
          queue.removed = scene.queue.removed ∧ s₂.queue = queue ∧
          s₁.step step = (some s₂, s₂.timeUp place.slot step.refusing) := by
  refine ⟨step_eq_approach happroach, fun place scene hdue => ?_⟩
  obtain ⟨hintact, -, clock, hscene⟩ := approach_due_cases happroach hdue
  obtain ⟨h, hrepresents⟩ := exists_represents_of_intact hopen hbefore hintact
  obtain ⟨howns, hunbroken, line, hleave⟩ := owns_of_due hrepresents happroach hdue
  let left : Queue α := { scene.queue with line }
  refine ⟨howns, left, { s₁ with queue := left, now := clock.now }.withoutSleeper c, hleave, rfl,
    rfl, ?_⟩
  have hcall : (approach >>= Approach.finish) (s₁.scene step) =
      conclude (some (.timedOut place.slot)) [] (.returned none)
        { s₁.scene step with queue := left, clock } := by
    rw [bind_of_ok hdue, hscene]
    rw [hscene] at hunbroken hleave
    exact giveUp_of_leave hunbroken hleave
  rw [step_eq_approach happroach, consume_eq (fun _ => rfl) hcall, stillOpen, concluded_some]
  cases step.refusing <;> rfl

/-- Two consumers wait. The first one is served and collects its item, a third one takes its slot,
and the second one is served. Then it is too late for the third one. -/
theorem run_gives_up_waiting_reused :
    let five : Time := { secs := 5, nanos := 0 }
    let before : List (Step Nat) :=
      [⟨.start 1 .take, false, []⟩, ⟨.start 2 .take, false, []⟩, ⟨.put 7, false, []⟩,
        ⟨.wake 1, false, []⟩, ⟨.start 3 (.takeUntil five), false, []⟩, ⟨.put 8, false, []⟩,
        ⟨.advance five, false, []⟩]
    let sleeper : Sleeper := { place := ⟨0, 0⟩, patience := .deadline five }
    ∃ s₁ scene s₂, (run (open? .plain) before).1 = some s₁ ∧
      approachAwake sleeper (s₁.scene ⟨.wake 3, false, []⟩) = .ok (.due ⟨0, 0⟩) scene ∧
      s₁.Owns scene.queue 3 ⟨0, 0⟩ ∧
      s₁.step ⟨.wake 3, false, []⟩ = (some s₂, s₂.timeUp 0 false) := by
  intro five before sleeper
  let late : Session Nat :=
    { queue :=
        { items := []
          line :=
            { slots := #[⟨0, .waiting none none⟩, ⟨1, .served 8⟩]
              front := some 0
              back := some 0
              vacancy := none
              size := 1 }
          removed := 1
          broken := false }
      now := five
      sleepers := [(2, { place := ⟨1, 1⟩, patience := .endless 1 }), (3, sleeper)]
      iterators := [] }
  let step : Step Nat := ⟨.wake 3, false, []⟩
  have hopen : open? .plain = some (ofQueue (Queue.empty : Queue Nat)) := rfl
  have hbefore : (run (open? .plain) before).1 = some late := by decide
  have happroach : late.approach? step.action = some (3, approachAwake sleeper) := rfl
  have hdue : approachAwake sleeper (late.scene step) = .ok (.due ⟨0, 0⟩) (late.scene step) := rfl
  obtain ⟨-, hdead⟩ := run_gives_up_waiting hopen hbefore happroach
  obtain ⟨howns, queue, s₂, -, -, -, hstep⟩ := hdead _ _ hdue
  exact ⟨late, _, s₂, hbefore, hdue, howns, hstep⟩

end Session

end FairQueue
