import FairQueue.Proofs.Session.Deadline
import FairQueue.Proofs.Session.Patience

/-!
Two runs beside each other, of which one gives a consumer more patience. While the consumer sleeps
the sessions differ in its patience and in nothing else, and so it is served in both at the same
time.
-/

namespace FairQueue

open Call

variable {α : Type}

/-- The same event, whatever patience the consumer had. -/
def Event.plain : Event → Event
  | collectedBehind slot _ => collected slot
  | event => event

theorem Event.plain_withPatience (event : Event) (patience : Patience) :
    (event.withPatience patience).plain = event.plain := by
  cases event <;> cases patience <;> rfl

def Reply.withLimit (limit : Option Time) : Reply α → Reply α
  | asleep _ => .asleep limit
  | reply => reply

namespace Entry

/-- What is seen of the same turn of a consumer with another patience. -/
def withPatience (e : Entry α) (patience : Patience) (now : Time) : Entry α :=
  { e with
    reply := e.reply.withLimit (patience.limit? now)
    logged := e.logged.map (Event.withPatience patience) }

/-- An entry without the limit of a sleep and without what a consumer tells of its patience when it
collects its item. -/
def plain (e : Entry α) : Entry α :=
  { e with
    reply := e.reply.withLimit none
    logged := e.logged.map Event.plain }

theorem plain_withPatience (e : Entry α) (patience : Patience) (now : Time) :
    (e.withPatience patience now).plain = e.plain := by
  have hreply : (e.reply.withLimit (patience.limit? now)).withLimit none =
      e.reply.withLimit none := by
    cases e.reply <;> rfl
  have hlogged : (e.logged.map (Event.withPatience patience)).map Event.plain =
      e.logged.map Event.plain := by
    rw [List.map_map]
    exact List.map_congr_left fun event _ => event.plain_withPatience patience
  simp only [plain, withPatience, hreply, hlogged]

theorem limit?_withPatience {patience : Patience} {now : Time} (e : Entry α)
    (hendless : patience.limit? now = none) : (e.withPatience patience now).limit? = none := by
  simp only [limit?, withPatience, hendless]
  cases e.reply <;> rfl

end Entry

/-- What is seen of these steps, with nothing that tells how patient `c` is. -/
def plainly (c : Consumer) (steps : List (Step α)) (entries : List (Entry α)) : List (Entry α) :=
  List.zipWith (fun step entry => if step.action.runs c then entry.plain else entry) steps entries

namespace Session

variable {s s₁ : Session α} {c : Consumer} {patience : Patience} {step step' : Step α}
  {steps rest : List (Step α)} {deadline : Time} {item : α} {progress : Progress α}
  {refusing : Bool} {removal removal' : Removal} {scene' : Scene α}

/-- The call that `c` makes in these steps returns `item` in the last of them: it is asleep between
them. -/
inductive Obtains (c : Consumer) (item : α) : Session α → List (Step α) → Prop where
  | returns {s : Session α} {step : Step α} (hruns : step.action.runs c = true)
      (hreply : (s.step step).2.reply = .delivered (some item)) : Obtains c item s [step]
  | waits {s s₁ : Session α} {step : Step α} {rest : List (Step α)}
      (hstep : (s.step step).1 = some s₁) (hasleep : (s₁.sleeper? c).isSome)
      (hrest : Obtains c item s₁ rest) : Obtains c item s (step :: rest)

/-- If `c` is asleep, then in a call with this deadline. -/
def Bound (s : Session α) (c : Consumer) (deadline : Time) : Prop :=
  ∀ sleeper ∈ s.sleeper? c, sleeper.patience = .deadline deadline

/-- In this step the call of `c` goes on or returns an item. -/
def Furthers (s : Session α) (c : Consumer) (step : Step α) : Prop :=
  (∃ item, (s.step step).2.reply = .delivered (some item)) ∨
    ∃ s₁, (s.step step).1 = some s₁ ∧ (s₁.sleeper? c).isSome

/-- The two steps and what is seen of them differ in the patience of `c` only, and so do the
sessions before and after them. If `c` sleeps afterwards, then still in the call with this deadline.
-/
structure Eases (s : Session α) (c : Consumer) (patience : Patience) (deadline : Time)
    (step step' : Step α) : Prop where
  runs : step'.action.runs c = step.action.runs c
  same : (s.withPatience c patience).step step' =
    ((s.step step).1.map (·.withPatience c patience),
      if step.action.runs c then (s.step step).2.withPatience patience s.now else (s.step step).2)
  bound : ∀ s₁, (s.step step).1 = some s₁ → s₁.Bound c deadline

theorem entry_recast (s : Session α) (patience : Patience) (progress : Progress α)
    (scene : Scene α) :
    s.entry (scene.withPatience patience) (progress.withPatience patience s.now).reply =
      (s.entry scene progress.reply).withPatience patience s.now := by
  cases progress <;> rfl

/-- A consumer that was told of its item is not asleep any more. -/
theorem exists_awake {item? : Option α} (hruns : step.action.runs c = true)
    (hreply : (s.step step).2.reply = .delivered item?) :
    ∃ s₁, (s.step step).1 = some s₁ ∧ s₁.sleeper? c = none := by
  have hreturned : ∀ call, (s.consume step c call).2.reply = .delivered item? →
      (s.consume step c call).1.sleeper? c = none := by
    intro call hdelivered
    cases hcall : call (s.scene step) with
    | ok progress scene' =>
        rw [consume_of_ok hcall] at hdelivered ⊢
        rw [sleeper?_heard]
        cases progress with
        | returned item => rfl
        | asleep sleeper limit => cases hdelivered
    | error panic scene' =>
        rw [consume_of_error hcall] at hdelivered
        cases hdelivered
  obtain ⟨action, refusing, jumps⟩ := step
  cases action with
  | start d removal =>
      obtain rfl : d = c := of_decide_eq_true hruns
      cases hd : s.sleeper? d with
      | some sleeper =>
          simp only [Session.step, hd] at hreply
          cases hreply
      | none =>
          rw [step_start hd] at hreply ⊢
          exact ⟨_, rfl, hreturned _ hreply⟩
  | wake d =>
      obtain rfl : d = c := of_decide_eq_true hruns
      cases hd : s.sleeper? d with
      | some sleeper =>
          rw [step_wake hd] at hreply ⊢
          exact ⟨_, rfl, hreturned _ hreply⟩
      | none =>
          simp only [Session.step, hd] at hreply
          cases hreply
  | _ => cases hruns

section Turn

variable {call call' : Call α (Progress α)}
  (hstep : s.step step = stillOpen (s.consume step c call))

include hstep

theorem Furthers.exists_progress (hfurthers : s.Furthers c step) :
    ∃ progress scene', call (s.scene step) = .ok progress scene' ∧ progress ≠ .returned none := by
  have hvain : ∀ (t : Session α) (e : Entry α), (∀ item, e.reply ≠ .delivered (some item)) →
      s.consume step c call ≠ (t.heard c (.returned none), e) := by
    intro t e hreply hconsume
    rw [Furthers, hstep, hconsume] at hfurthers
    obtain ⟨item, hdelivered⟩ | ⟨s₁, hs₁, hasleep⟩ := hfurthers
    · exact hreply item hdelivered
    · cases hs₁
      rw [sleeper?_heard] at hasleep
      cases hasleep
  cases hcall : call (s.scene step) with
  | ok progress scene' =>
      refine ⟨progress, scene', rfl, ?_⟩
      rintro rfl
      exact hvain _ _ (by rintro item ⟨⟩) (consume_of_ok hcall)
  | error panic scene' =>
      exact absurd (consume_of_error hcall) (hvain _ _ (by rintro item ⟨⟩))

/-- A turn eases if the call does. -/
theorem eases_of_call
    (hstep' : (s.withPatience c patience).step step' =
      stillOpen ((s.withPatience c patience).consume step' c call'))
    (hruns : step.action.runs c = true) (hruns' : step'.action.runs c = true)
    (hbound : ∀ sleeper ∈ progress.sleeper?, sleeper.patience = .deadline deadline)
    (hcall : call (s.scene step) = .ok progress scene')
    (hcall' : call' (s.scene step') =
      .ok (progress.withPatience patience s.now) (scene'.withPatience patience)) :
    s.Eases c patience deadline step step' := by
  have hconsume := consume_of_ok (c := c) hcall
  have hconsume' : (s.withPatience c patience).consume step' c call' = _ := consume_of_ok hcall'
  constructor
  · rw [hruns, hruns']
  · rw [hstep', hstep, hconsume, hconsume', if_pos hruns]
    refine Prod.ext ?_ ?_
    · exact congrArg some (heard_withPatience_self (s := s.after scene') progress s.now)
    · exact (s.entry_withPatience c patience _ _).trans (s.entry_recast patience progress scene')
  · intro s₁ hs₁ sleeper hsleeper
    rw [hstep, hconsume] at hs₁
    cases hs₁
    rw [sleeper?_heard] at hsleeper
    exact hbound sleeper hsleeper

end Turn

/-- A call may as well start with more patience. -/
theorem eases_start (hc : s.sleeper? c = none)
    (hdeadline : removal.deadline? s.now = some deadline)
    (hlonger : ∀ later, removal'.deadline? s.now = some later → deadline ≤ later)
    (hfurthers : s.Furthers c ⟨.start c removal, refusing, []⟩) :
    s.Eases c (removal'.patience s.now s.queue.line.size) deadline
      ⟨.start c removal, refusing, []⟩ ⟨.start c removal', refusing, []⟩ := by
  have hstep := step_start hc removal refusing []
  obtain ⟨progress, scene', hcall, hkept⟩ := hfurthers.exists_progress hstep
  have hstands : (s.scene ⟨.start c removal, refusing, []⟩).clock.jumps = [] := rfl
  obtain ⟨hbound, hcall'⟩ := call_outlasts hstands rfl hdeadline hlonger hcall hkept
  have hstep' := step_start hc removal' refusing []
  rw [← withPatience_of_awake hc (removal'.patience s.now s.queue.line.size)] at hstep'
  refine eases_of_call hstep hstep' ?_ ?_ hbound hcall hcall'
  · exact decide_eq_true rfl
  · exact decide_eq_true rfl

/-- Whatever step is taken while `c` sleeps, it may as well sleep with more patience. -/
theorem eases_asleep (hasleep : (s.sleeper? c).isSome) (hbound : s.Bound c deadline)
    (houtlasts : patience.Outlasts deadline)
    (hstill : step.action.runs c = true → step.jumps = []) (hfurthers : s.Furthers c step) :
    s.Eases c patience deadline step step := by
  obtain ⟨sleeper, hasleep⟩ := Option.isSome_iff_exists.mp hasleep
  have hpatience : sleeper.patience = .deadline deadline := hbound sleeper hasleep
  have hasleep' : (s.withPatience c patience).sleeper? c = some { sleeper with patience } := by
    rw [sleeper?_withPatience, hasleep, Option.map_some, Seat.withPatience, if_pos rfl]
  cases hruns : step.action.runs c with
  | false =>
      refine ⟨rfl, ?_, fun s₁ hs₁ sleeper' hsleeper' => ?_⟩
      · rw [step_withPatience hruns, hruns]
        rfl
      · rw [sleeper?_step hruns hs₁] at hsleeper'
        exact hbound sleeper' hsleeper'
  | true =>
      obtain ⟨action, refusing, jumps⟩ := step
      obtain rfl : jumps = [] := hstill hruns
      cases action with
      | wake d =>
          obtain rfl : d = c := of_decide_eq_true hruns
          have hstep := step_wake hasleep refusing []
          obtain ⟨progress, scene', hcall, hkept⟩ := hfurthers.exists_progress hstep
          have hstands : (s.scene ⟨.wake d, refusing, []⟩).clock.jumps = [] := rfl
          obtain ⟨hbound', hcall'⟩ :=
            resume_outlasts hstands rfl hpatience houtlasts hcall hkept
          have hstep' := step_wake hasleep' refusing []
          exact eases_of_call hstep hstep' hruns hruns hbound' hcall hcall'
      | start d removal =>
          obtain rfl : d = c := of_decide_eq_true hruns
          refine ⟨rfl, ?_, fun s₁ hs₁ => ?_⟩
          · rw [step_busy hasleep, step_busy hasleep', hruns]
            rfl
          · rw [step_busy hasleep] at hs₁
            cases hs₁
            exact hbound
      | _ => cases hruns

/-- With more patience the consumer obtains the item as well. Both runs show the same but for its
patience, of which nothing is left in the session at the end. -/
structure Endures (s : Session α) (c : Consumer) (patience : Patience) (item : α)
    (steps steps' : List (Step α)) : Prop where
  obtains : (s.withPatience c patience).Obtains c item steps'
  last : ∃ s₁, (run (some s) steps).1 = some s₁ ∧
    (run (some (s.withPatience c patience)) steps').1 = some s₁
  seen : plainly c steps' (run (some (s.withPatience c patience)) steps').2 =
    plainly c steps (run (some s) steps).2
  limits : (∀ now, patience.limit? now = none) → (s.withPatience c patience).limits c steps' = []

namespace Eases

variable (heases : s.Eases c patience deadline step step')

include heases

theorem plain_eq :
    (if step'.action.runs c then ((s.withPatience c patience).step step').2.plain
      else ((s.withPatience c patience).step step').2) =
      if step.action.runs c then (s.step step).2.plain else (s.step step).2 := by
  rw [heases.runs, heases.same]
  split
  · exact Entry.plain_withPatience _ _ _
  · rfl

theorem limit?_eq_none (hendless : ∀ now, patience.limit? now = none) :
    (if step'.action.runs c then ((s.withPatience c patience).step step').2.limit? else none) =
      none := by
  rw [heases.runs, heases.same]
  split
  · exact Entry.limit?_withPatience _ (hendless _)
  · rfl

theorem waits (hstep : (s.step step).1 = some s₁) (hasleep : (s₁.sleeper? c).isSome)
    (hrest : s₁.Endures c patience item rest rest) :
    s.Endures c patience item (step :: rest) (step' :: rest) := by
  have hstep' : ((s.withPatience c patience).step step').1 = some (s₁.withPatience c patience) := by
    rw [heases.same, hstep]
    rfl
  obtain ⟨s₂, hlast, hlast'⟩ := hrest.last
  refine ⟨.waits hstep' ?_ hrest.obtains, ⟨s₂, ?_, ?_⟩, ?_, fun hendless => ?_⟩
  · rwa [sleeper?_withPatience, Option.isSome_map]
  · rw [run_cons hstep]
    exact hlast
  · rw [run_cons hstep']
    exact hlast'
  · rw [run_cons hstep, run_cons hstep']
    exact congrArg₂ List.cons heases.plain_eq hrest.seen
  · rw [limits_cons hstep', heases.limit?_eq_none hendless, hrest.limits hendless]
    rfl

theorem returns (hruns : step.action.runs c = true)
    (hreply : (s.step step).2.reply = .delivered (some item)) :
    s.Endures c patience item [step] [step'] := by
  obtain ⟨s₁, hstep, hawake⟩ := exists_awake hruns hreply
  have hstep' : ((s.withPatience c patience).step step').1 = some s₁ := by
    rw [heases.same, hstep]
    exact congrArg some (withPatience_of_awake hawake patience)
  refine ⟨.returns (heases.runs.trans hruns) ?_, ⟨s₁, ?_, ?_⟩, ?_, fun hendless => ?_⟩
  · rw [heases.same, if_pos hruns]
    exact congrArg (Reply.withLimit _) hreply
  · rw [run_cons hstep]
    rfl
  · rw [run_cons hstep']
    rfl
  · rw [run_cons hstep, run_cons hstep']
    exact congrArg (· :: []) heases.plain_eq
  · rw [limits_cons hstep', heases.limit?_eq_none hendless]
    rfl

end Eases

/-- Whoever obtains an item with some patience obtains it with more. -/
theorem Obtains.endures (hobtains : s.Obtains c item steps) (hasleep : (s.sleeper? c).isSome)
    (hbound : s.Bound c deadline) (houtlasts : patience.Outlasts deadline)
    (hstill : ∀ step ∈ steps, step.action.runs c = true → step.jumps = []) :
    s.Endures c patience item steps steps := by
  -- before every step the sessions differ in the patience of `c` only, which is asleep in both
  induction hobtains with
  | returns hruns hreply =>
      have heases := eases_asleep hasleep hbound houtlasts (hstill _ List.mem_cons_self)
        (.inl ⟨_, hreply⟩)
      exact heases.returns hruns hreply
  | waits hstep hasleep' hrest ih =>
      have heases := eases_asleep hasleep hbound houtlasts (hstill _ List.mem_cons_self)
        (.inr ⟨_, hstep, hasleep'⟩)
      refine heases.waits hstep hasleep' (ih hasleep' (heases.bound _ hstep) ?_)
      exact fun step hmem => hstill step (List.mem_cons_of_mem _ hmem)

/-- A longer deadline never costs an item. A call with a deadline that obtains an item, in any
session and whatever the others do meanwhile, obtains the same item in the same step if it gives up
later or never, as long as the clock stands still in its own steps. Then every step shows the same,
but for the limits of the call's own sleeps, of which there are none if it never gives up, and but
for the wording of its own event; and from then on the two runs are one. -/
theorem run_outlasts_deadline {before : List (Step α)}
    (hbefore : (run (some s) before).1 = some s₁) (hc : s₁.sleeper? c = none)
    (hdeadline : removal.deadline? s₁.now = some deadline)
    (hlonger : ∀ later, removal'.deadline? s₁.now = some later → deadline ≤ later)
    (hstill : ∀ step ∈ rest, step.action.runs c = true → step.jumps = [])
    (hobtains : s₁.Obtains c item (⟨.start c removal, refusing, []⟩ :: rest)) :
    let call : List (Step α) := ⟨.start c removal, refusing, []⟩ :: rest
    let call' : List (Step α) := ⟨.start c removal', refusing, []⟩ :: rest
    s₁.Obtains c item call' ∧
      plainly c call' (run (some s₁) call').2 = plainly c call (run (some s₁) call).2 ∧
      (removal'.deadline? s₁.now = none → s₁.limits c call' = []) ∧
      ∃ s₂, ∀ after,
        run (some s) (before ++ (call ++ after)) =
          ((run (some s₂) after).1,
            (run (some s) before).2 ++ ((run (some s₁) call).2 ++ (run (some s₂) after).2)) ∧
        run (some s) (before ++ (call' ++ after)) =
          ((run (some s₂) after).1,
            (run (some s) before).2 ++ ((run (some s₁) call').2 ++ (run (some s₂) after).2)) := by
  intro call call'
  let patience := removal'.patience s₁.now s₁.queue.line.size
  have houtlasts : patience.Outlasts deadline := Removal.patience_outlasts hlonger _
  have hendures : s₁.Endures c patience item call call' := by
    cases hobtains with
    | returns hruns hreply =>
        exact (eases_start hc hdeadline hlonger (.inl ⟨item, hreply⟩)).returns hruns hreply
    | waits hstep hasleep hrest =>
        have heases := eases_start hc hdeadline hlonger (.inr ⟨_, hstep, hasleep⟩)
        refine heases.waits hstep hasleep ?_
        exact hrest.endures hasleep (heases.bound _ hstep) houtlasts hstill
  obtain ⟨hobtains', ⟨s₂, hlast, hlast'⟩, hseen, hlimits⟩ := hendures
  rw [withPatience_of_awake hc] at hobtains' hlast' hseen hlimits
  refine ⟨hobtains', hseen, fun hendless => hlimits fun now => ?_, s₂, fun after => ⟨?_, ?_⟩⟩
  · simp only [patience, Removal.patience, hendless, Patience.limit?]
  · rw [run_append hbefore, run_append hlast]
  · rw [run_append hbefore, run_append hlast']

/-- A consumer that would wait until the clock reads five waits for ever instead. It is woken up too
early, and then it is served. -/
theorem run_outlasts_deadline_endless :
    let one : Time := { secs := 1, nanos := 0 }
    let five : Time := { secs := 5, nanos := 0 }
    let started := ((ofQueue (Queue.empty : Queue Nat)).act (.advance one) []).1
    let rest : List (Step Nat) := [⟨.start 2 .take, false, []⟩, ⟨.wake 1, false, []⟩,
      ⟨.put 7, false, []⟩, ⟨.wake 1, false, []⟩]
    let call : List (Step Nat) := ⟨.start 1 (.takeUntil five), false, []⟩ :: rest
    let call' : List (Step Nat) := ⟨.start 1 .take, false, []⟩ :: rest
    started.Obtains 1 7 call' ∧
      plainly 1 call' (run (some started) call').2 = plainly 1 call (run (some started) call).2 ∧
      started.limits 1 call' = [] := by
  intro one five started rest call call'
  let joined := (started.act (.start 1 (.takeUntil five)) []).1
  let behind := (joined.act (.start 2 .take) []).1
  let woken := (behind.act (.wake 1) []).1
  let served := (woken.act (.put 7) []).1
  have hbefore : (run (some (ofQueue Queue.empty)) [⟨.advance one, false, []⟩]).1 = some started :=
    rfl
  have hobtains : started.Obtains 1 7 call := by
    refine .waits (show _ = some joined by decide) (by decide) ?_
    refine .waits (show _ = some behind by decide) (by decide) ?_
    refine .waits (show _ = some woken by decide) (by decide) ?_
    refine .waits (show _ = some served by decide) (by decide) ?_
    exact .returns (by decide) (by decide)
  have hlonger : ∀ later, Removal.take.deadline? started.now = some later → five ≤ later := nofun
  have hstill : ∀ step ∈ rest, step.action.runs 1 = true → step.jumps = [] := by decide
  obtain ⟨hobtains', hseen, hlimits, -⟩ :=
    run_outlasts_deadline hbefore rfl rfl hlonger hstill hobtains
  exact ⟨hobtains', hseen, hlimits rfl⟩

end Session

end FairQueue
