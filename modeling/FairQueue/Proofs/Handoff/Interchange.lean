import FairQueue.Proofs.History.Reservation
import FairQueue.Proofs.History.Service

/-!
Turns that can be taken in either order. Two consumers may wake up in either order, and a consumer
that was served may take its item along before or after a turn of somebody else.
-/

namespace FairQueue

variable {α : Type}

/-- The counters once one more item is removed. -/
def Stats.withRemoval (s : Stats) : Stats :=
  { s with removed := s.removed + 1 }

namespace Entry

/-- What is seen but for the counters. -/
def uncounted (e : Entry α) : Entry α :=
  { e with stats := none }

/-- What is seen with other counters, which are also what a query is told. -/
def recounted (e : Entry α) (action : Action α) (f : Stats → Stats) : Entry α :=
  { e with
    reply :=
      match action, e.stats with
      | .query query, some stats => query.fromStats (f stats)
      | _, _ => e.reply
    stats := e.stats.map f }

end Entry

namespace Turn

variable {t : Turn α} {refusing : Bool} {action : Action α}

theorem uncounted_entry (t : Turn α) (refusing : Bool) (q : Handoff α) (clock : Clock) :
    ({ t with queue := q, clock }.entry refusing).uncounted = (t.entry refusing).uncounted := by
  cases hevent : t.event <;> cases refusing <;> simp [entry, hevent, Entry.uncounted]

/-- The turn of a queue from which `c` has already taken its item. -/
def collecting (t : Turn α) (action : Action α) (c : Consumer) : Turn α :=
  { t with
    queue := t.queue.collect c
    reply :=
      match action with
      | .query query => query.fromStats (t.queue.collect c).stats
      | _ => t.reply }

theorem entry_collecting {c : Consumer} (hquery : ∀ query, action = .query query → t.event = none) :
    (t.collecting action c).entry refusing =
      (t.entry refusing).recounted action Stats.withRemoval := by
  have hstats : (t.queue.collect c).stats = t.queue.stats.withRemoval := rfl
  cases action with
  | query query =>
      have hevent := hquery query rfl
      simp [entry, collecting, hevent, Entry.recounted, hstats]
  | _ => cases hevent : t.event <;> cases refusing <;>
      simp [entry, collecting, hevent, Entry.recounted, hstats]

end Turn

namespace Handoff

variable {h : Handoff α} {a b c : Consumer} {f g : Handoff α → Handoff α} {clock : Clock}
  {action : Action α} {w : Waiter}

/-- What becomes of the queue when `c` wakes up: it stays, it takes its item along, or it gives
up. -/
inductive Departs (c : Consumer) : (Handoff α → Handoff α) → Prop where
  | stays : Departs c id
  | collects : Departs c (·.collect c)
  | leaves : Departs c (·.leave c)

theorem exists_departs (h : Handoff α) (c : Consumer) (clock : Clock) :
    ∃ f, Departs c f ∧ (h.turn (.wake c) clock).queue = f h := by
  generalize ht : h.turn (.wake c) clock = t
  have hconsumes : h.Consumes c (.wake c) clock t := ht ▸ h.consumes_wake c clock
  cases hconsumes with
  | idle => exact ⟨id, .stays, rfl⟩
  | resumed hinside hresumes =>
      cases hresumes with
      | collected => exact ⟨_, .collects, rfl⟩
      | asleep => exact ⟨id, .stays, rfl⟩
      | gaveUp => exact ⟨_, .leaves, rfl⟩

theorem collect_comm (h : Handoff α) (a b : Consumer) :
    (h.collect a).collect b = (h.collect b).collect a := by
  simp only [collect, Handoff.mk.injEq, true_and, and_true]
  exact List.filter_comm _ _ _

theorem leave_comm (h : Handoff α) (a b : Consumer) :
    (h.leave a).leave b = (h.leave b).leave a := by
  simp only [leave, Handoff.mk.injEq, true_and, and_true]
  exact List.filter_comm _ _ _

namespace Departs

theorem comm (hf : Departs a f) (hg : Departs b g) (h : Handoff α) : f (g h) = g (f h) := by
  cases hf with
  | stays => rfl
  | collects =>
      cases hg with
      | collects => exact h.collect_comm b a
      | _ => rfl
  | leaves =>
      cases hg with
      | leaves => exact h.leave_comm b a
      | _ => rfl

theorem find?_served (hf : Departs a f) (hne : a ≠ b) (h : Handoff α) :
    (f h).served.find? (·.1.consumer = b) = h.served.find? (·.1.consumer = b) := by
  cases hf with
  | collects => exact find?_filter_ne (f := fun y : Waiter × α => y.1.consumer) hne h.served
  | _ => rfl

theorem find?_inside (hf : Departs a f) (hne : a ≠ b) (h : Handoff α) :
    (f h).inside.find? (·.consumer = b) = h.inside.find? (·.consumer = b) := by
  have hserved : ((f h).served.map (·.1)).find? (·.consumer = b) =
      (h.served.map (·.1)).find? (·.consumer = b) := by
    rw [List.find?_map, List.find?_map]
    exact congrArg _ (hf.find?_served hne h)
  have hwaiting : (f h).waiting.find? (·.consumer = b) = h.waiting.find? (·.consumer = b) := by
    cases hf with
    | leaves => exact find?_filter_ne hne h.waiting
    | _ => rfl
  rw [inside, inside, List.find?_append, List.find?_append, hserved, hwaiting]

/-- Whatever becomes of the others, a consumer that wakes up is told the same. -/
theorem turn_wake (hf : Departs a f) (hne : a ≠ b) (h : Handoff α) (clock : Clock) :
    (f h).turn (.wake b) clock =
      { h.turn (.wake b) clock with queue := f (h.turn (.wake b) clock).queue } := by
  have hresume : ∀ w : Waiter, w.consumer = b → (f h).resume w clock =
      { h.resume w clock with queue := f (h.resume w clock).queue } := by
    rintro w rfl
    have hcollect : f (h.collect w.consumer) = (f h).collect w.consumer := hf.comm .collects h
    have hleave : f (h.leave w.consumer) = (f h).leave w.consumer := hf.comm .leaves h
    simp only [resume, hf.find?_served hne]
    split
    · rw [hcollect]
    · split
      · rfl
      · simp only [bide]
        split
        · rw [hleave]
        · rfl
  simp only [turn, hf.find?_inside hne]
  split
  · rename_i w hfind
    exact hresume w (by simpa using List.find?_some hfind)
  · rfl

end Departs

theorem clock_turn_wake (h : Handoff α) (c : Consumer) (now : Time) :
    (h.turn (.wake c) { now, jumps := [] }).clock = { now, jumps := [] } := by
  simp only [turn]
  split
  · simp only [resume]
    split
    · rfl
    · split
      · rfl
      · simp only [bide]
        split <;> rfl
  · rfl

theorem collect_popMany (h : Handoff α) (c : Consumer) (count : Nat) :
    (h.collect c).popMany count = ((h.popMany count).1, (h.popMany count).2.collect c) := by
  simp only [popMany, collect, Prod.mk.injEq, Handoff.mk.injEq, true_and, and_true]
  omega

theorem collect_putAll (hc : c ∉ h.waiting.map (·.consumer)) (items : List α) :
    (h.collect c).putAll items = (h.putAll items).collect c := by
  have hnew : (h.waiting.zip items).filter (·.1.consumer ≠ c) = h.waiting.zip items := by
    refine List.filter_eq_self.mpr fun y hy => decide_eq_true ?_
    rintro rfl
    exact hc (List.mem_map_of_mem (List.of_mem_zip hy).1)
  simp only [putAll, collect, Handoff.mk.injEq, true_and, and_true]
  rw [List.filter_append, hnew]

theorem collect_take (h : Handoff α) (c d : Consumer) (clock : Clock) :
    (h.collect c).take d clock =
      { h.take d clock with queue := (h.take d clock).queue.collect c } := by
  have hsame : (h.collect c).items = h.items := rfl
  cases hitems : h.items with
  | nil =>
      rw [take_of_nil (hsame.trans hitems), take_of_nil hitems]
      rfl
  | cons item items =>
      rw [take_of_cons (hsame.trans hitems), take_of_cons hitems, collect_popMany]

theorem collect_takeUntil (h : Handoff α) (c d : Consumer) (deadline : Time) (clock : Clock) :
    (h.collect c).takeUntil d deadline clock =
      { h.takeUntil d deadline clock with
        queue := (h.takeUntil d deadline clock).queue.collect c } := by
  have hsame : (h.collect c).items = h.items := rfl
  cases hitems : h.items with
  | nil =>
      by_cases hnow : deadline ≤ clock.now
      · rw [takeUntil_of_past (hsame.trans hitems) hnow, takeUntil_of_past hitems hnow]
      · rw [takeUntil_of_early (hsame.trans hitems) hnow, takeUntil_of_early hitems hnow]
        simp only [bide]
        split <;> rfl
  | cons item items =>
      rw [takeUntil_of_cons (hsame.trans hitems), takeUntil_of_cons hitems, collect_popMany]

theorem collect_start (h : Handoff α) (c d : Consumer) (removal : Removal) (clock : Clock) :
    (h.collect c).start d removal clock =
      { h.start d removal clock with queue := (h.start d removal clock).queue.collect c } := by
  cases removal with
  | take => exact h.collect_take c d clock
  | takeUntil deadline => exact h.collect_takeUntil c d deadline clock
  | takeWithin span =>
      simp only [start]
      split
      · exact h.collect_takeUntil c d _ _
      · exact h.collect_take c d _

/-- A turn of somebody else comes to the same whether `c` has taken its item along before or not. -/
theorem turn_collect (hc : c ∉ h.waiting.map (·.consumer)) (hruns : action.runs c = false)
    (clock : Clock) :
    (h.collect c).turn action clock = (h.turn action clock).collecting action c := by
  cases action with
  | put item =>
      simp only [turn, collect_putAll hc]
      rfl
  | putAll source =>
      simp only [turn, collect_putAll hc]
      split <;> rfl
  | poll | drain max =>
      simp only [turn, collect_popMany]
      rfl
  | next name =>
      have hsame : (h.collect c).iterators = h.iterators := rfl
      simp only [turn, collect_popMany, hsame]
      split <;> rfl
  | start d removal =>
      have hne : d ≠ c := by simpa [Action.runs] using hruns
      have hinside : d ∈ (h.collect c).inside.map (·.consumer) ↔
          d ∈ h.inside.map (·.consumer) := by
        rw [mem_map_iff_isSome_find?, mem_map_iff_isSome_find?,
          Departs.collects.find?_inside hne.symm]
      simp only [turn, hinside, collect_start]
      split <;> rfl
  | wake d =>
      have hne : c ≠ d := by simpa [Action.runs, eq_comm] using hruns
      exact Departs.collects.turn_wake hne h clock
  | _ => rfl

theorem removed_le_turn (h : Handoff α) (action : Action α) (clock : Clock) :
    h.removed ≤ (h.turn action clock).queue.removed :=
  h.removed_turn action clock ▸ Nat.le_add_right _ _

variable {x y : Step α} {h' : Handoff α}

/-- A step that leaves the queue open is a turn. -/
theorem step_of_some (hstep : (h.step x).1 = some h') :
    (h.step x).2.stats = some h'.stats ∧ h.removed ≤ h'.removed := by
  by_cases hopen : x.action = .close → h.inside ≠ []
  · rw [step_of_open hopen] at hstep ⊢
    obtain rfl := Option.some.inj hstep
    exact ⟨Turn.stats_entry _ _, h.removed_le_turn _ _⟩
  · obtain ⟨haction, hinside⟩ : x.action = .close ∧ h.inside = [] := by simpa using hopen
    rw [step_close haction hinside] at hstep
    cases hstep

/-- The steps in either order leave the same queue, and it is open. -/
def Meets (h : Handoff α) (x y : Step α) : Prop :=
  ∃ h₁ h₂ h₃, (h.step x).1 = some h₁ ∧ (h₁.step y).1 = some h₃ ∧
    (h.step y).1 = some h₂ ∧ (h₂.step x).1 = some h₃

theorem Meets.countFits {later : List (Step α)} (hmeets : h.Meets x y)
    (hcount : CountFits (some h) (x :: y :: later)) : CountFits (some h) (y :: x :: later) := by
  obtain ⟨h₁, h₂, h₃, hx, hxy, hy, hyx⟩ := hmeets
  obtain ⟨-, hrest⟩ := hcount.of_cons
  simp only [step?, hx] at hrest
  obtain ⟨hlast, hlater⟩ := hrest.of_cons
  simp only [step?, hxy] at hlast hlater
  have hremoved : h₃.removed < UInt64.size := hlast _ (step_of_some hxy).1
  intro entry hentry
  simp only [run, step?, hy, hyx, List.mem_cons] at hentry
  rcases hentry with rfl | rfl | hentry
  · intro stats hstats
    obtain rfl := Option.some.inj ((step_of_some hy).1.symm.trans hstats)
    exact Nat.lt_of_le_of_lt (step_of_some hyx).2 hremoved
  · intro stats hstats
    obtain rfl := Option.some.inj ((step_of_some hyx).1.symm.trans hstats)
    exact hremoved
  · exact hlater entry hentry

theorem Departs.now_eq (hf : Departs c f) (h : Handoff α) : (f h).now = h.now := by
  cases hf <;> rfl

theorem step_wake_standing (h : Handoff α) (c : Consumer) (refusing : Bool) :
    h.step ⟨.wake c, refusing, []⟩ =
      (some (h.turn (.wake c) { now := h.now, jumps := [] }).queue,
        (h.turn (.wake c) { now := h.now, jumps := [] }).entry refusing) := by
  rw [h.step_of_ne_close (by simp)]
  obtain ⟨f, hf, hqueue⟩ := h.exists_departs c { now := h.now, jumps := [] }
  have hnow : (h.turn (.wake c) { now := h.now, jumps := [] }).queue.now = h.now :=
    hqueue ▸ hf.now_eq h
  have hsame : { (h.turn (.wake c) { now := h.now, jumps := [] }).queue with now := h.now } =
      (h.turn (.wake c) { now := h.now, jumps := [] }).queue :=
    congrArg (fun now => { (h.turn (.wake c) { now := h.now, jumps := [] }).queue with now })
      hnow.symm
  simp only [clock_turn_wake, hsame]

/-- Two consumers wake up in either order while the clock stands still. -/
theorem wakes_meet (h : Handoff α) (hne : a ≠ b) (refusing refusing' : Bool) :
    let x : Step α := ⟨.wake a, refusing, []⟩
    let y : Step α := ⟨.wake b, refusing', []⟩
    h.Meets x y ∧ (step? (h.step x).1 y).2.uncounted = (h.step y).2.uncounted := by
  intro x y
  obtain ⟨f, hf, hfirst⟩ := h.exists_departs a { now := h.now, jumps := [] }
  obtain ⟨g, hg, hsecond⟩ := h.exists_departs b { now := h.now, jumps := [] }
  have hx : (h.step x).1 = some (f h) := by rw [step_wake_standing, hfirst]
  have hy : (h.step y).1 = some (g h) := by rw [step_wake_standing, hsecond]
  have hxy : (f h).step y =
      (some (f (g h)),
        { h.turn (.wake b) { now := h.now, jumps := [] } with queue := f (g h) }.entry
          refusing') := by
    rw [step_wake_standing, hf.now_eq, hf.turn_wake hne, hsecond]
  have hyx : ((g h).step x).1 = some (f (g h)) := by
    rw [step_wake_standing, hg.now_eq, hg.turn_wake hne.symm, hfirst, hf.comm hg]
  refine ⟨⟨f h, g h, f (g h), hx, by rw [hxy], hy, hyx⟩, ?_⟩
  simp only [step?, hx, hxy]
  rw [step_wake_standing]
  exact Turn.uncounted_entry _ _ _ _

theorem step_wake_of_served {item : α} (hsound : h.ledger.Sound) (hmem : (w, item) ∈ h.served)
    (refusing : Bool) (jumps : List Time) :
    h.step ⟨.wake w.consumer, refusing, jumps⟩ =
      (some (h.collect w.consumer),
        Turn.entry
          { queue := h.collect w.consumer
            clock := { now := h.now, jumps }
            reply := .delivered (some item)
            event := some w.collection } refusing) := by
  rw [h.step_of_ne_close (by simp)]
  simp only [turn_wake_of_served _ hsound hmem]
  rfl

/-- A consumer that was served wakes up before or after a step of somebody else. -/
theorem wake_meets {item : α} (hsound : h.ledger.Sound) (hmem : (w, item) ∈ h.served)
    (hruns : y.action.runs w.consumer = false) (hclose : y.action ≠ .close) (refusing : Bool)
    (jumps : List Time) :
    let x : Step α := ⟨.wake w.consumer, refusing, jumps⟩
    h.Meets x y ∧
      (step? (h.step x).1 y).2 = (h.step y).2.recounted y.action Stats.withRemoval ∧
      (step? (h.step y).1 x).2.uncounted = (h.step x).2.uncounted := by
  intro x
  generalize hclock : ({ now := h.now, jumps := y.jumps } : Clock) = clock
  generalize ht : h.turn y.action clock = t
  have hwaiting : w.consumer ∉ h.waiting.map (·.consumer) := by
    intro hc
    obtain ⟨v, hv, hname⟩ := List.mem_map.mp hc
    exact hsound.ne_of_waiting hmem hv hname
  -- the item is still there after the other step
  have hsound' : t.queue.ledger.Sound := ht ▸ sound_turn hsound y.action clock
  have hmem' : (w, item) ∈ t.queue.served := by
    rw [← ht]
    refine (reserves_turn clock y.refusing hsound hmem ?_).2
    rintro hwake
    simp [hwake, Action.runs] at hruns
  have hx := step_wake_of_served hsound hmem refusing jumps
  have hy : h.step y = (some { t.queue with now := t.clock.now }, t.entry y.refusing) := by
    rw [h.step_of_ne_close hclose, hclock, ht]
  have hxy : (h.collect w.consumer).step y =
      (some { t.queue.collect w.consumer with now := t.clock.now },
        (t.collecting y.action w.consumer).entry y.refusing) := by
    have hnow : ({ now := (h.collect w.consumer).now, jumps := y.jumps } : Clock) = clock := hclock
    rw [step_of_ne_close _ hclose, hnow, turn_collect hwaiting hruns, ht]
    rfl
  have hyx := step_wake_of_served (h := { t.queue with now := t.clock.now }) hsound' hmem' refusing
    jumps
  refine ⟨⟨_, _, _, congrArg Prod.fst hx, congrArg Prod.fst hxy, congrArg Prod.fst hy,
    congrArg Prod.fst hyx⟩, ?_, ?_⟩
  · simp only [step?, x, hx, hxy, hy]
    refine Turn.entry_collecting fun query hquery => ?_
    rw [← ht, hquery]
    rfl
  · simp only [step?, x, hy, hyx, hx]
    exact Turn.uncounted_entry
      { queue := h.collect w.consumer
        clock := { now := h.now, jumps }
        reply := .delivered (some item)
        event := some w.collection } refusing _ _

end Handoff

end FairQueue
