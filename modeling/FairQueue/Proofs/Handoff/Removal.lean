import FairQueue.Proofs.Handoff.Represents

/-!
Removing items from a session: the calls that block, from their start and from every wake-up, come
to what the hand-off queue says.
-/

namespace FairQueue.Session

open Call

variable {α : Type} {s : Session α} {r : Roster α} {served : List (Seat × α)} {waiting : List Seat}
  {c : Consumer} {x : Seat} {scene : Scene α} {item : α} {items : List α} {clock : Clock}
  {t : Turn α}

theorem sleeper?_eq_none_iff : s.sleeper? c = none ↔ c ∉ s.sleepers.map (·.1) := by
  rw [sleeper?, List.lookup_eq_none_iff]
  constructor
  · rintro h hc
    obtain ⟨x, hx, rfl⟩ := List.mem_map.mp hc
    simpa using h x hx
  · intro hc x hx
    simpa using fun heq : c = x.1 => hc (heq ▸ List.mem_map_of_mem hx)

theorem mem_of_sleeper? {sleeper : Sleeper} (hc : s.sleeper? c = some sleeper) :
    (c, sleeper) ∈ s.sleepers := by
  obtain ⟨l₁, l₂, hsplit, -⟩ := List.lookup_eq_some_iff.mp hc
  simp [hsplit]

theorem step_start (hc : s.sleeper? c = none) (removal : Removal) (refusing : Bool)
    (jumps : List Time) :
    s.step ⟨.start c removal, refusing, jumps⟩ =
      stillOpen (s.consume ⟨.start c removal, refusing, jumps⟩ c removal.call) := by
  simp only [Session.step, hc]

/-- Nobody who is asleep starts another call. -/
theorem step_busy {sleeper : Sleeper} (hc : s.sleeper? c = some sleeper) (removal : Removal)
    (refusing : Bool) (jumps : List Time) :
    s.step ⟨.start c removal, refusing, jumps⟩ = stillOpen (s.answer (.rejected .busy)) := by
  simp only [Session.step, hc]

theorem step_wake {sleeper : Sleeper} (hc : s.sleeper? c = some sleeper) (refusing : Bool)
    (jumps : List Time) :
    s.step ⟨.wake c, refusing, jumps⟩ =
      stillOpen (s.consume ⟨.wake c, refusing, jumps⟩ c (Call.resume sleeper)) := by
  simp only [Session.step, hc]

theorem sleepers_heard_asleep {sleeper : Sleeper} {limit : Option Time}
    (hc : c ∉ s.sleepers.map (·.1)) :
    (s.heard c (.asleep sleeper limit)).sleepers = s.sleepers ++ [(c, sleeper)] := by
  simp [heard, Progress.sleeper?, withSleeper, sleeper?_eq_none_iff.mpr hc]

theorem sleepers_heard_returned {item : Option α} (hc : c ∉ s.sleepers.map (·.1)) :
    (s.heard c (.returned item)).sleepers = s.sleepers :=
  filter_ne_eq_self hc

theorem sleepers_heard_again {limit : Option Time} (hnames : (s.sleepers.map (·.1)).Nodup)
    (hx : x ∈ s.sleepers) : (s.heard x.1 (.asleep x.2 limit)).sleepers = s.sleepers := by
  have hsome : (s.sleeper? x.1).isSome := by
    rw [← Option.ne_none_iff_isSome, ne_eq, sleeper?_eq_none_iff, not_not]
    exact List.mem_map_of_mem hx
  simp only [heard, Progress.sleeper?, withSleeper, hsome, if_true]
  conv_rhs => rw [← List.map_id s.sleepers]
  refine List.map_congr_left fun y hy => ?_
  split
  · exact (List.inj_on_of_nodup_map hnames hy hx ‹_›).symm
  · rfl

theorem sleeper?_heard (s : Session α) (c : Consumer) (progress : Progress α) :
    (s.heard c progress).sleeper? c = progress.sleeper? := by
  cases progress with
  | returned item =>
      refine sleeper?_eq_none_iff.mpr fun hmem => ?_
      obtain ⟨x, hx, hname⟩ := List.mem_map.mp hmem
      exact of_decide_eq_true (List.mem_filter.mp hx).2 hname
  | asleep sleeper limit =>
      change (s.withSleeper c sleeper).sleeper? c = some sleeper
      unfold withSleeper
      split
      · rename_i hasleep
        obtain ⟨old, hold⟩ := Option.isSome_iff_exists.mp hasleep
        refine (lookup_map_of_fst (fun x => ?_) s.sleepers c).trans ?_
        · split
          · exact Eq.symm ‹_›
          · rfl
        · change (s.sleeper? c).map _ = _
          rw [hold, Option.map_some, if_pos rfl]
      · rename_i hawake
        have hnone : s.sleepers.lookup c = none := Option.not_isSome_iff_eq_none.mp hawake
        simp [sleeper?, List.lookup_append, hnone]

theorem sleeper?_heard_of_ne {d : Consumer} (hne : d ≠ c) (progress : Progress α) :
    (s.heard d progress).sleeper? c = s.sleeper? c := by
  cases progress with
  | returned item => exact lookup_filter_ne hne s.sleepers
  | asleep sleeper limit =>
      change (s.withSleeper d sleeper).sleeper? c = _
      unfold withSleeper
      split
      · refine (lookup_map_of_fst (fun x => ?_) s.sleepers c).trans ?_
        · split
          · exact Eq.symm ‹_›
          · rfl
        · simp [sleeper?, hne.symm]
      · simp [sleeper?, List.lookup_append, List.lookup_cons, beq_false_of_ne hne.symm]

def ComesTo (s : Session α) (c : Consumer) (t : Turn α) (call : Call α (Progress α))
    (scene : Scene α) : Prop :=
  ∃ e : Ending s c t,
    call scene = conclude e.event e.progress.reply.freight e.progress (e.scene scene)

/-- A consumer in the line with a deadline either sleeps on or leaves the line. -/
theorem bide_comesTo {q : Queue α} {sleeper : Sleeper} {deadline : Time}
    (hseated : Seated q r served waiting) (hqueue : scene.queue = q)
    (hmem : (c, sleeper) ∈ waiting) (hpatience : sleeper.patience = .deadline deadline)
    (hasleep : ∀ limit, (s.heard c (.asleep sleeper limit)).sleepers = served.map (·.1) ++ waiting)
    (hreturned : (s.heard c (.returned none)).sleepers =
      served.map (·.1) ++ waiting.filter (·.1 ≠ c)) :
    s.ComesTo c (({ s with queue := q }.handoff served waiting).bide c deadline scene.clock)
      (waitUntil sleeper.place deadline) scene := by
  subst hqueue
  have hintact := hseated.intact
  by_cases hnow : deadline ≤ scene.clock.now
  · obtain ⟨line, hleave, hseated'⟩ := hseated.exists_leave hmem
    have hturn : ({ s with queue := scene.queue }.handoff served waiting).bide c
        deadline scene.clock =
        { queue := ({ s with queue := scene.queue }.handoff served waiting).leave c
          clock := scene.clock.read.2
          reply := .delivered none
          event := some (.timedOut 0) } := by
      simp [Handoff.bide, hnow]
    rw [hturn]
    refine ⟨
      { event := some (.timedOut sleeper.place.slot)
        progress := .returned none
        queue := { scene.queue with line }
        roster := r.leave sleeper.place.slot
        served := served
        waiting := waiting.filter (·.1 ≠ c)
        seated := hseated'
        sleepers := hreturned
        returned := fun _ => rfl
        queue_eq := by
          simp only [handoff, Handoff.leave, List.filter_map]
          rfl }, ?_⟩
    rw [waitUntil_due hintact hnow hleave]
    rfl
  · have hturn : ({ s with queue := scene.queue }.handoff served waiting).bide c
        deadline scene.clock =
        { queue := { s with queue := scene.queue }.handoff served waiting
          clock := scene.clock.read.2
          reply := .asleep (some (deadline - scene.clock.now)) } := by
      simp [Handoff.bide, hnow]
    rw [hturn]
    refine ⟨
      { event := none
        progress := .asleep sleeper (some (deadline - scene.clock.now))
        queue := scene.queue
        roster := r
        served := served
        waiting := waiting
        seated := hseated
        sleepers := hasleep _
        returned := fun h => absurd rfl h
        queue_eq := rfl }, ?_⟩
    rw [waitUntil_early hnow, conclude_eq, ← hpatience]
    simp [Ending.scene]

variable (hseated : Seated s.queue r served waiting)
  (hsleepers : s.sleepers = served.map (·.1) ++ waiting) (hqueue : scene.queue = s.queue)

include hseated hsleepers

def Ending.ofItem (hc : c ∉ s.sleepers.map (·.1)) (hitems : s.queue.items = item :: items)
    (clock : Clock) :
    Ending s c
      { queue := ((s.handoff served waiting).popMany 1).2
        clock
        reply := .delivered (some item) } where
  event := none
  progress := .returned (some item)
  queue := { s.queue with items, removed := s.queue.removed + 1 }
  roster := r
  served := served
  waiting := waiting
  seated := by
    refine hseated.withItems items _ (.inr ?_)
    exact hseated.idle.resolve_left (by simp [hitems])
  sleepers := (sleepers_heard_returned hc).trans hsleepers
  returned := fun h => absurd rfl h
  queue_eq := by simp [handoff, Handoff.popMany, hitems]

include hqueue

theorem take_comesTo (hc : c ∉ s.sleepers.map (·.1))
    (hcount : ((s.handoff served waiting).take c scene.clock).queue.removed < UInt64.size) :
    s.ComesTo c ((s.handoff served waiting).take c scene.clock) Call.take scene := by
  have hintact : scene.queue.broken = false := hqueue ▸ hseated.intact
  cases hitems : s.queue.items with
  | nil =>
      obtain ⟨place, line, hjoin, hseated'⟩ :=
        hseated.exists_join hitems (hsleepers ▸ hc) (.endless s.queue.line.size)
      rw [Handoff.take_of_nil hitems]
      refine ⟨
        { event := none
          progress := .asleep { place, patience := .endless s.queue.line.size } none
          queue := { s.queue with line }
          roster := r.join
          served := served
          waiting := waiting ++ [(c, { place, patience := .endless s.queue.line.size })]
          seated := hseated'
          sleepers := by rw [sleepers_heard_asleep hc, hsleepers, List.append_assoc]
          returned := fun h => absurd rfl h
          queue_eq := by simp [handoff, Handoff.join, Seat.waiter, hseated.size_eq] }, ?_⟩
      have hjoin' := (congrArg Queue.join hqueue).trans hjoin
      rw [take_join hintact (Seated.pop_nothing (hqueue ▸ hitems)) hjoin', conclude_eq]
      simp [Ending.scene, hqueue]
  | cons item items =>
      rw [Handoff.take_of_cons hitems] at hcount ⊢
      have hpop := Seated.pop_item hitems (by
        simpa [Handoff.popMany, handoff, hitems] using hcount)
      refine ⟨Ending.ofItem hseated hsleepers hc hitems scene.clock, ?_⟩
      rw [take_item hintact ((congrArg Queue.pop hqueue).trans hpop), conclude_eq]
      simp [Ending.scene, Ending.ofItem]

theorem takeUntil_comesTo {deadline : Time} (hc : c ∉ s.sleepers.map (·.1))
    (hcount : ((s.handoff served waiting).takeUntil c deadline scene.clock).queue.removed
      < UInt64.size) :
    s.ComesTo c ((s.handoff served waiting).takeUntil c deadline scene.clock)
      (Call.takeUntil deadline) scene := by
  have hintact : scene.queue.broken = false := hqueue ▸ hseated.intact
  cases hitems : s.queue.items with
  | nil =>
      have hpop : scene.queue.pop = .ok (none, scene.queue) := Seated.pop_nothing (hqueue ▸ hitems)
      by_cases hnow : deadline ≤ scene.clock.now
      · rw [Handoff.takeUntil_of_past hitems hnow]
        refine ⟨
          { event := none
            progress := .returned none
            queue := s.queue
            roster := r
            served := served
            waiting := waiting
            seated := hseated
            sleepers := (sleepers_heard_returned hc).trans hsleepers
            returned := fun h => absurd rfl h
            queue_eq := rfl }, ?_⟩
        rw [takeUntil_past hintact hpop hnow, conclude_eq]
        simp [Ending.scene, hqueue]
      · obtain ⟨place, line, hjoin, hseated'⟩ :=
          hseated.exists_join hitems (hsleepers ▸ hc) (.deadline deadline)
        -- the wait starts on the queue the consumer has joined, after one more look at the clock
        let x : Seat := (c, { place, patience := .deadline deadline })
        have hturn : (s.handoff served waiting).takeUntil c deadline scene.clock =
            ({ s with queue := { s.queue with line } }.handoff served (waiting ++ [x])).bide c
              deadline scene.clock.read.2 := by
          rw [Handoff.takeUntil_of_early hitems hnow]
          simp [Handoff.join, handoff, x, Seat.waiter]
        have hothers : (waiting ++ [x]).filter (·.1 ≠ c) = waiting := by
          rw [List.filter_append, filter_ne_eq_self]
          · simp [x]
          · intro hmem
            rw [hsleepers, List.map_append] at hc
            exact hc (List.mem_append_right _ hmem)
        have hasleep : ∀ limit, (s.heard c (.asleep x.2 limit)).sleepers =
            served.map (·.1) ++ (waiting ++ [x]) := by
          intro limit
          rw [sleepers_heard_asleep hc, hsleepers, List.append_assoc]
        have hreturned : (s.heard c (.returned none)).sleepers =
            served.map (·.1) ++ (waiting ++ [x]).filter (·.1 ≠ c) := by
          rw [sleepers_heard_returned hc, hothers, hsleepers]
        let joined : Scene α :=
          { scene with queue := { s.queue with line }, clock := scene.clock.read.2 }
        have hjoined : joined.queue = { s.queue with line } := rfl
        obtain ⟨e, he⟩ :=
          bide_comesTo hseated' hjoined List.mem_concat_self rfl hasleep hreturned
        rw [hturn]
        refine ⟨e, ?_⟩
        rw [takeUntil_join hintact hpop hnow ((congrArg Queue.join hqueue).trans hjoin)]
        exact he
  | cons item items =>
      rw [Handoff.takeUntil_of_cons hitems] at hcount ⊢
      have hpop := Seated.pop_item hitems (by
        simpa [Handoff.popMany, handoff, hitems] using hcount)
      refine ⟨Ending.ofItem hseated hsleepers hc hitems scene.clock, ?_⟩
      rw [takeUntil_item hintact ((congrArg Queue.pop hqueue).trans hpop), conclude_eq]
      simp [Ending.scene, Ending.ofItem]

theorem start_comesTo {removal : Removal} (hc : c ∉ s.sleepers.map (·.1))
    (hcount : ((s.handoff served waiting).start c removal scene.clock).queue.removed
      < UInt64.size) :
    s.ComesTo c ((s.handoff served waiting).start c removal scene.clock) removal.call scene := by
  cases removal with
  | take => exact take_comesTo hseated hsleepers hqueue hc hcount
  | takeUntil deadline => exact takeUntil_comesTo hseated hsleepers hqueue hc hcount
  | takeWithin span =>
      let later : Scene α := { scene with clock := scene.clock.read.2 }
      have hlater : later.queue = s.queue := hqueue
      cases hplus : scene.clock.now.plus? span with
      | some deadline =>
          simp only [Handoff.start, hplus] at hcount ⊢
          obtain ⟨e, he⟩ := takeUntil_comesTo hseated hsleepers hlater hc hcount
          refine ⟨e, ?_⟩
          rw [Removal.call, takeWithin_eq, hplus]
          exact he
      | none =>
          simp only [Handoff.start, hplus] at hcount ⊢
          obtain ⟨e, he⟩ := take_comesTo hseated hsleepers hlater hc hcount
          refine ⟨e, ?_⟩
          rw [Removal.call, takeWithin_eq, hplus]
          exact he

theorem resume_comesTo_served (hx : (x, item) ∈ served)
    (hcount : ((s.handoff served waiting).resume x.waiter scene.clock).queue.removed
      < UInt64.size) :
    s.ComesTo x.1 ((s.handoff served waiting).resume x.waiter scene.clock) (Call.resume x.2)
      scene := by
  have hintact : scene.queue.broken = false := hqueue ▸ hseated.intact
  have hfind : (s.handoff served waiting).served.find? (·.1.consumer = x.waiter.consumer) =
      some (x.waiter, item) := by
    have hnodup : ((s.handoff served waiting).served.map (·.1.consumer)).Nodup := by
      rw [handoff, List.map_map]
      exact hseated.served_names
    exact find?_eq_some_of_nodup hnodup (List.mem_map_of_mem hx)
  have hturn : (s.handoff served waiting).resume x.waiter scene.clock =
      { queue := (s.handoff served waiting).collect x.1
        clock := scene.clock
        reply := .delivered (some item)
        event := some x.waiter.collection } := by
    simp only [Handoff.resume, hfind]
    rfl
  have hothers : waiting.filter (·.1 ≠ x.1) = waiting := by
    refine filter_ne_eq_self fun hmem => ?_
    obtain ⟨y, hy, hname⟩ := List.mem_map.mp hmem
    exact hseated.ne_of_waiting hx hy hname.symm
  rw [hturn] at hcount ⊢
  obtain ⟨line, hcollect, hseated'⟩ := hseated.exists_collect hx hcount
  refine ⟨
    { event := some (x.2.patience.collection x.slot)
      progress := .returned (some item)
      queue := { s.queue with line, removed := s.queue.removed + 1 }
      roster := r.collect x.slot
      served := served.filter (·.1.1 ≠ x.1)
      waiting := waiting
      seated := hseated'
      sleepers := by
        change s.sleepers.filter (·.1 ≠ x.1) = _
        rw [hsleepers, List.filter_append, hothers, List.filter_map]
        rfl
      returned := fun _ => rfl
      queue_eq := by
        simp only [handoff, Handoff.collect, List.filter_map]
        rfl
      event_eq := by
        simp [Waiter.collection, Seat.waiter] }, ?_⟩
  have hcollect' : scene.queue.collect x.2.place.slot =
      .ok (some item, { s.queue with line, removed := s.queue.removed + 1 }) := by
    rw [hqueue]
    exact hcollect
  rw [resume_served hintact hcollect']
  rfl

theorem resume_comesTo_waiting (hx : x ∈ waiting) :
    s.ComesTo x.1 ((s.handoff served waiting).resume x.waiter scene.clock) (Call.resume x.2)
      scene := by
  have hintact : scene.queue.broken = false := hqueue ▸ hseated.intact
  have hmem : x ∈ s.sleepers := hsleepers ▸ List.mem_append_right _ hx
  have hnames : (s.sleepers.map (·.1)).Nodup := hsleepers ▸ hseated.names
  have hothers : (served.map (·.1)).filter (·.1 ≠ x.1) = served.map (·.1) := by
    refine filter_ne_eq_self fun hmem => ?_
    rw [List.map_map] at hmem
    obtain ⟨y, hy, hname⟩ := List.mem_map.mp hmem
    exact hseated.ne_of_waiting hy hx hname
  have hfind : (s.handoff served waiting).served.find? (·.1.consumer = x.waiter.consumer) =
      none := by
    refine List.find?_eq_none.mpr fun y hy => ?_
    obtain ⟨z, hz, rfl⟩ := List.mem_map.mp hy
    exact fun heq => hseated.ne_of_waiting hz hx (of_decide_eq_true heq)
  have hcollect : scene.queue.collect x.2.place.slot = .ok (none, scene.queue) := by
    rw [hqueue]
    exact hseated.collect_waiting hx
  cases hpatience : x.2.patience with
  | endless ahead =>
      have hturn : (s.handoff served waiting).resume x.waiter scene.clock =
          { queue := s.handoff served waiting
            clock := scene.clock
            reply := .asleep none } := by
        simp only [Handoff.resume, hfind]
        simp [Seat.waiter, hpatience]
      rw [hturn]
      refine ⟨
        { event := none
          progress := .asleep x.2 none
          queue := s.queue
          roster := r
          served := served
          waiting := waiting
          seated := hseated
          sleepers := (sleepers_heard_again hnames hmem).trans hsleepers
          returned := fun h => absurd rfl h
          queue_eq := rfl }, ?_⟩
      rw [resume_waiting hintact hcollect, hpatience, conclude_eq]
      simp [Ending.scene, ← hqueue]
  | deadline deadline =>
      have hturn : (s.handoff served waiting).resume x.waiter scene.clock =
          (s.handoff served waiting).bide x.1 deadline scene.clock := by
        simp only [Handoff.resume, hfind]
        simp [Seat.waiter, hpatience]
      have hasleep : ∀ limit, (s.heard x.1 (.asleep x.2 limit)).sleepers =
          served.map (·.1) ++ waiting :=
        fun limit => (sleepers_heard_again hnames hmem).trans hsleepers
      have hreturned : (s.heard x.1 (.returned none)).sleepers =
          served.map (·.1) ++ waiting.filter (·.1 ≠ x.1) := by
        change s.sleepers.filter (·.1 ≠ x.1) = _
        rw [hsleepers, List.filter_append, hothers]
      obtain ⟨e, he⟩ := bide_comesTo hseated hqueue hx hpatience hasleep hreturned
      rw [hturn]
      refine ⟨e, ?_⟩
      rw [resume_waiting hintact hcollect, hpatience]
      exact he

end FairQueue.Session
