import FairQueue.Proofs.History.Assignment
import FairQueue.Proofs.History.Conservation

/-!
The item that a consumer was served stays in the consumer's slot, whatever others do, until the
consumer wakes up and takes it along.
-/

namespace FairQueue

open Call

open scoped List

variable {α : Type}

namespace Handoff

variable {h : Handoff α} {action : Action α} {w : Waiter} {item : α}

theorem reserves_turn (clock : Clock) (refusing : Bool) (hsound : h.ledger.Sound)
    (hmem : (w, item) ∈ h.served) (haction : action ≠ .wake w.consumer) :
    (∀ i ∈ ((h.turn action clock).entry refusing).incidents action,
        i.concerns w.consumer = false) ∧
      (w, item) ∈ (h.turn action clock).queue.served := by
  rcases path_turn.outcome hsound hmem with hreturned | hlost | ⟨hquiet, hkept⟩
  · have hcollected := List.mem_of_find?_eq_some hreturned
    exact absurd (Entry.eq_wake_of_collected hcollected (by simp)) haction
  · have hcollected := List.mem_of_find?_eq_some hlost
    exact absurd (Entry.eq_wake_of_collected hcollected (by simp)) haction
  · exact ⟨fun i hi => by simpa using List.find?_eq_none.mp hquiet i hi, hkept⟩

end Handoff

namespace Session

variable {s s' : Session α} {h : Handoff α} {step : Step α} {steps later : List (Step α)} {x : Seat}
  {item : α} {c : Consumer}

theorem sleepers_make (call : Call α (Reply α)) : (s.make step call).1.sleepers = s.sleepers := by
  unfold make
  split <;> rfl

theorem sleepers_consume (s : Session α) (step : Step α) (c : Consumer)
    (call : Call α (Progress α)) :
    ∃ progress, (s.consume step c call).1.sleepers = (s.heard c progress).sleepers := by
  have hafter : ∀ scene progress,
      ((s.after scene).heard c progress).sleepers = (s.heard c progress).sleepers :=
    fun scene progress => by rw [after, heard_eq]
  cases hcall : call (s.scene step) with
  | ok progress scene => exact ⟨progress, consume_of_ok hcall ▸ hafter scene progress⟩
  | error panic scene =>
      exact ⟨.returned none, consume_of_error hcall ▸ hafter scene (.returned none)⟩

/-- A step leaves everybody asleep as before but for the consumer that runs in it. -/
theorem sleepers_step (hstep : (s.step step).1 = some s') :
    s'.sleepers = s.sleepers ∨
      ∃ d progress, s'.sleepers = (s.heard d progress).sleepers ∧
        (step.action = .wake d ∨
          s.sleeper? d = none ∧ ∃ removal, step.action = .start d removal) := by
  have hmade : ∀ call, (s.make step call).1 = s' → s'.sleepers = s.sleepers := by
    rintro call rfl
    exact sleepers_make call
  cases haction : step.action with
  | start d removal =>
      simp only [Session.step, haction] at hstep
      split at hstep
      · exact .inl (Option.some.inj hstep ▸ rfl)
      · rename_i hd
        obtain ⟨progress, hprogress⟩ := s.sleepers_consume step d removal.call
        refine .inr ⟨d, progress, ?_, .inr ⟨hd, removal, rfl⟩⟩
        rw [← Option.some.inj hstep]
        exact hprogress
  | wake d =>
      simp only [Session.step, haction] at hstep
      split at hstep
      · rename_i sleeper hd
        obtain ⟨progress, hprogress⟩ := s.sleepers_consume step d (Call.resume sleeper)
        refine .inr ⟨d, progress, ?_, .inl rfl⟩
        rw [← Option.some.inj hstep]
        exact hprogress
      · exact .inl (Option.some.inj hstep ▸ rfl)
  | next name =>
      simp only [Session.step, haction] at hstep
      split at hstep
      · exact .inl (hmade _ (Option.some.inj hstep))
      · exact .inl (Option.some.inj hstep ▸ rfl)
  | close =>
      simp only [Session.step, haction] at hstep
      split at hstep
      · cases hstep
      · exact .inl (Option.some.inj hstep ▸ rfl)
  | openIterator name | advance span =>
      simp only [Session.step, haction] at hstep
      exact .inl (Option.some.inj hstep ▸ rfl)
  | put item | putAll source | poll | drain max | query query =>
      simp only [Session.step, haction] at hstep
      exact .inl (hmade _ (Option.some.inj hstep))

theorem mem_sleepers_heard (hx : x ∈ s.sleepers) (hne : x.1 ≠ c) (progress : Progress α) :
    x ∈ (s.heard c progress).sleepers := by
  unfold heard
  split
  · unfold withSleeper
    split
    · exact List.mem_map.mpr ⟨x, hx, if_neg hne⟩
    · exact List.mem_append_left _ hx
  · exact List.mem_filter.mpr ⟨hx, decide_eq_true hne⟩

/-- A consumer stays asleep, with the same place, unless it is woken up. -/
theorem mem_sleepers_step (hx : x ∈ s.sleepers) (hwake : step.action ≠ .wake x.1)
    (hstep : (s.step step).1 = some s') : x ∈ s'.sleepers := by
  obtain hsame | ⟨d, progress, hheard, hruns⟩ := sleepers_step hstep
  · exact hsame ▸ hx
  · rw [hheard]
    refine mem_sleepers_heard hx ?_ progress
    rintro rfl
    obtain hwoken | ⟨hnone, -⟩ := hruns
    · exact hwake hwoken
    · exact sleeper?_eq_none_iff.mp hnone (List.mem_map_of_mem hx)

/-- The consumer in this seat is asleep, and its slot keeps the item. -/
structure Reserves (s : Session α) (h : Handoff α) (x : Seat) (item : α) : Prop where
  represents : s.Represents h
  asleep : x ∈ s.sleepers
  served : (x.waiter, item) ∈ h.served

theorem Represents.exists_reserves (hrepresents : s.Represents h) (hheld : s.held? c = some item) :
    ∃ x, x.1 = c ∧ s.Reserves h x item := by
  obtain ⟨w, rfl, hw⟩ := hrepresents.exists_served hheld
  obtain ⟨r, served, waiting, hseated, hsleepers, rfl⟩ := id hrepresents
  obtain ⟨⟨x, item⟩, hx, heq⟩ := List.mem_map.mp hw
  obtain ⟨rfl, rfl⟩ := Prod.mk.inj heq
  refine ⟨x, rfl, hrepresents, ?_, hw⟩
  exact hsleepers ▸ List.mem_append_left _ (List.mem_map_of_mem hx)

namespace Reserves

theorem sleeper?_eq (hreserves : s.Reserves h x item) : s.sleeper? x.1 = some x.2 :=
  sleeper?_of_mem hreserves.represents.names hreserves.asleep

theorem held?_eq (hreserves : s.Reserves h x item) : s.held? x.1 = some item :=
  hreserves.represents.held?_of_served hreserves.served

theorem occupancy?_eq (hreserves : s.Reserves h x item) :
    s.queue.line.occupancy? x.slot = some (.served item) := by
  have hoccupancy := hreserves.represents.occupancy?_of_served hreserves.served
  change (s.sleeper? x.1).bind _ = _ at hoccupancy
  rw [hreserves.sleeper?_eq] at hoccupancy
  exact hoccupancy

theorem perm_contents (hreserves : s.Reserves h x item) :
    s.contents ~ item :: s.contentsBut x.1 :=
  Session.perm_contents hreserves.represents.names hreserves.held?_eq
    (List.mem_map_of_mem hreserves.asleep)

theorem exists_step (hreserves : s.Reserves h x item)
    (hcount : Handoff.CountFits (some h) (step :: steps)) (hwake : step.action ≠ .wake x.1) :
    ∃ s' h', (s.step step).1 = some s' ∧ s'.Reserves h' x item ∧
      Handoff.CountFits (some h') steps ∧
      ∀ i ∈ (s.step step).2.incidents step.action, i.concerns x.1 = false := by
  cases hstep : (s.step step).1 with
  | none =>
      obtain ⟨-, hnobody, -⟩ := step_eq_none hstep
      exact absurd hreserves.asleep (by simp [hnobody])
  | some s' =>
      obtain ⟨hrepresents', hentry, hcount'⟩ := hreserves.represents.turn_of_step hcount hstep
      obtain ⟨hquiet, hkept⟩ := Handoff.reserves_turn { now := h.now, jumps := step.jumps }
        step.refusing hreserves.represents.sound hreserves.served hwake
      refine ⟨s', _, rfl, ⟨hrepresents', mem_sleepers_step hreserves.asleep hwake hstep, hkept⟩,
        hcount', ?_⟩
      rw [← Entry.incidents_anonymous, hentry]
      exact hquiet

theorem exists_run (hreserves : s.Reserves h x item)
    (hcount : Handoff.CountFits (some h) (steps ++ later))
    (hwake : ∀ step ∈ steps, step.action ≠ .wake x.1) :
    ∃ s' h', (run (some s) steps).1 = some s' ∧ s'.Reserves h' x item ∧
      Handoff.CountFits (some h') later ∧ ∀ i ∈ s.history steps, i.concerns x.1 = false := by
  induction steps generalizing s h with
  | nil => exact ⟨s, h, rfl, hreserves, hcount, fun i hi => by cases hi⟩
  | cons step steps ih =>
      obtain ⟨s₁, h₁, hstep, hreserves₁, hcount₁, hquiet⟩ :=
        hreserves.exists_step hcount (hwake step List.mem_cons_self)
      obtain ⟨s', h', hlast, hreserves', hcount', hrest⟩ :=
        ih hreserves₁ hcount₁ fun step hmem => hwake step (List.mem_cons_of_mem _ hmem)
      rw [history, run_cons hstep, historyOf_cons]
      refine ⟨s', h', hlast, hreserves', hcount', fun i hi => ?_⟩
      exact (List.mem_append.mp hi).elim (hquiet i) (hrest i)

/-- The consumer wakes up with its item, without a look at the clock. -/
theorem exists_wake (refusing : Bool) (jumps : List Time) (hreserves : s.Reserves h x item)
    (hcount : s.queue.removed + 1 < UInt64.size) :
    let event := x.2.patience.collection x.2.place.slot
    ∃ s', s.step ⟨.wake x.1, refusing, jumps⟩ =
        (some s',
          { reply := if refusing then .panicked (.refused event) else .delivered (some item)
            notified := []
            logged := if refusing then [] else [event]
            destroyed := if refusing then [item] else []
            stats := some s'.queue.stats }) ∧
      s'.now = s.now ∧ s'.sleeper? x.1 = none ∧ s'.queue.items = s.queue.items := by
  have hsleeper := hreserves.sleeper?_eq
  obtain ⟨⟨r, served, waiting, hseated, hsleepers, rfl⟩, hasleep, hmem⟩ := hreserves
  obtain ⟨y, hy, heq⟩ := List.mem_map.mp hmem
  obtain ⟨hwaiter, rfl⟩ := Prod.mk.inj heq
  obtain rfl : y.1 = x :=
    hseated.eq_of_name_eq (List.mem_append_left _ (List.mem_map_of_mem hy)) (hsleepers ▸ hasleep)
      (congrArg Waiter.consumer hwaiter)
  obtain ⟨line, hcollect, -⟩ := hseated.exists_collect hy hcount
  refine ⟨{ s with queue := { s.queue with line, removed := s.queue.removed + 1 } }.withoutSleeper
    y.1.1, ?_, rfl, ?_, rfl⟩
  · simp only [Session.step, hsleeper]
    rw [consume_eq (fun _ => rfl) (resume_served hseated.intact hcollect)]
    cases refusing <;> rfl
  · simp [sleeper?_eq_none_iff, withoutSleeper]

theorem removed_lt {refusing : Bool} {jumps : List Time} (hreserves : s.Reserves h x item)
    (hcount : Handoff.CountFits (some h) (⟨.wake x.1, refusing, jumps⟩ :: later)) :
    s.queue.removed + 1 < UInt64.size := by
  have hfits := hcount.of_cons.1
  simp only [Handoff.step?] at hfits
  rw [Handoff.step_of_open (fun hclose => by cases hclose)] at hfits
  have hturn := Handoff.turn_wake_of_served { now := h.now, jumps } hreserves.represents.sound
    hreserves.served
  have hremoved := hfits _ (Turn.stats_entry _ _)
  rw [show Action.wake x.1 = .wake x.waiter.consumer from rfl, hturn] at hremoved
  obtain ⟨⟨r, served, waiting, -, -, rfl⟩, -, -⟩ := hreserves
  exact hremoved

end Reserves

/-- Let the slot of `c` keep an item. Whatever steps follow, as long as none of them wakes `c` the
queue stays open, `c` stays asleep in its place, its slot keeps the item and nothing happens to `c`.
What these steps deliver or destroy are other items of the queue and new ones. When `c` then wakes
up it takes the item along, without a look at the clock; the item is destroyed if the log refuses to
hear of it. -/
theorem run_reserves_served {opening : Opening} {before : List (Step α)} {s₁ : Session α}
    {refusing : Bool} {jumps : List Time} (hopen : open? opening = some s)
    (hcount : Handoff.CountFits (some Handoff.empty)
      (before ++ (steps ++ [⟨.wake c, refusing, jumps⟩])))
    (hbefore : (run (some s) before).1 = some s₁) (hheld : s₁.held? c = some item)
    (hwake : ∀ step ∈ steps, step.action ≠ .wake c) :
    ∃ s₂ s₃ sleeper, (run (some s₁) steps).1 = some s₂ ∧
      s₁.sleeper? c = some sleeper ∧ s₂.sleeper? c = some sleeper ∧
      s₂.queue.line.occupancy? sleeper.place.slot = some (.served item) ∧
      (∀ i ∈ s₁.history steps, i.concerns c = false) ∧
      (s₁.contentsBut c ++ steps.flatMap (·.action.brought)).Perm
        ((run (some s₁) steps).2.flatMap Entry.outgoing ++ s₂.contentsBut c) ∧
      let event := sleeper.patience.collection sleeper.place.slot
      s₂.step ⟨.wake c, refusing, jumps⟩ =
          (some s₃,
            { reply := if refusing then .panicked (.refused event) else .delivered (some item)
              notified := []
              logged := if refusing then [] else [event]
              destroyed := if refusing then [item] else []
              stats := some s₃.queue.stats }) ∧
        s₃.now = s₂.now ∧ s₃.sleeper? c = none ∧ s₃.queue.items = s₂.queue.items := by
  obtain ⟨rfl, -⟩ := open?_eq_some_iff.mp hopen
  obtain ⟨hfits, hrest⟩ := hcount.of_append
  obtain ⟨h₁, hh₁, hrepresents₁⟩ := exists_represents represents_empty hfits hbefore
  rw [hh₁] at hrest
  obtain ⟨x, rfl, hreserves₁⟩ := hrepresents₁.exists_reserves hheld
  obtain ⟨s₂, h₂, hlast, hreserves₂, hcount₂, hquiet⟩ := hreserves₁.exists_run hrest hwake
  obtain ⟨s₃, hdone⟩ := hreserves₂.exists_wake refusing jumps (hreserves₂.removed_lt hcount₂)
  have hothers : (s₁.contentsBut x.1 ++ steps.flatMap (·.action.brought)).Perm
      ((run (some s₁) steps).2.flatMap Entry.outgoing ++ s₂.contentsBut x.1) := by
    refine List.Perm.cons_inv (a := item) ?_
    calc
      item :: (s₁.contentsBut x.1 ++ steps.flatMap (·.action.brought))
      _ ~ s₁.contents ++ steps.flatMap (·.action.brought) :=
        hreserves₁.perm_contents.symm.append_right _
      _ ~ (run (some s₁) steps).2.flatMap Entry.outgoing ++ s₂.contents :=
        hrepresents₁.conserves_run hrest.of_append.1 hlast
      _ ~ (run (some s₁) steps).2.flatMap Entry.outgoing ++ item :: s₂.contentsBut x.1 :=
        hreserves₂.perm_contents.append_left _
      _ ~ _ := List.perm_middle
  exact ⟨s₂, s₃, x.2, hlast, hreserves₁.sleeper?_eq, hreserves₂.sleeper?_eq,
    hreserves₂.occupancy?_eq, hquiet, hothers, hdone⟩

/-- Long after its deadline a consumer wakes up with its item, but the log refuses to hear of it. -/
theorem run_reserves_served_late :
    let served := (((ofQueue Queue.empty : Session Nat).act
      (.start 1 (.takeUntil { secs := 5, nanos := 0 })) []).1.act (.put 7) []).1
    let steps : List (Step Nat) := [⟨.advance { secs := 60, nanos := 0 }, false, []⟩,
      ⟨.start 2 .take, false, []⟩, ⟨.putAll ⟨[8, 9], none⟩, false, []⟩, ⟨.wake 2, true, []⟩,
      ⟨.close, false, []⟩, ⟨.poll, false, []⟩]
    ∃ s₂, (run (some served) steps).1 = some s₂ ∧
      (s₂.step ⟨.wake 1, true, [{ secs := 1, nanos := 0 }]⟩).2.destroyed = [7] := by
  intro served steps
  have hcount : Handoff.CountFits (some Handoff.empty)
      ([⟨.start 1 (.takeUntil { secs := 5, nanos := 0 }), false, []⟩, ⟨.put 7, false, []⟩] ++
        (steps ++ [⟨.wake 1, true, [{ secs := 1, nanos := 0 }]⟩])) := by decide
  have hbefore : (run (open? .plain)
      [⟨.start 1 (.takeUntil { secs := 5, nanos := 0 }), false, []⟩,
        ⟨.put 7, false, []⟩]).1 = some served := by decide
  obtain ⟨s₂, s₃, sleeper, hlast, -, -, -, -, -, hstep, -⟩ :=
    run_reserves_served (show open? .plain = some _ from rfl) hcount hbefore
      (show served.held? 1 = some 7 by decide) (by decide)
  exact ⟨s₂, hlast, by rw [hstep]; rfl⟩

end Session

end FairQueue
