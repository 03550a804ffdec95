import FairQueue.Proofs.Crowd.Course

/-!
What a crowd leaves behind when everybody is through. It is the same in whatever order the members
of the crowd made their steps.
-/

namespace FairQueue.Crowd

open Handoff

open scoped List

variable {plan : Plan} {c : Crowd} {h : Handoff Item} {assigned : List (Consumer × Item)}
  {moves : List Move}

/-- What is to be seen at the end, whoever was first. -/
def Plan.outcome (plan : Plan) : Tally where
  received := plan.quota
  rest := min plan.leftOver plan.total
  distinct := plan.total
  inOrder := true
  stats := { size := min plan.leftOver plan.total, waiting := 0, removed := plan.quota }
  removed := plan.total

theorem flatMap_takenBy (workers : List Worker) :
    (List.range workers.length).flatMap (takenBy workers) = workers.flatMap (·.taken) := by
  induction workers with
  | nil => rfl
  | cons worker workers ih =>
      rw [List.length_cons, List.range_succ_eq_map, List.flatMap_cons, List.flatMap_map,
        List.flatMap_cons, ← ih]
      rfl

theorem isFinished_iff : c.isFinished = true ↔
    (∀ work ∈ c.work, work = []) ∧ ∀ worker ∈ c.workers, worker.phase = .ended := by
  simp [isFinished]

theorem eraseDups_of_nodup {items : List Item} (hnodup : items.Nodup) :
    items.eraseDups = items := by
  induction items with
  | nil => rfl
  | cons item items ih =>
      obtain ⟨hnew, hnodup⟩ := List.nodup_cons.mp hnodup
      have hothers : items.filter (fun other => !other == item) = items := by
        refine List.filter_eq_self.mpr fun other hother => ?_
        have hne : other ≠ item := fun heq => hnew (heq ▸ hother)
        simpa using hne
      rw [List.eraseDups_cons, hothers, ih hnodup]

namespace Stands

variable (hstands : c.Stands plan h assigned) (hfinished : c.isFinished = true)

include hstands

theorem length_taken : c.taken.length = h.removed := by
  rw [hstands.removed, taken, List.length_flatMap]

include hfinished

theorem inside_eq_nil : h.inside = [] := by
  refine List.eq_nil_iff_forall_not_mem.mpr fun w hw => ?_
  obtain ⟨worker, hworker, hasleep⟩ :=
    Option.map_eq_some_iff.mp ((hstands.asleep w.consumer).mp (List.mem_map_of_mem hw))
  cases hasleep.symm.trans ((isFinished_iff.mp hfinished).2 _ (List.mem_of_getElem? hworker))

theorem shares (p : Nat) :
    (assigned.map (·.2) ++ h.items).filter (·.producer = p) = plan.share p := by
  have hnothing : c.toPut p = [] := by
    cases hwork : c.work[p]? with
    | none => simp [toPut, hwork]
    | some work =>
        simp [toPut, hwork, (isFinished_iff.mp hfinished).1 work (List.mem_of_getElem? hwork)]
  rw [← hstands.made p, hnothing, List.append_nil]

theorem given_eq (i : Nat) :
    (assigned.filter (·.1 = i)).map (·.2) = takenBy c.workers i := by
  have hnothing : h.ledger.heldBy i = [] :=
    heldBy_of_not_mem (by simp [hstands.inside_eq_nil hfinished])
  rw [hstands.given i, hnothing, List.append_nil]

theorem taken_sublist {worker : Worker} (hworker : worker ∈ c.workers) :
    worker.taken <+ assigned.map (·.2) := by
  obtain ⟨i, hi⟩ := List.mem_iff_getElem?.mp hworker
  have hgiven : (assigned.filter (·.1 = i)).map (·.2) = worker.taken := by
    rw [hstands.given_eq hfinished, takenBy, hi]
    rfl
  exact hgiven ▸ List.filter_sublist.map _

theorem perm_taken : assigned.map (·.2) ~ c.taken := by
  have howners : ∀ x ∈ assigned, x.1 < c.workers.length := by
    intro x hx
    by_contra hlarge
    have hmem : x.2 ∈ takenBy c.workers x.1 := by
      rw [← hstands.given_eq hfinished]
      exact List.mem_map_of_mem (List.mem_filter.mpr ⟨hx, decide_eq_true rfl⟩)
    rw [takenBy, List.getElem?_eq_none (Nat.le_of_not_lt hlarge)] at hmem
    cases hmem
  have hall := (flatMap_filter_perm (·.1) c.workers.length assigned).symm
  rw [List.filter_eq_self.mpr fun x hx => decide_eq_true (howners x hx)] at hall
  calc
    assigned.map (·.2)
    _ ~ ((List.range c.workers.length).flatMap fun i => assigned.filter (·.1 = i)).map (·.2) :=
      hall.map _
    _ = (List.range c.workers.length).flatMap (takenBy c.workers) := by
      rw [List.map_flatMap]
      exact List.flatMap_congr fun i _ => hstands.given_eq hfinished i
    _ = c.taken := flatMap_takenBy c.workers

theorem perm_allItems : c.taken ++ h.items ~ plan.allItems :=
  ((hstands.perm_taken hfinished).symm.append_right _).trans
    (Plan.perm_of_shares (hstands.shares hfinished))

theorem removed_eq_quota (hconsumers : plan.consumers = 0 → plan.quota = 0) :
    h.removed = plan.quota := by
  have hended := (isFinished_iff.mp hfinished).2
  have hpending : (c.workers.map (·.pending)).sum = 0 :=
    sum_map_eq_zero fun worker hworker => by simp [Worker.pending, hended worker hworker]
  have hclaimed := hstands.claimed
  have hquota : c.quota = 0 := by
    cases hworkers : c.workers with
    | nil =>
        have hnone := hconsumers (by rw [← hstands.consumers, hworkers]; rfl)
        omega
    | cons worker workers =>
        have hmem : worker ∈ c.workers := hworkers ▸ List.mem_cons_self
        exact hstands.ended worker hmem (hended worker hmem)
  omega

theorem length_items (hconsumers : plan.consumers = 0 → plan.quota = 0) :
    h.items.length = min plan.leftOver plan.total := by
  have htotal := (hstands.perm_allItems hfinished).length_eq
  rw [List.length_append, hstands.length_taken, hstands.removed_eq_quota hfinished hconsumers,
    plan.length_allItems, Plan.quota] at htotal
  omega

theorem stats_eq (hconsumers : plan.consumers = 0 → plan.quota = 0) :
    c.session.queue.stats = plan.outcome.stats := by
  have hwaiting : h.waiting = [] := (List.append_eq_nil_iff.mp (hstands.inside_eq_nil hfinished)).2
  rw [Queue.stats, hstands.represents.size_eq, hwaiting, ← hstands.represents.items_eq,
    hstands.represents.removed_eq, hstands.length_items hfinished hconsumers,
    hstands.removed_eq_quota hfinished hconsumers]
  rfl

/-- Once everybody is through, the rest of the items comes out in order. -/
theorem drain_eq (hconsumers : plan.consumers = 0 → plan.quota = 0)
    (htotal : plan.total < UInt64.size) :
    c.drain.2 = h.items ∧ c.drain.1.queue.removed = plan.total := by
  have hremoved : h.removed + min h.items.length h.items.length = plan.total := by
    rw [hstands.removed_eq_quota hfinished hconsumers, hstands.length_items hfinished hconsumers,
      Plan.quota]
    omega
  obtain ⟨hrepresents, hreply⟩ := hstands.represents.act (.drain none) [] (by simp)
    (show h.removed + min h.items.length h.items.length < UInt64.size by omega)
  have hanswer : (c.session.act (.drain none) []).2.reply = .items h.items := by
    have hall : (h.popMany h.items.length).1 = h.items := List.take_length
    cases hr : (c.session.act (.drain none) []).2.reply with
    | panicked panic =>
        rw [hr] at hreply
        cases hreply
    | _ =>
        rw [hr] at hreply
        exact hreply.trans (congrArg Reply.items hall)
  have hdrain : c.drain = ((c.session.act (.drain none) []).1, h.items) := by
    simp only [drain, hanswer]
  rw [hdrain]
  exact ⟨rfl, hrepresents.removed_eq.trans hremoved⟩

end Stands

/-- Whatever the manners of the consumers, the batches of the producers and the order of the steps:
once everybody is through, nobody waits, and the consumers have taken as many items as the plan
says, each of them those of every producer in order. These items and those left over, which come out
in order, too, are all items of the plan, each of them once. So everything that is counted in the
end is what the plan alone says, provided that a 64-bit word can count it. -/
theorem run_carries_out_plan (hbegins : c.Begins plan) (hquota : plan.quota < UInt64.size)
    (hconsumers : plan.consumers = 0 → plan.quota = 0)
    (hfinished : (c.run moves).isFinished = true) :
    let done := c.run moves
    done.session.sleepers = [] ∧
      done.session.queue.stats =
        { size := min plan.leftOver plan.total, waiting := 0, removed := plan.quota } ∧
      done.taken.length = plan.quota ∧
      (done.taken ++ done.session.queue.items) ~ plan.allItems ∧ plan.allItems.Nodup ∧
      (∀ worker ∈ done.workers, InOrder worker.taken) ∧ InOrder done.session.queue.items ∧
      (plan.total < UInt64.size → done.drain.2 = done.session.queue.items ∧
        done.drain.1.queue.removed = plan.total ∧ done.tally = plan.outcome) := by
  intro done
  obtain ⟨h, assigned, hstands⟩ := hbegins.stands.exists_run hquota moves
  change done.Stands plan h assigned at hstands
  have horder := Plan.inOrder_of_shares (hstands.shares hfinished)
  have hall := hstands.perm_allItems hfinished
  have hstats := hstands.stats_eq hfinished hconsumers
  have hlength : done.taken.length = plan.quota :=
    hstands.length_taken.trans (hstands.removed_eq_quota hfinished hconsumers)
  have hworkers : ∀ worker ∈ done.workers, InOrder worker.taken := fun worker hworker =>
    horder.sublist ((hstands.taken_sublist hfinished hworker).trans (List.sublist_append_left _ _))
  have hrest : InOrder h.items := horder.sublist (List.sublist_append_right _ _)
  rw [← hstands.represents.items_eq]
  refine ⟨?_, hstats, hlength, hall, plan.nodup_allItems, hworkers, hrest, fun htotal => ?_⟩
  · have hnames := hstands.represents.sleepers_eq
    obtain ⟨hserved, hwaiting⟩ := List.append_eq_nil_iff.mp (hstands.inside_eq_nil hfinished)
    rw [hwaiting, List.map_eq_nil_iff.mp hserved] at hnames
    exact List.map_eq_nil_iff.mp hnames
  · obtain ⟨hdrained, hremoved⟩ := hstands.drain_eq hfinished hconsumers htotal
    refine ⟨hdrained, hremoved, ?_⟩
    have hdistinct := eraseDups_of_nodup ((hall.nodup_iff).mpr plan.nodup_allItems)
    have hinOrder : done.workers.all (fun worker => decide (InOrder worker.taken)) = true :=
      List.all_eq_true.mpr fun worker hworker => decide_eq_true (hworkers worker hworker)
    simp only [tally, Plan.outcome, hdrained, hremoved, hlength, hdistinct, hstats, hinOrder,
      hall.length_eq, plan.length_allItems, hstands.length_items hfinished hconsumers, hrest,
      decide_true, Bool.and_self]

/-- A consumer of each manner; one of them gives up and tries again, and one item is left over. -/
theorem run_carries_out_plan_mixed :
    let plan : Plan :=
      { producers := 2, items := 2, batch := 2, consumers := 3, leftOver := 1, kind := .mixed }
    let moves : List Move := [.consume 1 [], .consume 1 [], .consume 0 [], .consume 0 [],
      .pass millisecond, .consume 1 [], .produce 1, .consume 0 [], .consume 1 [], .consume 2 [],
      .produce 0, .consume 2 [], .consume 0 [], .consume 1 [], .consume 2 []]
    ((ofPlan plan).run moves).tally = plan.outcome := by
  intro plan moves
  have hfinished : ((ofPlan plan).run moves).isFinished = true := by decide
  obtain ⟨-, -, -, -, -, -, -, hdrained⟩ :=
    run_carries_out_plan (begins_ofPlan plan) (by decide) (by decide) hfinished
  exact (hdrained (by decide)).2.2

end FairQueue.Crowd
