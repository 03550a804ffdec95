import FairQueue.Proofs.Crowd.Plan
import FairQueue.Proofs.Handoff.Fetches
import FairQueue.Proofs.History.Standing

/-!
The course of a crowd: whatever its members do next, every item is still to be put, or stored, or
was given to one of the consumers, which took it or is asleep and keeps it.
-/

namespace FairQueue

namespace Session

variable {α : Type} {s : Session α} {h : Handoff α}

theorem Represents.act (hrepresents : s.Represents h) (action : Action α) (jumps : List Time)
    (hopen : action ≠ .close)
    (hfits : (h.turn action { now := h.now, jumps }).queue.removed < UInt64.size) :
    let t := h.turn action { now := h.now, jumps }
    (s.act action jumps).1.Represents { t.queue with now := t.clock.now } ∧
      (s.act action jumps).2.reply.anonymous = t.reply := by
  intro t
  have hstep : h.step ⟨action, false, jumps⟩ =
      (some { t.queue with now := t.clock.now }, t.entry false) :=
    h.step_of_ne_close hopen
  have hcount : ∀ stats ∈ (h.step ⟨action, false, jumps⟩).2.stats, stats.removed < UInt64.size := by
    rw [hstep, Turn.stats_entry]
    rintro stats ⟨⟩
    exact hfits
  obtain ⟨hentry, hnext⟩ := step_represents hrepresents hcount
  rw [hstep] at hentry hnext
  unfold Session.act
  generalize s.step ⟨action, false, jumps⟩ = next at hentry hnext
  obtain ⟨next, entry⟩ := next
  cases hnext with
  | some hrepresents' =>
      refine ⟨hrepresents', (congrArg Entry.reply hentry).trans ?_⟩
      unfold Turn.entry
      split
      · cases ‹false = true›
      · rfl

end Session

namespace Crowd

open Handoff

variable {plan : Plan} {c : Crowd} {h : Handoff Item} {assigned : List (Consumer × Item)}
  {workers : List Worker} {worker worker' : Worker} {i j p : Nat}

/-- What a producer has still to put. -/
def toPut (c : Crowd) (p : Nat) : List Item :=
  (c.work[p]?.getD []).flatMap (·.offered)

def takenBy (workers : List Worker) (i : Nat) : List Item :=
  (workers[i]?.map (·.taken)).getD []

def phase? (workers : List Worker) (i : Nat) : Option Phase :=
  workers[i]?.map (·.phase)

/-- How many items the consumer has claimed and not removed yet. -/
def Worker.pending (worker : Worker) : Nat :=
  if worker.phase = .claimed ∨ worker.phase = .asleep then 1 else 0

/-- A crowd that sets out to do what the plan says: its producers are to put their items in order,
one by one or in batches of whatever sizes, and its consumers, each in a manner of its own, are to
remove as many items together as the plan says. -/
structure Begins (c : Crowd) (plan : Plan) : Prop where
  session : c.session = Session.ofQueue Queue.empty
  puts : ∀ work ∈ c.work, ∀ action ∈ work, Puts action
  work : ∀ p, c.toPut p = plan.share p
  consumers : c.workers.length = plan.consumers
  idle : ∀ worker ∈ c.workers, worker.phase = .idle ∧ worker.taken = []
  quota : c.quota = plan.quota

/-- Where the items of a plan are. Those that were assigned so far were taken in this order by the
consumers that they were assigned to, but for the last one of a consumer that has not collected it
yet. -/
structure Stands (c : Crowd) (plan : Plan) (h : Handoff Item)
    (assigned : List (Consumer × Item)) : Prop where
  represents : c.session.Represents h
  puts : ∀ work ∈ c.work, ∀ action ∈ work, Puts action
  made : ∀ p, (assigned.map (·.2) ++ h.items).filter (·.producer = p) ++ c.toPut p = plan.share p
  given : ∀ i, (assigned.filter (·.1 = i)).map (·.2) =
    takenBy c.workers i ++ h.ledger.heldBy i
  asleep : ∀ i, i ∈ h.inside.map (·.consumer) ↔ phase? c.workers i = some .asleep
  removed : h.removed = (c.workers.map (·.taken.length)).sum
  claimed : h.removed + (c.workers.map (·.pending)).sum + c.quota = plan.quota
  ended : ∀ worker ∈ c.workers, worker.phase = .ended → c.quota = 0
  consumers : c.workers.length = plan.consumers

theorem begins_ofPlan (plan : Plan) : (ofPlan plan).Begins plan where
  session := rfl
  puts work hwork action haction := by
    obtain ⟨p, -, rfl⟩ := List.mem_map.mp hwork
    exact Plan.puts_work haction
  work p := by
    by_cases hp : p < plan.producers
    · simp [toPut, ofPlan, Plan.share, hp, plan.offered_work]
    · simp [toPut, ofPlan, Plan.share, hp]
  consumers := by simp [ofPlan]
  idle worker hworker := by
    obtain ⟨i, -, rfl⟩ := List.mem_map.mp hworker
    exact ⟨rfl, rfl⟩
  quota := rfl

theorem Begins.stands (hbegins : c.Begins plan) : c.Stands plan Handoff.empty [] := by
  have htaken : (c.workers.map (·.taken.length)).sum = 0 :=
    sum_map_eq_zero fun worker hworker => by simp [(hbegins.idle worker hworker).2]
  have hpending : (c.workers.map (·.pending)).sum = 0 :=
    sum_map_eq_zero fun worker hworker => by simp [Worker.pending, (hbegins.idle worker hworker).1]
  refine ⟨?_, hbegins.puts, hbegins.work, fun i => ?_, fun i => ?_, ?_, ?_, ?_, hbegins.consumers⟩
  · rw [hbegins.session]
    exact Session.represents_empty
  · cases hi : c.workers[i]? with
    | none => simp [takenBy, hi, Ledger.heldBy, Handoff.ledger, Handoff.empty]
    | some worker =>
        have hidle := (hbegins.idle worker (List.mem_of_getElem? hi)).2
        simp [takenBy, hi, hidle, Ledger.heldBy, Handoff.ledger, Handoff.empty]
  · refine ⟨fun hinside => absurd hinside (by simp [Handoff.inside, Handoff.empty]), fun hi => ?_⟩
    obtain ⟨worker, hworker, hphase⟩ := Option.map_eq_some_iff.mp hi
    cases hphase.symm.trans (hbegins.idle worker (List.mem_of_getElem? hworker)).1
  · simp [htaken, Handoff.empty]
  · simp [hpending, Handoff.empty, hbegins.quota]
  · intro worker hworker hphase
    cases hphase.symm.trans (hbegins.idle worker hworker).1

theorem takenBy_set (hi : workers[i]? = some worker) (worker' : Worker) (j : Nat) :
    takenBy (workers.set i worker') j = if j = i then worker'.taken else takenBy workers j := by
  obtain ⟨hlt, -⟩ := List.getElem?_eq_some_iff.mp hi
  by_cases hj : j = i
  · subst hj
    simp [takenBy, hlt]
  · simp [takenBy, List.getElem?_set_ne (Ne.symm hj), hj]

theorem phase?_set (hi : workers[i]? = some worker) (worker' : Worker) (j : Nat) :
    phase? (workers.set i worker') j =
      if j = i then some worker'.phase else phase? workers j := by
  obtain ⟨hlt, -⟩ := List.getElem?_eq_some_iff.mp hi
  by_cases hj : j = i
  · subst hj
    simp [phase?, hlt]
  · simp [phase?, List.getElem?_set_ne (Ne.symm hj), hj]

theorem filter_map_pair (i j : Nat) (items : List Item) :
    ((items.map (i, ·)).filter (·.1 = j)).map (·.2) = if j = i then items else [] := by
  by_cases hj : j = i
  · subst hj
    simp [List.filter_map, Function.comp_def]
  · simp [List.filter_map, Function.comp_def, Ne.symm hj, hj]

theorem offered_of_puts {action : Action Item} (hputs : Puts action) (clock : Clock) :
    action ≠ .close ∧ (h.turn action clock).queue = h.putAll action.offered := by
  rcases hputs with ⟨item, rfl⟩ | ⟨items, rfl⟩
  · exact ⟨by simp, rfl⟩
  · exact ⟨by simp, rfl⟩

/-- Every manner is a way to fetch an item. -/
theorem fetches_manner (hi : i ∉ h.inside.map (·.consumer)) (manner : Manner) (clock : Clock) :
    manner.action i ≠ .close ∧
      ∃ popped, h.Fetches i popped (h.turn (manner.action i) clock) := by
  cases manner with
  | take | takeWithin span => exact ⟨by simp [Manner.action], fetches_start hi _ clock⟩
  | poll => exact ⟨by simp [Manner.action], fetches_poll hi clock⟩

/-- What a consumer makes of an answer to its call. -/
theorem heard_of_reply (worker : Worker) {reply : Reply Item}
    (hreply : (∃ item, reply = .delivered item) ∨ ∃ limit, reply = .asleep limit) :
    (worker.heard reply).taken = worker.taken ++ reply.freight ∧
      ((worker.heard reply).phase = .asleep ↔ ∃ limit, reply = .asleep limit) ∧
      (worker.heard reply).pending + reply.freight.length = 1 ∧
      (worker.heard reply).phase ≠ .ended := by
  rcases hreply with ⟨_ | item, rfl⟩ | ⟨limit, rfl⟩
  all_goals simp [Worker.heard, Reply.freight, Worker.pending]

theorem eq_of_anonymous {reply reply' : Reply Item}
    (hreply : (∃ item, reply' = .delivered item) ∨ ∃ limit, reply' = .asleep limit)
    (hsame : reply.anonymous = reply') : reply = reply' := by
  cases reply with
  | panicked panic => rcases hreply with ⟨_, rfl⟩ | ⟨_, rfl⟩ <;> cases hsame
  | _ => exact hsame

namespace Stands

variable (hstands : c.Stands plan h assigned)

include hstands

/-- A consumer that claimed an item makes its next step. -/
theorem exists_turn {popped : List Item} {action : Action Item} {jumps : List Time}
    (hquota : plan.quota < UInt64.size) (hworker : c.workers[i]? = some worker)
    (hpending : worker.pending = 1) (hopen : action ≠ .close)
    (hfetches : h.Fetches i popped (h.turn action { now := h.now, jumps })) :
    ∃ h' assigned', (c.turn i worker action jumps).Stands plan h' assigned' := by
  generalize ht : h.turn action { now := h.now, jumps } = t at hfetches
  obtain ⟨htaken, hphase, hclaim, hended⟩ := heard_of_reply worker hfetches.reply
  have hsum := sum_map_set (·.pending) hworker (worker.heard t.reply)
  have hclaimed := hstands.claimed
  have hfits : t.queue.removed < UInt64.size := by
    have hremoved := hfetches.removed
    omega
  obtain ⟨hrepresents, hreply⟩ := hstands.represents.act action jumps hopen (ht ▸ hfits)
  rw [ht] at hrepresents hreply
  have hheard := eq_of_anonymous hfetches.reply hreply
  refine ⟨{ t.queue with now := t.clock.now }, assigned ++ popped.map (i, ·), ?_⟩
  simp only [Crowd.turn, hheard]
  refine ⟨hrepresents, hstands.puts, fun p => ?_, fun j => ?_, fun j => ?_, ?_, ?_, ?_, ?_⟩
  · have hitems : (assigned ++ popped.map (i, ·)).map (·.2) ++ t.queue.items =
        assigned.map (·.2) ++ h.items := by
      simp [hfetches.items, Function.comp_def]
    exact hitems.symm ▸ hstands.made p
  · rw [List.filter_append, List.map_append, hstands.given j, takenBy_set hworker,
      filter_map_pair]
    by_cases hj : j = i
    · subst hj
      rw [if_pos rfl, if_pos rfl, htaken, takenBy, hworker, List.append_assoc, ← hfetches.own,
        List.append_assoc]
      rfl
    · rw [if_neg hj, if_neg hj, ← (hfetches.others j hj).1]
      exact List.append_nil _
  · rw [phase?_set hworker]
    by_cases hj : j = i
    · subst hj
      rw [if_pos rfl, Option.some_inj, hphase]
      exact hfetches.inside
    · rw [if_neg hj, ← hstands.asleep j]
      exact (hfetches.others j hj).2
  · have htotal := sum_map_set (·.taken.length) hworker (worker.heard t.reply)
    have hremoved := hfetches.removed
    have hold := hstands.removed
    simp only [htaken, List.length_append] at htotal
    dsimp only
    omega
  · have hremoved := hfetches.removed
    dsimp only
    omega
  · intro worker' hmem hphase'
    rcases List.mem_or_eq_of_mem_set hmem with hmem | rfl
    · exact hstands.ended worker' hmem hphase'
    · exact absurd hphase' hended
  · rw [List.length_set]
    exact hstands.consumers

/-- A consumer claims an item, or ends if there is none left to claim. -/
theorem rephase {phase : Phase} {quota : Nat} (hworker : c.workers[i]? = some worker)
    (hidle : worker.phase = .idle) (hphase : phase ≠ .asleep)
    (hclaimed : { worker with phase }.pending + quota = c.quota)
    (hended : phase = .ended → quota = 0) :
    { c with workers := c.workers.set i { worker with phase }, quota }.Stands plan h assigned := by
  refine { hstands with
    given := fun j => ?_, asleep := fun j => ?_, removed := ?_, claimed := ?_, ended := ?_,
    consumers := ?_ }
  · rw [takenBy_set hworker, hstands.given j]
    split
    · subst j
      rw [takenBy, hworker]
      rfl
    · rfl
  · rw [phase?_set hworker, hstands.asleep j]
    split
    · subst j
      simp [phase?, hworker, hidle, hphase]
    · rfl
  · have htotal := sum_map_set (·.taken.length) hworker { worker with phase }
    have hold := hstands.removed
    dsimp only at htotal ⊢
    omega
  · have hsum := sum_map_set (·.pending) hworker { worker with phase }
    have hold := hstands.claimed
    have hnothing : worker.pending = 0 := by simp [Worker.pending, hidle]
    dsimp only at hsum ⊢
    omega
  · intro worker' hmem hphase'
    rcases List.mem_or_eq_of_mem_set hmem with hmem | rfl
    · have hnone := hstands.ended worker' hmem hphase'
      dsimp only
      omega
    · exact hended hphase'
  · rw [List.length_set]
    exact hstands.consumers

theorem removed_lt (hquota : plan.quota < UInt64.size) : h.removed < UInt64.size := by
  have hclaimed := hstands.claimed
  omega

omit hstands in
theorem toPut_set {action : Action Item} {rest : List (Action Item)}
    (hwork : c.work[p]? = some (action :: rest))
    (hown : ∀ item ∈ action.offered, item.producer = p) (session : Session Item) (p' : Nat) :
    action.offered.filter (·.producer = p') ++
      { c with session, work := c.work.set p rest }.toPut p' = c.toPut p' := by
  by_cases hp : p' = p
  · subst hp
    obtain ⟨hlt, -⟩ := List.getElem?_eq_some_iff.mp hwork
    rw [List.filter_eq_self.mpr fun item hitem => decide_eq_true (hown item hitem), toPut, toPut,
      hwork, List.getElem?_set_self hlt]
    rfl
  · have hnone : action.offered.filter (·.producer = p') = [] :=
      List.filter_eq_nil_iff.mpr fun item hitem hsame =>
        hp ((of_decide_eq_true hsame).symm.trans (hown item hitem))
    rw [hnone, toPut, toPut, List.getElem?_set_ne (Ne.symm hp)]
    rfl

theorem producer_of_mem_offered {action : Action Item} {rest : List (Action Item)} {item : Item}
    (hwork : c.work[p]? = some (action :: rest)) (hitem : item ∈ action.offered) :
    item.producer = p := by
  have hshare : item ∈ plan.share p := by
    rw [← hstands.made p, toPut, hwork]
    exact List.mem_append_right _ (List.mem_append_left _ hitem)
  rw [Plan.share] at hshare
  split at hshare
  · exact Plan.producer_of_mem_itemsOf hshare
  · cases hshare

/-- A producer puts its next items. -/
theorem exists_produce {action : Action Item} {rest : List (Action Item)}
    (hquota : plan.quota < UInt64.size) (hwork : c.work[p]? = some (action :: rest)) :
    ∃ h' assigned', { c with
      session := (c.session.act action []).1
      work := c.work.set p rest }.Stands plan h' assigned' := by
  have hputs := hstands.puts _ (List.mem_of_getElem? hwork)
  obtain ⟨hopen, hqueue⟩ := offered_of_puts (h := h) (hputs action List.mem_cons_self)
    { now := h.now, jumps := [] }
  generalize ht : h.turn action { now := h.now, jumps := [] } = t at hqueue
  have hfits : t.queue.removed < UInt64.size := hqueue ▸ hstands.removed_lt hquota
  obtain ⟨hrepresents, -⟩ := hstands.represents.act action [] hopen (ht ▸ hfits)
  rw [ht, hqueue] at hrepresents
  refine ⟨_, assigned ++ h.dealt action.offered,
    { hstands with
      represents := hrepresents, puts := ?_, made := ?_, given := fun j => ?_, asleep := ?_ }⟩
  · intro work hmem
    rcases List.mem_or_eq_of_mem_set hmem with hmem | rfl
    · exact hstands.puts work hmem
    · exact fun action hmem => hputs action (List.mem_cons_of_mem _ hmem)
  · intro p'
    have hput := toPut_set hwork (fun item hitem => hstands.producer_of_mem_offered hwork hitem)
      (c.session.act action []).1 p'
    calc
      ((assigned ++ h.dealt action.offered).map (·.2) ++
          (h.putAll action.offered).items).filter (·.producer = p') ++ _
      _ = (assigned.map (·.2) ++ h.items).filter (·.producer = p') ++
          (action.offered.filter (·.producer = p') ++ _) := by
        rw [List.map_append, List.append_assoc, items_putAll hstands.represents.sound,
          ← List.append_assoc, List.filter_append, List.append_assoc]
      _ = (assigned.map (·.2) ++ h.items).filter (·.producer = p') ++ c.toPut p' := by rw [hput]
      _ = plan.share p' := hstands.made p'
  · have hheld := h.heldBy_putAll action.offered j
    rw [List.filter_append, List.map_append, hstands.given j, List.append_assoc, ← hheld]
    rfl
  · intro j
    rw [← hstands.asleep j, ← h.inside_putAll action.offered]
    exact Iff.rfl

theorem exists_pass (hquota : plan.quota < UInt64.size) (span : Time) :
    ∃ h' assigned', { c with session := (c.session.act (.advance span) []).1 }.Stands plan h'
      assigned' := by
  obtain ⟨hrepresents, -⟩ := hstands.represents.act (.advance span) [] (by simp)
    (hstands.removed_lt hquota)
  exact ⟨_, assigned, { hstands with represents := hrepresents }⟩

theorem exists_consume (hquota : plan.quota < UInt64.size) (hworker : c.workers[i]? = some worker)
    (jumps : List Time) :
    ∃ h' assigned', (c.move (.consume i jumps)).Stands plan h' assigned' := by
  have hinside := hstands.asleep i
  rw [phase?, hworker, Option.map_some, Option.some_inj] at hinside
  cases hphase : worker.phase with
  | idle =>
      simp only [move, hworker, hphase]
      split
      · exact ⟨h, assigned, hstands.rephase hworker hphase (by simp) (by simp [Worker.pending])
          fun _ => ‹_›⟩
      · refine ⟨h, assigned, hstands.rephase hworker hphase (by simp) ?_ (by simp)⟩
        simp only [Worker.pending, true_or, if_true]
        omega
  | claimed =>
      have houtside : i ∉ h.inside.map (·.consumer) := by simp [hinside, hphase]
      obtain ⟨hopen, popped, hfetches⟩ :=
        fetches_manner houtside worker.manner { now := h.now, jumps }
      simp only [move, hworker, hphase]
      exact hstands.exists_turn hquota hworker (by simp [Worker.pending, hphase]) hopen hfetches
  | asleep =>
      simp only [move, hworker, hphase]
      exact hstands.exists_turn hquota hworker (by simp [Worker.pending, hphase]) (by simp)
        (fetches_wake hstands.represents.sound (hinside.mpr hphase) _)
  | ended =>
      simp only [move, hworker, hphase]
      exact ⟨h, assigned, hstands⟩

/-- Whoever makes the next step, everything is where it should be. -/
theorem exists_move (hquota : plan.quota < UInt64.size) (m : Move) :
    ∃ h' assigned', (c.move m).Stands plan h' assigned' := by
  cases m with
  | produce p =>
      simp only [move]
      split
      · exact hstands.exists_produce hquota ‹_›
      · exact ⟨h, assigned, hstands⟩
  | pass span => exact hstands.exists_pass hquota span
  | consume i jumps =>
      cases hworker : c.workers[i]? with
      | some worker => exact hstands.exists_consume hquota hworker jumps
      | none =>
          simp only [move, hworker]
          exact ⟨h, assigned, hstands⟩

theorem exists_run (hquota : plan.quota < UInt64.size) (moves : List Move) :
    ∃ h' assigned', (c.run moves).Stands plan h' assigned' := by
  induction moves generalizing c h assigned with
  | nil => exact ⟨h, assigned, hstands⟩
  | cons m moves ih =>
      obtain ⟨h₁, assigned₁, hstands₁⟩ := hstands.exists_move hquota m
      exact ih hstands₁

end Stands

end Crowd

end FairQueue
