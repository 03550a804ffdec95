import FairQueue.Proofs.History.Conservation

/-!
The counters of a queue tell the truth. Every item that was ever put into the queue is stored, or
kept by the slot of a consumer, or counted among the removed ones, and each step counts the items
that it takes out of the queue, delivered or not.
-/

namespace FairQueue

variable {α : Type}

namespace Incident

/-- The item that leaves the queue, be it delivered or not. -/
def departed? : Incident α → Option α
  | popped item | returned _ item | lost _ item => some item
  | _ => none

def departed (history : List (Incident α)) : List α :=
  history.filterMap departed?

@[simp] theorem departed_nil : departed ([] : List (Incident α)) = [] := rfl

@[simp] theorem departed_cons (i : Incident α) (is : List (Incident α)) :
    departed (i :: is) = i.departed?.toList ++ departed is := by
  cases hdeparted : i.departed? <;> simp [departed, hdeparted]

attribute [simp] departed?

end Incident

/-- As many items as a history brings and takes away, a ledger gains and loses. -/
theorem Ledger.Path.length_departed {l l' : Ledger α} {is : List (Incident α)} (h : Path l is l')
    (hsound : l.Sound) :
    l.items.length + l.served.length + (Incident.newItems is).length =
      (Incident.departed is).length + (l'.items.length + l'.served.length) := by
  induction h with
  | nil => simp
  | @cons l l₁ l' i is hhappens _ ih =>
      have hrest := ih (hhappens.sound hsound)
      cases hhappens with
      | @returned l w item hmem | @lost l w item hmem =>
          have hone : (l.served.filter (·.1.consumer = w.consumer)).length = 1 := by
            rw [filter_eq_singleton (f := (·.1.consumer)) hsound.served_names hmem]
            rfl
          have hsplit := l.served.length_eq_length_filter_add (·.1.consumer = w.consumer)
          simp at hrest hsplit hone ⊢
          omega
      | _ =>
          simp at hrest ⊢
          omega

namespace Entry

/-- The items that leave the queue with a step, delivered or destroyed on their way out. Those that
a failing source takes with it never were in the queue. -/
def departing (e : Entry α) : List α :=
  match e.reply with
  | .panicked (.sourceFailed _) => []
  | _ => e.outgoing

@[simp] theorem departing_anonymous (e : Entry α) : e.anonymous.departing = e.departing := by
  obtain ⟨reply, notified, logged, destroyed, stats⟩ := e
  cases reply with
  | panicked panic => cases panic <;> rfl
  | _ => rfl

end Entry

theorem Turn.departing_entry {t : Turn α} (refusing : Bool) (hdestroyed : t.destroyed = []) :
    (t.entry refusing).departing = t.reply.freight := by
  unfold entry
  split
  · simp [Entry.departing, Entry.outgoing, Reply.freight, hdestroyed]
  · cases hreply : t.reply with
    | panicked panic =>
        cases panic <;> simp [Entry.departing, Entry.outgoing, Reply.freight, hdestroyed]
    | _ => simp [Entry.departing, Entry.outgoing, Reply.freight, hdestroyed]

namespace Handoff

variable {h h' : Handoff α} {t : Turn α} {action : Action α} {clock : Clock} {c : Consumer}
  {steps : List (Step α)}

/-- What an action brings along it puts into the queue, but for what a failing source takes with
it. -/
theorem brought_turn (h : Handoff α) (action : Action α) (clock : Clock) :
    action.brought = action.offered ++ (h.turn action clock).destroyed := by
  cases action with
  | putAll source =>
      cases hfailure : source.failure? <;>
        simp [Action.brought, Action.offered, turn, hfailure]
  | start c removal => rw [(h.consumes_start c removal clock).destroyed]; rfl
  | wake c => rw [(h.consumes_wake c clock).destroyed]; rfl
  | next name =>
      simp only [turn]
      split <;> rfl
  | _ => rfl

theorem departing_turn (h : Handoff α) (action : Action α) (clock : Clock) (refusing : Bool) :
    ((h.turn action clock).entry refusing).departing = (h.turn action clock).reply.freight := by
  cases action with
  | putAll source =>
      cases hfailure : source.failure? with
      | some request =>
          simp only [turn, hfailure]
          rfl
      | none => exact Turn.departing_entry refusing (by simp [turn, hfailure])
  | start c removal =>
      exact Turn.departing_entry refusing (h.consumes_start c removal clock).destroyed
  | wake c => exact Turn.departing_entry refusing (h.consumes_wake c clock).destroyed
  | next name =>
      refine Turn.departing_entry refusing ?_
      simp only [turn]
      split <;> rfl
  | _ => exact Turn.departing_entry refusing rfl

theorem total_turn (hsound : h.ledger.Sound) (action : Action α) (clock : Clock) :
    (h.turn action clock).queue.removed + (h.turn action clock).queue.contents.length =
      h.removed + h.contents.length + action.offered.length := by
  have hbalance := (h.conserves_turn action clock hsound.served_names).length_eq
  have hremoved := h.removed_turn action clock
  rw [h.brought_turn action clock] at hbalance
  simp only [Turn.outgoing, List.length_append] at hbalance
  omega

end Handoff

namespace Session

variable {s s' : Session α} {h : Handoff α} {step : Step α} {steps : List (Step α)}

theorem Represents.removed_step (hrepresents : s.Represents h)
    (hcount : Handoff.CountFits (some h) (step :: steps)) (hstep : (s.step step).1 = some s') :
    s'.queue.removed = s.queue.removed + (s.step step).2.departing.length := by
  obtain ⟨hrepresents', hentry, -⟩ := hrepresents.turn_of_step hcount hstep
  rw [hrepresents'.removed_eq, hrepresents.removed_eq, ← Entry.departing_anonymous, hentry,
    Handoff.departing_turn]
  exact h.removed_turn _ _

theorem Represents.total_step (hrepresents : s.Represents h)
    (hcount : Handoff.CountFits (some h) (step :: steps)) (hstep : (s.step step).1 = some s') :
    s'.queue.removed + s'.contents.length =
      s.queue.removed + s.contents.length + step.action.offered.length := by
  obtain ⟨hrepresents', -, -⟩ := hrepresents.turn_of_step hcount hstep
  rw [hrepresents'.removed_eq, hrepresents.removed_eq, hrepresents'.contents_eq,
    hrepresents.contents_eq]
  exact Handoff.total_turn hrepresents.sound _ _

/-- Every item that was put into the queue is still there, or it is counted among the removed. -/
theorem Represents.total_run (hrepresents : s.Represents h)
    (hcount : Handoff.CountFits (some h) steps) (hlast : (run (some s) steps).1 = some s') :
    s'.queue.removed + s'.contents.length =
      s.queue.removed + s.contents.length + (steps.flatMap (·.action.offered)).length := by
  induction steps generalizing s h with
  | nil =>
      obtain rfl := Option.some.inj hlast
      rfl
  | cons step steps ih =>
      obtain ⟨s₁, hstep, hrest⟩ := exists_of_run_cons hlast
      obtain ⟨hrepresents₁, -, hcount₁⟩ := hrepresents.turn_of_step hcount hstep
      have hfirst := hrepresents.total_step hcount hstep
      have hlater := ih hrepresents₁ hcount₁ hrest
      rw [List.flatMap_cons, List.length_append]
      omega

/-- The consumers that still wait are those asleep that were not served. -/
theorem Represents.waiting_eq (hrepresents : s.Represents h) :
    s.queue.stats.waiting =
      ((s.sleepers.map (·.1)).filter fun c => (s.held? c).isNone).length := by
  have hserved : (h.served.map (·.1.consumer)).filter (fun c => (s.held? c).isNone) = [] := by
    refine List.filter_eq_nil_iff.mpr fun c hc => ?_
    obtain ⟨y, hy, rfl⟩ := List.mem_map.mp hc
    have hheld : s.held? y.1.consumer = some y.2 := hrepresents.held?_of_served hy
    simp [hheld]
  have hwaiting : (h.waiting.map (·.consumer)).filter (fun c => (s.held? c).isNone) =
      h.waiting.map (·.consumer) := by
    refine List.filter_eq_self.mpr fun c hc => ?_
    obtain ⟨w, hw, rfl⟩ := List.mem_map.mp hc
    simp [hrepresents.held?_of_waiting hw]
  calc
    s.queue.stats.waiting
    _ = h.waiting.length := hrepresents.size_eq
    _ = _ := by
      rw [hrepresents.sleepers_eq, List.filter_append, hserved, hwaiting, List.nil_append,
        List.length_map]

theorem Represents.length_contents (hrepresents : s.Represents h) :
    s.contents.length = h.ledger.items.length + h.ledger.served.length := by
  rw [hrepresents.contents_eq, Handoff.contents, List.length_append, List.length_map]
  rfl

theorem Represents.step_query (hrepresents : s.Represents h) (query : Query) (refusing : Bool)
    (jumps : List Time) :
    s.step ⟨.query query, refusing, jumps⟩ =
      stillOpen (s.answer (query.fromStats s.queue.stats)) := by
  have hintact : (s.scene ⟨.query query, refusing, jumps⟩).queue.broken = false :=
    broken_of_represents hrepresents
  simp only [Session.step, make, Call.look_of_unbroken hintact]
  rw [← Query.answer_eq_fromStats]
  rfl

/-- The counters of a queue tell the truth in every state that it can come to. Its size is the
number of the stored items, and nobody waits while there are any. Those that wait are the consumers
asleep that were not served yet, and every item that left the queue on any way is counted as
removed: together with the items stored and those served these are all that were ever put into it.
The next step counts exactly the items that it takes out, delivered or destroyed, unless it closes
the queue. Every query is answered from the same counters and changes nothing. -/
theorem run_counts_truly {opening : Opening} (hopen : open? opening = some s)
    (hcount : Handoff.CountFits (some Handoff.empty) steps)
    (hlast : (run (some s) steps).1 = some s') :
    let stats := s'.queue.stats
    let asleep := s'.sleepers.map (·.1)
    stats.size = s'.queue.items.length ∧
      stats.waiting = (asleep.filter fun c => (s'.held? c).isNone).length ∧
      stats.removed = (Incident.departed (s.history steps)).length ∧
      stats.removed + stats.size + (asleep.filterMap s'.held?).length =
        (steps.flatMap (·.action.offered)).length ∧
      (0 < stats.size → stats.waiting = 0) ∧
      (∀ step s'', Handoff.CountFits (some Handoff.empty) (steps ++ [step]) →
        (s'.step step).1 = some s'' →
          (s'.step step).2.stats = some s''.queue.stats ∧
            s''.queue.stats.removed = stats.removed + (s'.step step).2.departing.length) ∧
      ∀ query refusing jumps, s'.step ⟨.query query, refusing, jumps⟩ =
        stillOpen (s'.answer (query.fromStats stats)) := by
  intro stats asleep
  obtain ⟨rfl, -⟩ := open?_eq_some_iff.mp hopen
  obtain ⟨h, hh, hrepresents⟩ := exists_represents represents_empty hcount hlast
  have htotal : stats.removed + s'.contents.length = (steps.flatMap (·.action.offered)).length :=
    (represents_empty.total_run hcount hlast).trans (Nat.zero_add _)
  have hdeparted : (steps.flatMap (·.action.offered)).length =
      (Incident.departed ((ofQueue Queue.empty).history steps)).length + s'.contents.length := by
    have hpath := (represents_empty.path_history hcount hh).length_departed
      represents_empty.sound
    rw [represents_empty.newItems_history hcount hlast, ← hrepresents.length_contents] at hpath
    simpa [Handoff.empty, Handoff.ledger] using hpath
  refine ⟨rfl, hrepresents.waiting_eq, by omega, ?_, ?_, ?_, hrepresents.step_query⟩
  · rw [contents, List.length_append, ← Nat.add_assoc] at htotal
    exact htotal
  · intro hsize
    rcases hrepresents.sound.idle with hitems | hwaiting
    · have hnone : s'.queue.items = [] := hrepresents.items_eq.symm.trans hitems
      simp [stats, Queue.stats, hnone] at hsize
    · exact hrepresents.size_eq.trans (List.length_eq_zero_iff.mpr hwaiting)
  · intro step s'' hfits hstep
    have hrest := hfits.of_append.2
    rw [hh] at hrest
    obtain ⟨hrepresents', hentry, -⟩ := hrepresents.turn_of_step hrest hstep
    refine ⟨?_, hrepresents.removed_step hrest hstep⟩
    rw [← hrepresents'.stats_eq]
    exact (congrArg Entry.stats hentry).trans (Turn.stats_entry _ _)

/-- Of three items one is stored. A consumer wakes up with another, but the log refuses to hear of
it. -/
theorem run_counts_truly_refused :
    let opened : Session Nat := ofQueue Queue.empty
    let dealt := (((opened.act (.start 1 .take) []).1.act (.start 2 .take) []).1.act
      (.putAll ⟨[7, 8, 9], none⟩) []).1
    let left := (dealt.act (.wake 1) []).1
    dealt.queue.stats.removed + dealt.queue.stats.size + 2 = 3 ∧
      dealt.step ⟨.query .size, true, []⟩ = stillOpen (dealt.answer (.number 1)) ∧
      (dealt.step ⟨.wake 1, true, []⟩).1 = some left ∧
      left.queue.stats.removed = dealt.queue.stats.removed + 1 := by
  intro opened dealt left
  let steps : List (Step Nat) := [⟨.start 1 .take, false, []⟩, ⟨.start 2 .take, false, []⟩,
    ⟨.putAll ⟨[7, 8, 9], none⟩, false, []⟩]
  have hcount : Handoff.CountFits (some Handoff.empty) (steps ++ [⟨.wake 1, true, []⟩]) := by decide
  have hlast : (run (some opened) steps).1 = some dealt := by decide
  have hleft : (dealt.step ⟨.wake 1, true, []⟩).1 = some left := by decide
  obtain ⟨-, -, -, htotal, -, hstep, hquery⟩ :=
    run_counts_truly (show open? .plain = some opened from rfl) hcount.of_append.1 hlast
  obtain ⟨-, hremoved⟩ := hstep ⟨.wake 1, true, []⟩ left hcount hleft
  have hkept : ((dealt.sleepers.map (·.1)).filterMap dealt.held?).length = 2 := by decide
  have hgone : (dealt.step ⟨.wake 1, true, []⟩).2.departing.length = 1 := by decide
  have hone : (Query.size.fromStats dealt.queue.stats : Reply Nat) = .number 1 := by decide
  rw [hkept] at htotal
  rw [hgone] at hremoved
  rw [hquery, hone]
  exact ⟨htotal, rfl, hleft, hremoved⟩

end Session

end FairQueue
