import FairQueue.Proofs.Handoff.Lapse
import FairQueue.Proofs.History.Replies
import FairQueue.Proofs.Session.Interchange

/-!
A call that comes back empty-handed, beside a run in which time passes instead. Nobody else can
tell, but for the number of those that wait.
-/

namespace FairQueue.Session

variable {α : Type} {s s' s₁ : Session α} {h h' h₁ : Handoff α} {c : Consumer} {step : Step α}
  {before during after steps later : List (Step α)} {gone gone' : Option Consumer}
  {late late' : Consumer → Bool}

/-- These are the steps from the start of a call of `c` until it returns empty-handed: either in its
first step, or in the last of them if it fell asleep in the first. In between nobody else uses its
name, and nobody closes the queue. -/
inductive Lapse (s : Session α) (c : Consumer) : List (Step α) → Prop where
  | atOnce {removal : Removal} {refusing : Bool} {jumps : List Time}
      (hempty : (s.step ⟨.start c removal, refusing, jumps⟩).2.reply = .delivered none) :
      Lapse s c [⟨.start c removal, refusing, jumps⟩]
  | later {removal : Removal} {refusing : Bool} {jumps : List Time} {limit : Option Time}
      {between : List (Step α)} {refusing' : Bool} {jumps' : List Time}
      (hasleep : (s.step ⟨.start c removal, refusing, jumps⟩).2.reply = .asleep limit)
      (hothers : ∀ step ∈ between,
        step.action ≠ .close ∧ ∀ removal, step.action ≠ .start c removal)
      (hempty : (step? (run (some s) (⟨.start c removal, refusing, jumps⟩ :: between)).1
        ⟨.wake c, refusing', jumps'⟩).2.reply = .delivered none) :
      Lapse s c (⟨.start c removal, refusing, jumps⟩ :: (between ++ [⟨.wake c, refusing', jumps'⟩]))

/-- The same steps, but where `c` runs only as much time passes as its turns took. -/
def pausing (c : Consumer) (s : Session α) : List (Step α) → List (Step α)
  | [] => []
  | step :: steps =>
    let next := (s.step step).1.getD s
    (if step.action.runs c then ⟨.advance (next.now - s.now), false, []⟩ else step) ::
      next.pausing c steps

/-- But for their slots the sessions differ only in `gone`, which waits in the line of one and is
not in that of the other. -/
structure Lacks (gone : Option Consumer) (s s' : Session α) : Prop where
  items : s'.queue.items = s.queue.items
  removed : s'.queue.removed = s.queue.removed
  size : s.queue.line.size = s'.queue.line.size + gone.isSome.toNat
  parked : s'.parked = s.parked.filter (some · ≠ gone)
  held : ∀ d, s'.held? d = s.held? d
  now : s'.now = s.now
  iterators : s'.iterators = s.iterators

/-- The two sessions are in the states of two queues of which the second one lacks `gone`. -/
structure Beside (gone : Option Consumer) (late : Consumer → Bool) (s s' : Session α)
    (h h' : Handoff α) : Prop where
  represents : s.Represents h
  represents' : s'.Represents h'
  lacks : h.Lacks gone late h'

theorem history_cons (hstep : (s.step step).1 = some s₁) (steps : List (Step α)) :
    s.history (step :: steps) =
      (s.step step).2.incidents step.action ++ s₁.history steps := by
  rw [history, run_cons hstep, historyOf_cons]
  rfl

theorem fits_of_echoed {e e' : Entry α} {action : Action α} (hecho : e = e'.echoed action gone late)
    (hfits : ∀ stats ∈ e.stats, stats.removed < UInt64.size) :
    ∀ stats ∈ e'.stats, stats.removed < UInt64.size := by
  intro stats hstats
  refine hfits (stats.withWaiting gone.isSome.toNat) ?_
  rw [hecho]
  exact Option.mem_map_of_mem _ hstats

theorem echoed_closedEntry (action : Action α) (gone : Option Consumer) (late : Consumer → Bool) :
    (closedEntry : Entry α).anonymous.echoed action gone late =
      (closedEntry : Entry α).anonymous := by
  cases action <;> rfl

namespace Beside

variable (hbeside : Beside gone late s s' h h')

include hbeside

theorem session_lacks : Lacks gone s s' := by
  obtain ⟨hs, hs', hlacks⟩ := hbeside
  refine ⟨?_, ?_, ?_, ?_, fun d => ?_, ?_, ?_⟩
  · rw [← hs.items_eq, ← hs'.items_eq, hlacks.items]
  · rw [hs.removed_eq, hs'.removed_eq, hlacks.removed]
  · rw [hs.size_eq, hs'.size_eq]
    exact hlacks.length_eq hs.sound
  · have hnames := congrArg (List.map Waiter.consumer) hlacks.waiting
    rw [List.map_map] at hnames
    rw [hs.parked_eq, hs'.parked_eq, List.filter_map]
    exact hnames.symm
  · refine hs.held?_congr hs' ?_
    simp only [Ledger.heldBy, Handoff.ledger, hlacks.served, List.filter_map, List.map_map]
    rfl
  · rw [hs.now_eq, hs'.now_eq, hlacks.now]
  · rw [hs.iterators_eq, hs'.iterators_eq, hlacks.iterators]

/-- Somebody else takes a step. -/
theorem exists_step (hcount : Handoff.CountFits (some h) (step :: later))
    (hother : ∀ c, gone = some c → step.action.runs c = false)
    (hclose : gone ≠ none → step.action ≠ .close) (hstep : (h.step step).1 = some h₁)
    (hstays : ∀ c, gone = some c → c ∈ h₁.waiting.map (·.consumer)) :
    ∃ s₁ s₁' h₁', (s.step step).1 = some s₁ ∧ (s'.step step).1 = some s₁' ∧
      Beside gone (latecomers late gone ((s.step step).2.incidents step.action)) s₁ s₁' h₁ h₁' ∧
      Handoff.CountFits (some h₁) later ∧
      (s.step step).2.anonymous = (s'.step step).2.anonymous.echoed step.action gone late := by
  obtain ⟨hs, hs', hlacks⟩ := hbeside
  obtain ⟨h₁', hstep', hecho, hlacks₁⟩ :=
    hlacks.exists_step hs.sound hother hclose hstep hstays
  obtain ⟨s₁, hs₁, hrepresents₁, hcount₁, hentry, -⟩ := hs.exists_step hcount hstep
  have hfits' := fits_of_echoed hecho hcount.of_cons.1
  obtain ⟨s₁', hs₁', hrepresents₁'⟩ := hs'.exists_of_fits hfits' hstep'
  rw [← Entry.incidents_anonymous, hentry, (step_represents hs' hfits').1]
  exact ⟨s₁, s₁', h₁', hs₁, hs₁', ⟨hrepresents₁, hrepresents₁', hlacks₁⟩, hcount₁, hecho⟩

/-- The consumer takes a turn, and beside it the time passes that this turn took. -/
theorem exists_pause (hcount : Handoff.CountFits (some h) (step :: later))
    (hruns : step.action.runs c = true)
    (hlacks' : Handoff.Lacks gone' late'
      (h.turn step.action { now := h.now, jumps := step.jumps }).queue h') :
    ∃ s₁ s₁' h₁ h₁', (s.step step).1 = some s₁ ∧ (h.step step).1 = some h₁ ∧
      (s'.step ⟨.advance (s₁.now - s.now), false, []⟩).1 = some s₁' ∧
      Beside gone' late' s₁ s₁' h₁ h₁' ∧ Handoff.CountFits (some h₁) later := by
  obtain ⟨hs, hs', hlacks⟩ := hbeside
  generalize ht : h.turn step.action { now := h.now, jumps := step.jumps } = t at hlacks'
  have hnow : h.now ≤ t.clock.now := by
    rw [← ht]
    exact h.now_le_turn step.action { now := h.now, jumps := step.jumps }
  have hstep : (h.step step).1 = some { t.queue with now := t.clock.now } := by
    rw [h.step_of_ne_close (fun hclose => by simp [hclose, Action.runs] at hruns), ht]
  obtain ⟨s₁, hs₁, hrepresents₁, hcount₁, -⟩ := hs.exists_step hcount hstep
  have hlater : s₁.now = t.clock.now := hrepresents₁.now_eq
  have hsum : s'.now + (s₁.now - s.now) = t.clock.now := by
    rw [hs'.now_eq, ← hlacks.now, hs.now_eq, hlater]
    exact Time.add_sub_of_le hnow
  refine ⟨s₁, { s' with now := t.clock.now }, _, { h' with now := t.clock.now }, hs₁, hstep, ?_,
    ⟨hrepresents₁, hs'.withNow _, hlacks'.withNow _⟩, hcount₁⟩
  rw [← hsum]
  rfl

omit hbeside in
/-- The consumer wakes up and falls asleep again. -/
theorem exists_asleep (hbeside : Beside (some c) late s s' h h')
    (hcount : Handoff.CountFits (some h) (step :: later))
    (haction : step.action = .wake c) (hstep : (h.step step).1 = some h₁)
    (hstays : c ∈ h₁.waiting.map (·.consumer)) :
    ∃ s₁ s₁' h₁', (s.step step).1 = some s₁ ∧
      (s'.step ⟨.advance (s₁.now - s.now), false, []⟩).1 = some s₁' ∧
      Beside (some c) late s₁ s₁' h₁ h₁' ∧ Handoff.CountFits (some h₁) later := by
  have hsame : (h.turn step.action { now := h.now, jumps := step.jumps }).queue = h := by
    rw [haction]
    refine Handoff.queue_of_asleep hbeside.represents.sound (hbeside.lacks.stays c rfl) ?_
    rw [h.step_of_ne_close (by simp [haction])] at hstep
    obtain rfl := Option.some.inj hstep
    rw [haction] at hstays
    exact hstays
  obtain ⟨s₁, s₁', h₂, h₁', hs₁, hstep', hs₁', hbeside₁, hcount₁⟩ :=
    hbeside.exists_pause (c := c) hcount (by simp [haction, Action.runs])
      (hsame.symm ▸ hbeside.lacks)
  obtain rfl := Option.some.inj (hstep'.symm.trans hstep)
  exact ⟨s₁, s₁', h₁', hs₁, hs₁', hbeside₁, hcount₁⟩

theorem exists_run (hgone : gone = some c)
    (hcount : Handoff.CountFits (some h) (steps ++ later))
    (hothers : ∀ step ∈ steps, step.action ≠ .close ∧ ∀ removal, step.action ≠ .start c removal)
    (hlast : (Handoff.run (some h) steps).1 = some h₁) (hstays : c ∈ h₁.waiting.map (·.consumer)) :
    ∃ s₁ s₁' h₁', (run (some s) steps).1 = some s₁ ∧
      (run (some s') (s.pausing c steps)).1 = some s₁' ∧
      Beside gone (latecomers late gone (s.history steps)) s₁ s₁' h₁ h₁' ∧
      Handoff.CountFits (some h₁) later := by
  subst hgone
  induction steps generalizing s s' h h' late with
  | nil =>
      obtain rfl := Option.some.inj hlast
      exact ⟨s, s', h', rfl, rfl, hbeside, hcount⟩
  | cons step steps ih =>
      obtain ⟨h₂, hstep, hrest⟩ := Handoff.exists_of_run_cons hlast
      obtain ⟨⟨hclose, hstart⟩, hothers⟩ := List.forall_mem_cons.mp hothers
      have hwaits : c ∈ h₂.waiting.map (·.consumer) :=
        Handoff.mem_waiting_of_run (fun step hmem => (hothers step hmem).2) hrest hstays
      have hnext : ∃ s₂ s₂' h₂', (s.step step).1 = some s₂ ∧
          (s'.step (if step.action.runs c then ⟨.advance (s₂.now - s.now), false, []⟩
            else step)).1 = some s₂' ∧
          Beside (some c) (latecomers late (some c) ((s.step step).2.incidents step.action))
            s₂ s₂' h₂ h₂' ∧ Handoff.CountFits (some h₂) (steps ++ later) := by
        by_cases hruns : step.action.runs c = true
        · have haction : step.action = .wake c := by
            cases haction : step.action <;> simp_all [Action.runs]
          obtain ⟨s₂, s₂', h₂', hs₂, hs₂', hbeside₂, hcount₂⟩ :=
            hbeside.exists_asleep hcount haction hstep hwaits
          have hnobody : ∀ d removal, step.action ≠ .start d removal := by simp [haction]
          simp only [hruns, if_true, latecomers_incidents hnobody]
          exact ⟨s₂, s₂', h₂', hs₂, hs₂', hbeside₂, hcount₂⟩
        · rw [Bool.not_eq_true] at hruns
          obtain ⟨s₂, s₂', h₂', hs₂, hs₂', hbeside₂, hcount₂, -⟩ :=
            hbeside.exists_step hcount (by rintro _ ⟨⟩; exact hruns) (fun _ => hclose) hstep
              (by rintro _ ⟨⟩; exact hwaits)
          simp only [hruns, Bool.false_eq_true, if_false]
          exact ⟨s₂, s₂', h₂', hs₂, hs₂', hbeside₂, hcount₂⟩
      obtain ⟨s₂, s₂', h₂', hs₂, hs₂', hbeside₂, hcount₂⟩ := hnext
      obtain ⟨s₁, s₁', h₁', hs₁, hs₁', hbeside₁, hcount₁⟩ := ih hcount₂ hothers hrest hbeside₂
      refine ⟨s₁, s₁', h₁', ?_, ?_, ?_, hcount₁⟩
      · rw [run_cons hs₂]
        exact hs₁
      · simp only [pausing, hs₂, Option.getD_some]
        rw [run_cons hs₂']
        exact hs₁'
      · rw [history_cons hs₂, latecomers_append]
        exact hbeside₁

omit hbeside in
/-- Once the call is over the others go on as they would without it. -/
theorem step_nobody (hbeside : Beside none late s s' h h')
    (hfits : ∀ stats ∈ (h.step step).2.stats, stats.removed < UInt64.size) :
    (s.step step).2.anonymous = (s'.step step).2.anonymous.echoed step.action none late ∧
      ((s.step step).1 = none ∧ (s'.step step).1 = none ∨
        ∃ s₁ s₁' h₁ h₁', (s.step step).1 = some s₁ ∧ (s'.step step).1 = some s₁' ∧
          (h.step step).1 = some h₁ ∧
          Beside none (latecomers late none ((s.step step).2.incidents step.action))
            s₁ s₁' h₁ h₁') := by
  obtain ⟨hs, hs', hlacks⟩ := hbeside
  obtain ⟨hecho, hnext⟩ := hlacks.step_nobody hs.sound step
  obtain ⟨hentry, hrel⟩ := step_represents hs hfits
  obtain ⟨hentry', hrel'⟩ := step_represents hs' (fits_of_echoed hecho hfits)
  rw [← Entry.incidents_anonymous, hentry, hentry']
  refine ⟨hecho, ?_⟩
  generalize (h.step step).1 = next, (h'.step step).1 = next' at hnext hrel hrel' ⊢
  generalize (s.step step).1 = last, (s'.step step).1 = last' at hrel hrel' ⊢
  cases hnext with
  | none =>
      cases hrel
      cases hrel'
      exact .inl ⟨rfl, rfl⟩
  | some hlacks₁ =>
      cases hrel with
      | some hs₁ =>
          cases hrel' with
          | some hs₁' => exact .inr ⟨_, _, _, _, rfl, rfl, rfl, hs₁, hs₁', hlacks₁⟩

omit hbeside in
theorem run_nobody (hbeside : Beside none late s s' h h')
    (hcount : Handoff.CountFits (some h) (after ++ [step])) :
    Option.Rel (Lacks none) (run (some s) after).1 (run (some s') after).1 ∧
      (step? (run (some s) after).1 step).2.anonymous =
        (step? (run (some s') after).1 step).2.anonymous.echoed step.action none
          (latecomers late none (s.history after)) := by
  induction after generalizing s s' h h' late with
  | nil => exact ⟨.some hbeside.session_lacks, (hbeside.step_nobody hcount.of_cons.1).1⟩
  | cons first after ih =>
      obtain ⟨hfits, hrest⟩ := hcount.of_cons
      rcases (hbeside.step_nobody hfits).2 with
        ⟨hs, hs'⟩ | ⟨s₁, s₁', h₁, h₁', hs, hs', hh, hbeside₁⟩
      · have hclosed : (run (some s) (first :: after)).1 = none := by
          simp only [run, step?, hs, run_none]
        have hclosed' : (run (some s') (first :: after)).1 = none := by
          simp only [run, step?, hs', run_none]
        rw [hclosed, hclosed']
        exact ⟨.none, (echoed_closedEntry _ _ _).symm⟩
      · simp only [Handoff.step?, hh] at hrest
        rw [run_cons hs, run_cons hs', history_cons hs, latecomers_append]
        exact ih hbeside₁ hrest

omit hbeside in
/-- While the consumer is asleep, the others go on as they would without it. -/
theorem exists_meanwhile (hbeside : Beside (some c) late s s' h h')
    (hcount : Handoff.CountFits (some h) (before ++ after ++ later))
    (hothers : ∀ step ∈ before ++ after,
      step.action ≠ .close ∧ ∀ removal, step.action ≠ .start c removal)
    (hlast : (Handoff.run (some h) (before ++ after)).1 = some h₁)
    (hstays : c ∈ h₁.waiting.map (·.consumer)) :
    ∃ s₂ s₂', (run (some s) before).1 = some s₂ ∧
      (run (some s') (s.pausing c before)).1 = some s₂' ∧ Lacks (some c) s₂ s₂' ∧
      ∀ step ∈ after.head?, step.action.runs c = false →
        (s₂.step step).2.anonymous = (s₂'.step step).2.anonymous.echoed step.action (some c)
          (latecomers late (some c) (s.history before)) := by
  obtain ⟨hbefore, hafter⟩ := List.forall_mem_append.mp hothers
  obtain ⟨h₂, hh₂, hrest⟩ := Handoff.exists_of_run_append hlast
  have hstays₂ : c ∈ h₂.waiting.map (·.consumer) :=
    Handoff.mem_waiting_of_run (fun step hmem => (hafter step hmem).2) hrest hstays
  rw [List.append_assoc] at hcount
  obtain ⟨s₂, s₂', h₂', hs₂, hs₂', hbeside₂, hcount₂⟩ :=
    hbeside.exists_run rfl hcount hbefore hh₂ hstays₂
  refine ⟨s₂, s₂', hs₂, hs₂', hbeside₂.session_lacks, fun step hstep hruns => ?_⟩
  obtain ⟨after, rfl⟩ := List.head?_eq_some_iff.mp hstep
  obtain ⟨h₃, hh₃, hrest₃⟩ := Handoff.exists_of_run_cons hrest
  obtain ⟨⟨hclose, -⟩, hothers₃⟩ := List.forall_mem_cons.mp hafter
  have hstays₃ : c ∈ h₃.waiting.map (·.consumer) :=
    Handoff.mem_waiting_of_run (fun step hmem => (hothers₃ step hmem).2) hrest₃ hstays
  obtain ⟨_, _, _, _, _, _, _, hecho⟩ :=
    hbeside₂.exists_step hcount₂ (by rintro _ ⟨⟩; exact hruns) (fun _ => hclose) hh₃
      (by rintro _ ⟨⟩; exact hstays₃)
  exact hecho

end Beside

theorem Represents.turn_reply {reply : Reply α} (hrepresents : s.Represents h)
    (hfits : ∀ stats ∈ (h.step step).2.stats, stats.removed < UInt64.size)
    (hopen : step.action ≠ .close) (hreply : (s.step step).2.reply = reply)
    (hpanic : ∀ panic, reply ≠ .panicked panic) :
    (h.turn step.action { now := h.now, jumps := step.jumps }).reply = reply := by
  have hentry := congrArg Entry.reply (step_represents hrepresents hfits).1
  rw [h.step_of_ne_close hopen] at hentry
  have hsame : (s.step step).2.anonymous.reply = reply := by
    simp only [Entry.anonymous, hreply]
    cases reply with
    | panicked panic => exact absurd rfl (hpanic panic)
    | _ => rfl
  rcases Turn.reply_entry (h.turn step.action { now := h.now, jumps := step.jumps })
    step.refusing with hturn | ⟨event, hrefused⟩
  · exact hturn.symm.trans (hentry.symm.trans hsame)
  · exact absurd (hsame.symm.trans (hentry.trans hrefused)) (hpanic _)

/-- The consumer takes the first turn of its call. -/
theorem Represents.exists_start {removal : Removal} (hrepresents : s.Represents h)
    (hcount : Handoff.CountFits (some h) (step :: later)) (haction : step.action = .start c removal)
    (hlacks : Handoff.Lacks gone (fun _ => false)
      (h.turn step.action { now := h.now, jumps := step.jumps }).queue h) :
    ∃ s₁ s₁' h₁ h₁', (s.step step).1 = some s₁ ∧ (h.step step).1 = some h₁ ∧
      (s.step ⟨.advance (s₁.now - s.now), false, []⟩).1 = some s₁' ∧
      Beside gone (latecomers (fun _ => false) (some c) ((s.step step).2.incidents step.action))
        s₁ s₁' h₁ h₁' ∧ Handoff.CountFits (some h₁) later := by
  have hentry := (step_represents hrepresents hcount.of_cons.1).1
  rw [h.step_of_ne_close (by simp [haction])] at hentry
  have hbeside : Beside none (fun _ => false) s s h h :=
    ⟨hrepresents, hrepresents, h.lacks_nobody⟩
  refine hbeside.exists_pause (c := c) hcount (by simp [haction, Action.runs]) ?_
  -- none of those inside joins the line in this turn
  rw [← Entry.incidents_anonymous, hentry]
  exact hlacks.congr fun w hw =>
    (Handoff.latecomers_of_inside (fun _ => false) (List.mem_map_of_mem hw)).symm

/-- Beside a run in which a call of `c` comes back empty-handed goes one that only pauses where `c`
runs. But for their slots the sessions in between differ in `c` alone, which waits in the line of
one and is not in that of the other, and the others are told the same but for that. Afterwards they
do not differ at all, and everybody is told the same but for the number that some have counted ahead
of them. -/
structure Overlooked (s : Session α) (c : Consumer) (during after : List (Step α)) (step : Step α) :
    Prop where
  meanwhile : ∀ past next rest, during = past ++ next :: rest → past ≠ [] →
    ∃ s₁ s₁', (run (some s) past).1 = some s₁ ∧
      (run (some s) (s.pausing c past)).1 = some s₁' ∧ Lacks (some c) s₁ s₁' ∧
      (next.action.runs c = false →
        (s₁.step next).2.anonymous = (s₁'.step next).2.anonymous.echoed next.action (some c)
          (latecomers (fun _ => false) (some c) (s.history past)))
  afterwards : ∃ s₁ s₁', (run (some s) during).1 = some s₁ ∧
    (run (some s) (s.pausing c during)).1 = some s₁' ∧ Lacks none s₁ s₁' ∧
    Option.Rel (Lacks none) (run (some s₁) after).1 (run (some s₁') after).1 ∧
    (step? (run (some s₁) after).1 step).2.anonymous =
      (step? (run (some s₁') after).1 step).2.anonymous.echoed step.action none
        (latecomers (latecomers (fun _ => false) (some c) (s.history during)) none
          (s₁.history after))

section Append

variable (hlast : (run (some s) steps).1 = some s₁)

include hlast

theorem history_append : s.history (steps ++ later) = s.history steps ++ s₁.history later := by
  induction steps generalizing s with
  | nil =>
      obtain rfl := Option.some.inj hlast
      rfl
  | cons step steps ih =>
      obtain ⟨s₂, hs₂, hrest⟩ := exists_of_run_cons hlast
      rw [List.cons_append, history_cons hs₂, history_cons hs₂, ih hrest, List.append_assoc]

theorem pausing_append :
    s.pausing c (steps ++ later) = s.pausing c steps ++ s₁.pausing c later := by
  induction steps generalizing s with
  | nil =>
      obtain rfl := Option.some.inj hlast
      rfl
  | cons step steps ih =>
      obtain ⟨s₂, hs₂, hrest⟩ := exists_of_run_cons hlast
      simp only [List.cons_append, pausing, hs₂, Option.getD_some, ih hrest]

end Append

theorem pausing_own (hstep : (s.step step).1 = some s₁) (hruns : step.action.runs c = true)
    (steps : List (Step α)) :
    s.pausing c (step :: steps) =
      ⟨.advance (s₁.now - s.now), false, []⟩ :: s₁.pausing c steps := by
  simp only [pausing, hstep, Option.getD_some, hruns, if_true]

/-- A call that comes back from its first turn is overlooked. -/
theorem Represents.overlooks_atOnce {removal : Removal} {refusing : Bool} {jumps : List Time}
    (hrepresents : s.Represents h)
    (hcount : Handoff.CountFits (some h) (⟨.start c removal, refusing, jumps⟩ :: (after ++ [step])))
    (hempty : (s.step ⟨.start c removal, refusing, jumps⟩).2.reply = .delivered none) :
    s.Overlooked c [⟨.start c removal, refusing, jumps⟩] after step := by
  have hreply := hrepresents.turn_reply hcount.of_cons.1 (by simp) hempty (by simp)
  obtain ⟨s₁, s₁', h₁, h₁', hs₁, -, hs₁', hbeside, hcount₁⟩ :=
    hrepresents.exists_start hcount rfl (Handoff.lacks_of_returned hreply)
  constructor
  · rintro (_ | ⟨first, past⟩) next rest hsplit hpast
    · exact absurd rfl hpast
    · simp at hsplit
  · obtain ⟨hlast, hecho⟩ := hbeside.run_nobody hcount₁
    refine ⟨s₁, s₁', hs₁, ?_, hbeside.session_lacks, hlast, ?_⟩
    · rw [pausing_own hs₁ (by simp [Action.runs])]
      exact hs₁'
    · rw [history_cons hs₁, latecomers_append]
      exact hecho

namespace Beside

variable (hbeside : Beside (some c) late s s' h h')

include hbeside

/-- The last of the steps, in which the consumer gives up. -/
theorem exists_finish (hcount : Handoff.CountFits (some h) (steps ++ step :: later))
    (hothers : ∀ step ∈ steps, step.action ≠ .close ∧ ∀ removal, step.action ≠ .start c removal)
    (haction : step.action = .wake c)
    (hempty : (step? (run (some s) steps).1 step).2.reply = .delivered none) :
    ∃ h₁ s₁ s₁' h₂ h₂', (Handoff.run (some h) steps).1 = some h₁ ∧
      c ∈ h₁.waiting.map (·.consumer) ∧ (run (some s) (steps ++ [step])).1 = some s₁ ∧
      (run (some s') (s.pausing c (steps ++ [step]))).1 = some s₁' ∧
      Beside none (latecomers late (some c) (s.history (steps ++ [step]))) s₁ s₁' h₂ h₂' ∧
      Handoff.CountFits (some h₂) later := by
  cases hs₁ : (run (some s) steps).1 with
  | none =>
      rw [hs₁] at hempty
      cases hempty
  | some s₁ =>
      rw [hs₁] at hempty
      obtain ⟨hsteps, hrest⟩ := hcount.of_append
      obtain ⟨h₁, hh₁, hrepresents₁⟩ := exists_represents hbeside.represents hsteps hs₁
      rw [hh₁] at hrest
      have hreply := hrepresents₁.turn_reply hrest.of_cons.1 (by simp [haction]) hempty (by simp)
      rw [haction] at hreply
      obtain ⟨hqueue, hwaits⟩ := Handoff.queue_of_wake hreply
      obtain ⟨_, s₁', h₁', hs, hs₁', hbeside₁, -⟩ :=
        hbeside.exists_run rfl hcount hothers hh₁ hwaits
      obtain rfl := Option.some.inj (hs.symm.trans hs₁)
      have hruns : step.action.runs c = true := by simp [haction, Action.runs]
      have hleft := hbeside₁.lacks.leave_self
      rw [← hqueue, ← haction] at hleft
      obtain ⟨s₂, s₂', h₂, h₂', hs₂, -, hs₂', hbeside₂, hcount₂⟩ :=
        hbeside₁.exists_pause hrest hruns hleft
      refine ⟨h₁, s₂, s₂', h₂, h₂', hh₁, hwaits, ?_, ?_, ?_, hcount₂⟩
      · rw [run_append hs₁, run_cons hs₂]
        rfl
      · rw [pausing_append hs₁, run_append hs₁', pausing_own hs₂ hruns, run_cons hs₂']
        rfl
      · have hnobody : ∀ d removal, step.action ≠ .start d removal := by simp [haction]
        rw [history_append hs₁, history_cons hs₂, latecomers_append, latecomers_append,
          latecomers_incidents hnobody]
        exact hbeside₂

end Beside

/-- A call that falls asleep in its first turn and gives up in the end is overlooked. -/
theorem Represents.overlooks_later {first last : Step α} {removal : Removal} {limit : Option Time}
    (hrepresents : s.Represents h)
    (hcount : Handoff.CountFits (some h) (first :: (steps ++ last :: (after ++ [step]))))
    (hfirst : first.action = .start c removal) (hlast : last.action = .wake c)
    (hasleep : (s.step first).2.reply = .asleep limit)
    (hothers : ∀ step ∈ steps, step.action ≠ .close ∧ ∀ removal, step.action ≠ .start c removal)
    (hempty : (step? (run (some s) (first :: steps)).1 last).2.reply = .delivered none) :
    s.Overlooked c (first :: (steps ++ [last])) after step := by
  have hreply := hrepresents.turn_reply hcount.of_cons.1 (by simp [hfirst]) hasleep (by simp)
  obtain ⟨s₁, s₁', h₁, h₁', hs₁, -, hs₁', hbeside, hcount₁⟩ :=
    hrepresents.exists_start hcount hfirst (Handoff.lacks_of_start hfirst hreply)
  rw [run_cons hs₁] at hempty
  have hown : first.action.runs c = true := by simp [hfirst, Action.runs]
  obtain ⟨h₂, s₃, s₃', h₃, h₃', hh₂, hwaits, hs₃, hs₃', hbeside₃, hcount₃⟩ :=
    hbeside.exists_finish hcount₁ hothers hlast hempty
  constructor
  · rintro (_ | ⟨first', past⟩) next rest hsplit hpast
    · exact absurd rfl hpast
    injection hsplit with hsame hsplit
    subst hsame
    -- the others take their turns before the last of the steps
    obtain ⟨between, rfl, hnext⟩ : ∃ between, steps = past ++ between ∧
        (next.action.runs c = false → next ∈ between.head?) := by
      rcases split_concat hsplit with ⟨rfl, rfl⟩ | ⟨between, rfl⟩
      · exact ⟨[], (List.append_nil _).symm, by simp [hlast, Action.runs]⟩
      · exact ⟨next :: between, rfl, fun _ => rfl⟩
    obtain ⟨s₂, s₂', hs₂, hs₂', hlacks₂, hecho⟩ :=
      hbeside.exists_meanwhile hcount₁ hothers hh₂ hwaits
    refine ⟨s₂, s₂', ?_, ?_, hlacks₂, fun hruns => ?_⟩
    · rw [run_cons hs₁]
      exact hs₂
    · rw [pausing_own hs₁ hown, run_cons hs₁']
      exact hs₂'
    · rw [history_cons hs₁, latecomers_append]
      exact hecho next (hnext hruns) hruns
  · obtain ⟨hrun, hecho⟩ := hbeside₃.run_nobody hcount₃
    refine ⟨s₃, s₃', ?_, ?_, hbeside₃.session_lacks, hrun, ?_⟩
    · rw [run_cons hs₁]
      exact hs₃
    · rw [pausing_own hs₁ hown, run_cons hs₁']
      exact hs₃'
    · rw [history_cons hs₁, latecomers_append]
      exact hecho

/-- A call that comes back empty-handed, at once or after any number of sleeps, is overlooked by
everybody else, from its first step to the end of the run. -/
theorem run_overlooks_lapse {opening : Opening} (hopen : open? opening = some s)
    (hbefore : (run (some s) before).1 = some s₁) (hlapse : s₁.Lapse c during)
    (hcount : Handoff.CountFits (some Handoff.empty) (before ++ (during ++ (after ++ [step])))) :
    s₁.Overlooked c during after step := by
  obtain ⟨rfl, -⟩ := open?_eq_some_iff.mp hopen
  obtain ⟨hfits, hrest⟩ := hcount.of_append
  obtain ⟨h, hh, hrepresents⟩ := exists_represents represents_empty hfits hbefore
  rw [hh] at hrest
  cases hlapse with
  | atOnce hempty => exact hrepresents.overlooks_atOnce hrest hempty
  | later hasleep hothers hempty =>
      rw [List.cons_append, List.append_assoc] at hrest
      exact hrepresents.overlooks_later hrest rfl rfl hasleep hothers hempty

/-- A consumer gives up between two others that wait. -/
theorem run_overlooks_lapse_between :
    let five : Time := { secs := 5, nanos := 0 }
    let parked : Session Nat := ((ofQueue Queue.empty : Session Nat).act (.start 1 .take) []).1
    parked.Overlooked 2 [⟨.start 2 (.takeWithin five), false, []⟩, ⟨.start 3 .take, false, []⟩,
      ⟨.wake 2, false, []⟩, ⟨.put 7, false, []⟩, ⟨.advance five, false, []⟩,
      ⟨.wake 2, false, []⟩] [⟨.put 8, true, []⟩] ⟨.wake 3, false, []⟩ := by
  intro five parked
  have hbefore : (run (open? .plain) [⟨.start 1 .take, false, []⟩]).1 = some parked := by decide
  have hasleep : (parked.step ⟨.start 2 (.takeWithin five), false, []⟩).2.reply =
      .asleep (some five) := by decide
  have hlapse : parked.Lapse 2 (⟨.start 2 (.takeWithin five), false, []⟩ ::
      ([⟨.start 3 .take, false, []⟩, ⟨.wake 2, false, []⟩, ⟨.put 7, false, []⟩,
        ⟨.advance five, false, []⟩] ++ [⟨.wake 2, false, []⟩])) :=
    .later hasleep (by simp) (by decide)
  exact run_overlooks_lapse (show open? .plain = some (ofQueue Queue.empty) from rfl) hbefore hlapse
    (by decide)

end FairQueue.Session
