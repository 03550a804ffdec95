import FairQueue.Proofs.Handoff.Absence

/-!
The turns of a consumer that joins the line and gives up in the end, beside a queue where only time
passes instead.
-/

namespace FairQueue.Handoff

variable {α : Type} {h h' h₁ : Handoff α} {c : Consumer} {late : Consumer → Bool}
  {action : Action α} {clock : Clock} {removal : Removal} {step : Step α} {steps : List (Step α)}

theorem now_le_bide (h : Handoff α) (c : Consumer) (deadline : Time) (clock : Clock) :
    clock.now ≤ (h.bide c deadline clock).clock.now := by
  unfold bide
  split <;> exact clock.now_le_read

theorem now_le_take (h : Handoff α) (c : Consumer) (clock : Clock) :
    clock.now ≤ (h.take c clock).clock.now := by
  unfold take
  split <;> exact Time.le_refl _

theorem now_le_takeUntil (h : Handoff α) (c : Consumer) (deadline : Time) (clock : Clock) :
    clock.now ≤ (h.takeUntil c deadline clock).clock.now := by
  unfold takeUntil
  split
  · exact Time.le_refl _
  · split
    · exact clock.now_le_read
    · exact Time.le_trans clock.now_le_read (now_le_bide _ _ _ _)

theorem now_le_start (h : Handoff α) (c : Consumer) (removal : Removal) (clock : Clock) :
    clock.now ≤ (h.start c removal clock).clock.now := by
  cases removal with
  | take => exact h.now_le_take c clock
  | takeUntil deadline => exact h.now_le_takeUntil c deadline clock
  | takeWithin span =>
      simp only [start]
      split
      · exact Time.le_trans clock.now_le_read (h.now_le_takeUntil c _ _)
      · exact Time.le_trans clock.now_le_read (h.now_le_take c _)

theorem now_le_resume (h : Handoff α) (w : Waiter) (clock : Clock) :
    clock.now ≤ (h.resume w clock).clock.now := by
  unfold resume
  split
  · exact Time.le_refl _
  · split
    · exact Time.le_refl _
    · exact h.now_le_bide _ _ _

/-- A clock never goes back. -/
theorem now_le_turn (h : Handoff α) (action : Action α) (clock : Clock) :
    clock.now ≤ (h.turn action clock).clock.now := by
  cases action with
  | putAll source | next name =>
      simp only [turn]
      split <;> exact Time.le_refl _
  | start d removal =>
      simp only [turn]
      split
      · exact Time.le_refl _
      · exact h.now_le_start d removal clock
  | wake d =>
      simp only [turn]
      split
      · exact h.now_le_resume _ clock
      · exact Time.le_refl _
  | advance span => exact Time.le_add _ _
  | _ => exact Time.le_refl _

theorem lacks_nobody (h : Handoff α) : Lacks none (fun _ => false) h h := by
  have hsame : Waiter.behind (fun _ => false) = id := by
    funext w
    obtain ⟨d, patience⟩ := w
    cases patience <;> rfl
  refine ⟨rfl, ?_, ?_, rfl, rfl, rfl, fun c hgone => by cases hgone⟩
  · rw [hsame, List.map_id]
    exact List.filter_eq_self.mpr fun w _ => by simp
  · rw [hsame]
    exact (List.map_id _).symm

section Own

variable {limit : Option Time}

/-- The consumer falls asleep in the first turn of its call. -/
theorem lacks_of_start (haction : action = .start c removal)
    (hreply : (h.turn action clock).reply = .asleep limit) :
    Lacks (some c) (fun _ => false) (h.turn action clock).queue h := by
  subst haction
  have hconsumes := h.consumes_start c removal clock
  generalize h.turn (.start c removal) clock = t at hconsumes hreply
  cases hconsumes with
  | busy => cases hreply
  | started hnew hstarts =>
      cases hstarts with
      | popped | late | gaveUp => cases hreply
      | @asleep patience =>
          have hothers : h.waiting.filter (fun w => some w.consumer ≠ some c) = h.waiting := by
            refine List.filter_eq_self.mpr fun w hw => decide_eq_true fun heq => hnew ?_
            obtain rfl := Option.some.inj heq
            exact List.mem_map_of_mem (List.mem_append_right _ hw)
          have hsame := (lacks_nobody h).waiting
          rw [List.filter_eq_self.mpr fun w _ => by simp] at hsame
          refine { lacks_nobody h with waiting := ?_, stays := fun d hd => ?_ }
          · rw [join, List.filter_append, hothers, ← hsame]
            simp
          · obtain rfl := Option.some.inj hd
            simp [join]

/-- The consumer returns empty-handed from the first turn of its call. -/
theorem lacks_of_returned (hreply : (h.turn (.start c removal) clock).reply = .delivered none) :
    Lacks none (fun _ => false) (h.turn (.start c removal) clock).queue h := by
  have hconsumes := h.consumes_start c removal clock
  generalize h.turn (.start c removal) clock = t at hconsumes hreply
  cases hconsumes with
  | busy => cases hreply
  | started hnew hstarts =>
      cases hstarts with
      | popped | asleep => cases hreply
      | late => exact h.lacks_nobody
      | @gaveUp patience =>
          rw [leave_join hnew patience]
          exact h.lacks_nobody

theorem queue_of_wake (hreply : (h.turn (.wake c) clock).reply = .delivered none) :
    (h.turn (.wake c) clock).queue = h.leave c ∧ c ∈ h.waiting.map (·.consumer) := by
  have hconsumes := h.consumes_wake c clock
  generalize h.turn (.wake c) clock = t at hconsumes hreply
  cases hconsumes with
  | idle => cases hreply
  | resumed hinside hresumes =>
      cases hresumes with
      | collected | asleep => cases hreply
      | gaveUp hwaiting => exact ⟨rfl, List.mem_map_of_mem hwaiting⟩

theorem queue_of_asleep (hsound : h.ledger.Sound) (hc : c ∈ h.waiting.map (·.consumer))
    (hstays : c ∈ (h.turn (.wake c) clock).queue.waiting.map (·.consumer)) :
    (h.turn (.wake c) clock).queue = h := by
  have hconsumes := h.consumes_wake c clock
  generalize h.turn (.wake c) clock = t at hconsumes hstays
  cases hconsumes with
  | idle => rfl
  | resumed hinside hresumes =>
      cases hresumes with
      | collected hmem hname =>
          obtain ⟨v, hv, hconsumer⟩ := List.mem_map.mp hc
          exact absurd (hconsumer.trans hname.symm) (hsound.ne_of_waiting hmem hv)
      | asleep => rfl
      | gaveUp =>
          obtain ⟨v, hv, hname⟩ := List.mem_map.mp hstays
          exact absurd hname (of_decide_eq_true (List.mem_filter.mp hv).2)

end Own

theorem Lacks.leave_self (hlacks : Lacks (some c) late h h') : Lacks none late (h.leave c) h' := by
  refine { hlacks with waiting := ?_, stays := fun d hd => by cases hd }
  rw [List.filter_eq_self.mpr fun w _ => by simp, ← hlacks.waiting]
  simp [Handoff.leave]

/-- Nobody comes into the line but by starting a call. -/
theorem mem_waiting_of_turn (haction : ∀ removal, action ≠ .start c removal)
    (hc : c ∈ (h.turn action clock).queue.waiting.map (·.consumer)) :
    c ∈ h.waiting.map (·.consumer) := by
  obtain ⟨w, hw, rfl⟩ := List.mem_map.mp hc
  rcases h.deals_or_consumes action clock with ⟨hdeals, -⟩ | ⟨d, hconsumes⟩
  · rw [hdeals.waiting] at hw
    exact List.mem_map_of_mem (List.mem_of_mem_drop hw)
  · rcases hconsumes.minds.waiting w hw with hold | ⟨rfl, ⟨removal, hstart⟩, -⟩
    · exact List.mem_map_of_mem hold
    · exact absurd hstart (haction removal)

theorem mem_waiting_of_step (haction : ∀ removal, step.action ≠ .start c removal)
    (hstep : (h.step step).1 = some h₁) (hc : c ∈ h₁.waiting.map (·.consumer)) :
    c ∈ h.waiting.map (·.consumer) := by
  by_cases hopen : step.action = .close → h.inside ≠ []
  · rw [step_of_open hopen] at hstep
    obtain rfl := Option.some.inj hstep
    exact mem_waiting_of_turn haction hc
  · obtain ⟨hclose, hinside⟩ : step.action = .close ∧ h.inside = [] := by simpa using hopen
    rw [step_close hclose hinside] at hstep
    cases hstep

theorem exists_of_run_cons (hlast : (run (some h) (step :: steps)).1 = some h₁) :
    ∃ h₂, (h.step step).1 = some h₂ ∧ (run (some h₂) steps).1 = some h₁ := by
  simp only [run, step?] at hlast
  cases hstep : (h.step step).1 with
  | none =>
      rw [hstep, run_none] at hlast
      cases hlast
  | some h₂ => exact ⟨h₂, rfl, by rwa [hstep] at hlast⟩

theorem exists_of_run_append {later : List (Step α)}
    (hlast : (run (some h) (steps ++ later)).1 = some h₁) :
    ∃ h₂, (run (some h) steps).1 = some h₂ ∧ (run (some h₂) later).1 = some h₁ := by
  induction steps generalizing h with
  | nil => exact ⟨h, rfl, hlast⟩
  | cons step steps ih =>
      obtain ⟨h₂, hstep, hrest⟩ := exists_of_run_cons hlast
      obtain ⟨h₃, hsteps, hlater⟩ := ih hrest
      refine ⟨h₃, ?_, hlater⟩
      simp only [run, step?, hstep]
      exact hsteps

theorem mem_waiting_of_run (hothers : ∀ step ∈ steps, ∀ removal, step.action ≠ .start c removal)
    (hlast : (run (some h) steps).1 = some h₁) (hc : c ∈ h₁.waiting.map (·.consumer)) :
    c ∈ h.waiting.map (·.consumer) := by
  induction steps generalizing h with
  | nil =>
      obtain rfl := Option.some.inj hlast
      exact hc
  | cons step steps ih =>
      obtain ⟨h₂, hstep, hrest⟩ := exists_of_run_cons hlast
      refine mem_waiting_of_step (hothers step List.mem_cons_self) hstep ?_
      exact ih (fun step hmem => hothers step (List.mem_cons_of_mem _ hmem)) hrest

end FairQueue.Handoff
