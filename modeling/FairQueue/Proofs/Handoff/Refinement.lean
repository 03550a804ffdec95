import FairQueue.Proofs.Handoff.Turns

/-!
A session refines the hand-off queue: whatever is done to a new queue, in any order, shows the same
on both but for the slot numbers, and leaves a queue whose slots and links are laid out as the
hand-off queue says.
-/

namespace FairQueue

variable {α : Type} {s : Session α} {h : Handoff α} {step : Step α}

theorem Seated.servedItems_eq_nil {q : Queue α} {r : Roster α} {waiting : List Seat}
    (hseated : Seated q r [] waiting) : q.line.servedItems = [] := by
  have hserved : ∀ i, r.served i = none := by
    intro i
    rw [Option.eq_none_iff_forall_ne_some]
    intro item hi
    obtain ⟨y, hy, -⟩ := hseated.owned i (by simp [hi])
    cases hy
  exact hseated.layout.servedItems_eq_nil hserved

namespace Session

theorem close_anonymous {r : Roster α} (step : Step α) (hseated : Seated s.queue r [] []) :
    (s.close step).anonymous = (s.handoff [] []).closing step.refusing := by
  have hempty : (s.scene step).queue.line.isEmpty = true := hseated.isEmpty_eq
  have hcontents : (s.scene step).queue.contents = s.queue.items := by
    rw [scene, Queue.contents, hseated.servedItems_eq_nil, List.append_nil]
  cases hrefusing : step.refusing with
  | true =>
      rw [close, Call.close_refused hempty hrefusing, hcontents]
      rfl
  | false =>
      rw [close, Call.close_reported hempty hrefusing, hcontents]
      rfl

/-- One step of a session is one step of the hand-off queue that describes it. -/
theorem step_represents (hrepresents : s.Represents h)
    (hcount : ∀ stats ∈ (h.step step).2.stats, stats.removed < UInt64.size) :
    (s.step step).2.anonymous = (h.step step).2 ∧
      Option.Rel Represents (s.step step).1 (h.step step).1 := by
  obtain ⟨r, served, waiting, hseated, hsleepers, rfl⟩ := hrepresents
  by_cases hopen : step.action = .close → s.sleepers ≠ []
  · have hinside : step.action = .close → (s.handoff served waiting).inside ≠ [] := by
      intro haction
      rw [inside_handoff, ← hsleepers]
      simpa using hopen haction
    rw [Handoff.step_of_open hinside] at hcount ⊢
    have hturn : ((s.handoff served waiting).turn step.action (s.scene step).clock).queue.removed
        < UInt64.size := hcount _ (Turn.stats_entry _ _)
    obtain ⟨next, hstep, hnext, hentry⟩ := step_follows hseated hsleepers hopen hturn
    rw [hstep]
    exact ⟨hentry, .some hnext⟩
  · obtain ⟨haction, hsleepers'⟩ : step.action = .close ∧ s.sleepers = [] := by simpa using hopen
    rw [hsleepers', eq_comm, List.append_eq_nil_iff, List.map_eq_nil_iff] at hsleepers
    obtain ⟨rfl, rfl⟩ := hsleepers
    rw [Handoff.step_close haction rfl]
    have hstep : s.step step = (none, s.close step) := by
      simp [Session.step, haction, hsleepers']
    rw [hstep]
    exact ⟨close_anonymous step hseated, .none⟩

theorem step?_represents {s : Option (Session α)} {h : Option (Handoff α)}
    (hrepresents : Option.Rel Represents s h)
    (hcount : ∀ stats ∈ (Handoff.step? h step).2.stats, stats.removed < UInt64.size) :
    (step? s step).2.anonymous = (Handoff.step? h step).2 ∧
      Option.Rel Represents (step? s step).1 (Handoff.step? h step).1 := by
  cases hrepresents with
  | some hrepresents => exact step_represents hrepresents hcount
  | none => exact ⟨rfl, .none⟩

theorem run_represents {s : Option (Session α)} {h : Option (Handoff α)} {steps : List (Step α)}
    (hrepresents : Option.Rel Represents s h) (hcount : Handoff.CountFits h steps) :
    (run s steps).2.map Entry.anonymous = (Handoff.run h steps).2 ∧
      Option.Rel Represents (run s steps).1 (Handoff.run h steps).1 := by
  induction steps generalizing s h with
  | nil => exact ⟨rfl, hrepresents⟩
  | cons step steps ih =>
      obtain ⟨hstep, hrest⟩ := hcount.of_cons
      obtain ⟨hentry, hnext⟩ := step?_represents hrepresents hstep
      obtain ⟨hentries, hlast⟩ := ih hnext hrest
      refine ⟨?_, hlast⟩
      simp only [run, Handoff.run, List.map_cons, hentry, hentries]

theorem exists_represents {s s' : Session α} {steps : List (Step α)} (hrepresents : s.Represents h)
    (hcount : Handoff.CountFits (some h) steps) (hlast : (run (some s) steps).1 = some s') :
    ∃ h', (Handoff.run (some h) steps).1 = some h' ∧ s'.Represents h' := by
  have hrel := (run_represents (.some hrepresents) hcount).2
  rw [hlast] at hrel
  cases hhandoff : (Handoff.run (some h) steps).1 with
  | none =>
      rw [hhandoff] at hrel
      cases hrel
  | some h' =>
      rw [hhandoff] at hrel
      cases hrel with
      | some hrepresents' => exact ⟨h', rfl, hrepresents'⟩

theorem Represents.exists_of_step {s' : Session α} {steps : List (Step α)}
    (hrepresents : s.Represents h) (hcount : Handoff.CountFits (some h) (step :: steps))
    (hstep : (s.step step).1 = some s') :
    ∃ h', h.step step = (some h', (s.step step).2.anonymous) ∧ s'.Represents h' ∧
      Handoff.CountFits (some h') steps := by
  obtain ⟨hfits, hrest⟩ := hcount.of_cons
  obtain ⟨hentry, hnext⟩ := step_represents hrepresents hfits
  simp only [Handoff.step?] at hrest
  rw [hstep] at hnext
  cases hh : (h.step step).1 with
  | none =>
      rw [hh] at hnext
      cases hnext
  | some h' =>
      rw [hh] at hnext hrest
      cases hnext with
      | some hrepresents' => exact ⟨h', by rw [hentry, ← hh], hrepresents', hrest⟩

theorem Represents.turn_of_step {s' : Session α} {steps : List (Step α)}
    (hrepresents : s.Represents h) (hcount : Handoff.CountFits (some h) (step :: steps))
    (hstep : (s.step step).1 = some s') :
    let t := h.turn step.action { now := h.now, jumps := step.jumps }
    s'.Represents { t.queue with now := t.clock.now } ∧
      (s.step step).2.anonymous = t.entry step.refusing ∧
      Handoff.CountFits (some { t.queue with now := t.clock.now }) steps := by
  intro t
  obtain ⟨h', hhandoff, hrepresents', hcount'⟩ := hrepresents.exists_of_step hcount hstep
  by_cases hopen : step.action = .close → h.inside ≠ []
  · rw [Handoff.step_of_open hopen] at hhandoff
    obtain ⟨hqueue, hentry⟩ := Prod.mk.inj hhandoff
    obtain rfl := Option.some.inj hqueue
    exact ⟨hrepresents', hentry.symm, hcount'⟩
  · obtain ⟨haction, hinside⟩ : step.action = .close ∧ h.inside = [] := by simpa using hopen
    rw [Handoff.step_close haction hinside] at hhandoff
    cases hhandoff

theorem run_none (steps : List (Step α)) : (run (none : Option (Session α)) steps).1 = none := by
  induction steps with
  | nil => rfl
  | cons step steps ih => exact ih

theorem run_cons {s₁ : Session α} {steps : List (Step α)} (hstep : (s.step step).1 = some s₁) :
    run (some s) (step :: steps) =
      ((run (some s₁) steps).1, (s.step step).2 :: (run (some s₁) steps).2) := by
  simp only [run, step?, hstep]

theorem run_concat (s : Option (Session α)) (steps : List (Step α)) (step : Step α) :
    run s (steps ++ [step]) =
      ((step? (run s steps).1 step).1, (run s steps).2 ++ [(step? (run s steps).1 step).2]) := by
  induction steps generalizing s with
  | nil => rfl
  | cons first steps ih => simp only [List.cons_append, run, ih]

theorem exists_of_run_cons {s' : Session α} {steps : List (Step α)}
    (hlast : (run (some s) (step :: steps)).1 = some s') :
    ∃ s₁, (s.step step).1 = some s₁ ∧ (run (some s₁) steps).1 = some s' := by
  cases hstep : (s.step step).1 with
  | none => simp [run, step?, hstep, run_none] at hlast
  | some s₁ => exact ⟨s₁, rfl, by simpa only [run_cons hstep] using hlast⟩

theorem run_append {s₁ : Session α} {steps later : List (Step α)}
    (hlast : (run (some s) steps).1 = some s₁) :
    run (some s) (steps ++ later) =
      ((run (some s₁) later).1, (run (some s) steps).2 ++ (run (some s₁) later).2) := by
  induction steps generalizing s with
  | nil =>
      obtain rfl := Option.some.inj hlast
      rfl
  | cons step steps ih =>
      obtain ⟨s₂, hs₂, hrest⟩ := exists_of_run_cons hlast
      rw [List.cons_append, run_cons hs₂, run_cons hs₂, ih hrest, List.cons_append]

theorem open?_eq_some_iff {opening : Opening} :
    open? opening = some s ↔ s = ofQueue Queue.empty ∧
      ∀ capacity itemSize, opening = .withCapacity capacity itemSize →
        Queue.fits itemSize capacity = true := by
  cases opening with
  | plain =>
      constructor
      · intro hsome
        exact ⟨(Option.some.inj hsome).symm, fun capacity itemSize heq => by cases heq⟩
      · rintro ⟨rfl, -⟩
        rfl
  | withCapacity capacity itemSize =>
      change (Queue.withCapacity? itemSize capacity).map ofQueue = some s ↔ _
      unfold Queue.withCapacity?
      constructor
      · intro hsome
        split at hsome
        · rename_i hfits
          obtain rfl := Option.some.inj hsome
          refine ⟨rfl, fun capacity' itemSize' heq => ?_⟩
          obtain ⟨rfl, rfl⟩ := Opening.withCapacity.inj heq
          exact hfits
        · cases hsome
      · rintro ⟨rfl, hfits⟩
        rw [if_pos (hfits capacity itemSize rfl)]
        rfl

theorem represents_empty : (ofQueue Queue.empty : Session α).Represents Handoff.empty :=
  ⟨Roster.empty, [], [], seated_empty, rfl, rfl⟩

/-- Everything that can be done to a new queue, in any order, shows what it shows on a hand-off
queue, and the slots, the links between them, the chain of vacant slots and the counters are left as
the hand-off queue says. -/
theorem run_refines_handoff {opening : Opening} (hopen : open? opening = some s)
    {steps : List (Step α)} (hcount : Handoff.CountFits (some Handoff.empty) steps) :
    (run (some s) steps).2.map Entry.anonymous = (Handoff.run (some Handoff.empty) steps).2 ∧
      Option.Rel Represents (run (some s) steps).1 (Handoff.run (some Handoff.empty) steps).1 := by
  obtain ⟨rfl, -⟩ := open?_eq_some_iff.mp hopen
  exact run_represents (.some represents_empty) hcount

/-- A consumer is served, but the log refuses to hear of it, and another one gives up. -/
theorem run_refines_handoff_refused :
    let steps : List (Step Nat) := [⟨.start 1 .take, false, []⟩,
      ⟨.start 2 (.takeUntil { secs := 5, nanos := 0 }), false, []⟩, ⟨.put 7, true, []⟩,
      ⟨.advance { secs := 5, nanos := 0 }, false, []⟩, ⟨.wake 2, false, []⟩, ⟨.wake 1, true, []⟩,
      ⟨.close, false, []⟩]
    (run (open? (.withCapacity 4)) steps).2.map Entry.anonymous =
        (Handoff.run (some Handoff.empty) steps).2 ∧
      Option.Rel Represents (run (open? (.withCapacity 4)) steps).1
        (Handoff.run (some Handoff.empty) steps).1 := by
  intro steps
  have hopen : open? (.withCapacity 4) = some (ofQueue (Queue.empty : Queue Nat)) := rfl
  have hcount : Handoff.CountFits (some Handoff.empty) steps := by decide
  rw [hopen]
  exact run_refines_handoff hopen hcount

end Session

end FairQueue
