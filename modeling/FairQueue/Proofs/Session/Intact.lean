import FairQueue.Proofs.Call.Intact
import FairQueue.Proofs.Handoff.Outcomes
import FairQueue.Proofs.History.Standing

/-!
A session that leaves the lock intact has counted every item that was removed. So nothing has to be
assumed of the count where the lock is known to be intact.
-/

namespace FairQueue

open Call

variable {α : Type} {s s₁ : Session α} {h : Handoff α} {step : Step α} {steps : List (Step α)}
  {c : Consumer}

namespace Session

theorem queue_make (call : Call α (Reply α)) :
    (s.make step call).1.queue = (remains (call (s.scene step))).queue := by
  unfold make
  cases call (s.scene step) <;> rfl

theorem queue_consume (call : Call α (Progress α)) :
    (s.consume step c call).1.queue = (remains (call (s.scene step))).queue := by
  cases hcall : call (s.scene step) with
  | ok progress scene =>
      rw [consume_of_ok hcall]
      exact congrArg Session.queue (heard_eq s c progress scene.queue scene.clock.now)
  | error panic scene =>
      rw [consume_of_error hcall]
      rfl

theorem intact_of_step (hstep : (s.step step).1 = some s₁) (hintact : s₁.queue.broken = false) :
    s.queue.broken = false := by
  refine Bool.eq_false_iff.mpr fun hbroken => ?_
  have hlasts : s.queue.broken = true → s₁.queue.broken = true :=
    Moment.lasting_broken.of_step
      (fun _ _ _ q _ result hresult => (q.broken_join result hresult).trans) hstep
  cases (hlasts hbroken).symm.trans hintact

theorem intact_of_run (hrun : (run (some s) steps).1 = some s₁)
    (hintact : s₁.queue.broken = false) : s.queue.broken = false := by
  induction steps generalizing s with
  | nil =>
      obtain rfl := Option.some.inj hrun
      exact hintact
  | cons step steps ih =>
      obtain ⟨s₂, hstep, hrest⟩ := exists_of_run_cons hrun
      exact intact_of_step hstep (ih hrest)

end Session

namespace Session.Represents

variable (hrepresents : s.Represents h)

include hrepresents

theorem mem_inside_iff : c ∈ h.inside.map (·.consumer) ↔ s.sleeper? c ≠ none := by
  obtain ⟨r, served, waiting, -, hsleepers, rfl⟩ := hrepresents
  exact Session.mem_inside_iff hsleepers

/-- A consumer that was served finds its item in its slot. -/
theorem exists_collect_of_served {v : Waiter} {item : α} (hmem : (v, item) ∈ h.served) :
    ∃ sleeper, s.sleeper? v.consumer = some sleeper ∧
      s.queue.line.collect sleeper.place.slot =
        .ok (some item, s.queue.line.release sleeper.place.slot) := by
  obtain ⟨r, served, waiting, hseated, hsleepers, rfl⟩ := id hrepresents
  obtain ⟨⟨x, item⟩, hx, heq⟩ := List.mem_map.mp hmem
  obtain ⟨rfl, rfl⟩ := Prod.mk.inj heq
  have hasleep : x ∈ s.sleepers := hsleepers ▸ List.mem_append_left _ (List.mem_map_of_mem hx)
  obtain ⟨hcollect, -⟩ := hseated.layout.collect_served (hseated.kept _ hx)
  exact ⟨x.2, sleeper?_of_mem hrepresents.names hasleep, hcollect⟩

theorem removed_popMany (count : Nat) :
    (h.popMany count).2.removed = s.queue.removed + min count s.queue.items.length := by
  rw [Handoff.popMany, hrepresents.items_eq, hrepresents.removed_eq]

variable (hremoved : s.queue.removed < UInt64.size)

include hremoved

theorem fits_of_poll (reply : Option α → Reply α)
    (hintact : (s.make step (reply <$> poll)).1.queue.broken = false) :
    (h.popMany 1).2.removed < UInt64.size := by
  rw [queue_make, remains_map, ← bind_pure poll] at hintact
  rw [hrepresents.removed_popMany]
  exact Call.fits_of_poll (s.scene step) hremoved hintact

theorem fits_of_drain (max : Option Nat) (reply : List α → Reply α)
    (hintact : (s.make step (reply <$> drain max)).1.queue.broken = false) :
    (h.popMany (max.getD h.items.length)).2.removed < UInt64.size := by
  rw [queue_make, remains_map] at hintact
  rw [hrepresents.removed_popMany, hrepresents.items_eq]
  exact Call.fits_of_drain (s.scene step) hremoved max hintact

theorem fits_of_start {removal : Removal}
    (hintact : (s.consume step c removal.call).1.queue.broken = false) (clock : Clock) :
    (h.start c removal clock).queue.removed < UInt64.size := by
  have hstarts := h.starts c removal clock
  generalize h.start c removal clock = t at hstarts
  cases hstarts with
  | popped hitems =>
      rw [queue_consume] at hintact
      rw [hrepresents.removed_popMany]
      exact Call.fits_of_call (s.scene step) hremoved removal hintact
  | late | asleep | gaveUp => exact hrepresents.removed_eq ▸ hremoved

theorem fits_of_wake {w : Waiter} {sleeper : Sleeper} (hinside : w ∈ h.inside)
    (hasleep : s.sleeper? w.consumer = some sleeper)
    (hintact : (s.consume step w.consumer (resume sleeper)).1.queue.broken = false)
    (clock : Clock) : (h.resume w clock).queue.removed < UInt64.size := by
  have hresumes := Handoff.resumes hinside clock
  generalize h.resume w clock = t at hresumes
  cases hresumes with
  | collected hmem hname =>
      obtain ⟨sleeper', hsleeper', hcollect⟩ := hrepresents.exists_collect_of_served hmem
      rw [hname] at hsleeper'
      obtain rfl := Option.some.inj (hsleeper'.symm.trans hasleep)
      rw [queue_consume] at hintact
      change h.removed + 1 < UInt64.size
      rw [← hrepresents.removed_eq]
      exact Call.fits_of_resume (s.scene step) hcollect hintact
  | asleep | gaveUp => exact hrepresents.removed_eq ▸ hremoved

/-- A turn that leaves the lock intact leaves the count in its range. -/
theorem fits_of_turn (hstep : (s.step step).1 = some s₁) (hintact : s₁.queue.broken = false)
    (clock : Clock) : (h.turn step.action clock).queue.removed < UInt64.size := by
  have hstill : h.removed < UInt64.size := hrepresents.removed_eq ▸ hremoved
  obtain ⟨action, refusing, jumps⟩ := step
  cases action with
  | poll =>
      obtain rfl := Option.some.inj hstep
      exact hrepresents.fits_of_poll hremoved _ hintact
  | drain max =>
      obtain rfl := Option.some.inj hstep
      exact hrepresents.fits_of_drain hremoved max _ hintact
  | next name =>
      simp only [Handoff.turn, hrepresents.iterators_eq.symm]
      simp only [Session.step, List.contains_iff_mem] at hstep
      split
      · rw [if_pos ‹_›] at hstep
        obtain rfl := Option.some.inj hstep
        exact hrepresents.fits_of_poll hremoved _ hintact
      · exact hstill
  | start c removal =>
      simp only [Handoff.turn]
      split
      · exact hstill
      · rename_i hnew
        have hc : s.sleeper? c = none := by
          rwa [hrepresents.mem_inside_iff, not_not] at hnew
        rw [step_start hc] at hstep
        obtain rfl := Option.some.inj hstep
        exact hrepresents.fits_of_start hremoved hintact clock
  | wake c =>
      simp only [Handoff.turn]
      split
      · rename_i w hfind
        obtain rfl : w.consumer = c := by simpa using List.find?_some hfind
        have hinside := List.mem_of_find?_eq_some hfind
        have hc := hrepresents.mem_inside_iff.mp (List.mem_map_of_mem hinside)
        obtain ⟨sleeper, hasleep⟩ := Option.ne_none_iff_exists'.mp hc
        rw [step_wake hasleep] at hstep
        obtain rfl := Option.some.inj hstep
        exact hrepresents.fits_of_wake hremoved hinside hasleep hintact clock
      · exact hstill
  | putAll source =>
      simp only [Handoff.turn]
      split <;> exact hstill
  | query query => exact hstill
  | put item | openIterator name | advance span | close => exact hstill

theorem fits_of_step (hstep : (s.step step).1 = some s₁) (hintact : s₁.queue.broken = false) :
    (∀ stats ∈ (h.step step).2.stats, stats.removed < UInt64.size) ∧
      ∃ h₁, (h.step step).1 = some h₁ ∧ s₁.Represents h₁ ∧ s₁.queue.removed < UInt64.size := by
  have hturn := hrepresents.fits_of_turn hremoved hstep hintact
  by_cases hopen : step.action = .close → h.inside ≠ []
  · have hfits : ∀ stats ∈ (h.step step).2.stats, stats.removed < UInt64.size := by
      rw [Handoff.step_of_open hopen]
      rintro stats hstats
      rw [Turn.stats_entry, Option.mem_some_iff] at hstats
      exact hstats ▸ hturn _
    obtain ⟨-, hnext⟩ := step_represents hrepresents hfits
    rw [Handoff.step_of_open hopen] at hfits hnext ⊢
    rw [hstep] at hnext
    cases hnext with
    | some hrepresents₁ =>
        exact ⟨hfits, _, rfl, hrepresents₁, hrepresents₁.removed_eq ▸ hturn _⟩
  · obtain ⟨haction, hinside⟩ : step.action = .close ∧ h.inside = [] := by simpa using hopen
    have hfits : ∀ stats ∈ (h.step step).2.stats, stats.removed < UInt64.size := by
      rw [Handoff.step_close haction hinside]
      rintro stats ⟨⟩
    obtain ⟨-, hnext⟩ := step_represents hrepresents hfits
    rw [hstep, Handoff.step_close haction hinside] at hnext
    cases hnext

/-- As long as the lock is intact the count stays in its range. -/
theorem countFits_of_intact (hrun : (run (some s) steps).1 = some s₁)
    (hintact : s₁.queue.broken = false) : Handoff.CountFits (some h) steps := by
  induction steps generalizing s h with
  | nil => exact fun entry hentry => absurd hentry List.not_mem_nil
  | cons step steps ih =>
      obtain ⟨s₂, hstep, hrest⟩ := exists_of_run_cons hrun
      obtain ⟨hfits, h₂, hnext, hrepresents₂, hremoved₂⟩ :=
        hrepresents.fits_of_step hremoved hstep (intact_of_run hrest hintact)
      have hentries : (Handoff.run (some h) (step :: steps)).2 =
          (h.step step).2 :: (Handoff.run (some h₂) steps).2 := by
        rw [← hnext]
        rfl
      rw [Handoff.CountFits, hentries, List.forall_mem_cons]
      exact ⟨hfits, ih hrepresents₂ hremoved₂ hrest⟩

end Session.Represents

/-- Whatever was done to a new queue, if the lock is intact then the queue is in a state that a
hand-off queue describes. -/
theorem Session.exists_represents_of_intact {opening : Opening} (hopen : open? opening = some s)
    (hrun : (run (some s) steps).1 = some s₁) (hintact : s₁.queue.broken = false) :
    ∃ h, s₁.Represents h := by
  obtain ⟨rfl, -⟩ := open?_eq_some_iff.mp hopen
  have hremoved : 0 < UInt64.size := by decide
  have hcount := represents_empty.countFits_of_intact hremoved hrun hintact
  obtain ⟨h, -, hrepresents⟩ := exists_represents represents_empty hcount hrun
  exact ⟨h, hrepresents⟩

end FairQueue
