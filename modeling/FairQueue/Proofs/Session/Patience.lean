import FairQueue.Proofs.Call.Endurance
import FairQueue.Proofs.History.Reservation
import FairQueue.Proofs.History.Service

/-!
A session in which one of the sleepers has another patience. Nobody else takes notice of it.
-/

namespace FairQueue

variable {α : Type}

/-- A consumer in the same seat, with this patience if it is `c`. -/
def Seat.withPatience (c : Consumer) (patience : Patience) (x : Seat) : Seat :=
  if x.1 = c then (x.1, { x.2 with patience }) else x

@[simp] theorem Seat.withPatience_fst (c : Consumer) (patience : Patience) (x : Seat) :
    (x.withPatience c patience).1 = x.1 := by
  unfold withPatience
  split <;> rfl

@[simp] theorem Seat.withPatience_place (c : Consumer) (patience : Patience) (x : Seat) :
    (x.withPatience c patience).2.place = x.2.place := by
  unfold withPatience
  split <;> rfl

namespace Session

variable {s s₁ : Session α} {c d : Consumer} {patience : Patience} {step : Step α}

/-- The same session, with this patience for `c` if it is asleep. -/
def withPatience (s : Session α) (c : Consumer) (patience : Patience) : Session α :=
  { s with sleepers := s.sleepers.map (Seat.withPatience c patience) }

theorem sleeper?_withPatience (s : Session α) (c d : Consumer) (patience : Patience) :
    (s.withPatience c patience).sleeper? d =
      (s.sleeper? d).map fun sleeper => (Seat.withPatience c patience (d, sleeper)).2 :=
  lookup_map_of_fst (Seat.withPatience_fst c patience) s.sleepers d

theorem withPatience_of_awake (hc : s.sleeper? c = none) (patience : Patience) :
    s.withPatience c patience = s := by
  have hsame : s.sleepers.map (Seat.withPatience c patience) = s.sleepers := by
    refine (List.map_congr_left fun x hx => ?_).trans (List.map_id _)
    refine if_neg fun hname => sleeper?_eq_none_iff.mp hc ?_
    exact hname ▸ List.mem_map_of_mem hx
  rw [withPatience, hsame]

theorem asleepOn_withPatience (s : Session α) (c : Consumer) (patience : Patience)
    (bells : List Nat) : (s.withPatience c patience).asleepOn bells = s.asleepOn bells := by
  have hname : Prod.fst ∘ Seat.withPatience c patience = Prod.fst :=
    funext fun x => x.withPatience_fst c patience
  have hbell : ∀ bell, (fun x : Seat => decide (x.2.place.bell = bell)) ∘
      Seat.withPatience c patience = fun x => decide (x.2.place.bell = bell) :=
    fun bell => funext fun x => by rw [Function.comp_apply, Seat.withPatience_place]
  simp only [asleepOn, withPatience, List.filter_map, List.map_map, hname, hbell]

theorem withSleeper_withPatience (s : Session α) (c d : Consumer) (patience : Patience)
    (sleeper : Sleeper) :
    (s.withPatience c patience).withSleeper d (Seat.withPatience c patience (d, sleeper)).2 =
      (s.withSleeper d sleeper).withPatience c patience := by
  have hseat : (d, (Seat.withPatience c patience (d, sleeper)).2) =
      Seat.withPatience c patience (d, sleeper) :=
    Prod.ext (Seat.withPatience_fst c patience (d, sleeper)).symm rfl
  have hasleep : ((s.withPatience c patience).sleeper? d).isSome = (s.sleeper? d).isSome := by
    rw [sleeper?_withPatience, Option.isSome_map]
  unfold withSleeper
  rw [hasleep]
  split
  · simp only [withPatience, List.map_map]
    congr 1
    refine List.map_congr_left fun old _ => ?_
    simp only [Function.comp_apply, Seat.withPatience_fst]
    split
    · exact hseat
    · rfl
  · simp only [withPatience, List.map_append, List.map_cons, List.map_nil, hseat]

theorem withoutSleeper_withPatience (s : Session α) (c d : Consumer) (patience : Patience) :
    (s.withPatience c patience).withoutSleeper d =
      (s.withoutSleeper d).withPatience c patience := by
  have hname : (fun x : Seat => decide (x.1 ≠ d)) ∘ Seat.withPatience c patience =
      fun x => decide (x.1 ≠ d) :=
    funext fun x => by rw [Function.comp_apply, Seat.withPatience_fst]
  simp only [withoutSleeper, withPatience, List.filter_map, hname]

theorem heard_withPatience (hne : d ≠ c) (progress : Progress α) :
    (s.withPatience c patience).heard d progress =
      (s.heard d progress).withPatience c patience := by
  cases progress with
  | returned item => exact s.withoutSleeper_withPatience c d patience
  | asleep sleeper limit =>
      have hsame : (Seat.withPatience c patience (d, sleeper)).2 = sleeper := by
        rw [Seat.withPatience, if_neg hne]
      have hasleep := s.withSleeper_withPatience c d patience sleeper
      rw [hsame] at hasleep
      exact hasleep

theorem heard_withPatience_self (progress : Progress α) (now : Time) :
    (s.withPatience c patience).heard c (progress.withPatience patience now) =
      (s.heard c progress).withPatience c patience := by
  cases progress with
  | returned item => exact s.withoutSleeper_withPatience c c patience
  | asleep sleeper limit =>
      have hown : (Seat.withPatience c patience (c, sleeper)).2 = { sleeper with patience } := by
        rw [Seat.withPatience, if_pos rfl]
      have hasleep := s.withSleeper_withPatience c c patience sleeper
      rw [hown] at hasleep
      exact hasleep

theorem sleeper?_step (hother : step.action.runs c = false) (hstep : (s.step step).1 = some s₁) :
    s₁.sleeper? c = s.sleeper? c := by
  obtain hsame | ⟨d, progress, hheard, hruns⟩ := sleepers_step hstep
  · rw [sleeper?, hsame]
    rfl
  · have hne : d ≠ c := by
      rintro rfl
      obtain hwoken | ⟨-, removal, hstarted⟩ := hruns
      · simp [hwoken, Action.runs] at hother
      · simp [hstarted, Action.runs] at hother
    rw [sleeper?, hheard]
    exact sleeper?_heard_of_ne hne progress

theorem entry_withPatience (s : Session α) (c : Consumer) (patience : Patience) (scene : Scene α)
    (reply : Reply α) : (s.withPatience c patience).entry scene reply = s.entry scene reply := by
  simp only [entry, asleepOn_withPatience]

theorem make_withPatience (call : Call α (Reply α)) :
    (s.withPatience c patience).make step call =
      ((s.make step call).1.withPatience c patience, (s.make step call).2) := by
  have hscene : (s.withPatience c patience).scene step = s.scene step := rfl
  unfold make
  rw [hscene]
  cases call (s.scene step) with
  | ok reply scene => exact Prod.ext rfl (s.entry_withPatience c patience scene reply)
  | error panic scene => exact Prod.ext rfl (s.entry_withPatience c patience scene _)

theorem consume_withPatience (hne : d ≠ c) (call : Call α (Progress α)) :
    (s.withPatience c patience).consume step d call =
      ((s.consume step d call).1.withPatience c patience, (s.consume step d call).2) := by
  have hscene : (s.withPatience c patience).scene step = s.scene step := rfl
  cases hcall : call (s.scene step) with
  | ok progress scene =>
      rw [consume_of_ok hcall, consume_of_ok (hscene ▸ hcall), entry_withPatience]
      exact Prod.ext (heard_withPatience (s := s.after scene) hne progress) rfl
  | error panic scene =>
      rw [consume_of_error hcall, consume_of_error (hscene ▸ hcall), entry_withPatience]
      exact Prod.ext (heard_withPatience (s := s.after scene) hne (.returned none)) rfl

theorem close_withPatience (s : Session α) (c : Consumer) (patience : Patience) (step : Step α) :
    (s.withPatience c patience).close step = s.close step := by
  have hscene : (s.withPatience c patience).scene step = s.scene step := rfl
  unfold Session.close
  rw [hscene]
  cases Call.close (s.scene step) <;> simp only [entry_withPatience]

/-- Nobody else takes notice of the patience of a consumer. -/
theorem step_withPatience (hother : step.action.runs c = false) (patience : Patience) :
    (s.withPatience c patience).step step =
      ((s.step step).1.map (·.withPatience c patience), (s.step step).2) := by
  have hsleeper : ∀ d, d ≠ c → (s.withPatience c patience).sleeper? d = s.sleeper? d := by
    intro d hne
    rw [sleeper?_withPatience]
    cases s.sleeper? d with
    | none => rfl
    | some sleeper => rw [Option.map_some, Seat.withPatience, if_neg hne]
  obtain ⟨action, refusing, jumps⟩ := step
  cases action with
  | start d removal =>
      have hne : d ≠ c := of_decide_eq_false hother
      simp only [Session.step, hsleeper d hne]
      cases s.sleeper? d with
      | some sleeper => rfl
      | none =>
          simp only [consume_withPatience hne]
          rfl
  | wake d =>
      have hne : d ≠ c := of_decide_eq_false hother
      simp only [Session.step, hsleeper d hne]
      cases s.sleeper? d with
      | some sleeper =>
          simp only [consume_withPatience hne]
          rfl
      | none => rfl
  | next name =>
      have hsame : (s.withPatience c patience).iterators = s.iterators := rfl
      simp only [Session.step, hsame]
      split
      · rw [make_withPatience]
        rfl
      · rfl
  | close =>
      have hsame : (s.withPatience c patience).sleepers.isEmpty = s.sleepers.isEmpty :=
        List.isEmpty_map
      simp only [Session.step, hsame, close_withPatience]
      split <;> rfl
  | openIterator name | advance span => rfl
  | put item | putAll source | poll | drain max | query query =>
      simp only [Session.step, make_withPatience]
      rfl

end Session

end FairQueue
