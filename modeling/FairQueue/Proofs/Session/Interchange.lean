import FairQueue.Proofs.Handoff.Interchange
import FairQueue.Proofs.Session.Demand
import FairQueue.Proofs.Session.Renaming

/-!
The order in which sleepers wake up. Neither two of them nor one that was served and anybody else
can tell who came first, and afterwards nobody can.
-/

namespace FairQueue.Session

variable {α : Type} {s s' : Session α} {h : Handoff α} {x y : Step α} {before later : List (Step α)}

/-- The same items, the same line, the same items for the consumers that were served and the same
count, in slots that may have other numbers and may be vacated in another order. One of them may
have more vacant slots than the other. -/
structure Alike (s s' : Session α) : Prop where
  items : s'.queue.items = s.queue.items
  removed : s'.queue.removed = s.queue.removed
  parked : s'.parked = s.parked
  held : ∀ c, s'.held? c = s.held? c
  renamed : ∃ σ, s.Renamed σ s'

theorem Represents.alike (hs : s.Represents h) (hs' : s'.Represents h) : s.Alike s' := by
  obtain ⟨σ, hrenamed⟩ := hs.exists_renamed hs'
  refine ⟨hrenamed.items, hrenamed.removed, hs'.parked_eq.trans hs.parked_eq.symm, fun c => ?_,
    σ, hrenamed⟩
  have hheld : (s'.held? c).toList = (s.held? c).toList :=
    (hs'.heldBy_eq c).symm.trans (hs.heldBy_eq c)
  cases hc : s.held? c <;> cases hc' : s'.held? c <;> simp_all

/-- After both steps in either order the sessions are alike, and whatever steps follow shows the
same on both but for the numbers of the slots, and leaves sessions that are alike. If `x` comes
first, then `y` finds a slot; if `y` comes first, it may be that a slot is made for it, and then
this is one vacant slot more. -/
def Meets (s : Session α) (x y : Step α) (later : List (Step α)) : Prop :=
  ∃ s₁ s₂, (run (some s) [x, y]).1 = some s₁ ∧ (run (some s) [y, x]).1 = some s₂ ∧ s₁.Alike s₂ ∧
    s₁.queue.line.slots.size = s.queue.line.slots.size ∧
    s₂.queue.line.slots.size = s.queue.line.slots.size + s.newSlots y ∧
    (run (some s₂) later).2.map Entry.anonymous = (run (some s₁) later).2.map Entry.anonymous ∧
    Option.Rel Alike (run (some s₁) later).1 (run (some s₂) later).1

theorem Represents.exists_of_fits {h' : Handoff α} (hrepresents : s.Represents h)
    (hfits : ∀ stats ∈ (h.step x).2.stats, stats.removed < UInt64.size)
    (hstep : (h.step x).1 = some h') :
    ∃ s', (s.step x).1 = some s' ∧ s'.Represents h' := by
  have hnext := (step_represents hrepresents hfits).2
  rw [hstep] at hnext
  generalize (s.step x).1 = next at hnext
  cases hnext with
  | some hrepresents' => exact ⟨_, rfl, hrepresents'⟩

theorem Represents.exists_step {h' : Handoff α} (hrepresents : s.Represents h)
    (hcount : Handoff.CountFits (some h) (x :: later)) (hstep : (h.step x).1 = some h') :
    ∃ s', (s.step x).1 = some s' ∧ s'.Represents h' ∧ Handoff.CountFits (some h') later ∧
      (s.step x).2.anonymous = (h.step x).2 ∧
      s'.queue.line.slots.size = s.queue.line.slots.size + s.newSlots x := by
  obtain ⟨hfits, hrest⟩ := hcount.of_cons
  obtain ⟨s', hs', hrepresents'⟩ := hrepresents.exists_of_fits hfits hstep
  simp only [Handoff.step?, hstep] at hrest
  exact ⟨s', hs', hrepresents', hrest, (step_represents hrepresents hfits).1,
    hrepresents.size_step hfits hs'⟩

theorem alike_of_represents {s s' : Option (Session α)} {h : Option (Handoff α)}
    (hs : Option.Rel Represents s h) (hs' : Option.Rel Represents s' h) :
    Option.Rel Alike s s' := by
  cases hs with
  | none =>
      cases hs' with
      | none => exact .none
  | some hs =>
      cases hs' with
      | some hs' => exact .some (hs.alike hs')

/-- Two steps that the hand-off queue takes in either order can be taken in either order, and the
slots are counted if no call starts in the first and none is made for the second after it. -/
theorem Represents.meets (hrepresents : s.Represents h)
    (hcount : Handoff.CountFits (some h) (x :: y :: later)) (hmeets : h.Meets x y)
    (hstart : ∀ c removal, x.action ≠ .start c removal)
    (hfree : ∀ s', (s.step x).1 = some s' → s'.newSlots y = 0) :
    s.Meets x y later ∧
      ((s.step x).2.anonymous = (h.step x).2 ∧ (s.step y).2.anonymous = (h.step y).2) ∧
      (step? (s.step x).1 y).2.anonymous = (Handoff.step? (h.step x).1 y).2 ∧
      (step? (s.step y).1 x).2.anonymous = (Handoff.step? (h.step y).1 x).2 := by
  have hcount' := hmeets.countFits hcount
  obtain ⟨h₁, h₂, h₃, hx, hxy, hy, hyx⟩ := hmeets
  obtain ⟨s₁, hs₁, hrepresents₁, hcount₁, hentry₁, hsize₁⟩ := hrepresents.exists_step hcount hx
  obtain ⟨s₂, hs₂, hrepresents₂, hcount₂, hentry₂, hsize₂⟩ := hrepresents.exists_step hcount' hy
  obtain ⟨s₁', hs₁', hfirst, hlater, hentry₁', hsize₁'⟩ := hrepresents₁.exists_step hcount₁ hxy
  obtain ⟨s₂', hs₂', hsecond, -, hentry₂', hsize₂'⟩ := hrepresents₂.exists_step hcount₂ hyx
  obtain ⟨hseen, hlast⟩ := run_represents (.some hfirst) hlater
  obtain ⟨hseen', hlast'⟩ := run_represents (.some hsecond) hlater
  rw [newSlots_of_ne_start hstart] at hsize₁ hsize₂'
  rw [hfree s₁ hs₁] at hsize₁'
  refine ⟨⟨s₁', s₂', ?_, ?_, hfirst.alike hsecond, hsize₁'.trans hsize₁, hsize₂'.trans hsize₂,
    hseen'.trans hseen.symm, alike_of_represents hlast hlast'⟩, ⟨hentry₁, hentry₂⟩, ?_, ?_⟩
  · rw [run_cons hs₁, run_cons hs₁']
    rfl
  · rw [run_cons hs₂, run_cons hs₂']
    rfl
  · simp only [step?, Handoff.step?, hs₁, hx, hentry₁']
  · simp only [step?, Handoff.step?, hs₂, hy, hentry₂']

/-- A consumer that was served leaves a slot behind, so that the next call finds one. -/
theorem Represents.newSlots_of_collected {w : Waiter} {item : α} {refusing : Bool}
    {jumps : List Time} (hrepresents : s.Represents h)
    (hcount : Handoff.CountFits (some h) (⟨.wake w.consumer, refusing, jumps⟩ :: later))
    (hw : (w, item) ∈ h.served)
    (hstep : (s.step ⟨.wake w.consumer, refusing, jumps⟩).1 = some s') : s'.newSlots y = 0 := by
  have hcollects := Handoff.step_wake_of_served hrepresents.sound hw refusing jumps
  obtain ⟨s₁, hs₁, hrepresents₁, -, -, hsize⟩ :=
    hrepresents.exists_step hcount (congrArg Prod.fst hcollects)
  obtain rfl := Option.some.inj (hs₁.symm.trans hstep)
  rw [newSlots_of_ne_start (by simp)] at hsize
  have hless : (h.collect w.consumer).inside.length < h.inside.length := by
    have hserved : (h.collect w.consumer).served.length < h.served.length :=
      List.length_filter_lt_length_iff_exists.mpr ⟨_, hw, by simp⟩
    simpa [Handoff.inside, Handoff.collect] using hserved
  have hdemand := hrepresents.demand_eq
  have hle := hrepresents.demand_le
  have hfree : s₁.queue.line.isFull = false := by
    refine Bool.eq_false_iff.mpr fun hfull => ?_
    have hall := Line.isFull_iff.mp hfull
    rw [hrepresents₁.demand_eq] at hall
    omega
  rw [newSlots, hfree, Bool.false_and]
  rfl

/-- While the clock stands still two consumers may wake up in either order. Each is told the same,
and so is everybody afterwards. A consumer that was served may as well take its item along before or
after a step of somebody else, whatever the clock does, unless this step closes the queue: both are
told the same but for the count of the items removed. What is left behind are the same slots under
other numbers, but for one: if a call joins the line while all slots are in use, a slot is made for
it, and this is one vacant slot more than if the consumer had left its own slot first. -/
theorem run_wakes_in_any_order {opening : Opening} {s₁ : Session α} (hopen : open? opening = some s)
    (hbefore : (run (some s) before).1 = some s₁) :
    (∀ a b refusing refusing' later, a ≠ b →
      let x : Step α := ⟨.wake a, refusing, []⟩
      let y : Step α := ⟨.wake b, refusing', []⟩
      Handoff.CountFits (some Handoff.empty) (before ++ x :: y :: later) →
        s₁.Meets x y later ∧
          (step? (s₁.step y).1 x).2.anonymous.uncounted = (s₁.step x).2.anonymous.uncounted ∧
          (step? (s₁.step x).1 y).2.anonymous.uncounted = (s₁.step y).2.anonymous.uncounted) ∧
      ∀ c refusing jumps y later, (s₁.held? c).isSome → y.action.runs c = false →
        y.action ≠ .close →
        let x : Step α := ⟨.wake c, refusing, jumps⟩
        Handoff.CountFits (some Handoff.empty) (before ++ x :: y :: later) →
          s₁.Meets x y later ∧
            (step? (s₁.step y).1 x).2.anonymous.uncounted = (s₁.step x).2.anonymous.uncounted ∧
            (step? (s₁.step x).1 y).2.anonymous =
              (s₁.step y).2.anonymous.recounted y.action Stats.withRemoval := by
  obtain ⟨rfl, -⟩ := open?_eq_some_iff.mp hopen
  constructor
  · intro a b refusing refusing' later hne x y hcount
    obtain ⟨hfits, hrest⟩ := hcount.of_append
    obtain ⟨h, hh, hrepresents⟩ := exists_represents represents_empty hfits hbefore
    rw [hh] at hrest
    obtain ⟨hmeets, hsecond⟩ := h.wakes_meet hne refusing refusing'
    obtain ⟨-, hfirst⟩ := h.wakes_meet hne.symm refusing' refusing
    obtain ⟨hsame, ⟨hx, hy⟩, hxy, hyx⟩ := hrepresents.meets hrest hmeets (by simp [x])
      fun _ _ => newSlots_of_ne_start (by simp [y])
    refine ⟨hsame, ?_, ?_⟩
    · rw [hyx, hx, hfirst]
    · rw [hxy, hy, hsecond]
  · intro c refusing jumps y later hheld hruns hclose x hcount
    obtain ⟨hfits, hrest⟩ := hcount.of_append
    obtain ⟨h, hh, hrepresents⟩ := exists_represents represents_empty hfits hbefore
    rw [hh] at hrest
    obtain ⟨item, hitem⟩ := Option.isSome_iff_exists.mp hheld
    obtain ⟨w, rfl, hw⟩ := hrepresents.exists_served hitem
    obtain ⟨hmeets, hsecond, hfirst⟩ :=
      Handoff.wake_meets hrepresents.sound hw hruns hclose refusing jumps
    obtain ⟨hsame, ⟨hx, hy⟩, hxy, hyx⟩ := hrepresents.meets hrest hmeets (by simp [x])
      fun _ => hrepresents.newSlots_of_collected hrest hw
    refine ⟨hsame, ?_, ?_⟩
    · rw [hyx, hx, hfirst]
    · rw [hxy, hy, hsecond]

/-- One consumer takes its item along and its neighbour gives up; the one that joins the line
afterwards finds their slots vacant in either order. -/
theorem run_wakes_in_any_order_vacated :
    let five : Time := { secs := 5, nanos := 0 }
    let opened : Session Nat := ofQueue Queue.empty
    let late := ((((opened.act (.start 1 .take) []).1.act (.start 2 (.takeUntil five)) []).1.act
      (.put 7) []).1.act (.advance five) []).1
    late.Meets ⟨.wake 1, false, []⟩ ⟨.wake 2, false, []⟩ [⟨.start 3 .take, false, []⟩] ∧
      late.Meets ⟨.wake 1, true, []⟩ ⟨.start 3 .take, false, []⟩ [⟨.put 8, false, []⟩] ∧
      late.newSlots ⟨.start 3 .take, false, []⟩ = 1 := by
  intro five opened late
  have hbefore : (run (open? .plain) [⟨.start 1 .take, false, []⟩,
      ⟨.start 2 (.takeUntil five), false, []⟩, ⟨.put 7, false, []⟩,
      ⟨.advance five, false, []⟩]).1 = some late := by decide
  obtain ⟨hwakes, hwake⟩ :=
    run_wakes_in_any_order (show open? .plain = some opened from rfl) hbefore
  exact ⟨(hwakes 1 2 false false _ (by decide) (by decide)).1,
    (hwake 1 true [] ⟨.start 3 .take, false, []⟩ _ (by decide) rfl (by decide) (by decide)).1,
    by decide⟩

/-- The consumer that was served is the only one inside. If it leaves its slot first, the next call
gets this one. If the call starts first, a second slot is made, and however the slots are renamed,
one line does not become the other. -/
theorem start_before_wake_makes_slot :
    let before : List (Step Nat) := [⟨.start 1 .take, false, []⟩, ⟨.put 7, false, []⟩]
    let x : Step Nat := ⟨.wake 1, false, []⟩
    let y : Step Nat := ⟨.start 2 .take, false, []⟩
    ∃ s s₁ s₂, (run (open? .plain) before).1 = some s ∧ (s.held? 1).isSome ∧
      (run (some s) [x, y]).1 = some s₁ ∧ (run (some s) [y, x]).1 = some s₂ ∧
      IsEmpty (Fin s₁.queue.line.slots.size ≃ Fin s₂.queue.line.slots.size) := by
  intro before x y
  let served := (((ofQueue Queue.empty).act (.start 1 .take) []).1.act (.put 7) []).1
  let left := ((served.act (.wake 1) []).1.act (.start 2 .take) []).1
  let left' := ((served.act (.start 2 .take) []).1.act (.wake 1) []).1
  have hone : left.queue.line.slots.size = 1 := by decide
  have htwo : left'.queue.line.slots.size = 2 := by decide
  refine ⟨served, left, left', by decide, by decide, by decide, by decide, ?_⟩
  rw [hone, htwo]
  refine ⟨fun e => ?_⟩
  have hsame : e.symm 0 = e.symm 1 := Subsingleton.elim _ _
  exact absurd (e.symm.injective hsame) (by decide)

end FairQueue.Session
