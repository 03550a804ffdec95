import FairQueue.Proofs.History.Standing

/-!
Items are neither lost nor made up: those that a queue owns and those that a step brings along leave
with this step, or the queue owns them afterwards.
-/

namespace FairQueue

variable {α : Type}

/-- The items that an action brings along. Of a source that fails these are the ones it gave before.
-/
def Action.brought : Action α → List α
  | putAll source =>
    match source.failure? with
    | some request => source.items.take request
    | none => source.items
  | action => action.cargo

/-- The items that leave with a step, delivered or destroyed. -/
def Entry.outgoing (e : Entry α) : List α :=
  e.reply.freight ++ e.destroyed

@[simp] theorem Entry.outgoing_anonymous (e : Entry α) : e.anonymous.outgoing = e.outgoing := by
  simp [outgoing]

def Turn.outgoing (t : Turn α) : List α :=
  t.reply.freight ++ t.destroyed

/-- Whether the log takes the event or not, the same items leave. -/
theorem Turn.perm_outgoing_entry (t : Turn α) (refusing : Bool) :
    t.outgoing.Perm (t.entry refusing).outgoing := by
  unfold entry
  split
  · exact List.perm_append_comm
  · exact List.Perm.refl _

namespace Handoff

open scoped List

variable {h : Handoff α} {t : Turn α} {action : Action α} {clock : Clock} {c : Consumer}
  {w : Waiter} {item : α}

/-- Everything that the queue owns: the stored items, then those served and not collected. -/
def contents (h : Handoff α) : List α :=
  h.items ++ h.served.map (·.2)

/-- What the queue owned leaves with the turn, or the queue still owns it. -/
def Balances (h : Handoff α) (t : Turn α) : Prop :=
  h.contents.Perm (t.outgoing ++ t.queue.contents)

theorem balances_of_eq (houtgoing : t.outgoing = []) (hcontents : t.queue.contents = h.contents) :
    h.Balances t := by
  rw [Balances, houtgoing, hcontents]
  exact List.Perm.refl _

theorem perm_contents_putAll (h : Handoff α) (items : List α) :
    (h.contents ++ items).Perm (h.putAll items).contents := by
  have hzip : (h.putAll items).served.map (·.2) =
      h.served.map (·.2) ++ items.take h.waiting.length := by
    rw [← map_snd_zip_eq_take, ← List.map_append]
    rfl
  calc
    h.contents ++ items
    _ = h.items ++ ((h.served.map (·.2) ++ items.take h.waiting.length) ++
          items.drop h.waiting.length) := by
      rw [List.append_assoc, List.take_append_drop, contents, List.append_assoc]
    _ ~ h.items ++ (items.drop h.waiting.length ++
          (h.served.map (·.2) ++ items.take h.waiting.length)) :=
      List.perm_append_comm.append_left _
    _ = (h.putAll items).contents := by
      rw [contents, hzip, ← List.append_assoc]
      rfl

theorem contents_popMany (h : Handoff α) (count : Nat) :
    h.contents = (h.popMany count).1 ++ (h.popMany count).2.contents := by
  change h.items ++ _ = h.items.take count ++ (h.items.drop count ++ _)
  rw [← List.append_assoc, List.take_append_drop]
  rfl

theorem perm_contents_collect (hnames : (h.served.map (·.1.consumer)).Nodup)
    (hmem : (w, item) ∈ h.served) : h.contents.Perm (item :: (h.collect w.consumer).contents) := by
  have hown : h.served.filter (·.1.consumer = w.consumer) = [(w, item)] :=
    filter_eq_singleton (f := (·.1.consumer)) hnames hmem
  have hsplit : ((w, item) :: h.served.filter (·.1.consumer ≠ w.consumer)).Perm h.served := by
    have hfilter :=
      List.filter_append_perm (fun y : Waiter × α => y.1.consumer = w.consumer) h.served
    rw [hown] at hfilter
    simpa using hfilter
  have hitems := hsplit.symm.map (·.2)
  exact (hitems.append_left h.items).trans List.perm_middle

theorem balances_popMany {count : Nat} (houtgoing : t.outgoing = (h.popMany count).1)
    (hqueue : t.queue = (h.popMany count).2) : h.Balances t := by
  rw [Balances, houtgoing, hqueue, ← h.contents_popMany]

theorem balances_pop (h : Handoff α) (clock : Clock) :
    h.Balances { queue := (h.popMany 1).2, clock, reply := .delivered (h.popMany 1).1.head? } :=
  balances_popMany ((List.append_nil _).trans h.toList_head?_popMany) rfl

theorem Consumes.balances (hconsumes : h.Consumes c action clock t)
    (hnames : (h.served.map (·.1.consumer)).Nodup) : h.Balances t := by
  cases hconsumes with
  | busy | idle => exact balances_of_eq rfl rfl
  | started hnew hstarts =>
      cases hstarts with
      | popped hitems =>
          exact balances_popMany (by simp [popMany, hitems, Turn.outgoing, Reply.freight]) rfl
      | late | asleep | gaveUp => exact balances_of_eq rfl rfl
  | resumed hinside hresumes =>
      cases hresumes with
      | collected hmem hname =>
          have hcollect := perm_contents_collect hnames hmem
          rw [hname] at hcollect
          exact hcollect
      | asleep | gaveUp => exact balances_of_eq rfl rfl

theorem conserves_turn (action : Action α) (clock : Clock)
    (hnames : (h.served.map (·.1.consumer)).Nodup) :
    (h.contents ++ action.brought).Perm
      ((h.turn action clock).outgoing ++ (h.turn action clock).queue.contents) := by
  -- all actions but those of producers bring nothing along
  have hnothing : ∀ t : Turn α, h.Balances t →
      (h.contents ++ []).Perm (t.outgoing ++ t.queue.contents) :=
    fun t hbalances => (List.append_nil h.contents).symm ▸ hbalances
  cases action with
  | put item => exact h.perm_contents_putAll [item]
  | putAll source =>
      cases hfailure : source.failure? with
      | some request =>
          simp only [turn, hfailure, Action.brought]
          exact List.perm_append_comm
      | none =>
          simp only [turn, hfailure, Action.brought]
          exact h.perm_contents_putAll source.items
  | poll => exact hnothing _ (h.balances_pop clock)
  | drain max => exact hnothing _ (balances_popMany (List.append_nil _) rfl)
  | next name =>
      refine hnothing _ ?_
      simp only [turn]
      split
      · exact h.balances_pop clock
      · exact balances_of_eq rfl rfl
  | start c removal => exact hnothing _ ((h.consumes_start c removal clock).balances hnames)
  | wake c => exact hnothing _ ((h.consumes_wake c clock).balances hnames)
  | query query =>
      refine hnothing _ (balances_of_eq ?_ rfl)
      cases query <;> rfl
  | _ => exact hnothing _ (balances_of_eq rfl rfl)

end Handoff

namespace Session

open scoped List

variable {s s' : Session α} {h : Handoff α} {step : Step α} {steps : List (Step α)} {c : Consumer}
  {item : α}

/-- The stored items, and those that the slots of the consumers asleep keep. -/
def contents (s : Session α) : List α :=
  s.queue.items ++ (s.sleepers.map (·.1)).filterMap s.held?

/-- All of these but the item that the slot of `c` keeps. -/
def contentsBut (s : Session α) (c : Consumer) : List α :=
  s.queue.items ++ ((s.sleepers.map (·.1)).filter (· ≠ c)).filterMap s.held?

theorem perm_contents (hnames : (s.sleepers.map (·.1)).Nodup) (hheld : s.held? c = some item)
    (hc : c ∈ s.sleepers.map (·.1)) : s.contents ~ item :: s.contentsBut c := by
  have hconsumers : s.sleepers.map (·.1) ~ c :: (s.sleepers.map (·.1)).filter (· ≠ c) := by
    have herase := List.perm_cons_erase hc
    rw [hnames.erase_eq_filter] at herase
    simpa [bne, beq_eq_decide] using herase
  have hitems := hconsumers.filterMap s.held?
  rw [List.filterMap_cons_some hheld] at hitems
  exact (hitems.append_left s.queue.items).trans List.perm_middle

theorem Represents.contents_eq (hrepresents : s.Represents h) : s.contents = h.contents := by
  have hwaiting : (h.waiting.map (·.consumer)).filterMap s.held? = [] := by
    refine List.filterMap_eq_nil_iff.mpr fun c hc => ?_
    obtain ⟨w, hw, rfl⟩ := List.mem_map.mp hc
    exact hrepresents.held?_of_waiting hw
  have hserved : (h.served.map (·.1.consumer)).filterMap s.held? = h.served.map (·.2) := by
    rw [List.filterMap_map, ← List.filterMap_eq_map]
    exact List.filterMap_congr fun y hy => hrepresents.held?_of_served hy
  rw [contents, hrepresents.sleepers_eq, List.filterMap_append, hwaiting, hserved, List.append_nil,
    ← hrepresents.items_eq]
  rfl

theorem Represents.conserves_step (hrepresents : s.Represents h)
    (hcount : Handoff.CountFits (some h) (step :: steps)) (hstep : (s.step step).1 = some s') :
    s.contents ++ step.action.brought ~ (s.step step).2.outgoing ++ s'.contents := by
  obtain ⟨hrepresents', hentry, -⟩ := hrepresents.turn_of_step hcount hstep
  have hturn := Handoff.conserves_turn step.action { now := h.now, jumps := step.jumps }
    hrepresents.sound.served_names
  rw [hrepresents.contents_eq, hrepresents'.contents_eq, ← Entry.outgoing_anonymous, hentry]
  exact hturn.trans ((Turn.perm_outgoing_entry _ _).append_right _)

/-- What a session owned and what its steps brought along left with these steps, or the session
still owns it. -/
theorem Represents.conserves_run (hrepresents : s.Represents h)
    (hcount : Handoff.CountFits (some h) steps) (hlast : (run (some s) steps).1 = some s') :
    s.contents ++ steps.flatMap (·.action.brought) ~
      (run (some s) steps).2.flatMap Entry.outgoing ++ s'.contents := by
  induction steps generalizing s h with
  | nil =>
      obtain rfl := Option.some.inj hlast
      simp [run]
  | cons step steps ih =>
      obtain ⟨s₁, hstep, hrest⟩ := exists_of_run_cons hlast
      obtain ⟨hrepresents₁, -, hcount₁⟩ := hrepresents.turn_of_step hcount hstep
      rw [run_cons hstep, List.flatMap_cons, List.flatMap_cons]
      calc
        s.contents ++ (step.action.brought ++ steps.flatMap (·.action.brought))
        _ = s.contents ++ step.action.brought ++ steps.flatMap (·.action.brought) :=
          (List.append_assoc _ _ _).symm
        _ ~ (s.step step).2.outgoing ++ s₁.contents ++ steps.flatMap (·.action.brought) :=
          (hrepresents.conserves_step hcount hstep).append_right _
        _ = (s.step step).2.outgoing ++ (s₁.contents ++ steps.flatMap (·.action.brought)) :=
          List.append_assoc _ _ _
        _ ~ (s.step step).2.outgoing ++
            ((run (some s₁) steps).2.flatMap Entry.outgoing ++ s'.contents) :=
          (ih hrepresents₁ hcount₁ hrest).append_left _
        _ = _ := (List.append_assoc _ _ _).symm

end Session

end FairQueue
