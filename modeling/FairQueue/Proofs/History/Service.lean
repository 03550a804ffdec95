import FairQueue.Proofs.Handoff.Outcomes
import FairQueue.Proofs.History.Incident

/-!
Whom a turn of the hand-off queue serves. New items go to the consumers at the front of the line,
and these are the ones notified. All other turns serve nobody, and only its own call brings a
consumer into the line.
-/

namespace FairQueue

/-- Whether `c` runs in this action, from the start of its call or from its sleep on. -/
def Action.runs {α : Type} (c : Consumer) : Action α → Bool
  | start d _ | wake d => d = c
  | _ => false

namespace Handoff

variable {α : Type} {h : Handoff α} {t : Turn α} {action : Action α} {clock : Clock} {c : Consumer}
  {w : Waiter} {items : List α}

/-- The items go to the consumers at the front of the line, one each, and these are notified in this
order. -/
structure Deals (h : Handoff α) (items : List α) (t : Turn α) : Prop where
  notified : t.notified = (h.waiting.take items.length).map (·.consumer)
  waiting : t.queue.waiting = h.waiting.drop items.length
  served : t.queue.served = h.served ++ h.waiting.zip items

/-- Nobody is notified or served, and nobody but `c` joins the line, which it does if it falls
asleep in the first turn of its call, and then only. -/
structure Minds (h : Handoff α) (c : Consumer) (action : Action α) (t : Turn α) : Prop where
  notified : t.notified = []
  served : t.queue.served.Sublist h.served
  waiting : ∀ w ∈ t.queue.waiting, w ∈ h.waiting ∨
    w.consumer = c ∧ (∃ removal, action = .start c removal) ∧ ∃ limit, t.reply = .asleep limit
  asleep : ∀ limit, t.reply = .asleep limit →
    t.event = none ∧ c ∈ t.queue.waiting.map (·.consumer)

theorem deals_turn (hnobody : ∀ c, action.runs c = false) :
    h.Deals action.offered (h.turn action clock) := by
  cases action with
  | put item => exact ⟨rfl, rfl, rfl⟩
  | putAll source =>
      cases hfailure : source.failure? with
      | some request =>
          have hoffered : (Action.putAll source).offered = [] := by
            simp [Action.offered, hfailure]
          rw [hoffered]
          constructor <;> simp [turn, hfailure]
      | none =>
          have hoffered : (Action.putAll source).offered = source.items := by
            simp [Action.offered, hfailure]
          rw [hoffered]
          constructor <;> simp [turn, hfailure, putAll]
  | next name =>
      constructor <;> simp only [turn] <;> split <;> simp [Action.offered, Action.cargo, popMany]
  | start c removal | wake c => simpa [Action.runs] using hnobody c
  | _ => constructor <;> simp [turn, Action.offered, Action.cargo, popMany]

theorem minds_of_awake (hnotified : t.notified = []) (hserved : t.queue.served.Sublist h.served)
    (hwaiting : t.queue.waiting ⊆ h.waiting) (hawake : ∀ limit, t.reply ≠ .asleep limit) :
    h.Minds c action t where
  notified := hnotified
  served := hserved
  waiting _ hw := .inl (hwaiting hw)
  asleep limit hreply := absurd hreply (hawake limit)

theorem Starts.minds {removal : Removal} (hstarts : h.Starts c removal t) :
    h.Minds c (.start c removal) t := by
  cases hstarts with
  | popped | late =>
      exact minds_of_awake rfl (List.Sublist.refl _) (List.Subset.refl _) (by simp)
  | asleep =>
      refine ⟨rfl, List.Sublist.refl _, fun w hw => ?_, fun _ _ => ⟨rfl, by simp [join]⟩⟩
      refine (List.mem_append.mp hw).imp_right fun hw => ⟨?_, ⟨removal, rfl⟩, _, rfl⟩
      rw [List.mem_singleton.mp hw]
  | gaveUp =>
      refine minds_of_awake rfl (List.Sublist.refl _) (fun w hw => ?_) (by simp)
      obtain ⟨hw, hne⟩ := List.mem_filter.mp hw
      refine (List.mem_append.mp hw).resolve_right fun hw => ?_
      rw [List.mem_singleton.mp hw] at hne
      simp at hne

theorem Resumes.minds (hresumes : h.Resumes w clock t) :
    h.Minds w.consumer (.wake w.consumer) t := by
  cases hresumes with
  | collected => exact minds_of_awake rfl List.filter_sublist (List.Subset.refl _) (by simp)
  | asleep hwaiting =>
      exact ⟨rfl, List.Sublist.refl _, fun _ hw => .inl hw,
        fun _ _ => ⟨rfl, List.mem_map_of_mem hwaiting⟩⟩
  | gaveUp =>
      exact minds_of_awake rfl (List.Sublist.refl _) (List.filter_subset_self _) (by simp)

theorem Consumes.minds (hconsumes : h.Consumes c action clock t) : h.Minds c action t := by
  cases hconsumes with
  | busy | idle => exact minds_of_awake rfl (List.Sublist.refl _) (List.Subset.refl _) (by simp)
  | started hnew hstarts => exact hstarts.minds
  | resumed hinside hresumes => exact hresumes.minds

/-- Nobody is notified but the consumers that items go to, in the order of the items. -/
structure Serves (h : Handoff α) (items : List α) (t : Turn α) : Prop where
  notified : t.notified = (h.waiting.take items.length).map (·.consumer)
  old : ∀ y ∈ t.queue.served, y ∈ h.served ∨ y ∈ h.waiting.zip items
  new : ∀ y ∈ h.waiting.zip items, y ∈ t.queue.served

theorem Deals.serves (hdeals : h.Deals items t) : h.Serves items t where
  notified := hdeals.notified
  old _ hy := List.mem_append.mp (hdeals.served ▸ hy)
  new _ hy := hdeals.served ▸ List.mem_append_right _ hy

theorem Minds.serves (hminds : h.Minds c action t) : h.Serves [] t where
  notified := by simp [hminds.notified]
  old _ hy := .inl (hminds.served.subset hy)
  new _ hy := by simp at hy

theorem Consumes.offered (hconsumes : h.Consumes c action clock t) : action.offered = [] := by
  cases hconsumes <;> rfl

theorem Consumes.runs_iff {d : Consumer} (hconsumes : h.Consumes c action clock t) :
    action.runs d = true ↔ d = c := by
  cases hconsumes <;> simp [Action.runs, eq_comm]

/-- A turn deals out what it offers, or it is the turn of a consumer in its own call. -/
theorem deals_or_consumes (h : Handoff α) (action : Action α) (clock : Clock) :
    h.Deals action.offered (h.turn action clock) ∧ (∀ c, action.runs c = false) ∨
      ∃ c, h.Consumes c action clock (h.turn action clock) := by
  cases action with
  | start c removal => exact .inr ⟨c, h.consumes_start c removal clock⟩
  | wake c => exact .inr ⟨c, h.consumes_wake c clock⟩
  | _ => exact .inl ⟨deals_turn fun _ => rfl, fun _ => rfl⟩

theorem serves_turn (h : Handoff α) (action : Action α) (clock : Clock) :
    h.Serves action.offered (h.turn action clock) := by
  rcases h.deals_or_consumes action clock with ⟨hdeals, -⟩ | ⟨c, hconsumes⟩
  · exact hdeals.serves
  · rw [hconsumes.offered]
    exact hconsumes.minds.serves

end Handoff

end FairQueue
