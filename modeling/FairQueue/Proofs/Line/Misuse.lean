import FairQueue.Proofs.Line.Refinement
import Mathlib.Data.Finset.Card

/-!
Requests about slots that nobody holds. The history of a line, its requests and their answers, tells
which slots were made and which ones were released since they were last given out, and that is what
the line finds out when it is asked about a slot.
-/

namespace FairQueue

namespace Line

variable {α : Type} {l : Line α} {r : Roster α} {i : Nat} {request : Request α}
  {requests : List (Request α)}

/-- The slot that a newcomer is given, if one joins. -/
def taken? : Request α × Reply α → Option Nat
  | (_, .joined place) => some place.slot
  | _ => none

/-- The slot that is released, if one is: its item is collected, or its owner leaves. -/
def released? : Request α × Reply α → Option Nat
  | (.collect i, .delivered (some _)) => some i
  | (.leave i, .delivered _) => some i
  | _ => none

/-- The slot was released, and nobody was given it since. -/
def Released (i : Nat) (history : List (Request α × Reply α)) : Prop :=
  ∃ before e after, history = before ++ e :: after ∧ released? e = some i ∧
    ∀ e' ∈ after, taken? e' ≠ some i

theorem released_cons {e : Request α × Reply α} {history : List (Request α × Reply α)} :
    Released i (e :: history) ↔
      Released i history ∨ released? e = some i ∧ ∀ e' ∈ history, taken? e' ≠ some i := by
  constructor
  · rintro ⟨before, e', after, hsplit, hreleased, hkept⟩
    cases before with
    | nil =>
        obtain ⟨rfl, rfl⟩ := List.cons.inj hsplit
        exact .inr ⟨hreleased, hkept⟩
    | cons first before =>
        obtain ⟨-, rfl⟩ := List.cons.inj hsplit
        exact .inl ⟨before, e', after, rfl, hreleased, hkept⟩
  · rintro (⟨before, e', after, rfl, hreleased, hkept⟩ | ⟨hreleased, hkept⟩)
    · exact ⟨e :: before, e', after, rfl, hreleased, hkept⟩
    · exact ⟨[], e, history, rfl, hreleased, hkept⟩

theorem not_released_nil : ¬ Released i ([] : List (Request α × Reply α)) := by
  rintro ⟨before, e, after, hsplit, -⟩
  simp at hsplit

instance decidableReleased (i : Nat) :
    (history : List (Request α × Reply α)) → Decidable (Released i history)
  | [] => isFalse not_released_nil
  | _ :: history =>
    have := decidableReleased i history
    decidable_of_iff _ released_cons.symm

theorem exists_of_run_cons {replies : List (Reply α)} {l' : Line α}
    (hrun : l.run (request :: requests) = .ok (replies, l')) :
    ∃ reply l₁ rest, l.perform request = .ok (reply, l₁) ∧ l₁.run requests = .ok (rest, l') ∧
      replies = reply :: rest := by
  simp only [run, bind, Except.bind] at hrun
  split at hrun
  · cases hrun
  · rename_i first hfirst
    split at hrun
    · cases hrun
    · rename_i last hlast
      cases hrun
      exact ⟨first.1, first.2, last.1, hfirst, hlast, rfl⟩

/-- The first fault ends a run. -/
theorem run_append_of_error {before after : List (Request α)} {replies : List (Reply α)}
    {l' : Line α} {fault : Fault} (hbefore : l.run before = .ok (replies, l'))
    (hfault : l'.perform request = .error fault) :
    l.run (before ++ request :: after) = .error fault := by
  induction before generalizing l replies with
  | nil =>
      cases hbefore
      simp [run, hfault, bind, Except.bind]
  | cons first before ih =>
      obtain ⟨reply, l₁, rest, hperform, hrun, -⟩ := exists_of_run_cons hbefore
      have hrest := ih hrun
      simp [run, hperform, hrest, bind, Except.bind]

namespace Layout

/-- A slot that was made and is vacant is known to have been released. -/
theorem perform_vacant (h : l.Layout r none) (hslot : request.slot? = some i)
    (hi : i ∈ r.vacant) : l.perform request = .error (.released i) := by
  obtain ⟨next, hnext⟩ := h.chained.occupancy_of_mem hi
  obtain ⟨slot, hslot', hused, -⟩ := slot_of_occupancy? hnext
  cases request with
  | join | serve item => cases hslot
  | collect j | leave j =>
      cases hslot
      simp [perform, Line.leave, Line.collect, hslot', hused, bind, Except.bind, throw, throwThe,
        MonadExceptOf.throw]

theorem perform_unmade (h : l.Layout r none) (hslot : request.slot? = some i)
    (hi : r.made ≤ i) : l.perform request = .error (.outOfBounds i r.made) := by
  have hnone : l.slot i = .error (.outOfBounds i r.made) := by
    have hbeyond : l.slots[i]? = none := Array.getElem?_eq_none (h.made ▸ hi)
    simp [slot, hbeyond, h.made]
  cases request with
  | join | serve item => cases hslot
  | collect j | leave j =>
      cases hslot
      simp [perform, Line.leave, Line.collect, hnone, bind, Except.bind]

theorem uses_or_vacant (h : l.Layout r none) (hi : i < r.made) : r.Uses i ∨ i ∈ r.vacant := by
  rcases h.used i hi with hwaiting | hvacant | hserved | hloose
  · exact .inl (.inl hwaiting)
  · exact .inr hvacant
  · exact .inl (.inr hserved)
  · cases hloose

theorem not_vacant_of_uses (h : l.Layout r none) (hi : r.Uses i) : i ∉ r.vacant := by
  intro hvacant
  rcases hi with hwaiting | hserved
  · exact h.not_vacant_of_waiting hwaiting hvacant
  · simp [h.served_of_vacant hvacant] at hserved

/-- Only requests about slots in use are answered. -/
theorem uses_of_perform (h : l.Layout r none) {reply : Reply α} {l' : Line α}
    (hperform : l.perform request = .ok (reply, l')) : ∀ i ∈ request.slot?, r.Uses i := by
  intro i hslot
  by_cases hi : i < r.made
  · refine (h.uses_or_vacant hi).resolve_right fun hvacant => ?_
    rw [h.perform_vacant hslot hvacant] at hperform
    cases hperform
  · rw [h.perform_unmade hslot (Nat.not_lt.mp hi)] at hperform
    cases hperform

/-- After an answer those slots are vacant that it releases, and those that were vacant and are not
given out. -/
theorem mem_vacant_perform (h : l.Layout r none) :
    i ∈ (r.perform request).2.vacant ↔
      released? (request, (r.perform request).1) = some i ∨
        i ∈ r.vacant ∧ taken? (request, (r.perform request).1) ≠ some i := by
  cases request with
  | join =>
      cases hvacant : r.vacant with
      | nil => simp [Roster.perform, hvacant, released?]
      | cons j js =>
          obtain ⟨hnot, -⟩ := List.nodup_cons.mp (hvacant ▸ h.vacant_nodup)
          simp only [Roster.perform, hvacant, released?, taken?, Roster.place, List.mem_cons]
          grind
  | serve item =>
      cases hwaiting : r.waiting <;> simp [Roster.perform, hwaiting, released?, taken?]
  | collect j | leave j =>
      cases hserved : r.served j <;>
        simp [Roster.perform, Roster.yield, hserved, released?, taken?, eq_comm]

/-- After an answer those slots are made that were made before, and the one that is given out. -/
theorem lt_made_perform (h : l.Layout r none) :
    i < (r.perform request).2.made ↔
      taken? (request, (r.perform request).1) = some i ∨ i < r.made := by
  cases request with
  | join =>
      cases hvacant : r.vacant with
      | nil =>
          simp [Roster.perform, hvacant, taken?, Roster.place]
          omega
      | cons j js =>
          have hj : j < r.made := h.vacant_lt (by simp [hvacant])
          simp only [Roster.perform, hvacant, taken?, Roster.place, Option.some.injEq]
          omega
  | serve item =>
      cases hwaiting : r.waiting <;> simp [Roster.perform, hwaiting, taken?]
  | collect j | leave j =>
      cases hserved : r.served j <;> simp [Roster.perform, Roster.yield, hserved, taken?]

/-- A run that no fault ends leaves the line as the roster says, and its history tells which slots
are vacant and which ones were made. -/
theorem of_run {replies : List (Reply α)} {l' : Line α} (h : l.Layout r none)
    (hrun : l.run requests = .ok (replies, l')) :
    ∃ r' : Roster α, l'.Layout r' none ∧
      (∀ i, i ∈ r'.vacant ↔ Released i (requests.zip replies) ∨
        i ∈ r.vacant ∧ ∀ e ∈ requests.zip replies, taken? e ≠ some i) ∧
      ∀ i, i < r'.made ↔ i ∈ (requests.zip replies).filterMap taken? ∨ i < r.made := by
  induction requests generalizing l r replies with
  | nil =>
      cases hrun
      refine ⟨r, h, fun i => ?_, fun i => ?_⟩
      · simp [not_released_nil]
      · simp
  | cons request requests ih =>
      obtain ⟨reply, l₁, rest, hperform, hrest, rfl⟩ := exists_of_run_cons hrun
      obtain ⟨l₁', hperform', hlayout⟩ := h.exists_perform (h.uses_of_perform hperform)
      obtain ⟨rfl, rfl⟩ := Prod.mk.inj (Except.ok.inj (hperform'.symm.trans hperform))
      obtain ⟨r', hlayout', hvacant, hmade⟩ := ih hlayout hrest
      refine ⟨r', hlayout', fun i => ?_, fun i => ?_⟩
      · rw [hvacant, h.mem_vacant_perform, List.zip_cons_cons, released_cons, List.forall_mem_cons]
        tauto
      · rw [hmade, h.lt_made_perform, List.zip_cons_cons, List.filterMap_cons]
        cases taken? (request, (r.perform request).1) with
        | none => simp
        | some j =>
            simp only [Option.some.injEq, List.mem_cons, eq_comm]
            tauto

end Layout

/-- A line finds out exactly who asks about a slot that nobody holds. Whatever was asked of it since
it was empty, as long as it was answered: joining and serving are answered. Collecting from a slot
and leaving one are refused as out of bounds if fewer slots were made, and as released if the slot
was released since it was last given out, by a request that handed out its item or by its owner who
left; in all other cases they are answered. The first fault ends the run. -/
theorem run_detects_misuse {before : List (Request α)} {replies : List (Reply α)}
    (hbefore : (empty : Line α).run before = .ok (replies, l)) :
    let history := before.zip replies
    let made := (history.filterMap taken?).toFinset.card
    (∃ reply l', l.perform .join = .ok (reply, l')) ∧
      (∀ item, ∃ reply l', l.perform (.serve item) = .ok (reply, l')) ∧
      (∀ i, ∀ request ∈ [Request.collect i, .leave i],
        (l.perform request = .error (.outOfBounds i made) ↔ made < i + 1) ∧
          (l.perform request = .error (.released i) ↔ i < made ∧ Released i history) ∧
          ((∃ reply l', l.perform request = .ok (reply, l')) ↔ i < made ∧ ¬ Released i history)) ∧
      ∀ request fault, l.perform request = .error fault →
        ∀ after, (empty : Line α).run (before ++ request :: after) = .error fault := by
  intro history made
  obtain ⟨r, hlayout, hvacant, hmade⟩ := layout_empty.of_run hbefore
  have hcard : made = r.made := by
    have hset : (history.filterMap taken?).toFinset = Finset.range r.made := by
      ext i
      simp [history, hmade, Roster.empty]
    simp only [made, hset, Finset.card_range]
  have hreleased : ∀ i, i ∈ r.vacant ↔ Released i history := fun i => by
    simp [hvacant, history, Roster.empty]
  have hanswered : ∀ request : Request α, (∀ i ∈ request.slot?, r.Uses i) →
      ∃ reply l', l.perform request = .ok (reply, l') := by
    intro request huses
    obtain ⟨l', hperform, -⟩ := hlayout.exists_perform huses
    exact ⟨_, l', hperform⟩
  refine ⟨hanswered .join nofun, fun item => hanswered (.serve item) nofun, ?_, ?_⟩
  · intro i request hrequest
    have hslot : request.slot? = some i := by
      rcases List.mem_pair.mp hrequest with rfl | rfl <;> rfl
    rw [hcard, ← hreleased]
    by_cases hi : i < r.made
    · have hmade : ¬ r.made < i + 1 := by omega
      rcases hlayout.uses_or_vacant hi with huses | hvacant
      · have hnot := hlayout.not_vacant_of_uses huses
        obtain ⟨reply, l', hperform⟩ := hanswered request (by simpa [hslot] using huses)
        simp [hperform, hi, hmade, hnot]
      · simp [hlayout.perform_vacant hslot hvacant, hi, hmade, hvacant]
    · have hmade : r.made < i + 1 := by omega
      simp [hlayout.perform_unmade hslot (Nat.not_lt.mp hi), hi, hmade]
  · intro request fault hfault after
    exact run_append_of_error hbefore hfault

/-- Of two slots one is released and given to a newcomer, which is served: its slot is as good as
new, and the other one, released since, is known to be. -/
theorem run_detects_misuse_reused :
    let before : List (Request Nat) :=
      [.join, .join, .leave 0, .join, .serve 7, .collect 1, .serve 8]
    ∃ replies l, (empty : Line Nat).run before = .ok (replies, l) ∧
      (∃ reply l', l.perform (.collect 0) = .ok (reply, l')) ∧
      l.perform (.leave 1) = .error (.released 1) ∧
      l.perform (.collect 2) = .error (.outOfBounds 2 2) ∧
      (empty : Line Nat).run (before ++ [.leave 1, .join]) = .error (.released 1) := by
  intro before
  have hadmits : (Roster.empty : Roster Nat).Admits before := by decide
  obtain ⟨l, hbefore, -⟩ := layout_empty.exists_run hadmits
  obtain ⟨-, -, hslots, hfirst⟩ := run_detects_misuse hbefore
  obtain ⟨-, -, hanswered⟩ := hslots 0 (.collect 0) (by simp)
  obtain ⟨-, hreleased, -⟩ := hslots 1 (.leave 1) (by simp)
  obtain ⟨hunmade, -, -⟩ := hslots 2 (.collect 2) (by simp)
  have hrefused := hreleased.mpr (by decide)
  refine ⟨_, l, hbefore, hanswered.mpr (by decide), hrefused, hunmade.mpr (by decide), ?_⟩
  exact hfirst _ _ hrefused [.join]

end Line

end FairQueue
