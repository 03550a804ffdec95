import FairQueue.Proofs.History.Ledger
import Mathlib.Data.List.Induction

/-!
How the consumers of a ledger came to stand where they do: one that holds an item was handed it
while it stood in the line, one that stands in the line joined it, and nothing happened to it since.
-/

namespace FairQueue.Ledger

variable {α : Type} {l l' : Ledger α} {i : Incident α} {is : List (Incident α)} {w : Waiter}
  {item : α}

theorem Path.exists_of_concat (h : Path l (is ++ [i]) l') :
    ∃ l₁, Path l is l₁ ∧ Happens l₁ i l' := by
  obtain ⟨l₁, his, hlast⟩ := h.exists_of_append
  cases hlast with
  | cons hhappens hnil =>
      cases hnil
      exact ⟨l₁, his, hhappens⟩

/-- Who holds an item was handed it just now, or held it before. -/
theorem Happens.served_or (h : Happens l i l') (hsound : l.Sound) (hmem : (w, item) ∈ l'.served) :
    i = .handed w.consumer item ∧ w ∈ l.waiting ∨
      (w, item) ∈ l.served ∧ i.concerns w.consumer = false := by
  cases h with
  | stored | popped => exact .inr ⟨hmem, rfl⟩
  | @handed items waiting served v item' =>
      rcases List.mem_append.mp hmem with hmem | hmem
      · have hne := hsound.ne_of_waiting hmem List.mem_cons_self
        exact .inr ⟨hmem, by simpa using hne⟩
      · obtain ⟨rfl, rfl⟩ := Prod.mk.inj (List.mem_singleton.mp hmem)
        exact .inl ⟨rfl, List.mem_cons_self⟩
  | @joined waiting served v hnew =>
      refine .inr ⟨hmem, ?_⟩
      simp only [Incident.concerns, decide_eq_false_iff_not]
      intro heq
      rw [heq] at hnew
      exact hnew (List.mem_map_of_mem (List.mem_append_left _ (List.mem_map_of_mem hmem)))
  | returned hmem' | lost hmem' =>
      obtain ⟨hmem, hne⟩ := List.mem_filter.mp hmem
      exact .inr ⟨hmem, by simpa using Ne.symm (of_decide_eq_true hne)⟩
  | gaveUp hmem' =>
      have hne := hsound.ne_of_waiting hmem hmem'
      exact .inr ⟨hmem, by simpa using hne⟩

/-- Who stands in the line joined it just now, or stood there before. -/
theorem Happens.waiting_or (h : Happens l i l') (hsound : l.Sound) (hmem : w ∈ l'.waiting) :
    i = .joined w.consumer ∨ w ∈ l.waiting ∧ i.concerns w.consumer = false := by
  cases h with
  | stored | popped => exact .inr ⟨hmem, rfl⟩
  | @handed items waiting served v item' =>
      have hnames := hsound.waiting_names
      rw [List.map_cons, List.nodup_cons] at hnames
      refine .inr ⟨List.mem_cons_of_mem _ hmem, ?_⟩
      simp only [Incident.concerns, decide_eq_false_iff_not]
      exact fun heq => hnames.1 (heq ▸ List.mem_map_of_mem hmem)
  | @joined waiting served v hnew =>
      rcases List.mem_append.mp hmem with hmem | hmem
      · refine .inr ⟨hmem, ?_⟩
        simp only [Incident.concerns, decide_eq_false_iff_not]
        intro heq
        rw [heq] at hnew
        exact hnew (List.mem_map_of_mem (List.mem_append_right _ hmem))
      · rw [List.mem_singleton.mp hmem]
        exact .inl rfl
  | returned hmem' | lost hmem' =>
      have hne := hsound.ne_of_waiting hmem' hmem
      exact .inr ⟨hmem, by simpa using Ne.symm hne⟩
  | gaveUp hmem' =>
      obtain ⟨hmem, hne⟩ := List.mem_filter.mp hmem
      exact .inr ⟨hmem, by simpa using Ne.symm (of_decide_eq_true hne)⟩

theorem Path.exists_handed (h : Path l is l') (hsound : l.Sound) (hnobody : l.served = [])
    (hmem : (w, item) ∈ l'.served) :
    ∃ before keeping l₁, is = before ++ .handed w.consumer item :: keeping ∧
      (∀ i ∈ keeping, i.concerns w.consumer = false) ∧ Path l before l₁ ∧ w ∈ l₁.waiting := by
  induction is using List.reverseRecOn generalizing l' with
  | nil =>
      cases h
      rw [hnobody] at hmem
      cases hmem
  | append_singleton is i ih =>
      obtain ⟨l₁, his, hhappens⟩ := h.exists_of_concat
      rcases hhappens.served_or (his.sound hsound) hmem with ⟨rfl, hwaiting⟩ | ⟨hold, hquiet⟩
      · exact ⟨is, [], l₁, rfl, by simp, his, hwaiting⟩
      · obtain ⟨before, keeping, l₂, rfl, hkeeping, hbefore, hwaiting⟩ := ih his hold
        refine ⟨before, keeping ++ [i], l₂, by simp, fun j hj => ?_, hbefore, hwaiting⟩
        rcases List.mem_append.mp hj with hj | hj
        · exact hkeeping j hj
        · rwa [List.mem_singleton.mp hj]

theorem Path.exists_joined (h : Path l is l') (hsound : l.Sound) (hnobody : l.waiting = [])
    (hmem : w ∈ l'.waiting) :
    ∃ before waiting, is = before ++ .joined w.consumer :: waiting ∧
      ∀ i ∈ waiting, i.concerns w.consumer = false := by
  induction is using List.reverseRecOn generalizing l' with
  | nil =>
      cases h
      rw [hnobody] at hmem
      cases hmem
  | append_singleton is i ih =>
      obtain ⟨l₁, his, hhappens⟩ := h.exists_of_concat
      rcases hhappens.waiting_or (his.sound hsound) hmem with rfl | ⟨hold, hquiet⟩
      · exact ⟨is, [], rfl, by simp⟩
      · obtain ⟨before, waiting, rfl, hwaiting⟩ := ih his hold
        refine ⟨before, waiting ++ [i], by simp, fun j hj => ?_⟩
        rcases List.mem_append.mp hj with hj | hj
        · exact hwaiting j hj
        · rwa [List.mem_singleton.mp hj]

end FairQueue.Ledger
