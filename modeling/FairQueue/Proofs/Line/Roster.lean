import FairQueue.Proofs.Line.Links
import Mathlib.Logic.Function.Basic

/-!
A line as a roster of its slots: which ones wait, in which order, which ones keep which item, and
which ones are vacant, the one released last first. Every operation on a line that has the layout of
a roster succeeds and does to the roster what it says.
-/

namespace FairQueue

/-- Who holds which slot, without the links between the slots. -/
structure Roster (α : Type) where
  /-- The number of slots made so far. -/
  made : Nat
  /-- The waiting slots, the one at the front first. -/
  waiting : List Nat
  /-- The items that were served and not collected. -/
  served : Nat → Option α
  /-- The vacant slots, the one released last first. -/
  vacant : List Nat

namespace Roster

variable {α : Type}

def empty : Roster α where
  made := 0
  waiting := []
  served := fun _ => none
  vacant := []

def next (r : Roster α) : Nat :=
  r.vacant.head?.getD r.made

def acquire (r : Roster α) : Roster α :=
  { r with made := max r.made (r.next + 1), vacant := r.vacant.tail }

def append (r : Roster α) (i : Nat) : Roster α :=
  { r with waiting := r.waiting ++ [i] }

def detach (r : Roster α) (i : Nat) : Roster α :=
  { r with waiting := r.waiting.erase i }

def give (r : Roster α) (i : Nat) (item : α) : Roster α :=
  { r with served := Function.update r.served i (some item) }

def handOut (r : Roster α) (i : Nat) : Roster α :=
  { r with served := Function.update r.served i none }

def release (r : Roster α) (i : Nat) : Roster α :=
  { r with vacant := i :: r.vacant }

def join (r : Roster α) : Roster α :=
  r.acquire.append r.next

def serve (r : Roster α) (i : Nat) (item : α) : Roster α :=
  (r.detach i).give i item

def collect (r : Roster α) (i : Nat) : Roster α :=
  (r.handOut i).release i

def leave (r : Roster α) (i : Nat) : Roster α :=
  (r.detach i).release i

variable (r : Roster α) (i : Nat) (item : α)

@[simp] theorem waiting_join : r.join.waiting = r.waiting ++ [r.next] := rfl

@[simp] theorem served_join : r.join.served = r.served := rfl

@[simp] theorem waiting_serve : (r.serve i item).waiting = r.waiting.erase i := rfl

@[simp] theorem served_serve :
    (r.serve i item).served = Function.update r.served i (some item) := rfl

@[simp] theorem waiting_collect : (r.collect i).waiting = r.waiting := rfl

@[simp] theorem served_collect : (r.collect i).served = Function.update r.served i none := rfl

@[simp] theorem waiting_leave : (r.leave i).waiting = r.waiting.erase i := rfl

@[simp] theorem served_leave : (r.leave i).served = r.served := rfl

end Roster

namespace Line

variable {α : Type} {l l' : Line α} {r : Roster α} {loose : Option Nat} {i : Nat} {item : α}

/-- Whether somebody holds the slot: it waits, or it keeps an item. -/
def inUse (l : Line α) (i : Nat) : Bool :=
  l.occupancy? i matches some (.waiting _ _) | some (.served _)

/-- The slots of the line are used as the roster says. A slot between two uses is `loose`: it is on
no chain and what it was used for last does not matter. -/
structure Layout (l : Line α) (r : Roster α) (loose : Option Nat) : Prop where
  made : l.slots.size = r.made
  bell : ∀ i < r.made, l.bell? i = some i
  linked : l.Linked none r.waiting none
  chained : l.Chained r.vacant
  served : ∀ i item, r.served i = some item → l.occupancy? i = some (.served item)
  used : ∀ i < r.made, i ∈ r.waiting ∨ i ∈ r.vacant ∨ (r.served i).isSome ∨ loose = some i
  unused : ∀ i, loose = some i →
    i < r.made ∧ i ∉ r.waiting ∧ i ∉ r.vacant ∧ r.served i = none
  waiting_nodup : r.waiting.Nodup
  vacant_nodup : r.vacant.Nodup
  front : l.front = r.waiting.head?
  back : l.back = r.waiting.getLast?
  vacancy : l.vacancy = r.vacant.head?
  size : l.size = r.waiting.length

theorem layout_empty : (empty : Line α).Layout Roster.empty none where
  made := rfl
  bell i hi := absurd hi (Nat.not_lt_zero i)
  linked := trivial
  chained := trivial
  served i item h := by cases h
  used i hi := absurd hi (Nat.not_lt_zero i)
  unused i h := by cases h
  waiting_nodup := List.nodup_nil
  vacant_nodup := List.nodup_nil
  front := rfl
  back := rfl
  vacancy := rfl
  size := rfl

namespace Layout

theorem isEmpty_eq (h : l.Layout r loose) : l.isEmpty = r.waiting.isEmpty := by
  cases hw : r.waiting <;> simp [isEmpty, h.size, hw]

theorem not_vacant_of_waiting (h : l.Layout r loose) (hi : i ∈ r.waiting) : i ∉ r.vacant := by
  intro hvacant
  obtain ⟨a, b, hwaiting⟩ := h.linked.occupancy_of_mem hi
  obtain ⟨next, hnext⟩ := h.chained.occupancy_of_mem hvacant
  simp [hwaiting] at hnext

theorem served_of_waiting (h : l.Layout r loose) (hi : i ∈ r.waiting) : r.served i = none := by
  obtain ⟨a, b, hwaiting⟩ := h.linked.occupancy_of_mem hi
  cases hserved : r.served i with
  | none => rfl
  | some item =>
      have := h.served i item hserved
      simp [hwaiting] at this

theorem served_of_vacant (h : l.Layout r loose) (hi : i ∈ r.vacant) : r.served i = none := by
  obtain ⟨next, hnext⟩ := h.chained.occupancy_of_mem hi
  cases hserved : r.served i with
  | none => rfl
  | some item =>
      have := h.served i item hserved
      simp [hnext] at this

theorem waiting_lt (h : l.Layout r loose) (hi : i ∈ r.waiting) : i < r.made := by
  obtain ⟨a, b, hwaiting⟩ := h.linked.occupancy_of_mem hi
  exact h.made ▸ lt_size_of_occupancy? hwaiting

theorem vacant_lt (h : l.Layout r loose) (hi : i ∈ r.vacant) : i < r.made := by
  obtain ⟨next, hnext⟩ := h.chained.occupancy_of_mem hi
  exact h.made ▸ lt_size_of_occupancy? hnext

theorem served_lt (h : l.Layout r loose) (hi : r.served i = some item) : i < r.made :=
  h.made ▸ lt_size_of_occupancy? (h.served i item hi)

theorem inUse_iff (h : l.Layout r none) :
    l.inUse i = true ↔ i ∈ r.waiting ∨ (r.served i).isSome := by
  constructor
  · intro hi
    unfold inUse at hi
    cases hoccupancy : l.occupancy? i with
    | none => simp [hoccupancy] at hi
    | some o =>
        rcases h.used i (h.made ▸ lt_size_of_occupancy? hoccupancy) with hw | hv | hs | hl
        · exact .inl hw
        · obtain ⟨next, hvacant⟩ := h.chained.occupancy_of_mem hv
          simp [hvacant] at hi
        · exact .inr hs
        · cases hl
  · rintro (hw | hs)
    · obtain ⟨ahead, behind, hwaiting⟩ := h.linked.occupancy_of_mem hw
      simp [inUse, hwaiting]
    · obtain ⟨item, hitem⟩ := Option.isSome_iff_exists.mp hs
      simp [inUse, h.served i item hitem]

theorem lt_of_inUse (h : l.Layout r none)
    (hi : l.inUse i = true) : i < r.made := by
  rcases h.inUse_iff.mp hi with hw | hs
  · exact h.waiting_lt hw
  · obtain ⟨item, hitem⟩ := Option.isSome_iff_exists.mp hs
    exact h.served_lt hitem

theorem servedItems_eq_nil (h : l.Layout r none) (hserved : ∀ i, r.served i = none) :
    l.servedItems = [] := by
  refine List.filterMap_eq_nil_iff.mpr fun slot hslot => ?_
  obtain ⟨i, hi, rfl⟩ := List.getElem_of_mem hslot
  have hlt : i < l.slots.size := by simpa using hi
  have hoccupancy : l.occupancy? i = some (l.slots.toList[i].occupancy) := by
    simp [occupancy?, hlt]
  rcases h.used i (h.made ▸ hlt) with hw | hv | hs | hl
  · obtain ⟨a, b, hwaiting⟩ := h.linked.occupancy_of_mem hw
    rw [hoccupancy, Option.some.injEq] at hwaiting
    rw [hwaiting]
    rfl
  · obtain ⟨next, hvacant⟩ := h.chained.occupancy_of_mem hv
    rw [hoccupancy, Option.some.injEq] at hvacant
    rw [hvacant]
    rfl
  · simp [hserved i] at hs
  · cases hl

theorem handOut (h : l.Layout r none) (hi : r.served i = some item) :
    l.Layout (r.handOut i) (some i) where
  made := h.made
  bell := h.bell
  linked := h.linked
  chained := h.chained
  served j item' hj := by
    by_cases hij : j = i
    · simp [Roster.handOut, hij] at hj
    · exact h.served j item' (by simpa [Roster.handOut, hij] using hj)
  used j hj := by
    by_cases hij : j = i
    · simp [hij]
    · simpa [Roster.handOut, hij, Ne.symm hij] using h.used j hj
  unused j hj := by
    obtain rfl : i = j := by simpa using hj
    refine ⟨h.served_lt hi, ?_, ?_, by simp [Roster.handOut]⟩
    · exact fun hmem => by simp [h.served_of_waiting hmem] at hi
    · exact fun hmem => by simp [h.served_of_vacant hmem] at hi
  waiting_nodup := h.waiting_nodup
  vacant_nodup := h.vacant_nodup
  front := h.front
  back := h.back
  vacancy := h.vacancy
  size := h.size

theorem release (h : l.Layout r (some i)) : (l.release i).Layout (r.release i) none := by
  obtain ⟨hlt, hwaiting, hvacant, hserved⟩ := h.unused i rfl
  have hsame := sameBut_occupy l i (.vacant l.vacancy)
  have hother : ∀ j, j ≠ i → (l.release i).occupancy? j = l.occupancy? j :=
    fun j hj => hsame.occupancy j (by simpa using hj)
  refine
    { made := hsame.size.trans h.made
      bell := fun j hj => (hsame.bell j).trans (h.bell j hj)
      linked := h.linked.congr fun j hj => hother j (ne_of_mem_of_not_mem hj hwaiting)
      chained := ⟨?_, h.chained.congr fun j hj => hother j (ne_of_mem_of_not_mem hj hvacant)⟩
      served := fun j item hj => ?_
      used := fun j hj => ?_
      unused := fun j hj => by cases hj
      waiting_nodup := h.waiting_nodup
      vacant_nodup := List.nodup_cons.mpr ⟨hvacant, h.vacant_nodup⟩
      front := h.front
      back := h.back
      vacancy := rfl
      size := h.size }
  · rw [← h.vacancy]
    exact occupancy?_occupy_self _ (h.made ▸ hlt)
  · have hji : j ≠ i := by
      rintro rfl
      have : r.served j = some item := hj
      simp [hserved] at this
    exact (hother j hji).trans (h.served j item hj)
  · rcases h.used j hj with hj | hj | hj | hj
    · exact .inl hj
    · exact .inr (.inl (by simp [Roster.release, hj]))
    · exact .inr (.inr (.inl hj))
    · exact .inr (.inl (by simpa [Roster.release] using Or.inl (Option.some.inj hj).symm))

theorem give (h : l.Layout r (some i)) (item : α) :
    (l.occupy i (.served item)).Layout (r.give i item) none := by
  obtain ⟨hlt, hwaiting, hvacant, hserved⟩ := h.unused i rfl
  have hsame := sameBut_occupy l i (.served item)
  have hother : ∀ j, j ≠ i → (l.occupy i (.served item)).occupancy? j = l.occupancy? j :=
    fun j hj => hsame.occupancy j (by simpa using hj)
  refine
    { made := hsame.size.trans h.made
      bell := fun j hj => (hsame.bell j).trans (h.bell j hj)
      linked := h.linked.congr fun j hj => hother j (ne_of_mem_of_not_mem hj hwaiting)
      chained := h.chained.congr fun j hj => hother j (ne_of_mem_of_not_mem hj hvacant)
      served := fun j item' hj => ?_
      used := fun j hj => ?_
      unused := fun j hj => by cases hj
      waiting_nodup := h.waiting_nodup
      vacant_nodup := h.vacant_nodup
      front := h.front
      back := h.back
      vacancy := h.vacancy
      size := h.size }
  · by_cases hji : j = i
    · obtain rfl : item = item' := by simpa [Roster.give, hji] using hj
      rw [hji]
      exact occupancy?_occupy_self _ (h.made ▸ hlt)
    · exact (hother j hji).trans (h.served j item' (by simpa [Roster.give, hji] using hj))
  · by_cases hji : j = i
    · simp [Roster.give, hji]
    · simpa [Roster.give, hji, Ne.symm hji] using h.used j hj

end Layout

end Line

end FairQueue
