import FairQueue.Line.Basic

/-!
The chains that run through the slots of a line: waiting slots linked in both directions, vacant
ones in one. A chain survives every change to a slot that is not on it, and the two ends of a
stretch of waiting slots can be given new neighbours.
-/

namespace FairQueue.Line

variable {α : Type} {l l' l'' : Line α} {i : Nat} {is js : List Nat} {ahead behind : Option Nat}

def occupancy? (l : Line α) (i : Nat) : Option (Occupancy α) :=
  l.slots[i]?.map (·.occupancy)

def bell? (l : Line α) (i : Nat) : Option Nat :=
  l.slots[i]?.map (·.bell)

/-- The slots `is` wait in this order, the first one behind `ahead` and the last one ahead of
`behind`. -/
def Linked (l : Line α) : Option Nat → List Nat → Option Nat → Prop
  | _, [], _ => True
  | ahead, i :: is, behind =>
      l.occupancy? i = some (.waiting ahead (is.head?.or behind)) ∧ l.Linked (some i) is behind

/-- The slots `is` are vacant and each is followed by the next one, the last by none. -/
def Chained (l : Line α) : List Nat → Prop
  | [] => True
  | i :: is => l.occupancy? i = some (.vacant is.head?) ∧ l.Chained is

/-- The two lines have the same slots with the same bells, used alike outside of `touched`. -/
structure SameBut (l l' : Line α) (touched : List Nat) : Prop where
  size : l'.slots.size = l.slots.size
  bell : ∀ i, l'.bell? i = l.bell? i
  occupancy : ∀ i ∉ touched, l'.occupancy? i = l.occupancy? i

theorem SameBut.trans (h : l.SameBut l' is) (h' : l'.SameBut l'' js) :
    l.SameBut l'' (is ++ js) where
  size := h'.size.trans h.size
  bell i := (h'.bell i).trans (h.bell i)
  occupancy i hi := by
    simp only [List.mem_append, not_or] at hi
    exact (h'.occupancy i hi.2).trans (h.occupancy i hi.1)

theorem lt_size_iff : i < l.slots.size ↔ (l.occupancy? i).isSome := by
  simp [occupancy?]

theorem lt_size_of_occupancy? {o : Occupancy α} (h : l.occupancy? i = some o) :
    i < l.slots.size := by
  simp [lt_size_iff, h]

theorem slot_of_occupancy? {o : Occupancy α} (h : l.occupancy? i = some o) :
    ∃ slot, l.slot i = .ok slot ∧ slot.occupancy = o ∧ l.bell? i = some slot.bell := by
  obtain ⟨slot, hslot, rfl⟩ := Option.map_eq_some_iff.mp h
  exact ⟨slot, slot_eq_ok_iff.mpr hslot, rfl, by simp [bell?, hslot]⟩

theorem occupancy?_occupy (l : Line α) (i j : Nat) (o : Occupancy α) :
    (l.occupy i o).occupancy? j =
      if i = j then (l.occupancy? j).map fun _ => o else l.occupancy? j := by
  simp only [occupancy?, getElem?_slots_occupy]
  split <;> simp [Option.map_map, Function.comp_def]

theorem occupancy?_occupy_self (o : Occupancy α) (hi : i < l.slots.size) :
    (l.occupy i o).occupancy? i = some o := by
  obtain ⟨old, hold⟩ := Option.isSome_iff_exists.mp (lt_size_iff.mp hi)
  simp [occupancy?_occupy, hold]

theorem sameBut_occupy (l : Line α) (i : Nat) (o : Occupancy α) :
    l.SameBut (l.occupy i o) [i] where
  size := size_slots_occupy l i o
  bell j := by
    simp only [bell?, getElem?_slots_occupy]
    split <;> simp [Option.map_map, Function.comp_def]
  occupancy j hj := by
    have hij : i ≠ j := fun h => hj (by simp [h])
    simp [occupancy?_occupy, hij]

theorem Linked.congr (h : l.Linked ahead is behind)
    (hsame : ∀ i ∈ is, l'.occupancy? i = l.occupancy? i) : l'.Linked ahead is behind := by
  induction is generalizing ahead with
  | nil => trivial
  | cons i is ih =>
      refine ⟨(hsame i (by simp)).trans h.1, ih h.2 ?_⟩
      exact fun j hj => hsame j (by simp [hj])

theorem Chained.congr (h : l.Chained is)
    (hsame : ∀ i ∈ is, l'.occupancy? i = l.occupancy? i) : l'.Chained is := by
  induction is with
  | nil => trivial
  | cons i is ih =>
      refine ⟨(hsame i (by simp)).trans h.1, ih h.2 ?_⟩
      exact fun j hj => hsame j (by simp [hj])

theorem linked_append :
    l.Linked ahead (is ++ js) behind ↔
      l.Linked ahead is (js.head?.or behind) ∧ l.Linked (is.getLast?.or ahead) js behind := by
  induction is generalizing ahead with
  | nil => simp [Linked]
  | cons i is ih =>
      have hlast : (i :: is).getLast?.or ahead = is.getLast?.or (some i) := by
        cases hlast : is.getLast? <;> simp [List.getLast?_cons, hlast]
      simp only [List.cons_append, Linked, ih, List.head?_append, Option.or_assoc, hlast, and_assoc]

theorem Linked.occupancy_of_mem (h : l.Linked ahead is behind) (hi : i ∈ is) :
    ∃ a b, l.occupancy? i = some (.waiting a b) := by
  induction is generalizing ahead with
  | nil => simp at hi
  | cons j is ih =>
      rcases List.mem_cons.mp hi with rfl | hi
      · exact ⟨_, _, h.1⟩
      · exact ih h.2 hi

theorem Chained.occupancy_of_mem (h : l.Chained is) (hi : i ∈ is) :
    ∃ next, l.occupancy? i = some (.vacant next) := by
  induction is with
  | nil => simp at hi
  | cons j is ih =>
      rcases List.mem_cons.mp hi with rfl | hi
      · exact ⟨_, h.1⟩
      · exact ih h.2 hi

theorem setBehind_of_waiting {b : Option Nat} (h : l.occupancy? i = some (.waiting ahead b))
    (behind : Option Nat) : l.setBehind i behind = .ok (l.occupy i (.waiting ahead behind)) := by
  obtain ⟨slot, hslot, hoccupancy, -⟩ := slot_of_occupancy? h
  simp [setBehind, hslot, hoccupancy, bind, Except.bind, pure, Except.pure]

theorem setAhead_of_waiting {a : Option Nat} (h : l.occupancy? i = some (.waiting a behind))
    (ahead : Option Nat) : l.setAhead i ahead = .ok (l.occupy i (.waiting ahead behind)) := by
  obtain ⟨slot, hslot, hoccupancy, -⟩ := slot_of_occupancy? h
  simp [setAhead, hslot, hoccupancy, bind, Except.bind, pure, Except.pure]

/-- Puts `behind` behind the slot `last`, or at the front if there is none. -/
def follow (l : Line α) (last behind : Option Nat) : Except Fault (Line α) :=
  match last with
  | some j => l.setBehind j behind
  | none => pure { l with front := behind }

/-- Puts `ahead` ahead of the slot `first`, or at the back if there is none. -/
def lead (l : Line α) (first ahead : Option Nat) : Except Fault (Line α) :=
  match first with
  | some j => l.setAhead j ahead
  | none => pure { l with back := ahead }

theorem join_eq (l : Line α) :
    l.join = (do
      let (i, l) ← l.acquire
      let l' ← (l.occupy i (.waiting l.back none)).follow l.back (some i)
      let slot ← l'.slot i
      let l' := { l' with back := some i, size := l'.size + 1 }
      return ({ slot := i, bell := slot.bell }, l')) := by
  unfold join
  cases l.acquire with
  | error fault => rfl
  | ok acquired =>
      obtain ⟨i, l⟩ := acquired
      cases hback : l.back <;> simp [follow, hback, bind, Except.bind]

theorem detach_of_waiting (h : l.occupancy? i = some (.waiting ahead behind)) :
    l.detach i = (do
      let l ← l.follow ahead behind
      let l ← l.lead behind ahead
      if l.size = 0 then
        throw .lineCount
      return { l with size := l.size - 1 }) := by
  obtain ⟨slot, hslot, hoccupancy, -⟩ := slot_of_occupancy? h
  cases ahead <;> cases behind <;>
    simp [detach, follow, lead, hslot, hoccupancy, bind, Except.bind]

/-- A stretch of slots at the front of the line gets a new neighbour behind it. -/
theorem exists_follow {old : Option Nat} (h : l.Linked none is old) (hnodup : is.Nodup)
    (behind : Option Nat) :
    ∃ l', l.follow is.getLast? behind = .ok l' ∧
      l'.Linked none is behind ∧ l.SameBut l' is ∧
      l'.front = (if is = [] then behind else l.front) ∧
      l'.back = l.back ∧ l'.vacancy = l.vacancy ∧ l'.size = l.size := by
  rcases List.eq_nil_or_concat is with rfl | ⟨is, j, rfl⟩
  · exact ⟨{ l with front := behind }, rfl, trivial, ⟨rfl, fun _ => rfl, fun _ _ => rfl⟩,
      rfl, rfl, rfl, rfl⟩
  · rw [List.concat_eq_append] at *
    obtain ⟨his, hj, -⟩ := linked_append.mp h
    have hnot : ∀ i ∈ is, i ∉ [j] := by
      intro i hi hij
      exact (List.nodup_append.mp hnodup).2.2 i hi j (by simp) (by simpa using hij)
    let o : Occupancy α := .waiting (is.getLast?.or none) behind
    have hsame := sameBut_occupy l j o
    refine ⟨l.occupy j o, ?_, ?_, ?_, by simp [occupy], rfl, rfl, rfl⟩
    · simpa [follow, o] using setBehind_of_waiting hj behind
    · refine linked_append.mpr ⟨?_, occupancy?_occupy_self o (lt_size_of_occupancy? hj), trivial⟩
      exact his.congr fun i hi => hsame.occupancy i (hnot i hi)
    · refine ⟨hsame.size, hsame.bell, fun i hi => hsame.occupancy i ?_⟩
      exact fun hij => hi (List.mem_append_right is hij)

theorem exists_lead {old : Option Nat} (h : l.Linked old is none) (hnodup : is.Nodup)
    (ahead : Option Nat) :
    ∃ l', l.lead is.head? ahead = .ok l' ∧
      l'.Linked ahead is none ∧ l.SameBut l' is ∧
      l'.back = (if is = [] then ahead else l.back) ∧
      l'.front = l.front ∧ l'.vacancy = l.vacancy ∧ l'.size = l.size := by
  cases is with
  | nil =>
      exact ⟨{ l with back := ahead }, rfl, trivial, ⟨rfl, fun _ => rfl, fun _ _ => rfl⟩,
        rfl, rfl, rfl, rfl⟩
  | cons j is =>
      obtain ⟨hj, his⟩ := h
      have hnot : ∀ i ∈ is, i ∉ [j] := by
        intro i hi hij
        rw [List.mem_singleton.mp hij] at hi
        exact (List.nodup_cons.mp hnodup).1 hi
      let o : Occupancy α := .waiting ahead (is.head?.or none)
      have hsame := sameBut_occupy l j o
      refine ⟨l.occupy j o, setAhead_of_waiting hj ahead, ?_, ?_, by simp [occupy], rfl, rfl, rfl⟩
      · refine ⟨occupancy?_occupy_self o (lt_size_of_occupancy? hj), ?_⟩
        exact his.congr fun i hi => hsame.occupancy i (hnot i hi)
      · refine ⟨hsame.size, hsame.bell, fun i hi => hsame.occupancy i ?_⟩
        exact fun hij => hi (by simp [List.mem_singleton.mp hij])

end FairQueue.Line
