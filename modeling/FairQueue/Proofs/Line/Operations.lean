import FairQueue.Proofs.Line.Roster
import Mathlib.Data.List.Nodup

/-!
What joining, serving, collecting and leaving do to a line that is laid out as a roster. Each of
them takes a slot out of its use, so that it is loose, and puts it to another one.
-/

namespace FairQueue.Line

variable {α : Type} {l : Line α} {r : Roster α} {i : Nat} {is : List Nat} {item : α}
  {loose : Option Nat}

def grow (l : Line α) : Line α :=
  { l with slots := l.slots.push { bell := l.slots.size, occupancy := .vacant none } }

theorem occupancy?_grow (hi : i < l.slots.size) : l.grow.occupancy? i = l.occupancy? i := by
  simp only [grow, occupancy?, Array.getElem?_push_lt hi, Array.getElem?_eq_getElem hi]

theorem bell?_grow (hi : i < l.slots.size) : l.grow.bell? i = l.bell? i := by
  simp only [grow, bell?, Array.getElem?_push_lt hi, Array.getElem?_eq_getElem hi]

namespace Layout

theorem acquire_new (h : l.Layout r none) (hvacant : r.vacant = []) :
    l.acquire = .ok (r.next, l.grow) ∧ l.grow.Layout r.acquire (some r.next) := by
  have hnext : r.next = l.slots.size := by simp [Roster.next, hvacant, h.made]
  have hvacancy : l.vacancy = none := by simp [h.vacancy, hvacant]
  have hmade : r.acquire.made = l.slots.size + 1 := by simp [Roster.acquire, hnext, ← h.made]
  have hcases : ∀ j < r.acquire.made, j < l.slots.size ∨ j = l.slots.size := by
    intro j hj
    rw [hmade] at hj
    exact Nat.lt_succ_iff_lt_or_eq.mp hj
  refine ⟨by simp [Line.acquire, hvacancy, hnext, grow], ?_⟩
  exact
    { made := by simp [hmade, grow]
      bell := fun j hj => by
        rcases hcases j hj with hj | rfl
        · rw [bell?_grow hj]
          exact h.bell j (h.made ▸ hj)
        · simp [grow, bell?]
      linked := h.linked.congr fun j hj => occupancy?_grow (h.made.symm ▸ h.waiting_lt hj)
      chained := by simp [Roster.acquire, hvacant, Chained]
      served := fun j item hj =>
        (occupancy?_grow (h.made.symm ▸ h.served_lt hj)).trans (h.served j item hj)
      used := fun j hj => by
        rcases hcases j hj with hj | rfl
        · rcases h.used j (h.made ▸ hj) with hj | hj | hj | hj
          · exact .inl hj
          · simp [hvacant] at hj
          · exact .inr (.inr (.inl hj))
          · cases hj
        · exact .inr (.inr (.inr (by rw [hnext])))
      unused := fun j hj => by
        obtain rfl : l.slots.size = j := by simpa [hnext] using hj
        refine ⟨by simp [hmade], ?_, by simp [Roster.acquire, hvacant], ?_⟩
        · exact fun hmem => absurd (h.waiting_lt hmem) (by simp [h.made])
        · cases hserved : r.served l.slots.size with
          | none => exact hserved
          | some item => exact absurd (h.served_lt hserved) (by simp [h.made])
      waiting_nodup := h.waiting_nodup
      vacant_nodup := by simp [Roster.acquire, hvacant]
      front := h.front
      back := h.back
      vacancy := by simp [Roster.acquire, hvacant, hvacancy, grow]
      size := h.size }

theorem acquire_vacant (h : l.Layout r none) (hvacant : r.vacant = i :: is) :
    l.acquire = .ok (r.next, { l with vacancy := is.head? }) ∧
      { l with vacancy := is.head? }.Layout r.acquire (some r.next) := by
  have hnext : r.next = i := by simp [Roster.next, hvacant]
  have hvacancy : l.vacancy = some i := by simp [h.vacancy, hvacant]
  have hmem : i ∈ r.vacant := by simp [hvacant]
  have hlt : i < r.made := h.vacant_lt hmem
  have hmade : r.acquire.made = r.made := by
    simp only [Roster.acquire, hnext]
    omega
  obtain ⟨hfirst, hrest⟩ : l.Chained (i :: is) := hvacant ▸ h.chained
  obtain ⟨hnot, hnodup⟩ := List.nodup_cons.mp (hvacant ▸ h.vacant_nodup)
  obtain ⟨slot, hslot, hoccupancy, -⟩ := slot_of_occupancy? hfirst
  have htail : r.acquire.vacant = is := by simp [Roster.acquire, hvacant]
  constructor
  · simp [Line.acquire, hvacancy, hslot, hoccupancy, hnext, bind, Except.bind, pure, Except.pure]
  · exact
      { made := h.made.trans hmade.symm
        bell := fun j hj => h.bell j (hmade ▸ hj)
        linked := h.linked.congr fun _ _ => rfl
        chained := by
          rw [htail]
          exact hrest.congr fun _ _ => rfl
        served := h.served
        used := fun j hj => by
          rw [htail, hnext]
          rcases h.used j (hmade ▸ hj) with hj | hj | hj | hj
          · exact .inl hj
          · rcases List.mem_cons.mp (hvacant ▸ hj) with rfl | hj
            · exact .inr (.inr (.inr rfl))
            · exact .inr (.inl hj)
          · exact .inr (.inr (.inl hj))
          · cases hj
        unused := fun j hj => by
          obtain rfl : i = j := by simpa [hnext] using hj
          refine ⟨hmade.symm ▸ hlt, ?_, htail.symm ▸ hnot, h.served_of_vacant hmem⟩
          exact fun hwaiting => h.not_vacant_of_waiting hwaiting hmem
        waiting_nodup := h.waiting_nodup
        vacant_nodup := htail.symm ▸ hnodup
        front := h.front
        back := h.back
        vacancy := by rw [htail]
        size := h.size }

theorem exists_acquire (h : l.Layout r none) :
    ∃ l', l.acquire = .ok (r.next, l') ∧ l'.Layout r.acquire (some r.next) := by
  cases hvacant : r.vacant with
  | nil => exact ⟨_, h.acquire_new hvacant⟩
  | cons i is => exact ⟨_, h.acquire_vacant hvacant⟩

/-- A loose slot goes to the end of the line, behind the slot that was last until then. -/
theorem exists_append (h : l.Layout r (some i)) :
    ∃ l', (l.occupy i (.waiting l.back none)).follow l.back (some i) = .ok l' ∧
      { l' with back := some i, size := l'.size + 1 }.Layout (r.append i) none := by
  obtain ⟨hlt, hwaiting, hvacant, hserved⟩ := h.unused i rfl
  have hsame := sameBut_occupy l i (.waiting l.back none)
  have hself : (l.occupy i (.waiting l.back none)).occupancy? i = some (.waiting l.back none) :=
    occupancy?_occupy_self _ (h.made ▸ hlt)
  have hlinked : (l.occupy i (.waiting l.back none)).Linked none r.waiting none :=
    h.linked.congr fun j hj => hsame.occupancy j (by simpa using ne_of_mem_of_not_mem hj hwaiting)
  -- the slot is written before its neighbour is linked to it, and neither edit touches the other
  obtain ⟨l', hl', hlinked', hsame', hfront, hback, hvacancy, hsize⟩ :=
    exists_follow hlinked h.waiting_nodup (some i)
  have hall := hsame.trans hsame'
  have hother : ∀ j, j ≠ i → j ∉ r.waiting → l'.occupancy? j = l.occupancy? j := by
    intro j hji hj
    exact hall.occupancy j (by simp [hji, hj])
  refine ⟨l', h.back ▸ hl', ?_⟩
  exact
    { made := hall.size.trans h.made
      bell := fun j hj => (hall.bell j).trans (h.bell j hj)
      linked := by
        refine linked_append.mpr ⟨hlinked'.congr fun _ _ => rfl, ?_, trivial⟩
        change l'.occupancy? i = _
        rw [hsame'.occupancy i hwaiting, hself, h.back]
        simp
      chained := h.chained.congr fun j hj => by
        refine hother j (ne_of_mem_of_not_mem hj hvacant) fun hmem => ?_
        exact h.not_vacant_of_waiting hmem hj
      served := fun j item hj => by
        have hji : j ≠ i := by
          rintro rfl
          simp [Roster.append, hserved] at hj
        have hnot : j ∉ r.waiting := by
          intro hmem
          simp [Roster.append, h.served_of_waiting hmem] at hj
        exact (hother j hji hnot).trans (h.served j item hj)
      used := fun j hj => by
        rcases h.used j hj with hj | hj | hj | hj
        · exact .inl (List.mem_append_left _ hj)
        · exact .inr (.inl hj)
        · exact .inr (.inr (.inl hj))
        · exact .inl (by simp [Roster.append, Option.some.inj hj])
      unused := fun j hj => by cases hj
      waiting_nodup := by
        refine List.nodup_append.mpr ⟨h.waiting_nodup, by simp, ?_⟩
        rintro j hj k hk rfl
        exact hwaiting (List.mem_singleton.mp hk ▸ hj)
      vacant_nodup := h.vacant_nodup
      front := by
        refine hfront.trans ?_
        cases hw : r.waiting <;> simp [Roster.append, hw, occupy, h.front]
      back := by simp [Roster.append]
      vacancy := hvacancy.trans h.vacancy
      size := by simp [Roster.append, hsize, occupy, h.size] }

theorem exists_detach (h : l.Layout r none) (hi : i ∈ r.waiting) :
    ∃ l', l.detach i = .ok l' ∧ l'.Layout (r.detach i) (some i) := by
  obtain ⟨xs, ys, hsplit⟩ := List.append_of_mem hi
  have hnodup := h.waiting_nodup
  rw [hsplit, List.nodup_middle, List.nodup_cons] at hnodup
  obtain ⟨hnot, hrest⟩ := hnodup
  simp only [List.mem_append, not_or] at hnot
  obtain ⟨hxs, hys, hdisjoint⟩ := List.nodup_append.mp hrest
  have herase : (r.detach i).waiting = xs ++ ys := by
    simp [Roster.detach, hsplit, List.erase_append_right _ hnot.1]
  obtain ⟨hlinkedXs, hhere, hlinkedYs⟩ := linked_append.mp (hsplit ▸ h.linked)
  simp only [Option.or_none] at hhere
  -- the neighbours are joined one after the other, each in its own part of the line
  obtain ⟨l₁, hl₁, hlinked₁, hsame₁, hfront₁, hback₁, hvacancy₁, hsize₁⟩ :=
    exists_follow hlinkedXs hxs ys.head?
  have hlinkedYs₁ : l₁.Linked (some i) ys none :=
    hlinkedYs.congr fun j hj => hsame₁.occupancy j fun hmem => hdisjoint j hmem j hj rfl
  obtain ⟨l₂, hl₂, hlinked₂, hsame₂, hback₂, hfront₂, hvacancy₂, hsize₂⟩ :=
    exists_lead hlinkedYs₁ hys xs.getLast?
  have hlinkedXs₂ : l₂.Linked none xs ys.head? :=
    hlinked₁.congr fun j hj => hsame₂.occupancy j fun hmem => hdisjoint j hj j hmem rfl
  have hall := hsame₁.trans hsame₂
  have hcount : l₂.size = xs.length + ys.length + 1 := by
    simp [hsize₂, hsize₁, h.size, hsplit]
    omega
  refine ⟨{ l₂ with size := l₂.size - 1 }, ?_, ?_⟩
  · simp [detach_of_waiting hhere, hl₁, hl₂, hcount, bind, Except.bind, pure, Except.pure]
  · have hsub : ∀ j ∈ xs ++ ys, j ∈ r.waiting := by
      intro j hj
      rw [hsplit]
      simp only [List.mem_append, List.mem_cons] at hj ⊢
      exact hj.imp_right .inr
    have hnotVacant : ∀ j ∈ r.vacant, j ∉ xs ++ ys :=
      fun j hj hmem => h.not_vacant_of_waiting (hsub j hmem) hj
    have hnotServed : ∀ j item, r.served j = some item → j ∉ xs ++ ys := by
      intro j item hj hmem
      simp [h.served_of_waiting (hsub j hmem)] at hj
    exact
      { made := hall.size.trans h.made
        bell := fun j hj => (hall.bell j).trans (h.bell j hj)
        linked := by
          rw [herase]
          refine (linked_append.mpr ⟨?_, ?_⟩ : l₂.Linked none (xs ++ ys) none).congr
            fun _ _ => rfl
          · simpa using hlinkedXs₂
          · simpa using hlinked₂
        chained := h.chained.congr fun j hj => hall.occupancy j (hnotVacant j hj)
        served := fun j item hj =>
          (hall.occupancy j (hnotServed j item hj)).trans (h.served j item hj)
        used := fun j hj => by
          rw [herase]
          rcases h.used j hj with hj | hj | hj | hj
          · rw [hsplit] at hj
            simp only [List.mem_append, List.mem_cons] at hj ⊢
            rcases hj with hj | rfl | hj
            · exact .inl (.inl hj)
            · exact .inr (.inr (.inr rfl))
            · exact .inl (.inr hj)
          · exact .inr (.inl hj)
          · exact .inr (.inr (.inl hj))
          · cases hj
        unused := fun j hj => by
          obtain rfl : i = j := by simpa using hj
          exact ⟨h.waiting_lt hi, by simp [herase, hnot], h.not_vacant_of_waiting hi,
            h.served_of_waiting hi⟩
        waiting_nodup := herase.symm ▸ hrest
        vacant_nodup := h.vacant_nodup
        front := by
          rw [herase]
          refine (hfront₂.trans hfront₁).trans ?_
          cases xs <;> simp [h.front, hsplit]
        back := by
          rw [herase]
          refine hback₂.trans ?_
          rw [hback₁, h.back, hsplit]
          cases ys <;> simp [List.getLast?_cons]
        vacancy := (hvacancy₂.trans hvacancy₁).trans h.vacancy
        size := by simp [herase, hcount] }

/-- A slot has its own number as its bell. -/
theorem exists_slot (h : l.Layout r loose) (hi : i < r.made) :
    ∃ slot, l.slot i = .ok slot ∧ slot.bell = i := by
  obtain ⟨o, ho⟩ := Option.isSome_iff_exists.mp (lt_size_iff.mp (h.made ▸ hi))
  obtain ⟨slot, hslot, -, hbell⟩ := slot_of_occupancy? ho
  refine ⟨slot, hslot, ?_⟩
  rw [h.bell i hi] at hbell
  exact (Option.some.inj hbell).symm

theorem exists_join (h : l.Layout r none) :
    ∃ l', l.join = .ok ({ slot := r.next, bell := r.next }, l') ∧ l'.Layout r.join none := by
  obtain ⟨l₁, hacquire, hloose⟩ := h.exists_acquire
  obtain ⟨l₂, hfollow, hlayout⟩ := hloose.exists_append
  have hlt : r.next < r.join.made := (hloose.unused _ rfl).1
  obtain ⟨slot, hslot, hbell⟩ := hlayout.exists_slot hlt
  replace hslot : l₂.slot r.next = .ok slot := hslot
  refine ⟨_, ?_, hlayout⟩
  simp [join_eq, hacquire, hfollow, hslot, hbell, bind, Except.bind, pure, Except.pure]

theorem serve_nobody (h : l.Layout r none) (hwaiting : r.waiting = []) (item : α) :
    l.serve item = .ok (none, l) := by
  simp [Line.serve, h.front, hwaiting]

theorem exists_serve (h : l.Layout r none) (hwaiting : r.waiting = i :: is) (item : α) :
    ∃ l', l.serve item = .ok (some { slot := i, bell := i }, l') ∧
      l'.Layout (r.serve i item) none := by
  have hi : i ∈ r.waiting := by simp [hwaiting]
  obtain ⟨l₁, hdetach, hloose⟩ := h.exists_detach hi
  obtain ⟨slot, hslot, hbell⟩ := hloose.exists_slot (hloose.unused i rfl).1
  refine ⟨l₁.occupy i (.served item), ?_, hloose.give item⟩
  simp [Line.serve, h.front, hwaiting, hdetach, hslot, hbell, bind, Except.bind, pure, Except.pure]

theorem collect_waiting (h : l.Layout r none) (hi : i ∈ r.waiting) :
    l.collect i = .ok (none, l) := by
  obtain ⟨a, b, hoccupancy⟩ := h.linked.occupancy_of_mem hi
  obtain ⟨slot, hslot, hused, -⟩ := slot_of_occupancy? hoccupancy
  simp [Line.collect, hslot, hused, bind, Except.bind, pure, Except.pure]

theorem collect_served (h : l.Layout r none) (hi : r.served i = some item) :
    l.collect i = .ok (some item, l.release i) ∧ (l.release i).Layout (r.collect i) none := by
  obtain ⟨slot, hslot, hused, -⟩ := slot_of_occupancy? (h.served i item hi)
  refine ⟨?_, (h.handOut hi).release⟩
  simp [Line.collect, hslot, hused, bind, Except.bind, pure, Except.pure]

theorem exists_leave (h : l.Layout r none) (hi : i ∈ r.waiting) :
    ∃ l', l.leave i = .ok (none, l') ∧ l'.Layout (r.leave i) none := by
  obtain ⟨a, b, hoccupancy⟩ := h.linked.occupancy_of_mem hi
  obtain ⟨slot, hslot, hused, -⟩ := slot_of_occupancy? hoccupancy
  obtain ⟨l₁, hdetach, hloose⟩ := h.exists_detach hi
  refine ⟨l₁.release i, ?_, hloose.release⟩
  simp [Line.leave, hslot, hused, hdetach, bind, Except.bind, pure, Except.pure]

end Layout

end FairQueue.Line
