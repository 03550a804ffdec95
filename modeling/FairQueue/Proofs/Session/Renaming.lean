import FairQueue.Proofs.History.Notices
import FairQueue.Proofs.Line.Demand
import Mathlib.Logic.Equiv.Basic

/-!
Sessions that are alike but for the numbers of their slots. Two sessions that are in the state of
the same hand-off queue are, and no run tells them apart but by these numbers.
-/

namespace FairQueue

variable {α : Type}

def Occupancy.renamed (σ : Nat → Nat) : Occupancy α → Occupancy α
  | vacant next => vacant (next.map σ)
  | waiting ahead behind => waiting (ahead.map σ) (behind.map σ)
  | served item => served item

namespace Seat

def renamed (σ : Nat → Nat) (x : Seat) : Seat :=
  (x.1, { x.2 with place := { slot := σ x.2.place.slot, bell := σ x.2.place.bell } })

@[simp] theorem slot_renamed (σ : Nat → Nat) (x : Seat) : (x.renamed σ).slot = σ x.slot := rfl

/-- Seats are told apart by their waiters and by their slots, since everybody sleeps on the bell of
its own slot. -/
theorem map_renamed_eq {σ : Nat → Nat} {xs ys : List Seat} (hxs : ∀ x ∈ xs, x.2.place.bell = x.slot)
    (hys : ∀ y ∈ ys, y.2.place.bell = y.slot) (hwaiters : ys.map waiter = xs.map waiter)
    (hslots : ys.map slot = (xs.map slot).map σ) : ys = xs.map (renamed σ) := by
  induction xs generalizing ys with
  | nil => exact List.map_eq_nil_iff.mp hwaiters
  | cons x xs ih =>
      cases ys with
      | nil => cases hwaiters
      | cons y ys =>
          simp only [List.map_cons, List.cons.injEq] at hwaiters hslots
          simp only [List.forall_mem_cons] at hxs hys
          rw [List.map_cons, ← ih hxs.2 hys.2 hwaiters.2 hslots.2]
          obtain ⟨c, ⟨i, bell⟩, patience⟩ := x
          obtain ⟨c', ⟨i', bell'⟩, patience'⟩ := y
          simp only [waiter, slot, Waiter.mk.injEq] at hwaiters hslots hxs hys
          simp [renamed, hwaiters.1, hslots.1, hxs.1, hys.1]

end Seat

namespace Line

variable {l l' : Line α} {r r' : Roster α} {σ : Equiv.Perm Nat} {i : Nat} {is : List Nat}
  {ahead behind : Option Nat}

/-- The slots that nobody holds are vacant, and stacked so, the one on top first. -/
structure Stacks (l : Line α) (is : List Nat) : Prop where
  vacancy : l.vacancy = is.head?
  chained : l.Chained is
  nodup : is.Nodup
  mem_iff : ∀ i, i ∈ is ↔ i < l.slots.size ∧ l.inUse i = false

/-- The same slots are used in the same way under other numbers, and the others are vacant, in
whatever order they are stacked. If one line has more slots than the other, it has as many more
vacant ones: they stand for those that the other is still to make. -/
structure Renamed (σ : Equiv.Perm Nat) (l l' : Line α) : Prop where
  inUse : ∀ i, l'.inUse (σ i) = l.inUse i
  occupancy : ∀ i, l.inUse i = true → l'.occupancy? (σ i) = (l.occupancy? i).map (·.renamed σ)
  vacant : ∃ is is', l.Stacks is ∧ l'.Stacks is' ∧
    ((is ++ List.range' l.slots.size (l'.slots.size - l.slots.size)).map σ).Perm
      (is' ++ List.range' l'.slots.size (l.slots.size - l'.slots.size))
  bell : ∀ i bell, l.bell? i = some bell → σ i < l'.slots.size → l'.bell? (σ i) = some (σ bell)
  front : l'.front = l.front.map σ
  back : l'.back = l.back.map σ
  size : l'.size = l.size
  beyond : ∀ i, l.slots.size ≤ i → l'.slots.size ≤ i → σ i = i

theorem Layout.stacks (h : l.Layout r none) : l.Stacks r.vacant where
  vacancy := h.vacancy
  chained := h.chained
  nodup := h.vacant_nodup
  mem_iff i := by
    rw [h.made]
    constructor
    · intro hi
      exact ⟨h.vacant_lt hi, (h.inUse_eq_false_iff (h.vacant_lt hi)).mpr hi⟩
    · rintro ⟨hlt, hunused⟩
      exact (h.inUse_eq_false_iff hlt).mp hunused

/-- With the slots still to be made, those that nobody holds are all the slots that are free. -/
theorem Stacks.mem_append_iff (h : l.Stacks is) (made : Nat) :
    i ∈ is ++ List.range' l.slots.size (made - l.slots.size) ↔
      i < max l.slots.size made ∧ l.inUse i = false := by
  have hbeyond : l.slots.size ≤ i → l.inUse i = false := by
    intro hle
    have hnone : l.occupancy? i = none := by
      simpa [occupancy?] using hle
    simp [inUse, hnone]
  rw [List.mem_append, h.mem_iff, List.mem_range'_1]
  constructor
  · rintro (⟨hlt, hunused⟩ | ⟨hle, hlt⟩)
    · exact ⟨by omega, hunused⟩
    · exact ⟨by omega, hbeyond hle⟩
  · rintro ⟨hlt, hunused⟩
    by_cases hi : i < l.slots.size
    · exact .inl ⟨hi, hunused⟩
    · exact .inr ⟨by omega, by omega⟩

theorem Linked.renamed (h : l.Linked ahead is behind)
    (h' : l'.Linked (ahead.map σ) (is.map σ) (behind.map σ)) (hi : i ∈ is) :
    l'.occupancy? (σ i) = (l.occupancy? i).map (·.renamed σ) := by
  induction is generalizing ahead with
  | nil => cases hi
  | cons j is ih =>
      obtain ⟨hj, hrest⟩ := h
      obtain ⟨hj', hrest'⟩ := h'
      rcases List.mem_cons.mp hi with rfl | hi
      · rw [hj, hj']
        cases is <;> simp [Occupancy.renamed]
      · exact ih hrest hrest' hi

theorem Stacks.nodup_append (h : l.Stacks is) (count : Nat) :
    (is ++ List.range' l.slots.size count).Nodup := by
  refine List.nodup_append.mpr ⟨h.nodup, List.nodup_range', fun i hi j hj => ?_⟩
  have hlt := ((h.mem_iff i).mp hi).1
  have hle := (List.mem_range'_1.mp hj).1
  omega

/-- A renaming that fixes whatever lies beyond both lines renames the slots that nobody holds. -/
theorem Stacks.perm {is' : List Nat} (h : l.Stacks is) (h' : l'.Stacks is')
    (hinUse : ∀ i, l'.inUse (σ i) = l.inUse i)
    (hbeyond : ∀ i, l.slots.size ≤ i → l'.slots.size ≤ i → σ i = i) :
    ((is ++ List.range' l.slots.size (l'.slots.size - l.slots.size)).map σ).Perm
      (is' ++ List.range' l'.slots.size (l.slots.size - l'.slots.size)) := by
  have hfixed : ∀ i, max l.slots.size l'.slots.size ≤ i → σ i = i := fun i hi =>
    hbeyond i (Nat.le_trans (Nat.le_max_left _ _) hi) (Nat.le_trans (Nat.le_max_right _ _) hi)
  have hmade : ∀ i, σ i < max l.slots.size l'.slots.size ↔ i < max l.slots.size l'.slots.size := by
    intro i
    constructor
    · intro hlt
      by_contra hi
      exact hi (hfixed i (Nat.le_of_not_lt hi) ▸ hlt)
    · intro hlt
      by_contra hi
      exact hi ((σ.injective (hfixed (σ i) (Nat.le_of_not_lt hi))).symm ▸ hlt)
  refine (List.perm_ext_iff_of_nodup ((h.nodup_append _).map σ.injective)
    (h'.nodup_append _)).mpr fun j => ?_
  obtain ⟨i, rfl⟩ := σ.surjective j
  rw [List.mem_map_of_injective σ.injective, h.mem_append_iff, h'.mem_append_iff, hinUse,
    Nat.max_comm l'.slots.size, hmade]

theorem Layout.renamed (h : l.Layout r none) (h' : l'.Layout r' none)
    (hwaiting : r'.waiting = r.waiting.map σ) (hserved : ∀ i, r'.served (σ i) = r.served i)
    (hbeyond : ∀ i, l.slots.size ≤ i → l'.slots.size ≤ i → σ i = i) : l.Renamed σ l' := by
  have hinUse : ∀ i, l'.inUse (σ i) = l.inUse i := by
    intro i
    rw [Bool.eq_iff_iff, h.inUse_iff, h'.inUse_iff, hwaiting, hserved,
      List.mem_map_of_injective σ.injective]
  refine
    { inUse := hinUse
      occupancy := fun i hi => ?_
      vacant := ⟨_, _, h.stacks, h'.stacks, h.stacks.perm h'.stacks hinUse hbeyond⟩
      bell := fun i bell hbell hi => ?_
      front := by rw [h'.front, h.front, hwaiting, List.head?_map]
      back := by rw [h'.back, h.back, hwaiting, List.getLast?_map]
      size := by rw [h'.size, h.size, hwaiting, List.length_map]
      beyond := hbeyond }
  · rcases h.inUse_iff.mp hi with hw | hs
    · have hlinked' := h'.linked
      rw [hwaiting] at hlinked'
      exact h.linked.renamed hlinked' hw
    · obtain ⟨item, hitem⟩ := Option.isSome_iff_exists.mp hs
      rw [h.served i item hitem, h'.served (σ i) item ((hserved i).trans hitem)]
      rfl
  · rw [h.bell i (h.made ▸ lt_size_of_bell? hbell)] at hbell
    obtain rfl := Option.some.inj hbell
    exact h'.bell _ (h'.made ▸ hi)

end Line

theorem Seated.served_eq_some_iff {q : Queue α} {r : Roster α} {served : List (Seat × α)}
    {waiting : List Seat} {i : Nat} {item : α} (h : Seated q r served waiting) :
    r.served i = some item ↔ ∃ y ∈ served, y.1.slot = i ∧ y.2 = item := by
  constructor
  · intro hi
    obtain ⟨y, hy, rfl⟩ := h.owned i (by simp [hi])
    exact ⟨y, hy, rfl, Option.some.inj ((h.kept y hy).symm.trans hi)⟩
  · rintro ⟨y, hy, rfl, rfl⟩
    exact h.kept y hy

theorem Seated.slot_lt {q : Queue α} {r : Roster α} {served : List (Seat × α)} {waiting : List Seat}
    {x : Seat} (h : Seated q r served waiting) (hx : x ∈ served.map (·.1) ++ waiting) :
    x.slot < q.line.slots.size := by
  rw [h.layout.made]
  rcases List.mem_append.mp hx with hx | hx
  · obtain ⟨y, hy, rfl⟩ := List.mem_map.mp hx
    exact h.layout.served_lt (h.kept y hy)
  · exact h.layout.waiting_lt (h.waiting_eq ▸ List.mem_map_of_mem hx)

namespace Session

variable {s s' : Session α} {h : Handoff α} {steps : List (Step α)}

structure Renamed (σ : Equiv.Perm Nat) (s s' : Session α) : Prop where
  items : s'.queue.items = s.queue.items
  line : s.queue.line.Renamed σ s'.queue.line
  removed : s'.queue.removed = s.queue.removed
  broken : s'.queue.broken = s.queue.broken
  now : s'.now = s.now
  sleepers : s'.sleepers = s.sleepers.map (Seat.renamed σ)
  iterators : s'.iterators = s.iterators

theorem Represents.exists_renamed (hs : s.Represents h) (hs' : s'.Represents h) :
    ∃ σ, s.Renamed σ s' := by
  obtain ⟨r, served, waiting, hseated, hsleepers, rfl⟩ := hs
  obtain ⟨r', served', waiting', hseated', hsleepers', hsame⟩ := hs'
  have hserved : served'.map (fun y => (y.1.waiter, y.2)) =
      served.map fun y => (y.1.waiter, y.2) := (congrArg Handoff.served hsame).symm
  have hlength : served'.length = served.length := by simpa using congrArg List.length hserved
  have hwaiters : s'.sleepers.map Seat.waiter = s.sleepers.map Seat.waiter := by
    rw [hsleepers, hsleepers', ← inside_handoff, ← inside_handoff, hsame]
  obtain ⟨σ, hslots, hbeyond⟩ := exists_perm_map_eq (hsleepers ▸ hseated.slots)
    (hsleepers' ▸ hseated'.slots) (by simpa using (congrArg List.length hwaiters).symm)
  have hrenamed : s'.sleepers = s.sleepers.map (Seat.renamed σ) :=
    Seat.map_renamed_eq (hsleepers ▸ hseated.bell) (hsleepers' ▸ hseated'.bell) hwaiters hslots.symm
  -- both groups of seats are renamed, each on its own
  obtain ⟨hseats, rfl⟩ :
      served'.map (·.1) = (served.map (·.1)).map (Seat.renamed σ) ∧
        waiting' = waiting.map (Seat.renamed σ) := by
    rw [hsleepers, hsleepers', List.map_append] at hrenamed
    exact List.append_inj hrenamed (by simp [hlength])
  have hitems : served'.map (·.2) = served.map (·.2) := by
    have hsecond := congrArg (List.map Prod.snd) hserved
    rwa [List.map_map, List.map_map] at hsecond
  obtain rfl : served' = served.map fun y => (y.1.renamed σ, y.2) := by
    rw [List.zip_of_prod hseats hitems, List.map_map, List.zip_map']
    rfl
  have hline : s.queue.line.Renamed σ s'.queue.line := by
    refine hseated.layout.renamed hseated'.layout ?_ ?_ ?_
    · rw [hseated'.waiting_eq, hseated.waiting_eq, List.map_map, List.map_map]
      rfl
    · intro i
      ext item
      rw [hseated.served_eq_some_iff, hseated'.served_eq_some_iff]
      constructor
      · rintro ⟨y, hy, hslot, rfl⟩
        obtain ⟨z, hz, rfl⟩ := List.mem_map.mp hy
        exact ⟨z, hz, σ.injective hslot, rfl⟩
      · rintro ⟨z, hz, rfl, rfl⟩
        exact ⟨_, List.mem_map_of_mem hz, rfl, rfl⟩
    · intro i hi hi'
      refine hbeyond i ?_ ?_ i (Nat.le_refl i)
      · intro j hj
        obtain ⟨x, hx, rfl⟩ := List.mem_map.mp hj
        exact Nat.lt_of_lt_of_le (hseated.slot_lt (hsleepers ▸ hx)) hi
      · intro j hj
        obtain ⟨x, hx, rfl⟩ := List.mem_map.mp hj
        exact Nat.lt_of_lt_of_le (hseated'.slot_lt (hsleepers' ▸ hx)) hi'
  exact ⟨σ,
    { items := congrArg Handoff.items hsame.symm
      line := hline
      removed := congrArg Handoff.removed hsame.symm
      broken := hseated'.intact.trans hseated.intact.symm
      now := congrArg Handoff.now hsame.symm
      sleepers := hrenamed
      iterators := congrArg Handoff.iterators hsame.symm }⟩

end Session

end FairQueue
