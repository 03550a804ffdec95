import FairQueue.Proofs.Line.Misuse
import Mathlib.Data.List.MinMax
import Mathlib.Order.Nat

/-!
How many slots are made. A newcomer takes the slot that was released last among the vacant ones, and
a slot is made only when none is vacant; so there are as many slots as were ever in use at once.
-/

namespace FairQueue

namespace Roster

variable {α : Type} {r r' : Roster α} {recent : List Nat} {i : Nat}

/-- Of the slots released so far, the one released last first, and of those vacant at the top of the
stack or from any point below it, the first one found is the one on top. -/
def Recalls (r : Roster α) (recent : List Nat) : Prop :=
  ∀ is, is <:+ r.vacant → recent.find? (· ∈ is) = is.head?

theorem recalls_empty : (empty : Roster α).Recalls [] := by
  intro is his
  rw [List.eq_nil_of_suffix_nil his]
  rfl

/-- The stack itself tells in which order its slots were released. -/
theorem recalls_vacant (hnodup : r.vacant.Nodup) : r.Recalls r.vacant := by
  rintro is ⟨above, hsplit⟩
  rw [← hsplit] at hnodup ⊢
  have habove : above.find? (· ∈ is) = none := by
    refine List.find?_eq_none.mpr fun i hi his => ?_
    exact (List.nodup_append.mp hnodup).2.2 i hi i (by simpa using his) rfl
  rw [List.find?_append, habove, Option.none_or]
  cases is <;> simp

theorem Recalls.tail (h : r.Recalls recent) (hvacant : r'.vacant = r.vacant.tail) :
    r'.Recalls recent := by
  intro is his
  rw [hvacant] at his
  exact h is (his.trans (List.tail_suffix _))

theorem Recalls.push (h : r.Recalls recent) (hi : i ∉ r.vacant)
    (hvacant : r'.vacant = i :: r.vacant) : r'.Recalls (i :: recent) := by
  intro is his
  rw [hvacant, List.suffix_cons_iff] at his
  rcases his with rfl | his
  · simp
  · have hnot : i ∉ is := fun hmem => hi (his.subset hmem)
    rw [List.find?_cons_of_neg (by simpa using hnot)]
    exact h is his

end Roster

namespace Line

variable {α : Type} {l l' l₁ l₂ : Line α} {r : Roster α} {i : Nat} {released : Option Nat}
  {passes : Bool} {recent releases counts : List Nat}

/-- How many slots are in use. -/
def demand (l : Line α) : Nat :=
  (List.range l.slots.size).countP l.inUse

def isVacant (l : Line α) (i : Nat) : Bool :=
  l.occupancy? i matches some (.vacant _)

/-- Whether all slots are in use. -/
def isFull (l : Line α) : Bool :=
  (List.range l.slots.size).all l.inUse

theorem isFull_iff : l.isFull = true ↔ l.demand = l.slots.size := by
  have hall := List.countP_eq_length (p := l.inUse) (l := List.range l.slots.size)
  rw [List.length_range] at hall
  rw [isFull, demand, List.all_eq_true, hall]

/-- The same slots are made and the same ones vacant, in the same order. -/
def KeepsVacant (l l' : Line α) : Prop :=
  ∀ r, l.Layout r none → ∃ r', l'.Layout r' none ∧ r'.made = r.made ∧ r'.vacant = r.vacant

/-- What one step does to the line. The slot that it releases, if it does, and whether that slot was
taken and given up in one go. -/
inductive Change (l l' : Line α) : Option Nat → Bool → Prop where
  | keeps (h : l.KeepsVacant l') : Change l l' none false
  | joins {place : Place} (h : l.join = .ok (place, l')) : Change l l' none false
  | passes {place : Place} {l₁ : Line α} (hjoin : l.join = .ok (place, l₁))
      (hleave : l₁.leave place.slot = .ok (none, l')) : Change l l' (some place.slot) true
  | collects {i : Nat} {item : α} (h : l.collect i = .ok (some item, l')) :
      Change l l' (some i) false
  | leaves {i : Nat} (h : l.leave i = .ok (none, l')) : Change l l' (some i) false

/-- Steps one after the other, with the slots that they release and the number of slots in use at
each of them. -/
inductive Course : Line α → List Nat → List Nat → Line α → Prop where
  | nil (l : Line α) : Course l [] [] l
  | cons {l l₁ l₂ : Line α} {released : Option Nat} {passes : Bool} {releases counts : List Nat}
      (h : l.Change l₁ released passes) (hrest : Course l₁ releases counts l₂) :
      Course l (released.toList ++ releases)
        ((l₁.demand + if passes then 1 else 0) :: counts) l₂

theorem KeepsVacant.refl (l : Line α) : l.KeepsVacant l :=
  fun r h => ⟨r, h, rfl, rfl⟩

theorem KeepsVacant.trans (h : l.KeepsVacant l₁) (h' : l₁.KeepsVacant l₂) : l.KeepsVacant l₂ := by
  intro r hlayout
  obtain ⟨r₁, hlayout₁, hmade₁, hvacant₁⟩ := h r hlayout
  obtain ⟨r₂, hlayout₂, hmade₂, hvacant₂⟩ := h' r₁ hlayout₁
  exact ⟨r₂, hlayout₂, hmade₂.trans hmade₁, hvacant₂.trans hvacant₁⟩

theorem KeepsVacant.serve {place : Option Place} {item : α}
    (hserve : l.serve item = .ok (place, l')) : l.KeepsVacant l' := by
  intro r h
  cases hwaiting : r.waiting with
  | nil =>
      rw [h.serve_nobody hwaiting] at hserve
      cases hserve
      exact ⟨r, h, rfl, rfl⟩
  | cons i is =>
      obtain ⟨l₁, hserve₁, hlayout⟩ := h.exists_serve hwaiting item
      rw [hserve₁] at hserve
      cases hserve
      exact ⟨_, hlayout, rfl, rfl⟩

namespace Layout

variable (h : l.Layout r none)

include h

theorem isVacant_iff : l.isVacant i = true ↔ i ∈ r.vacant := by
  constructor
  · intro hi
    unfold isVacant at hi
    cases hoccupancy : l.occupancy? i with
    | none => simp [hoccupancy] at hi
    | some o =>
        refine (h.uses_or_vacant (h.made ▸ lt_size_of_occupancy? hoccupancy)).resolve_left ?_
        rintro (hwaiting | hserved)
        · obtain ⟨ahead, behind, hused⟩ := h.linked.occupancy_of_mem hwaiting
          simp [hused] at hi
        · obtain ⟨item, hitem⟩ := Option.isSome_iff_exists.mp hserved
          simp [h.served i item hitem] at hi
  · intro hi
    obtain ⟨next, hvacant⟩ := h.chained.occupancy_of_mem hi
    simp [isVacant, hvacant]

theorem isVacant_eq : l.isVacant = fun i => decide (i ∈ r.vacant) := by
  funext i
  rw [Bool.eq_iff_iff, h.isVacant_iff, decide_eq_true_iff]

theorem inUse_eq_false_iff (hi : i < r.made) : l.inUse i = false ↔ i ∈ r.vacant := by
  rw [← Bool.not_eq_true, h.inUse_iff]
  constructor
  · exact (h.uses_or_vacant hi).resolve_left
  · intro hvacant huses
    exact h.not_vacant_of_uses huses hvacant

theorem vacant_eq_nil (hall : ∀ i < l.slots.size, l.inUse i = true) : r.vacant = [] := by
  rw [List.eq_nil_iff_forall_not_mem]
  intro i hi
  have hlt := h.vacant_lt hi
  have hunused := (h.inUse_eq_false_iff hlt).mpr hi
  rw [hall i (h.made ▸ hlt)] at hunused
  cases hunused

/-- Every slot is in use or vacant. -/
theorem demand_add_vacant : l.demand + r.vacant.length = r.made := by
  have hvacant : (List.range r.made).countP (fun i => ¬ l.inUse i) = r.vacant.length := by
    rw [List.countP_eq_length_filter]
    refine List.Perm.length_eq ((List.perm_ext_iff_of_nodup ?_ h.vacant_nodup).mpr fun i => ?_)
    · exact List.nodup_range.filter _
    · simp only [List.mem_filter, List.mem_range, decide_eq_true_eq, Bool.not_eq_true]
      constructor
      · rintro ⟨hi, hunused⟩
        exact (h.inUse_eq_false_iff hi).mp hunused
      · intro hi
        exact ⟨h.vacant_lt hi, (h.inUse_eq_false_iff (h.vacant_lt hi)).mpr hi⟩
  have hall := List.length_eq_countP_add_countP l.inUse (l := List.range r.made)
  rw [List.length_range, hvacant] at hall
  rw [demand, h.made, ← hall]

theorem demand_le : l.demand ≤ r.made :=
  h.demand_add_vacant ▸ Nat.le_add_right _ _

/-- A slot whose item is handed out was served. -/
theorem served_of_collect {item : α} (hcollect : l.collect i = .ok (some item, l')) :
    r.served i = some item := by
  have hperform : l.perform (.collect i) = .ok (.delivered (some item), l') := by
    simp [perform, hcollect, bind, Except.bind, pure, Except.pure]
  rcases h.uses_of_perform hperform i rfl with hwaiting | hserved
  · rw [h.collect_waiting hwaiting] at hcollect
    cases hcollect
  · obtain ⟨kept, hkept⟩ := Option.isSome_iff_exists.mp hserved
    rw [(h.collect_served hkept).1] at hcollect
    cases hcollect
    exact hkept

/-- A slot that is left without an item was waiting. -/
theorem waiting_of_leave (hleave : l.leave i = .ok (none, l')) : i ∈ r.waiting := by
  have hperform : l.perform (.leave i) = .ok (.delivered none, l') := by
    simp [perform, hleave, bind, Except.bind, pure, Except.pure]
  rcases h.uses_of_perform hperform i rfl with hwaiting | hserved
  · exact hwaiting
  · obtain ⟨kept, hkept⟩ := Option.isSome_iff_exists.mp hserved
    rw [h.leave_served hkept, (h.collect_served hkept).1] at hleave
    cases hleave

/-- A slot is made only when none is vacant, and then none is vacant afterwards. -/
theorem made_join : r.made ≤ r.join.made ∧ (r.join.made = r.made ∨ r.join.vacant = []) := by
  refine ⟨Nat.le_max_left _ _, ?_⟩
  cases hvacant : r.vacant with
  | nil => exact .inr (congrArg List.tail hvacant)
  | cons i is =>
      have hi : i < r.made := h.vacant_lt (by simp [hvacant])
      refine .inl (Nat.max_eq_left ?_)
      simpa [Roster.next, hvacant] using Nat.succ_le_of_lt hi

/-- As many slots are made as before or as are in use, `extra` ones counted on top. -/
theorem size_eq_max {r' : Roster α} {extra : Nat} (h' : l'.Layout r' none)
    (hle : r.made ≤ r'.made) (hdemand : l'.demand + extra ≤ r'.made)
    (hnew : r'.made = r.made ∨ r'.made = l'.demand + extra) :
    l'.slots.size = max l.slots.size (l'.demand + extra) := by
  rw [h.made, h'.made]
  omega

end Layout

/-- After a step as many slots are made as before it or as were in use at it, whichever is more, and
the slots vacant are still stacked in the order in which they were released. -/
theorem Change.exists_roster (hchange : l.Change l' released passes) (h : l.Layout r none)
    (hrecalls : r.Recalls recent) :
    ∃ r', l'.Layout r' none ∧ r'.Recalls (released.toList ++ recent) ∧
      l'.slots.size = max l.slots.size (l'.demand + if passes then 1 else 0) := by
  cases hchange with
  | keeps hkeeps =>
      obtain ⟨r', h', hmade, hvacant⟩ := hkeeps r h
      refine ⟨r', h', fun is his => hrecalls is (hvacant ▸ his), ?_⟩
      exact h.size_eq_max h' hmade.ge h'.demand_le (.inl hmade)
  | joins hjoin =>
      obtain ⟨l₁, hjoin₁, h'⟩ := h.exists_join
      rw [hjoin₁] at hjoin
      cases hjoin
      have hall := h'.demand_add_vacant
      obtain ⟨hle, hnew⟩ := h.made_join
      refine ⟨r.join, h', hrecalls.tail rfl, h.size_eq_max h' hle h'.demand_le ?_⟩
      refine hnew.imp_right fun hvacant => ?_
      rw [← hall, hvacant]
      rfl
  | passes hjoin hleave =>
      obtain ⟨l₁, hjoin₁, h₁⟩ := h.exists_join
      rw [hjoin₁] at hjoin
      cases hjoin
      have hnext : r.next ∈ r.join.waiting := List.mem_concat_self
      have hunused := h₁.not_vacant_of_waiting hnext
      obtain ⟨l₂, hleave₂, h₂⟩ := h₁.exists_leave hnext
      rw [hleave₂] at hleave
      cases hleave
      have hall := h₂.demand_add_vacant
      obtain ⟨hle, hnew⟩ := h.made_join
      have hvacant : (r.join.leave r.next).vacant = r.next :: r.join.vacant := rfl
      have hmade : (r.join.leave r.next).made = r.join.made := rfl
      rw [hvacant, hmade, List.length_cons] at hall
      refine ⟨_, h₂, (hrecalls.tail rfl).push hunused hvacant, h.size_eq_max h₂ hle ?_ ?_⟩
      · simp only [if_true]
        omega
      · refine hnew.imp_right fun hnone => ?_
        rw [hnone] at hall
        exact hall.symm
  | @collects i item hcollect =>
      have hserved := h.served_of_collect hcollect
      obtain ⟨hcollect', h'⟩ := h.collect_served hserved
      rw [hcollect'] at hcollect
      cases hcollect
      have hunused : i ∉ r.vacant := fun hmem => by simp [h.served_of_vacant hmem] at hserved
      refine ⟨_, h', hrecalls.push hunused rfl, ?_⟩
      exact h.size_eq_max h' (Nat.le_refl _) h'.demand_le (.inl rfl)
  | leaves hleave =>
      have hwaiting := h.waiting_of_leave hleave
      obtain ⟨l₁, hleave₁, h'⟩ := h.exists_leave hwaiting
      rw [hleave₁] at hleave
      cases hleave
      refine ⟨_, h', hrecalls.push (h.not_vacant_of_waiting hwaiting) rfl, ?_⟩
      exact h.size_eq_max h' (Nat.le_refl _) h'.demand_le (.inl rfl)

namespace Course

/-- The steps of a course leave as many slots as were made before or as were in use at one of them,
whichever is most. -/
theorem exists_roster (hcourse : Course l releases counts l') (h : l.Layout r none)
    (hrecalls : r.Recalls recent) :
    ∃ r', l'.Layout r' none ∧ r'.Recalls (releases.reverse ++ recent) ∧
      l'.slots.size = max l.slots.size (counts.foldr max 0) := by
  induction hcourse generalizing r recent with
  | nil l => exact ⟨r, h, hrecalls, (Nat.max_zero _).symm⟩
  | @cons l l₁ l₂ released passes releases counts hchange hrest ih =>
      obtain ⟨r₁, h₁, hrecalls₁, hsize₁⟩ := hchange.exists_roster h hrecalls
      obtain ⟨r₂, h₂, hrecalls₂, hsize₂⟩ := ih h₁ hrecalls₁
      refine ⟨r₂, h₂, ?_, ?_⟩
      · have hsplit : (released.toList ++ releases).reverse ++ recent =
            releases.reverse ++ (released.toList ++ recent) := by
          cases released <;> simp
        exact hsplit ▸ hrecalls₂
      · rw [hsize₂, hsize₁, List.foldr_cons, Nat.max_assoc]

end Course

/-- How a line deals with its slots, given those released so far, the one released last first, and
the number of slots in use at each step so far. -/
structure Thrifty (l : Line α) (recent counts : List Nat) : Prop where
  /-- As many slots are made as were ever in use at once. -/
  made : l.slots.size = counts.foldr max 0
  /-- If never more than `k` slots were in use at once, then none has the number `k` or more. -/
  lt : ∀ k, (∀ count ∈ counts, count ≤ k) → ∀ i bell, l.bell? i = some bell → i < k
  /-- A newcomer is given a slot that nobody holds and the bell that this slot has. It is a new one
  if all slots are in use, and if not, it is the one that was released last and is still vacant,
  with the bell that it had all along. -/
  join : ∃ place l', l.join = .ok (place, l') ∧ l.inUse place.slot = false ∧
    l'.bell? place.slot = some place.bell ∧
    ((∀ i < l.slots.size, l.inUse i = true) →
      place.slot = l.slots.size ∧ l'.slots.size = l.slots.size + 1) ∧
    ((∃ i < l.slots.size, l.inUse i = false) →
      recent.find? l.isVacant = some place.slot ∧ l.bell? place.slot = some place.bell ∧
        l'.slots.size = l.slots.size)

theorem lt_size_of_bell? {bell : Nat} (hbell : l.bell? i = some bell) : i < l.slots.size := by
  obtain ⟨slot, hslot, -⟩ := Option.map_eq_some_iff.mp hbell
  exact (Array.getElem?_eq_some_iff.mp hslot).1

theorem Course.thrifty (hcourse : Course (empty : Line α) releases counts l) :
    l.Thrifty releases.reverse counts := by
  obtain ⟨r, h, hrecalls, hsize⟩ := hcourse.exists_roster layout_empty Roster.recalls_empty
  rw [List.append_nil] at hrecalls
  have hzero : (empty : Line α).slots.size = 0 := rfl
  rw [hzero, Nat.zero_max] at hsize
  obtain ⟨l', hjoin, h'⟩ := h.exists_join
  obtain ⟨_, -, hloose⟩ := h.exists_acquire
  obtain ⟨hnext, hwaiting, -, hserved⟩ := hloose.unused r.next rfl
  refine ⟨hsize, ?_, _, l', hjoin, ?_, h'.bell _ hnext, ?_, ?_⟩
  · intro k hle i bell hbell
    refine Nat.lt_of_lt_of_le (lt_size_of_bell? hbell) ?_
    rw [hsize]
    exact List.max_le_of_forall_le counts k hle
  · rw [← Bool.not_eq_true, h.inUse_iff]
    rintro (hmem | hkept)
    · exact hwaiting hmem
    · rw [show r.served r.next = none from hserved] at hkept
      cases hkept
  · intro hall
    have hnext : r.next = r.made := by simp [Roster.next, h.vacant_eq_nil hall]
    refine ⟨hnext.trans h.made.symm, ?_⟩
    rw [h'.made, h.made]
    change max r.made (r.next + 1) = r.made + 1
    omega
  · rintro ⟨i, hi, hunused⟩
    have hmem := (h.inUse_eq_false_iff (h.made ▸ hi)).mp hunused
    cases hstack : r.vacant with
    | nil =>
        rw [hstack] at hmem
        cases hmem
    | cons j js =>
        have hnext : r.next = j := by simp [Roster.next, hstack]
        have hlt : r.next < r.made := h.vacant_lt (by simp [hnext, hstack])
        refine ⟨?_, h.bell _ hlt, ?_⟩
        · rw [h.isVacant_eq, hrecalls r.vacant (List.suffix_refl _), hstack, hnext]
          rfl
        · rw [h'.made, h.made]
          exact Nat.max_eq_left hlt

/-- Slots are never removed, and they keep their bells. -/
theorem Course.bell?_kept {releases' counts' : List Nat} {bell : Nat}
    (hbefore : Course (empty : Line α) releases counts l)
    (hafter : Course l releases' counts' l') (hbell : l.bell? i = some bell) :
    l'.bell? i = some bell := by
  obtain ⟨r, h, hrecalls, -⟩ := hbefore.exists_roster layout_empty Roster.recalls_empty
  obtain ⟨r', h', -, hsize⟩ := hafter.exists_roster h hrecalls
  have hi := lt_size_of_bell? hbell
  have hi' : i < r'.made := by
    rw [← h'.made, hsize]
    exact Nat.lt_of_lt_of_le hi (Nat.le_max_left _ _)
  rw [h.bell i (h.made ▸ hi)] at hbell
  rw [h'.bell i hi', hbell]

/-- The number of slots in use after each request. -/
def demands (l : Line α) : List (Request α) → List Nat
  | [] => []
  | request :: requests =>
    match l.perform request with
    | .ok (_, l') => l'.demand :: l'.demands requests
    | .error _ => []

theorem Change.of_perform {request : Request α} {reply : Reply α} (h : l.Layout r none)
    (hperform : l.perform request = .ok (reply, l')) :
    l.Change l' (released? (request, reply)) false := by
  have huses := h.uses_of_perform hperform
  cases request with
  | join =>
      obtain ⟨l₁, hjoin, -⟩ := h.exists_join
      simp only [perform, hjoin, bind, Except.bind, pure, Except.pure] at hperform
      cases hperform
      exact .joins hjoin
  | serve item =>
      cases hwaiting : r.waiting with
      | nil =>
          have hserve := h.serve_nobody hwaiting item
          simp only [perform, hserve, bind, Except.bind, pure, Except.pure] at hperform
          cases hperform
          exact .keeps (.serve hserve)
      | cons i is =>
          obtain ⟨l₁, hserve, -⟩ := h.exists_serve hwaiting item
          simp only [perform, hserve, bind, Except.bind, pure, Except.pure] at hperform
          cases hperform
          exact .keeps (.serve hserve)
  | collect i =>
      rcases huses i rfl with hwaiting | hserved
      · have hcollect := h.collect_waiting hwaiting
        simp only [perform, hcollect, bind, Except.bind, pure, Except.pure] at hperform
        cases hperform
        exact .keeps (.refl l)
      · obtain ⟨item, hitem⟩ := Option.isSome_iff_exists.mp hserved
        have hcollect := (h.collect_served hitem).1
        simp only [perform, hcollect, bind, Except.bind, pure, Except.pure] at hperform
        cases hperform
        exact .collects hcollect
  | leave i =>
      rcases huses i rfl with hwaiting | hserved
      · obtain ⟨l₁, hleave, -⟩ := h.exists_leave hwaiting
        simp only [perform, hleave, bind, Except.bind, pure, Except.pure] at hperform
        cases hperform
        exact .leaves hleave
      · obtain ⟨item, hitem⟩ := Option.isSome_iff_exists.mp hserved
        have hcollect := (h.collect_served hitem).1
        simp only [perform, h.leave_served hitem, hcollect, bind, Except.bind, pure,
          Except.pure] at hperform
        cases hperform
        exact .collects hcollect

/-- Requests that are all answered are a course. -/
theorem Course.of_run {requests : List (Request α)} {replies : List (Reply α)}
    (h : l.Layout r none) (hrun : l.run requests = .ok (replies, l')) :
    Course l ((requests.zip replies).filterMap released?) (l.demands requests) l' := by
  induction requests generalizing l r replies with
  | nil =>
      cases hrun
      exact .nil _
  | cons request requests ih =>
      obtain ⟨reply, l₁, rest, hperform, hrest, rfl⟩ := exists_of_run_cons hrun
      obtain ⟨l₁', hperform', h₁⟩ := h.exists_perform (h.uses_of_perform hperform)
      obtain ⟨-, rfl⟩ := Prod.mk.inj (Except.ok.inj (hperform'.symm.trans hperform))
      have hcourse := Course.cons (.of_perform h hperform) (ih h₁ hrest)
      simp only [demands, hperform, List.zip_cons_cons, List.filterMap_cons]
      cases hreleased : released? (request, reply) <;> rw [hreleased] at hcourse <;> exact hcourse

end Line

end FairQueue
