namespace FairQueue

/-- A length of time, or the point in time that far from the start: whole seconds and a fraction of
a second in nanoseconds. -/
@[ext]
structure Time where
  secs : Nat
  nanos : Nat
  nanos_lt : nanos < 1000000000 := by decide
deriving DecidableEq

namespace Time

def toNanos (t : Time) : Nat :=
  t.secs * 1000000000 + t.nanos

def zero : Time where
  secs := 0
  nanos := 0

/-- Nanoseconds past a full second are carried over. -/
def ofParts (secs nanos : Nat) : Time where
  secs := secs + nanos / 1000000000
  nanos := nanos % 1000000000
  nanos_lt := Nat.mod_lt _ (by decide)

/-- Sum of the seconds and of the nanoseconds, with at most one second carried. -/
def add (a b : Time) : Time :=
  if h : a.nanos + b.nanos < 1000000000 then
    ⟨a.secs + b.secs, a.nanos + b.nanos, h⟩
  else
    ⟨a.secs + b.secs + 1, a.nanos + b.nanos - 1000000000, by
      have ha := a.nanos_lt
      have hb := b.nanos_lt
      omega⟩

instance : Add Time := ⟨add⟩

/-- Points in time are ordered by seconds, then by nanoseconds. -/
protected def le (a b : Time) : Prop :=
  a.secs < b.secs ∨ a.secs = b.secs ∧ a.nanos ≤ b.nanos

instance : LE Time := ⟨Time.le⟩

instance : DecidableLE Time := fun a b =>
  inferInstanceAs (Decidable (a.secs < b.secs ∨ a.secs = b.secs ∧ a.nanos ≤ b.nanos))

protected def lt (a b : Time) : Prop :=
  a.secs < b.secs ∨ a.secs = b.secs ∧ a.nanos < b.nanos

instance : LT Time := ⟨Time.lt⟩

instance : DecidableLT Time := fun a b =>
  inferInstanceAs (Decidable (a.secs < b.secs ∨ a.secs = b.secs ∧ a.nanos < b.nanos))

/-- The time from `b` until `a`, borrowing a second where the nanoseconds need it; nothing if `a`
comes first. -/
def sub (a b : Time) : Time :=
  if a ≤ b then
    zero
  else if b.nanos ≤ a.nanos then
    ⟨a.secs - b.secs, a.nanos - b.nanos, by
      have ha := a.nanos_lt
      omega⟩
  else
    ⟨a.secs - b.secs - 1, (a.nanos + 1000000000 - b.nanos) % 1000000000, Nat.mod_lt _ (by decide)⟩

instance : Sub Time := ⟨sub⟩

/-- The last whole second that a point in time can have. -/
def maxSecs : Nat := 0x7fffffffffffffff

/-- The point in time `span` after `t`, if it can be represented. -/
def plus? (t span : Time) : Option Time :=
  if (t + span).secs ≤ maxSecs then some (t + span) else none

theorem toNanos_add (a b : Time) : (a + b).toNanos = a.toNanos + b.toNanos := by
  change (add a b).toNanos = _
  unfold add
  split <;> simp only [toNanos] <;> omega

theorem le_iff_toNanos_le (a b : Time) : a ≤ b ↔ a.toNanos ≤ b.toNanos := by
  change (a.secs < b.secs ∨ a.secs = b.secs ∧ a.nanos ≤ b.nanos) ↔ _
  have ha := a.nanos_lt
  have hb := b.nanos_lt
  simp only [toNanos]
  omega

theorem lt_iff_toNanos_lt (a b : Time) : a < b ↔ a.toNanos < b.toNanos := by
  change (a.secs < b.secs ∨ a.secs = b.secs ∧ a.nanos < b.nanos) ↔ _
  have ha := a.nanos_lt
  have hb := b.nanos_lt
  simp only [toNanos]
  omega

theorem toNanos_injective {a b : Time} (h : a.toNanos = b.toNanos) : a = b := by
  have ha := a.nanos_lt
  have hb := b.nanos_lt
  simp only [toNanos] at h
  ext <;> omega

theorem toNanos_sub (a b : Time) : (a - b).toNanos = a.toNanos - b.toNanos := by
  change (sub a b).toNanos = _
  unfold sub
  have ha := a.nanos_lt
  have hb := b.nanos_lt
  split
  · rename_i h
    have hle := (le_iff_toNanos_le a b).mp h
    simp only [toNanos, zero] at hle ⊢
    omega
  · rename_i h
    have hlt : ¬ a.toNanos ≤ b.toNanos := fun hle => h ((le_iff_toNanos_le a b).mpr hle)
    split <;> simp only [toNanos] at hlt ⊢ <;> omega

protected theorem le_refl (a : Time) : a ≤ a :=
  (le_iff_toNanos_le a a).mpr (Nat.le_refl _)

protected theorem le_trans {a b c : Time} (h : a ≤ b) (h' : b ≤ c) : a ≤ c := by
  rw [le_iff_toNanos_le] at h h' ⊢
  exact Nat.le_trans h h'

protected theorem not_le {a b : Time} : ¬ a ≤ b ↔ b < a := by
  rw [le_iff_toNanos_le, lt_iff_toNanos_lt, Nat.not_le]

protected theorem le_of_lt {a b : Time} (h : a < b) : a ≤ b := by
  rw [le_iff_toNanos_le]
  exact Nat.le_of_lt ((lt_iff_toNanos_lt a b).mp h)

protected theorem lt_of_lt_of_le {a b c : Time} (h : a < b) (h' : b ≤ c) : a < c := by
  rw [lt_iff_toNanos_lt] at h ⊢
  exact Nat.lt_of_lt_of_le h ((le_iff_toNanos_le b c).mp h')

theorem sub_pos_of_lt {a b : Time} (h : a < b) : zero < b - a := by
  rw [lt_iff_toNanos_lt] at h ⊢
  rw [toNanos_sub]
  exact Nat.sub_pos_of_lt h

theorem sub_le_sub_left {a b : Time} (h : a ≤ b) (c : Time) : c - b ≤ c - a := by
  rw [le_iff_toNanos_le] at h ⊢
  rw [toNanos_sub, toNanos_sub]
  exact Nat.sub_le_sub_left h _

theorem le_add (a b : Time) : a ≤ a + b := by
  rw [le_iff_toNanos_le, toNanos_add]
  exact Nat.le_add_right _ _

theorem add_sub_of_le {a b : Time} (h : a ≤ b) : a + (b - a) = b := by
  rw [le_iff_toNanos_le] at h
  apply toNanos_injective
  rw [toNanos_add, toNanos_sub, Nat.add_sub_of_le h]

theorem secs_eq (t : Time) : t.secs = t.toNanos / 1000000000 := by
  have hlt := t.nanos_lt
  simp only [toNanos]
  omega

theorem plus?_eq (t span : Time) :
    t.plus? span =
      if (t.toNanos + span.toNanos) / 1000000000 ≤ maxSecs then some (t + span) else none := by
  rw [plus?, secs_eq, toNanos_add]

theorem sub_le_of_plus? {t span deadline now : Time} (hplus : t.plus? span = some deadline)
    (hnow : t ≤ now) : deadline - now ≤ span := by
  unfold plus? at hplus
  split at hplus
  · cases hplus
    refine Time.le_trans (sub_le_sub_left hnow _) ?_
    rw [le_iff_toNanos_le, toNanos_sub, toNanos_add]
    omega
  · cases hplus

end Time

end FairQueue
