import FairQueue.Time

namespace FairQueue

/-- A clock together with the jumps that it makes right after each of its next readings. -/
structure Clock where
  now : Time
  jumps : List Time
deriving DecidableEq

namespace Clock

/-- The time now, and the clock after the jump that follows this reading. -/
def read (c : Clock) : Time × Clock :=
  match c.jumps with
  | [] => (c.now, c)
  | jump :: rest => (c.now, { now := c.now + jump, jumps := rest })

@[simp] theorem read_fst (c : Clock) : c.read.1 = c.now := by
  unfold read
  split <;> rfl

/-- Without a jump ahead of it a clock stands still. -/
theorem read_snd_of_nil {c : Clock} (hjumps : c.jumps = []) : c.read.2 = c := by
  simp only [read, hjumps]

/-- A clock never goes back. -/
theorem now_le_read (c : Clock) : c.now ≤ c.read.2.now := by
  unfold read
  split
  · exact Time.le_refl _
  · exact Time.le_add _ _

end Clock

end FairQueue
