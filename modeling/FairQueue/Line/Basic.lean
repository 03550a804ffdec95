import FairQueue.Fault

/-!
The line of consumers that wait for an item. Each consumer holds a slot of an arena with a bell of
its own, from the moment it joins until it collects an item or leaves. Waiting slots are linked to
their neighbours in both directions, vacant ones are chained so that the one released last is taken
first, and a served slot is on neither chain: it keeps the item for its owner.
-/

namespace FairQueue

/-- What a slot is used for. -/
inductive Occupancy (α : Type) where
  /-- Nobody holds the slot; `next` is the vacant slot below it on the chain. -/
  | vacant (next : Option Nat)
  /-- The owner stands in the line between these two neighbours. -/
  | waiting (ahead behind : Option Nat)
  /-- The owner was given `item` and has not collected it yet. -/
  | served (item : α)
deriving DecidableEq

/-- A slot keeps its bell for ever, whoever holds it. -/
structure Slot (α : Type) where
  bell : Nat
  occupancy : Occupancy α
deriving DecidableEq

/-- What a consumer that joined the line holds: the number of its slot and the slot's bell. -/
structure Place where
  slot : Nat
  bell : Nat
deriving DecidableEq

structure Line (α : Type) where
  slots : Array (Slot α)
  front : Option Nat
  back : Option Nat
  /-- The slot that was released last. -/
  vacancy : Option Nat
  size : Nat
deriving DecidableEq

namespace Occupancy

variable {α : Type}

def item? : Occupancy α → Option α
  | served item => some item
  | _ => none

end Occupancy

namespace Line

variable {α : Type}

def empty : Line α where
  slots := #[]
  front := none
  back := none
  vacancy := none
  size := 0

def isEmpty (l : Line α) : Bool :=
  l.size == 0

def slot (l : Line α) (i : Nat) : Except Fault (Slot α) :=
  match l.slots[i]? with
  | some slot => .ok slot
  | none => .error (.outOfBounds i l.slots.size)

def occupy (l : Line α) (i : Nat) (occupancy : Occupancy α) : Line α :=
  { l with slots := l.slots.modify i fun slot => { slot with occupancy } }

theorem slot_eq_ok_iff {l : Line α} {i : Nat} {s : Slot α} :
    l.slot i = .ok s ↔ l.slots[i]? = some s := by
  unfold slot
  cases l.slots[i]? <;> simp

theorem getElem?_slots_occupy (l : Line α) (i j : Nat) (occupancy : Occupancy α) :
    (l.occupy i occupancy).slots[j]? =
      if i = j then l.slots[j]?.map fun slot => { slot with occupancy } else l.slots[j]? := by
  simp only [occupy, Array.getElem?_modify]

@[simp] theorem size_slots_occupy (l : Line α) (i : Nat) (occupancy : Occupancy α) :
    (l.occupy i occupancy).slots.size = l.slots.size := by
  simp only [occupy, Array.size_modify]

def setBehind (l : Line α) (i : Nat) (behind : Option Nat) : Except Fault (Line α) := do
  match (← l.slot i).occupancy with
  | .waiting ahead _ => return l.occupy i (.waiting ahead behind)
  | _ => throw (.neighbourNotWaiting i)

def setAhead (l : Line α) (i : Nat) (ahead : Option Nat) : Except Fault (Line α) := do
  match (← l.slot i).occupancy with
  | .waiting _ behind => return l.occupy i (.waiting ahead behind)
  | _ => throw (.neighbourNotWaiting i)

/-- Takes the vacant slot that was released last, or makes a new one with a new bell. -/
def acquire (l : Line α) : Except Fault (Nat × Line α) :=
  match l.vacancy with
  | some i => do
    match (← l.slot i).occupancy with
    | .vacant next => return (i, { l with vacancy := next })
    | _ => throw (.notVacant i)
  | none =>
    let i := l.slots.size
    .ok (i, { l with slots := l.slots.push { bell := i, occupancy := .vacant none } })

def release (l : Line α) (i : Nat) : Line α :=
  { l.occupy i (.vacant l.vacancy) with vacancy := some i }

def join (l : Line α) : Except Fault (Place × Line α) := do
  let (i, l) ← l.acquire
  let last := l.back
  let l := l.occupy i (.waiting last none)
  let l ← match last with
    | some j => l.setBehind j (some i)
    | none => pure { l with front := some i }
  let slot ← l.slot i
  return ({ slot := i, bell := slot.bell }, { l with back := some i, size := l.size + 1 })

/-- Takes a waiting slot out of the line, from wherever it stands, by joining its neighbours. What
the slot is used for next is left to the caller. -/
def detach (l : Line α) (i : Nat) : Except Fault (Line α) := do
  match (← l.slot i).occupancy with
  | .waiting ahead behind =>
    let l ← match ahead with
      | some j => l.setBehind j behind
      | none => pure { l with front := behind }
    let l ← match behind with
      | some j => l.setAhead j ahead
      | none => pure { l with back := ahead }
    if l.size = 0 then
      throw .lineCount
    return { l with size := l.size - 1 }
  | _ => throw (.notWaiting i)

/-- Gives `item` to the slot at the front and tells whose bell to ring. Without a line there is
nobody to give it to, and nothing changes. -/
def serve (l : Line α) (item : α) : Except Fault (Option Place × Line α) :=
  match l.front with
  | none => .ok (none, l)
  | some i => do
    let l ← l.detach i
    let slot ← l.slot i
    return (some { slot := i, bell := slot.bell }, l.occupy i (.served item))

/-- Hands out the item that a slot was served and releases the slot. A waiting slot is left as it
is. -/
def collect (l : Line α) (i : Nat) : Except Fault (Option α × Line α) := do
  match (← l.slot i).occupancy with
  | .served item => return (some item, l.release i)
  | .waiting _ _ => return (none, l)
  | .vacant _ => throw (.released i)

/-- Gives up a slot: a waiting one leaves the line, a served one hands out its item. -/
def leave (l : Line α) (i : Nat) : Except Fault (Option α × Line α) := do
  match (← l.slot i).occupancy with
  | .waiting _ _ =>
    let l ← l.detach i
    return (none, l.release i)
  | _ => l.collect i

/-- The items that were served and not collected, by slot number. -/
def servedItems (l : Line α) : List α :=
  l.slots.toList.filterMap (·.occupancy.item?)

end Line

end FairQueue
