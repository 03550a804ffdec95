import FairQueue.Call.Basic

namespace FairQueue

/-- The items of a batch, asked for one by one, and the request at which their source fails, if it
does. -/
structure Source (α : Type) where
  items : List α
  failsAt : Option Nat
deriving DecidableEq

namespace Source

variable {α : Type}

def ofList (items : List α) : Source α where
  items := items
  failsAt := none

/-- Asks for items until there are none left, before the queue is touched. A failing source takes
the items that it already gave with it. -/
def draw (source : Source α) : Call α (List α) :=
  match source.failsAt with
  | some request =>
    if request ≤ source.items.length then
      Call.holding (source.items.take request) (throw (.sourceFailed request))
    else
      return source.items
  | none => return source.items

end Source

namespace Call

variable {α β : Type}

def announce : Option Place → Call α Unit
  | some place => do
    ring [place.bell]
    report (.served place.slot)
  | none => return

def announceAll (count : Nat) (places : List Place) : Call α Unit := do
  ring (places.map (·.bell))
  report (.batch count places.length)

/-- Puts an item in a memory without end. -/
def put (item : α) : Call α Unit := do
  announce (← locked (·.put item))

/-- Puts the items of a batch at once in a memory without end, and reports how many of them went
straight to consumers. -/
def putAll (source : Source α) : Call α Unit := do
  let items ← source.draw
  if items.isEmpty then
    return
  announceAll items.length (← locked (·.putAll items))

/-- Runs an operation under the lock that brings in `items` of `itemSize` bytes each, once there is
room for them. If the call breaks off here, they are destroyed. -/
def lockedWithRoom (itemSize : Nat) (items : List α)
    (operation : Queue α → Except Fault (β × Queue α)) : Call α β :=
  holding items <| locked fun q => do
    q.reserve itemSize items.length
    operation q

/-- Puts an item where memory has an end. -/
def putSized (itemSize : Nat) (item : α) : Call α Unit := do
  announce (← lockedWithRoom itemSize [item] (·.put item))

/-- Puts the items of a batch at once where memory has an end. The batch itself, once it is drawn,
has a buffer of its own. -/
def putAllSized (itemSize : Nat) (source : Source α) : Call α Unit := do
  let items ← source.draw
  if items.isEmpty then
    return
  announceAll items.length (← lockedWithRoom itemSize items (·.putAll items))

end Call

end FairQueue
