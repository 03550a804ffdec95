import FairQueue.Line.Basic

namespace FairQueue

namespace Line

/-- What can be asked of a line on its own, by anybody and about any slot number. -/
inductive Request (α : Type) where
  | join
  | serve (item : α)
  | collect (slot : Nat)
  | leave (slot : Nat)
deriving DecidableEq

inductive Reply (α : Type) where
  | joined (place : Place)
  /-- The item went to this place, whose bell was rung. -/
  | served (place : Place)
  /-- Nobody waited: the item is given back. -/
  | unserved (item : α)
  | delivered (item : Option α)
deriving DecidableEq

variable {α : Type}

def Reply.rung : Reply α → List Nat
  | .served place => [place.bell]
  | _ => []

def perform (l : Line α) : Request α → Except Fault (Reply α × Line α)
  | .join => do
    let (place, l) ← l.join
    return (.joined place, l)
  | .serve item => do
    match ← l.serve item with
    | (some place, l) => return (.served place, l)
    | (none, l) => return (.unserved item, l)
  | .collect slot => do
    let (item, l) ← l.collect slot
    return (.delivered item, l)
  | .leave slot => do
    let (item, l) ← l.leave slot
    return (.delivered item, l)

/-- Answers the requests in turn, each with the line that it leaves; the first fault ends the
run. -/
def run (l : Line α) : List (Request α) → Except Fault (List (Reply α) × Line α)
  | [] => return ([], l)
  | request :: requests => do
    let (reply, l) ← l.perform request
    let (replies, l) ← l.run requests
    return (reply :: replies, l)

end Line

end FairQueue
