import FairQueue.Session.Action

namespace FairQueue.Crowd

/-- The item with this number among those of its producer. -/
structure Item where
  producer : Nat
  number : Nat
deriving DecidableEq

/-- How a consumer removes items; a call that came back empty is made again. -/
inductive Manner where
  | take
  | takeWithin (span : Time)
  | poll
deriving DecidableEq

inductive Kind where
  | uniform (manner : Manner)
  | mixed
deriving DecidableEq

structure Plan where
  producers : Nat
  items : Nat
  /-- The largest batch, or zero where items are put one by one. -/
  batch : Nat
  consumers : Nat
  leftOver : Nat
  kind : Kind
deriving DecidableEq

def millisecond : Time where
  secs := 0
  nanos := 1000000

def Manner.takeShortly : Manner :=
  takeWithin millisecond

def Manner.action (manner : Manner) (consumer : Nat) : Action Item :=
  match manner with
  | take => .start consumer .take
  | takeWithin span => .start consumer (.takeWithin span)
  | poll => .poll

def Kind.manner (kind : Kind) (consumer : Nat) : Manner :=
  match kind with
  | uniform manner => manner
  | mixed =>
    match consumer % 3 with
    | 0 => .take
    | 1 => .takeShortly
    | _ => .poll

/-- Cuts a list into parts of the given length; the last part may be shorter. -/
def parts {β : Type} (length : Nat) (l : List β) : List (List β) :=
  (List.range ((l.length + length - 1) / length)).map fun k => (l.drop (k * length)).take length

namespace Plan

def total (plan : Plan) : Nat :=
  plan.producers * plan.items

def quota (plan : Plan) : Nat :=
  plan.total - plan.leftOver

def itemsOf (plan : Plan) (producer : Nat) : List Item :=
  (List.range plan.items).map fun number => { producer, number }

def work (plan : Plan) (producer : Nat) : List (Action Item) :=
  if plan.batch = 0 then
    (plan.itemsOf producer).map .put
  else
    (parts plan.batch (plan.itemsOf producer)).map fun items => .putAll (Source.ofList items)

end Plan

end FairQueue.Crowd
