import FairQueue.Call.Basic

/-!
Removal of items. A blocking call that finds the queue empty joins the line and falls asleep; it is
resumed when its sleep ends, whether its bell was rung or not, and then returns or falls asleep
again.
-/

namespace FairQueue

inductive Patience where
  /-- For ever; it joined the line behind `ahead` others. -/
  | endless (ahead : Nat)
  | deadline (time : Time)
deriving DecidableEq

structure Sleeper where
  place : Place
  patience : Patience
deriving DecidableEq

def Sleeper.isDue (sleeper : Sleeper) (now : Time) : Bool :=
  match sleeper.patience with
  | .endless _ => false
  | .deadline time => time ≤ now

/-- How a turn of a blocking call ends. -/
inductive Progress (α : Type) where
  | returned (item : Option α)
  /-- The consumer sleeps until its bell rings, and for no longer than `limit`, if there is one. -/
  | asleep (sleeper : Sleeper) (limit : Option Time)
deriving DecidableEq

namespace Call

variable {α : Type}

def poll : Call α (Option α) :=
  locked (·.pop)

/-- Polls until the queue is empty, `count` times at most. -/
def pollMany : Nat → Call α (List α)
  | 0 => return []
  | count + 1 => do
    match ← poll with
    | none => return []
    | some item =>
      let items ← pollMany count
      return item :: items

def drain (max : Option Nat) : Call α (List α) := do
  let size ← look (·.items.length)
  pollMany (max.getD size)

/-- Removes the oldest item, however long that takes. -/
def take : Call α (Progress α) := do
  match ← poll with
  | some item => return .returned (some item)
  | none =>
    let ahead ← look (·.line.size)
    let place ← locked (·.join)
    return .asleep { place, patience := .endless ahead } none

/-- A turn of a bounded wait: at its deadline the consumer gives up, before it the consumer sleeps
for the time that is left. -/
def waitUntil (place : Place) (deadline : Time) : Call α (Progress α) := do
  let now ← readClock
  if deadline ≤ now then
    let item ← locked (·.leave place.slot)
    if item.isNone then
      report (.timedOut place.slot)
    return .returned item
  return .asleep { place, patience := .deadline deadline } (some (deadline - now))

/-- Removes the oldest item, if one can be had before `deadline`. -/
def takeUntil (deadline : Time) : Call α (Progress α) := do
  match ← poll with
  | some item => return .returned (some item)
  | none =>
    let now ← readClock
    if deadline ≤ now then
      return .returned none
    let place ← locked (·.join)
    waitUntil place deadline

/-- Removes the oldest item, if one can be had within `span`. A span whose end cannot be
represented never ends. -/
def takeWithin (span : Time) : Call α (Progress α) := do
  let now ← readClock
  match now.plus? span with
  | some deadline => takeUntil deadline
  | none => take

/-- The sleep of a consumer ends: it collects the item that it was served, or waits on. -/
def resume (sleeper : Sleeper) : Call α (Progress α) := do
  let place := sleeper.place
  match ← locked (·.collect place.slot) with
  | some item =>
    holding [item] <| report <| match sleeper.patience with
      | .endless ahead => .collectedBehind place.slot ahead
      | .deadline _ => .collected place.slot
    return .returned (some item)
  | none =>
    match sleeper.patience with
    | .endless _ => return .asleep sleeper none
    | .deadline time => waitUntil place time

/-- Ends the life of a queue that nobody uses any more. What it still owns is destroyed, also if
its closing cannot be reported. -/
def close : Call α Unit := do
  let queue := (← get).queue
  holding queue.contents do
    unless queue.line.isEmpty do
      throw (.fault .closedOnLine)
    report (.closing queue.items.length queue.removed)
  destroy queue.contents

end Call

end FairQueue
