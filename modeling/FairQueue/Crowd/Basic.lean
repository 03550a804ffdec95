import FairQueue.Crowd.Plan
import FairQueue.Session.Basic

/-!
Producers and consumers that share a queue and run in any order. Every producer puts its own items
in order. The consumers together take a number of items that is fixed beforehand: each claims one
of them before it starts to remove it, and ends when none is left to claim.
-/

namespace FairQueue

namespace Crowd

inductive Phase where
  | idle
  /-- One item is claimed and not removed yet. -/
  | claimed
  | asleep
  | ended
deriving DecidableEq

structure Worker where
  manner : Manner
  phase : Phase
  taken : List Item
deriving DecidableEq

inductive Move where
  | produce (producer : Nat)
  /-- A consumer makes its next step, with these jumps of the clock. One that is asleep wakes,
  whether it was served or not. -/
  | consume (consumer : Nat) (jumps : List Time)
  | pass (span : Time)
deriving DecidableEq

def Worker.heard (worker : Worker) : Reply Item → Worker
  | .delivered (some item) => { worker with phase := .idle, taken := worker.taken ++ [item] }
  | .delivered none => { worker with phase := .claimed }
  | .asleep _ => { worker with phase := .asleep }
  | _ => worker

end Crowd

structure Crowd where
  session : Session Crowd.Item
  work : List (List (Action Crowd.Item))
  workers : List Crowd.Worker
  quota : Nat
deriving DecidableEq

namespace Crowd

def ofPlan (plan : Plan) : Crowd where
  session := Session.ofQueue Queue.empty
  work := (List.range plan.producers).map plan.work
  workers := (List.range plan.consumers).map fun i =>
    { manner := plan.kind.manner i, phase := .idle, taken := [] }
  quota := plan.quota

def turn (c : Crowd) (i : Nat) (worker : Worker) (action : Action Item) (jumps : List Time) :
    Crowd :=
  let (session, entry) := c.session.act action jumps
  { c with session, workers := c.workers.set i (worker.heard entry.reply) }

/-- One step of whoever the move names. -/
def move (c : Crowd) : Move → Crowd
  | .produce p =>
    match c.work[p]? with
    | some (action :: rest) =>
      { c with session := (c.session.act action []).1, work := c.work.set p rest }
    | _ => c
  | .consume i jumps =>
    match c.workers[i]? with
    | some worker =>
      match worker.phase with
      | .idle =>
        if c.quota = 0 then
          { c with workers := c.workers.set i { worker with phase := .ended } }
        else
          { c with
            workers := c.workers.set i { worker with phase := .claimed }
            quota := c.quota - 1 }
      | .claimed => c.turn i worker (worker.manner.action i) jumps
      | .asleep => c.turn i worker (.wake i) jumps
      | .ended => c
    | none => c
  | .pass span => { c with session := (c.session.act (.advance span) []).1 }

/-- The moves in turn, whatever their order. -/
def run (c : Crowd) (moves : List Move) : Crowd :=
  moves.foldl move c

def isFinished (c : Crowd) : Bool :=
  c.work.all (·.isEmpty) && c.workers.all (·.phase = .ended)

end Crowd

end FairQueue
