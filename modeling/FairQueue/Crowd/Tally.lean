import FairQueue.Crowd.Basic

namespace FairQueue.Crowd

structure Tally where
  received : Nat
  rest : Nat
  distinct : Nat
  /-- Whether everyone saw the items of each producer in order. -/
  inOrder : Bool
  /-- The counters before the rest was taken out. -/
  stats : Stats
  removed : Nat
deriving DecidableEq

def InOrder (items : List Item) : Prop :=
  items.Pairwise fun a b => a.producer = b.producer → a.number < b.number

instance : DecidablePred InOrder := fun items =>
  inferInstanceAs (Decidable (items.Pairwise fun a b => a.producer = b.producer → a.number < b.number))

def taken (c : Crowd) : List Item :=
  c.workers.flatMap (·.taken)

def drain (c : Crowd) : Session Item × List Item :=
  let (session, entry) := c.session.act (.drain none) []
  match entry.reply with
  | .items items => (session, items)
  | _ => (session, [])

def tally (c : Crowd) : Tally :=
  let (session, rest) := c.drain
  { received := c.taken.length
    rest := rest.length
    distinct := (c.taken ++ rest).eraseDups.length
    inOrder := c.workers.all (fun worker => decide (InOrder worker.taken)) && decide (InOrder rest)
    stats := c.session.queue.stats
    removed := session.queue.removed }

/-- Everybody in turn, with a millisecond between the producers and the consumers. -/
def round (c : Crowd) : List Move :=
  (List.range c.work.length).map .produce ++ [.pass millisecond]
    ++ (List.range c.workers.length).map fun i => .consume i []

/-- Plays rounds until everybody is through, `rounds` at most. -/
def play (c : Crowd) : Nat → Crowd
  | 0 => c
  | rounds + 1 => if c.isFinished then c else (c.run c.round).play rounds

namespace Plan

/-- Rounds that are enough for the plan: the producers are through after as many as each has items,
and from then on an item that is claimed is removed after three rounds. -/
def rounds (plan : Plan) : Nat :=
  plan.items + 3 * plan.total + 4

def tally (plan : Plan) : Tally :=
  ((ofPlan plan).play plan.rounds).tally

end Plan

end FairQueue.Crowd
