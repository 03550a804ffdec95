import FairQueue.Session.Basic

/-!
A queue whose consumers run as soon as they can. A consumer whose bell rings wakes at once, and a
short wait is sat out to its end.
-/

namespace FairQueue

namespace Session

variable {α : Type}

/-- What is seen of an action once nobody has anything left to do. -/
inductive PromptReply (α : Type) where
  | plain (reply : Reply α)
  /-- The consumers that were served, in the order in which they had joined, and what they got. -/
  | served (deliveries : List (Consumer × Option α))
  /-- A consumer that was served did not return. -/
  | stuck
deriving DecidableEq

/-- Waits shorter than this are sat out. -/
def patienceLimit : Time :=
  Time.ofParts 1 0

def wakeAll (s : Session α) : List Consumer → Session α × List (Consumer × Reply α)
  | [] => (s, [])
  | c :: cs =>
    let (s, entry) := s.act (.wake c) []
    let (s, replies) := s.wakeAll cs
    (s, (c, entry.reply) :: replies)

def due (s : Session α) : List Consumer :=
  (s.sleepers.filter fun sleeper => sleeper.2.isDue s.now).map (·.1)

/-- Lets time pass; consumers whose deadline comes wake then. -/
def elapse (s : Session α) (span : Time) : Session α × List (Consumer × Reply α) :=
  let (s, _) := s.act (.advance span) []
  s.wakeAll s.due

def delivery? : Consumer × Reply α → Option (Consumer × Option α)
  | (c, .delivered item) => some (c, item)
  | _ => none

/-- One action and all that follows from it at once. -/
def promptly (s : Session α) (action : Action α) : Session α × PromptReply α :=
  let (s, entry) := s.act action []
  match action, entry.reply with
  | .put _, .done | .putAll _, .done =>
    let (s, replies) := s.wakeAll entry.notified
    match replies.mapM delivery? with
    | some deliveries => (s, .served deliveries)
    | none => (s, .stuck)
  | .start c _, .asleep (some limit) =>
    if limit < patienceLimit then
      let (s, replies) := s.elapse limit
      (s, .plain ((replies.lookup c).getD entry.reply))
    else
      (s, .plain entry.reply)
  | _, reply => (s, .plain reply)

end Session

end FairQueue
