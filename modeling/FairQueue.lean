import FairQueue.Call.Basic
import FairQueue.Call.Consumer
import FairQueue.Call.Producer
import FairQueue.Checks.Arguments
import FairQueue.Checks.Attempt
import FairQueue.Checks.Report
import FairQueue.Checks.StandIn
import FairQueue.Checks.Suite
import FairQueue.Clock
import FairQueue.Crowd.Basic
import FairQueue.Crowd.Plan
import FairQueue.Crowd.Tally
import FairQueue.Event
import FairQueue.Fault
import FairQueue.Line.Basic
import FairQueue.Line.Request
import FairQueue.Main
import FairQueue.Proofs.Call.Arena
import FairQueue.Proofs.Call.Endurance
import FairQueue.Proofs.Call.Moment
import FairQueue.Proofs.Call.Outcome
import FairQueue.Proofs.Call.Patience
import FairQueue.Proofs.Call.Refusal
import FairQueue.Proofs.Checks.KeepGoing
import FairQueue.Proofs.Checks.Report
import FairQueue.Proofs.Crowd.Course
import FairQueue.Proofs.Crowd.Outcome
import FairQueue.Proofs.Crowd.Plan
import FairQueue.Proofs.Handoff.Absence
import FairQueue.Proofs.Handoff.Basic
import FairQueue.Proofs.Handoff.Fetches
import FairQueue.Proofs.Handoff.Interchange
import FairQueue.Proofs.Handoff.Lapse
import FairQueue.Proofs.Handoff.Outcomes
import FairQueue.Proofs.Handoff.Refinement
import FairQueue.Proofs.Handoff.Removal
import FairQueue.Proofs.Handoff.Represents
import FairQueue.Proofs.Handoff.Safety
import FairQueue.Proofs.Handoff.Seating
import FairQueue.Proofs.History.Assignment
import FairQueue.Proofs.History.Conservation
import FairQueue.Proofs.History.Counters
import FairQueue.Proofs.History.Delivery
import FairQueue.Proofs.History.Fairness
import FairQueue.Proofs.History.Incident
import FairQueue.Proofs.History.Ledger
import FairQueue.Proofs.History.Notices
import FairQueue.Proofs.History.Origin
import FairQueue.Proofs.History.Rank
import FairQueue.Proofs.History.Replies
import FairQueue.Proofs.History.Reservation
import FairQueue.Proofs.History.Service
import FairQueue.Proofs.History.Standing
import FairQueue.Proofs.History.Trace
import FairQueue.Proofs.Line.Demand
import FairQueue.Proofs.Line.Links
import FairQueue.Proofs.Line.Misuse
import FairQueue.Proofs.Line.Operations
import FairQueue.Proofs.Line.Refinement
import FairQueue.Proofs.Line.Roster
import FairQueue.Proofs.Line.Threads
import FairQueue.Proofs.Session.Batch
import FairQueue.Proofs.Session.Deadline
import FairQueue.Proofs.Session.Demand
import FairQueue.Proofs.Session.Endurance
import FairQueue.Proofs.Session.GivingUp
import FairQueue.Proofs.Session.Interchange
import FairQueue.Proofs.Session.Lapse
import FairQueue.Proofs.Session.Refusal
import FairQueue.Proofs.Session.Renaming
import FairQueue.Proofs.Session.Room
import FairQueue.Proofs.Session.Span
import FairQueue.Queue
import FairQueue.Session.Action
import FairQueue.Session.Basic
import FairQueue.Session.Prompt
import FairQueue.Time
