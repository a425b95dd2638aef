import ProgramGraph.Engine.Limits
import ProgramGraph.Graph.Families
import ProgramGraph.Main
import ProgramGraph.Probe.Handlers
import ProgramGraph.Session
import ProgramGraph.Proofs.Plan.Basic
import ProgramGraph.Proofs.Plan.Follow
import ProgramGraph.Proofs.Plan.Reach
import ProgramGraph.Proofs.Plan.Scope
import ProgramGraph.Proofs.Evaluator.Role
import ProgramGraph.Proofs.Plan.Elementary
import ProgramGraph.Proofs.Plan.Ending
import ProgramGraph.Proofs.Evaluator.Basic
import ProgramGraph.Proofs.Evaluator.Scope
import ProgramGraph.Proofs.Course.Basic
import ProgramGraph.Proofs.Course.Sound
import ProgramGraph.Proofs.Course.Deed
import ProgramGraph.Proofs.Course.Commute
import ProgramGraph.Proofs.Solo.Stand
import ProgramGraph.Proofs.Solo.Basic
import ProgramGraph.Proofs.Solo.Course
import ProgramGraph.Proofs.Solo.Fare
import ProgramGraph.Proofs.Solo.Mimic
import ProgramGraph.Proofs.Schedule.Agenda
import ProgramGraph.Proofs.Schedule.Wait
import ProgramGraph.Proofs.Schedule.Prospect
import ProgramGraph.Proofs.Schedule.Move
import ProgramGraph.Proofs.Schedule.Suspend
import ProgramGraph.Proofs.Schedule.Clock
import ProgramGraph.Proofs.Schedule.Adequate
import ProgramGraph.Proofs.Passage.Basic
import ProgramGraph.Proofs.Passage.Discipline
import ProgramGraph.Proofs.Passage.Fatal
import ProgramGraph.Proofs.Passage.Wait
import ProgramGraph.Proofs.Passage.Job
import ProgramGraph.Proofs.Passage.Spare
import ProgramGraph.Proofs.Passage.Track
import ProgramGraph.Proofs.Passage.Conduct
import ProgramGraph.Proofs.Passage.Depth
import ProgramGraph.Proofs.Passage.Carry
import ProgramGraph.Proofs.Passage.Steps
import ProgramGraph.Proofs.Sound.Memo
import ProgramGraph.Proofs.Sound.Frame
import ProgramGraph.Proofs.Sound.Run
import ProgramGraph.Proofs.Sound.Abreast
import ProgramGraph.Proofs.Sound.Journal
import ProgramGraph.Proofs.Sound.Passage
import ProgramGraph.Proofs.Fold.Basic
import ProgramGraph.Proofs.Evaluator.Interchange
import ProgramGraph.Proofs.Fold.Reference
import ProgramGraph.Proofs.Fold.Commute
import ProgramGraph.Proofs.Fold.Sharing
import ProgramGraph.Proofs.Total.Item
import ProgramGraph.Proofs.Total.Node
import ProgramGraph.Proofs.Solo.Untied
import ProgramGraph.Proofs.Solo.Plain
import ProgramGraph.Proofs.Solo.Amend
import ProgramGraph.Proofs.Total.Load
import ProgramGraph.Proofs.Fold.Total
import ProgramGraph.Proofs.Fold.Moment
import ProgramGraph.Proofs.Fold.Status
import ProgramGraph.Proofs.Fold.Protocol
import ProgramGraph.Proofs.Fold.Inside
import ProgramGraph.Proofs.Fold.Abandoned
import ProgramGraph.Proofs.Solo.Limit
import ProgramGraph.Proofs.Passage.Blame
import ProgramGraph.Proofs.Fold.Ration
import ProgramGraph.Proofs.Solo.Brief
import ProgramGraph.Proofs.Passage.Retally
import ProgramGraph.Proofs.Sound.Hidden
import ProgramGraph.Proofs.Fold.Limit
import ProgramGraph.Proofs.Fold.Thrift
import ProgramGraph.Proofs.Format.Basic
import ProgramGraph.Proofs.Format.Token
import ProgramGraph.Proofs.Format.Spelling
import ProgramGraph.Proofs.Format.Value
import ProgramGraph.Proofs.Format.Survival
import ProgramGraph.Proofs.Format.Record
import ProgramGraph.Proofs.Format.Node
import ProgramGraph.Proofs.Format.Program
import ProgramGraph.Proofs.Course.Data
import ProgramGraph.Proofs.Fold.Data
import ProgramGraph.Proofs.Passage.Ledger
import ProgramGraph.Proofs.Passage.Await
import ProgramGraph.Proofs.Passage.Alone
import ProgramGraph.Proofs.Fold.Account
import ProgramGraph.Proofs.Passage.Balance
import ProgramGraph.Proofs.Passage.Takeover
import ProgramGraph.Proofs.Fold.Ledger
import ProgramGraph.Proofs.Passage.Deterministic
import ProgramGraph.Proofs.Passage.Enclose
import ProgramGraph.Proofs.Passage.Undergo
import ProgramGraph.Proofs.Fold.Fresh
import ProgramGraph.Proofs.Transcript.Basic
import ProgramGraph.Proofs.Transcript.Wait
import ProgramGraph.Proofs.Transcript.Punctual
import ProgramGraph.Proofs.Transcript.Frame
import ProgramGraph.Proofs.Transcript.Dialogue
import ProgramGraph.Proofs.Transcript.Evaluation
import ProgramGraph.Proofs.Fold.Settlement
import ProgramGraph.Proofs.Fold.Rescue
import ProgramGraph.Proofs.Fold.Attempts
import ProgramGraph.Proofs.Fold.Batch
import ProgramGraph.Proofs.Graph.Building
import ProgramGraph.Proofs.Fold.Coverage
import ProgramGraph.Proofs.Fold.Threshold
import ProgramGraph.Proofs.Passage.Alike
import ProgramGraph.Proofs.Schedule.Step
import ProgramGraph.Proofs.Schedule.Fallow
import ProgramGraph.Proofs.Passage.Lodge
import ProgramGraph.Proofs.Passage.Guest
import ProgramGraph.Proofs.Fold.Relocation
import ProgramGraph.Proofs.Value.Equality
import ProgramGraph.Proofs.Passage.Expect
import ProgramGraph.Proofs.Fold.Range
