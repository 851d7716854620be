import TapeLang.Batch
import TapeLang.Command.Arguments
import TapeLang.Command.Batch
import TapeLang.Command.Directory
import TapeLang.Command.Inspect
import TapeLang.Command.Invoke
import TapeLang.Command.Outcome
import TapeLang.Command.ProgramFile
import TapeLang.Command.Run
import TapeLang.Command.Threshold
import TapeLang.Event
import TapeLang.Instruction
import TapeLang.Interpretation
import TapeLang.Machine.Basic
import TapeLang.Machine.Config
import TapeLang.Machine.Device
import TapeLang.Machine.Error
import TapeLang.Main
import TapeLang.Program.Balance
import TapeLang.Program.Basic
import TapeLang.Program.Census
import TapeLang.Program.Listing
import TapeLang.Program.Loader
import TapeLang.Program.Pairing
import TapeLang.Stream.Fault
import TapeLang.Stream.Sink
import TapeLang.Stream.Source
import TapeLang.Tape
import TapeLang.Proofs.Program.Nesting
import TapeLang.Proofs.Program.Resolution
import TapeLang.Proofs.Machine.Effect
import TapeLang.Proofs.Machine.Transition
import TapeLang.Proofs.Machine.Run
import TapeLang.Proofs.Machine.Unmatched
import TapeLang.Proofs.Program.Search
import TapeLang.Proofs.Program.Tree
import TapeLang.Proofs.Machine.Table
import TapeLang.Proofs.Machine.Evaluation
import TapeLang.Proofs.Machine.Structured
import TapeLang.Proofs.Machine.Commentary
import TapeLang.Proofs.Machine.Resumption
import TapeLang.Proofs.Machine.Stepping
import TapeLang.Proofs.Machine.History
import TapeLang.Proofs.Machine.Budget
import TapeLang.Proofs.Machine.Reachable
import TapeLang.Proofs.Machine.Boundary
import TapeLang.Proofs.Machine.Fragment
import TapeLang.Proofs.Machine.Coupling
import TapeLang.Proofs.Machine.TapeLength
import TapeLang.Proofs.Stream.Supply
import TapeLang.Proofs.Machine.Accounting
import TapeLang.Proofs.Machine.Causality
import TapeLang.Proofs.Stream.Interruption
import TapeLang.Proofs.Interruption
import TapeLang.Proofs.Stream.Segment
import TapeLang.Proofs.Program.Loading
import TapeLang.Proofs.Batch
import TapeLang.Proofs.Trace
import TapeLang.Proofs.Machine.Trace
import TapeLang.Proofs.Program.Grammar
import TapeLang.Proofs.Command.Run
import TapeLang.Proofs.Program.Pairing
import TapeLang.Proofs.Command.Batch
import TapeLang.Proofs.Stream.Reply
import TapeLang.Proofs.Program.Completion
import TapeLang.Proofs.Machine.Refusal
import TapeLang.Proofs.Machine.Straight
import TapeLang.Proofs.Tape
import TapeLang.Proofs.Program.Depth
import TapeLang.Proofs.Program.Listing
import TapeLang.Proofs.Program.Census
import TapeLang.Proofs.Command.Inspect
import TapeLang.Proofs.Machine.Handover
import TapeLang.Proofs.Command.Drive
