import FiveStage.Alu
import FiveStage.CommandLine
import FiveStage.Elf
import FiveStage.Elf.Load
import FiveStage.Encoding
import FiveStage.ErrorOutput
import FiveStage.Event
import FiveStage.Failure
import FiveStage.Fault
import FiveStage.FileError
import FiveStage.Hazard
import FiveStage.Host
import FiveStage.Host.Disk
import FiveStage.Image
import FiveStage.InFlight
import FiveStage.InFlight.Commit
import FiveStage.InFlight.Decode
import FiveStage.InFlight.Execute
import FiveStage.Journal.Cycle
import FiveStage.Journal.Load
import FiveStage.Journal.Run
import FiveStage.Journal.Stages
import FiveStage.Machine
import FiveStage.Main
import FiveStage.Memory
import FiveStage.Program
import FiveStage.Proofs.Agreement
import FiveStage.Proofs.Commit
import FiveStage.Proofs.Course
import FiveStage.Proofs.Lockstep
import FiveStage.Proofs.Operands
import FiveStage.Proofs.Phases
import FiveStage.Proofs.Schedule
import FiveStage.Proofs.Stages
import FiveStage.Proofs.Timing
import FiveStage.Registers
import FiveStage.Report
import FiveStage.Run
import FiveStage.Sequential
import FiveStage.Simulation
import FiveStage.Slots
import FiveStage.State
import FiveStage.Trace
import FiveStage.Word
import FiveStage.Proofs.Passage
import FiveStage.Proofs.Isolation
import FiveStage.Proofs.ProgramCounter
import FiveStage.Proofs.Effects
import FiveStage.Proofs.Checks
import FiveStage.Proofs.Faults
import FiveStage.Proofs.Widening
import FiveStage.Proofs.Straying
import FiveStage.Proofs.StageOrder
import FiveStage.Proofs.Rv32i
import FiveStage.Proofs.Numbers
import FiveStage.Proofs.Conformance
import FiveStage.Proofs.Loading
import FiveStage.Proofs.Finishing
import FiveStage.Proofs.Capacity
import FiveStage.Proofs.Resolution
import FiveStage.Proofs.Assembly
import FiveStage.Proofs.Reach
import FiveStage.Proofs.StoreLoad
import FiveStage.Proofs.Streams
import FiveStage.Proofs.Segments
import FiveStage.Proofs.FailedLoads
import FiveStage.Proofs.Ranges
import FiveStage.Proofs.Stopping
import FiveStage.Proofs.Transcripts
import FiveStage.Proofs.Histories
