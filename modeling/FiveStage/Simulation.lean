import FiveStage.Host
import FiveStage.Elf.Load
import FiveStage.Journal.Load
import FiveStage.Journal.Run
import FiveStage.Trace

/-
  Simulations — a program file loaded and run to its end or to a limit

  What a simulation needs from its surroundings is asked of a `Host`, so a
  simulation is a function: the same host and the same policy give the same
  result, the same trace and the same events.
-/

namespace FiveStage

inductive Backend where
  | pipelined
  | sequential
  deriving DecidableEq, Repr

structure Policy where
  backend : Backend
  /-- Memory capacity in words. -/
  memoryWords : Nat
  /-- The most cycles or instructions that are run. -/
  maxCycles : Nat
  deriving DecidableEq, Repr

def Policy.standard : Policy := ⟨.pipelined, 40000, 1000000⟩

structure Outcome where
  state : State
  /-- Cycles of the pipeline, or instructions executed one at a time. -/
  cycles : Nat
  /-- Whether the program came to its end before the limit. -/
  finished : Bool

namespace Simulation

def loadProgram (path : String) (file : List Byte) (s : State) : State × Option SimError :=
  if Elf.isElf file then Elf.load path file s
  else
    match Image.loadBytes s.mem file with
    | (mem, .ok _) => ({ s with mem }, none)
    | (mem, .error o) => ({ s with mem }, some (.ofObstacle o))

/-- The state before a program is loaded. -/
def blank (host : Host) (policy : Policy) : Except Failure State :=
  if policy.memoryWords = 0 then .error (.error (.config .noMemory))
  else
    match State.reset policy.memoryWords with
    | .error f => .error (.fault f)
    | .ok s => if host.memory < s.mem.size then .error (.exhausted s.mem.size) else .ok s

/-- The state in which a program starts. The memory is there before the file is
looked for. -/
def prepare (host : Host) (path : String) (policy : Policy) : Except Failure State :=
  match blank host policy with
  | .error e => .error e
  | .ok s =>
    match host.read path with
    | .error e => .error (.error (.file e))
    | .ok file =>
      match loadProgram path file s with
      | (s, none) => .ok s
      | (_, some e) => .error (.error e)

def conclude {σ α ε : Type} (objection : ε → SimError) (run : Run σ α ε)
    (outcome : σ → Nat → Outcome) : Except Failure Outcome :=
  match run.ending with
  | .complete => .ok (outcome run.state run.steps)
  | .fault f => .error (.fault f)
  | .refused e => .error (.error (objection e))

/-- A machine's run is finished when nothing is in flight or to be fetched. -/
def pipelinedOutcome (m : Machine) (cycles : Nat) : Outcome := ⟨m.state, cycles, m.isIdle⟩

/-- Sequential execution is finished when it stops short of its limit. -/
def sequentialOutcome (limit : Nat) (s : State) (steps : Nat) : Outcome :=
  ⟨s, steps, steps < limit⟩

def execute (policy : Policy) (s : State) : Except Failure Outcome :=
  match policy.backend with
  | .sequential =>
    conclude Empty.elim (Sequential.run policy.maxCycles s) (sequentialOutcome policy.maxCycles)
  | .pipelined => conclude Empty.elim ((Machine.start s).run policy.maxCycles) pipelinedOutcome

def tracedRun (policy : Policy) (sink : Sink) (s : State) : Run Machine String FileError :=
  (Machine.start s).runWith (Trace.recorder sink) policy.maxCycles Trace.header

/-- The result of a run that has written a trace. The rest of the trace is
handed over when the run is complete. -/
def concludeTraced (sink : Sink) (run : Run Machine String FileError) : Except Failure Outcome :=
  match conclude SimError.trace run pipelinedOutcome, sink.refusal? with
  | .ok _, some e => .error (.error (.file e))
  | result, _ => result

theorem conclude_eq_ok_iff {σ α ε : Type} {objection : ε → SimError} {run : Run σ α ε}
    {outcome : σ → Nat → Outcome} {o : Outcome} :
    conclude objection run outcome = .ok o ↔
      run.ending = .complete ∧ o = outcome run.state run.steps := by
  unfold conclude
  cases run.ending <;> simp [eq_comm]

theorem concludeTraced_eq_ok_iff {sink : Sink} {run : Run Machine String FileError} {o : Outcome} :
    concludeTraced sink run = .ok o ↔
      sink.refusal? = none ∧ conclude SimError.trace run pipelinedOutcome = .ok o := by
  unfold concludeTraced
  cases conclude SimError.trace run pipelinedOutcome <;> cases sink.refusal? <;> simp

/-- Loads and runs the program at `path`. The second part is the text of the
trace, if its file was created; it also covers the cycles before a fault. -/
def run (host : Host) (path : String) (policy : Policy) (trace : Option String) :
    Except Failure Outcome × Option String :=
  match prepare host path policy with
  | .error e => (.error e, none)
  | .ok s =>
    match trace with
    | none => (execute policy s, none)
    | some tracePath =>
      match policy.backend with
      | .sequential => (.error (.error (.config .traceNeedsPipeline)), none)
      | .pipelined =>
        match host.create tracePath with
        | .error e => (.error (.error (.trace e)), none)
        | .ok sink =>
          let run := tracedRun policy sink s
          (concludeTraced sink run, some run.notes)

end Simulation

namespace Journal

def preparation (host : Host) (path : String) (policy : Policy) : List Event :=
  match Simulation.blank host policy with
  | .error _ => []
  | .ok s =>
    match host.read path with
    | .error _ => []
    | .ok file =>
      if Elf.isElf file then executable path file s else image (Image.loadBytes s.mem file)

def execution (keep : Event → Bool) (policy : Policy) (s : State) : List Event :=
  match policy.backend with
  | .sequential => sequentialRun keep policy.maxCycles s
  | .pipelined => machineRun keep policy.maxCycles (.start s)

/-- The events of running a loaded program that writes a trace, up to the block
that is refused. -/
def tracedExecution (keep : Event → Bool) (policy : Policy) (sink : Sink) (s : State) :
    List Event :=
  match sink.refusal? with
  | none => machineRun keep policy.maxCycles (.start s)
  | some _ =>
    let run := Simulation.tracedRun policy sink s
    match run.ending with
    | .refused _ => machineRun keep run.steps (.start s)
    | .complete | .fault _ => machineRun keep policy.maxCycles (.start s)

/-- The events of a simulation that pass a filter, up to its last. -/
def course (keep : Event → Bool) (host : Host) (path : String) (policy : Policy)
    (trace : Option String) : List Event :=
  (preparation host path policy).filter keep ++
    match Simulation.prepare host path policy with
    | .error _ => []
    | .ok s =>
      match trace, policy.backend with
      | none, _ => execution keep policy s
      | some _, .sequential => []
      | some tracePath, .pipelined =>
        match host.create tracePath with
        | .error _ => []
        | .ok sink => tracedExecution keep policy sink s

def conclusion (keep : Event → Bool) : Except Failure Outcome → List Event
  | .ok o => [.stopped o.cycles o.state.cpu.pc o.finished].filter keep
  | .error _ => []

def simulation (keep : Event → Bool) (host : Host) (path : String) (policy : Policy)
    (trace : Option String) (result : Except Failure Outcome) : List Event :=
  course keep host path policy trace ++ conclusion keep result

end Journal

end FiveStage
