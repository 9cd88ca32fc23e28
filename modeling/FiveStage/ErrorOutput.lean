import FiveStage.Simulation

/-
  Error output — the events of a run as lines, and the trace where it goes there
  too

  Everything stands in the order in which it is written. A trace is handed over
  in blocks, so a block follows the events of the cycle whose record overflows
  it, wherever in a line it ends. What is left of the trace when the run ends is
  handed over last, after the message of a fault.
-/

namespace FiveStage

/-- What has been written to the error output when a run ends, and the rest of a
trace that is still to be handed over. -/
structure ErrorOutput where
  written : String
  rest : String
  deriving DecidableEq, Repr

namespace ErrorOutput

def lines (events : List Event) : String :=
  String.join (events.map (fun e => e.line ++ "\n"))

/-- A run under way: the machine before the next cycle, what has been written
so far, and what is held back of the trace. -/
structure Progress where
  machine : Machine
  output : ErrorOutput

def cycleLines (keep : Event → Bool) (m : Machine) : String :=
  lines ((Journal.machineStep m).filter keep)

/-- An onlooker that writes the events of every cycle and the blocks of the
trace that are full. -/
def writer (keep : Event → Bool) : Onlooker Machine Progress Empty :=
  fun cycle m ⟨before, ⟨written, held⟩⟩ =>
    let (blocks, held) := Trace.handOver (held ++ Trace.record cycle m)
    (⟨m, ⟨written ++ cycleLines keep before ++ blocks, held⟩⟩, none)

def ofTraced (keep : Event → Bool) (budget : Nat) (m : Machine) : ErrorOutput :=
  let run := m.runWith (writer keep) budget ⟨m, ⟨"", Trace.header⟩⟩
  let output := run.notes.output
  match run.ending with
  | .fault _ => { output with written := output.written ++ cycleLines keep run.notes.machine }
  | .complete | .refused _ => output

def tracedStart? (host : Host) (path : String) (policy : Policy) (trace : Option String) :
    Option State :=
  match trace, policy.backend, Simulation.prepare host path policy with
  | some tracePath, .pipelined, .ok s =>
    match host.create tracePath with
    | .ok .errors => some s
    | .ok .file | .ok .output | .ok (.refusing _) | .error _ => none
  | _, _, _ => none

/-- The error output of a simulation, less what is said about its end. -/
def ofSimulation (keep : Event → Bool) (host : Host) (path : String) (policy : Policy)
    (trace : Option String) : ErrorOutput :=
  match tracedStart? host path policy trace with
  | none => ⟨lines (Journal.course keep host path policy trace), ""⟩
  | some s =>
    let loading := lines ((Journal.preparation host path policy).filter keep)
    let running := ofTraced keep policy.maxCycles (.start s)
    { running with written := loading ++ running.written }

def close (o : ErrorOutput) : String := o.written ++ o.rest

/-- The error output of a run that is broken off: the message has a line of its
own. -/
def breakOff (o : ErrorOutput) (message : String) : String :=
  let fresh := if o.written.isEmpty || o.written.endsWith "\n" then "" else "\n"
  o.written ++ fresh ++ message ++ "\n" ++ o.rest

end ErrorOutput

end FiveStage
