import FiveStage.CommandLine
import FiveStage.ErrorOutput
import FiveStage.Report

/-
  The program — what a command line prints, and with which exit code it ends

  The exit code is 0 for a run, also one that met its limit, 1 for a failure,
  2 for a usage error and 101 for a fault of the machine. A program that the
  host has no memory for is killed and has none.
-/

namespace FiveStage

namespace Program

/-- What a run of the program leaves behind: exit code, the two outputs, and
the trace file with its text, if one was created. -/
structure Result where
  code : Option Nat
  out : String
  err : String
  written : Option (String × String)
  deriving DecidableEq, Repr

def versionText : String := "sim 0.1.0\n"

def helpText : String :=
  "Usage: sim [OPTIONS] <IMAGE>\n\n"
    ++ "  <IMAGE>                  program: an executable, or words loaded at address 0\n"
    ++ "  -i, --implementation <P|S>  pipelined or one instruction at a time\n"
    ++ "  -n, --max-cycles <N>     the most cycles to run\n"
    ++ "      --memory-words <N>   memory capacity in words\n"
    ++ "      --trace <FILE>       write what is in the pipeline after every cycle\n"
    ++ "      --screen             print the screen after the run\n"
    ++ "  -v, --verbose            report every cycle\n"
    ++ "  -h, --help\n"
    ++ "  -V, --version\n"

/-- The answer to a command line that asks for no run. -/
def decline : CommandLine.Problem → Result
  | .displayHelp => ⟨some 0, helpText, "", none⟩
  | .displayVersion => ⟨some 0, versionText, "", none⟩
  | p => ⟨some 2, "", "error: " ++ p.name ++ "\n", none⟩

/-- The level of the events that a request wants reported. -/
def threshold (r : CommandLine.Request) : Level := if r.verbose then .debug else .warn

/-- What a trace adds to the output and to the files. -/
structure Deposit where
  out : String
  written : Option (String × String)

def deposit (host : Host) (trace text : Option String) : Deposit :=
  match trace, text with
  | some path, some text =>
    match host.create path with
    | .ok .file => ⟨"", some (path, text)⟩
    | .ok .output => ⟨text, none⟩
    | .ok .errors | .ok (.refusing _) | .error _ => ⟨"", none⟩
  | _, _ => ⟨"", none⟩

/-- Runs a request. The trace is complete before the last event is reported. -/
def perform (host : Host) (r : CommandLine.Request) : Result :=
  let keep := Event.visible (threshold r)
  let (result, text) := Simulation.run host r.image r.policy r.trace
  let log := ErrorOutput.ofSimulation keep host r.image r.policy r.trace
  let trace := deposit host r.trace text
  match result with
  | .ok o =>
    let last := ErrorOutput.lines (Journal.conclusion keep result)
    let limit :=
      if o.finished then "" else "Cycle limit of " ++ toString o.cycles ++ " reached\n"
    let screen := if r.screen then Report.screen o.state.mem else ""
    ⟨some 0, trace.out ++ Report.registers o.state.cpu ++ screen,
      log.close ++ last ++ limit, trace.written⟩
  | .error (.error e) =>
    ⟨some 1, trace.out, log.close ++ "Error: " ++ e.diagnostic ++ "\n", trace.written⟩
  | .error (.fault f) =>
    ⟨some 101, trace.out, log.breakOff f.message, trace.written⟩
  | .error (.exhausted bytes) =>
    ⟨none, "", log.breakOff (Failure.exhausted bytes).message, none⟩

def run (host : Host) (args : List String) : Result :=
  match CommandLine.parse args with
  | .error p => decline p
  | .ok r => perform host r

end Program

end FiveStage
