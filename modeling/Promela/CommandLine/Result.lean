import Promela.Analysis
import Promela.CommandLine.Arguments
import Promela.Json
import Promela.Timestamp

/-! The result of a command, as JSON and as plain text. -/
namespace Promela
namespace CommandLine

inductive Status | pass | error | unsupported
deriving DecidableEq

namespace Status

def name : Status → String
  | pass => "pass" | error => "error" | unsupported => "unsupported"

def exitCode : Status → Nat
  | pass => 0 | error => 2 | unsupported => 3

end Status

/-- How a file is judged. A report comes with `analyze` only. -/
inductive Verdict
  | accepted (stats : Stats) (notices : List Notice) (report : Option Analysis)
  | unreadable (message : String)
  | rejected (message : String)
  | unsupported (message : String)

namespace Verdict

def status : Verdict → Status
  | accepted .. => .pass
  | unreadable _ | rejected _ => .error
  | unsupported _ => .unsupported

def message? : Verdict → Option String
  | accepted .. => none
  | unreadable m | rejected m | unsupported m => some m

def stats? : Verdict → Option Stats
  | accepted s _ _ => some s
  | _ => none

def notices : Verdict → List Notice
  | accepted _ ns _ => ns
  | _ => []

def report? : Verdict → Option Analysis
  | accepted _ _ r => r
  | _ => none

/-- The kind of reason a verdict other than acceptance is given for. -/
def reasonKind : Verdict → String
  | unsupported _ => "unsupported_syntax"
  | _ => "invalid_input"

end Verdict

def toolName : String := "pmlx"

def toolVersion : String := "0.1.0"

structure Result where
  invocation : Invocation
  /-- The state of the sources the program was made from. -/
  revision : Option String
  /-- The digest of the file, none if it cannot be read. -/
  digest : Option String
  verdict : Verdict
  started : Timestamp
  finished : Timestamp

namespace Result

def status (r : Result) : Status := r.verdict.status

def spanJson (s : Span) : Json :=
  .object [("path", .string s.path), ("start_line", .number s.start.line),
    ("start_col", .number s.start.column), ("end_line", .number s.stop.line),
    ("end_col", .number s.stop.column)]

def statsJson (s : Stats) : Json :=
  .object [("mtypes", .number s.mtypes), ("variables", .number s.globals),
    ("definitions", .number s.definitions)]

def noticeJson (n : Notice) : Json := .object [("message", .string n.message), ("span", spanJson n.span)]

def entryKindName : EntryKind → String
  | .define => "define" | .initializer => "initializer"

def entryJson (e : Entry) : Json :=
  .object [("kind", .string (entryKindName e.kind)), ("name", .string e.name), ("span", spanJson e.span),
    ("result_type", .string e.type.keyword), ("int_code", .string e.intCode),
    ("bool_code", .string e.boolCode), ("reads", .array (e.reads.map .string))]

def analysisJson (a : Analysis) : Json :=
  .object [("entries", .array (a.entries.map entryJson)), ("stats", statsJson a.stats),
    ("read_locations", .number a.readLocations)]

/-- The members of an object, where some may be absent. -/
def members (ms : List (String × Option Json)) : List (String × Json) :=
  ms.filterMap fun m => m.2.map (m.1, ·)

def parallelJson : Command → Option Json
  | .analyze (some n) => some (.number n)
  | _ => none

def invocationJson (i : Invocation) : Json :=
  .object (members [("command", some (.string i.command.name)), ("args", some (.array [.string i.file])),
    ("format", some (.string i.format.name)), ("mtype_base", some (.number i.mtypeBase)),
    ("parallel", parallelJson i.command)])

def checkJson (command : Command) (v : Verdict) : Json :=
  let reason := fun m =>
    Json.object [("kind", .string v.reasonKind), ("message", .string m)]
  let stats := match v.stats? with
    | some s => statsJson s
    | none => .null
  .object (members [("name", some (.string command.name)), ("status", some (.string v.status.name)),
    ("reason", v.message?.map reason), ("stats", some stats)])

def json (r : Result) : Json :=
  let i := r.invocation
  .object (members [
    ("schema_version", some (.string "0.1")),
    ("tool", some (.object [("name", .string toolName), ("version", .string toolVersion),
      ("git_sha", .string (r.revision.getD "UNKNOWN"))])),
    ("invocation", some (invocationJson i)),
    ("inputs", some (.array [.object [("path", .string i.file),
      ("sha256", .string (r.digest.getD "UNKNOWN"))]])),
    ("status", some (.string r.status.name)),
    ("exit_code", some (.number r.status.exitCode)),
    ("started_at", some (.string r.started.text)),
    ("finished_at", some (.string r.finished.text)),
    ("duration_ms", some (.number (r.finished.milliseconds - r.started.milliseconds))),
    ("checks", some (.array [checkJson i.command r.verdict])),
    ("diagnostics", some (.array (r.verdict.notices.map noticeJson))),
    ("analysis", r.verdict.report?.map analysisJson)])

def entryLine (e : Entry) : String :=
  let reads := ", ".intercalate e.reads
  s!"{e.name} : {e.type.keyword} = {e.intCode} reads [{reads}]"

def lines (r : Result) : List String :=
  [s!"status={r.status.name} exit_code={r.status.exitCode}"]
  ++ (r.verdict.message?.map ("error: " ++ ·)).toList
  ++ r.verdict.notices.map ("warning: " ++ ·.message)
  ++ (r.verdict.report?.map (·.entries.map entryLine)).getD []

/-- The result in the format that is asked for. -/
def text (r : Result) : String :=
  match r.invocation.format with
  | .json => r.json.pretty
  | .text => "\n".intercalate r.lines

end Result
end CommandLine
end Promela
