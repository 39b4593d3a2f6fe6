import Promela.CommandLine.Result
import Promela.FileSystem
import Promela.Model.Reading
import Promela.Sha256

/-! Running a command: reading the file, judging it, and handing over the result. All that a run does
to the files around it goes through a `World`. -/
namespace Promela
namespace CommandLine

/-- What a run may ask of its surroundings. -/
structure World (m : Type → Type) where
  read : String → m (Except FileError Bytes)
  write : String → Bytes → m (Except FileError Unit)
  rename : String → String → m (Except FileError Unit)
  now : m Timestamp

/-- A file system as a world in which no time passes. -/
def World.ofFiles (time : Timestamp) : World (StateM FileSystem) where
  read path := fun fs => (fs.read path, fs)
  write path content := fun fs =>
    match fs.write path content with
    | .ok fs => (.ok (), fs)
    | .error e => (.error e, fs)
  rename source target := fun fs =>
    match fs.rename source target with
    | .ok fs => (.ok (), fs)
    | .error e => (.error e, fs)
  now := pure time

inductive LogLevel | debug | info
deriving DecidableEq

def LogLevel.name : LogLevel → String
  | .debug => "DEBUG" | .info => "INFO"

structure LogLine where
  level : LogLevel
  text : String
deriving DecidableEq

def LogLine.render (l : LogLine) : String := s!"[{l.level.name}] {l.text}"

/-- Why a command cannot be carried out. -/
inductive ToolError
  | noWorkers
  | unwritten (path : String) (error : FileError)
  | unrenamed (path : String) (error : FileError)
deriving DecidableEq

def ToolError.message : ToolError → String
  | noWorkers => "--parallel must be >= 1"
  | unwritten path e => s!"write {path}: {e.message}"
  | unrenamed path e => s!"rename {path}: {e.message}"

/-- What is left of a run, its effects on files apart. -/
structure Outcome where
  exitCode : Nat
  output : List String
  log : List LogLine
  error : Option ToolError
deriving DecidableEq

def Outcome.failed (log : List LogLine) (e : ToolError) : Outcome := ⟨2, [], log, some e⟩

/-- The verdict on the text of a file, with the log of how it was found. The number of workers is not read: no
entry of an analysis depends on another one, so workers that can be started, and whose entries are collected
in order, give the list that one worker gives. -/
def judgeText (command : Command) (base : Nat) (path source : String) : Verdict × List Event :=
  let reading := Reading.ofSource base path source
  match reading.outcome with
  | .error r =>
    let verdict := match r.reason with
      | .unread _ => .unsupported r.message
      | .malformed _ | .fault _ => .rejected r.message
    (verdict, reading.log ++ [.sourceRejected path r.message])
  | .ok m =>
    match command with
    | .typecheck => (.accepted m.stats m.notices none, reading.log)
    | .analyze _ =>
      let report := Analysis.ofModel m
      (.accepted m.stats m.notices (some report),
        reading.log ++ [.modelAnalyzed report.entries.length report.readLocations])

/-- The message for a file whose bytes are not text. -/
def notText : String := "cannot read input: stream did not contain valid UTF-8"

def judge (i : Invocation) (content : Except FileError Bytes) : Verdict × List Event :=
  match content with
  | .error e => (.unreadable s!"{i.file}: {e.message}", [])
  | .ok bytes =>
    match bytes.text? with
    | none => (.rejected notText, [.sourceRejected i.file notText])
    | some source => judgeText i.command i.mtypeBase i.file source

def logLines (i : Invocation) (v : Verdict) (events : List Event) : List LogLine :=
  if i.verbose then
    events.map (fun e => ⟨.debug, e.text⟩)
    ++ [⟨.info, s!"{i.command.name} {i.file}: {v.status.name}"⟩]
  else []

/-- Writes a file beside the target first and then gives it the name of the target. -/
def writeResult {m : Type → Type} [Monad m] (w : World m) (path text : String) :
    m (Option ToolError) := do
  let draft := Path.withExtension path "tmp"
  match ← w.write draft (.ofText text) with
  | .error e => pure (some (.unwritten draft e))
  | .ok _ =>
    match ← w.rename draft path with
    | .error e => pure (some (.unrenamed path e))
    | .ok _ => pure none

def execute {m : Type → Type} [Monad m] (w : World m) (revision : Option String) (i : Invocation) :
    m Outcome := do
  if i.command = .analyze (some 0) then return .failed [] .noWorkers
  let started ← w.now
  let content ← w.read i.file
  let (verdict, events) := judge i content
  let log := logLines i verdict events
  let finished ← w.now
  let digest := content.toOption.map sha256
  let result : Result := ⟨i, revision, digest, verdict, started, finished⟩
  match i.output with
  | none => pure ⟨result.status.exitCode, [result.text], log, none⟩
  | some path =>
    match ← writeResult w path result.text with
    | some e => pure (.failed log e)
    | none => pure ⟨result.status.exitCode, [], log, none⟩

def helpLines : List String :=
  ["Usage: pmlx [OPTIONS] <COMMAND>",
    "",
    "Commands:",
    "  typecheck <FILE>  Parse and resolve a model",
    "  analyze <FILE>    Typecheck, then report type, generated code and reads of every #define and initializer",
    "",
    "Options:",
    "      --format <FORMAT>          json (default) or text",
    "      --output <OUTPUT>          Write the result to a file",
    "  -v, --verbose                  Log resolution and analysis progress",
    "      --mtype-base <MTYPE_BASE>  First code assigned to mtype constants",
    "      --parallel <PARALLEL>      Number of workers (analyze only)",
    "  -h, --help                     Print help",
    "  -V, --version                  Print version"]

/-- Carries out a command line. -/
def run {m : Type → Type} [Monad m] (w : World m) (revision : Option String) (args : List String) :
    m (Except UsageError Outcome) :=
  match parse args with
  | .error e => pure (.error e)
  | .ok .version => pure (.ok ⟨0, [s!"{toolName} {toolVersion}"], [], none⟩)
  | .ok .help => pure (.ok ⟨0, helpLines, [], none⟩)
  | .ok (.run i) => .ok <$> execute w revision i

end CommandLine
end Promela
