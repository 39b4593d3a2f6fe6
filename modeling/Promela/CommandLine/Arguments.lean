/-! The command line: two commands, each with a file, and options that may stand before or behind the
command. An option given behind it wins over the same option given before it. -/
namespace Promela
namespace CommandLine

inductive Format | json | text
deriving DecidableEq

def Format.name : Format → String
  | .json => "json" | .text => "text"

inductive Command
  | typecheck
  /-- With the number of workers, if that is given. -/
  | analyze (parallel : Option Nat)
deriving DecidableEq

def Command.name : Command → String
  | .typecheck => "typecheck" | .analyze _ => "analyze"

structure Invocation where
  command : Command
  file : String
  format : Format
  output : Option String
  verbose : Bool
  mtypeBase : Nat
deriving DecidableEq

inductive UsageError
  | missingCommand
  | missingFile
  | missingValue (option : String)
  | invalidValue (option value : String)
  | repeated (option : String)
  | unexpected (argument : String)
deriving DecidableEq

def UsageError.message : UsageError → String
  | missingCommand => "a command is required: typecheck or analyze"
  | missingFile => "a file is required"
  | missingValue o => s!"a value is required for {o}"
  | invalidValue o v => s!"invalid value for {o}: {v}"
  | repeated o => s!"{o} cannot be used multiple times"
  | unexpected a => s!"unexpected argument: {a}"

inductive Request
  | run (invocation : Invocation)
  | version
  | help
deriving DecidableEq

/-- What has been given on one side of the command. -/
structure Given where
  format : Option Format
  output : Option String
  verbose : Bool
  mtypeBase : Option Nat
  parallel : Option Nat
  file : Option String
deriving DecidableEq

/-- Where an argument stands: only `analyze` has workers, and only behind a command there is a file. -/
inductive Level | top | typecheck | analyze
deriving DecidableEq

inductive OptionName | format | output | mtypeBase | parallel
deriving DecidableEq

def OptionName.text : OptionName → String
  | format => "--format" | output => "--output" | mtypeBase => "--mtype-base" | parallel => "--parallel"

/-- One argument, taken by itself. -/
inductive Argument
  /-- After `--` nothing is an option. -/
  | escape
  /-- An option, with its value if that is attached. -/
  | option (name : OptionName) (value : Option String)
  | flags (letters : List Char)
  | verbose
  | version
  | help
  | unknown
  | plain
deriving DecidableEq

def optionNamed? (level : Level) (word : String) : Option OptionName :=
  let names : List OptionName := [.format, .output, .mtypeBase] ++ if level = .analyze then [.parallel] else []
  names.find? (·.text = word)

/-- A single dash is a plain argument, and a value may be attached to the name of an option. -/
def Argument.ofString (level : Level) (s : String) : Argument :=
  match s.toList with
  | ['-', '-'] => .escape
  | '-' :: '-' :: _ =>
    let name := String.ofList (s.toList.takeWhile (· != '='))
    let value :=
      match s.toList.dropWhile (· != '=') with
      | [] => none
      | _ :: v => some (String.ofList v)
    match optionNamed? level name with
    | some o => .option o value
    | none =>
      match name, value with
      | "--verbose", none => .verbose
      | "--help", none => .help
      | "--version", none => if level = .top then .version else .unknown
      | _, _ => .unknown
  | '-' :: c :: cs => .flags (c :: cs)
  | _ => .plain

def digits? : List Char → Option Nat
  | [] => none
  | cs => if cs.all Char.isDigit then some (cs.foldl (fun n d => 10 * n + (d.toNat - '0'.toNat)) 0) else none

/-- A number below `limit`, with a plus sign or without. -/
def unsigned? (limit : Nat) (s : String) : Option Nat :=
  let n := match s.toList with
    | '+' :: cs => digits? cs
    | cs => digits? cs
  n.filter (· < limit)

/-- A number of at most 32 bits. Zero may have a minus sign. -/
def word32? (s : String) : Option Nat :=
  match s.toList with
  | '-' :: cs => (digits? cs).filter (· = 0)
  | _ => unsigned? UInt32.size s

def format? (s : String) : Option Format := [Format.json, .text].find? (·.name = s)

abbrev Parsed := Except UsageError

namespace Given

def none : Given := ⟨.none, .none, false, .none, .none, .none⟩

/-- Fills an option that is not given yet. -/
def fill {α : Type} (o : OptionName) (s : String) (old new : Option α) : Parsed (Option α) :=
  match old, new with
  | some _, _ => .error (.repeated o.text)
  | _, .none => .error (.invalidValue o.text s)
  | _, some v => .ok (some v)

def set (g : Given) (o : OptionName) (s : String) : Parsed Given := do
  match o with
  | .format => pure { g with format := ← fill o s g.format (format? s) }
  | .output => pure { g with output := ← fill o s g.output (if s = "" then .none else some s) }
  | .mtypeBase => pure { g with mtypeBase := ← fill o s g.mtypeBase (word32? s) }
  | .parallel => pure { g with parallel := ← fill o s g.parallel (unsigned? UInt64.size s) }

def setVerbose (g : Given) : Parsed Given :=
  if g.verbose then .error (.repeated "--verbose") else .ok { g with verbose := true }

def setFile (g : Given) (s : String) : Parsed Given :=
  match g.file with
  | some _ => .error (.unexpected s)
  | .none => if s = "" then .error (.invalidValue "the file" s) else .ok { g with file := some s }

end Given

/-- Letters behind one dash. -/
def flags (level : Level) (g : Given) : List Char → Parsed (Given ⊕ Request)
  | [] => .ok (.inl g)
  | 'v' :: cs => do flags level (← g.setVerbose) cs
  | 'h' :: _ => .ok (.inr .help)
  | 'V' :: cs =>
    if level = .top then .ok (.inr .version) else .error (.unexpected (String.ofList ('V' :: cs)))
  | cs => .error (.unexpected (String.ofList cs))

def plain (level : Level) (g : Given) (s : String) : Parsed Given :=
  if level = .top then .error (.unexpected s) else g.setFile s

def commandNamed? : String → Option Level
  | "typecheck" => some .typecheck
  | "analyze" => some .analyze
  | _ => none

/-- `help` may be followed by the command it is asked for. -/
def helpFor : List String → Parsed Request
  | [] | ["typecheck"] | ["analyze"] | ["help"] => .ok .help
  | s :: _ => .error (.unexpected s)

/-- The value of an option is the next argument, unless that looks like an option itself. -/
def looksLikeOption (s : String) : Bool :=
  match s.toList with
  | '-' :: _ :: _ => true
  | _ => false

/-- The request of what is given before and behind a command. -/
def request (command : Command) (before behind : Given) : Parsed Request :=
  match behind.file with
  | none => .error .missingFile
  | some file =>
    .ok (.run ⟨command, file, (behind.format <|> before.format).getD .json,
      behind.output <|> before.output, behind.verbose || before.verbose,
      (behind.mtypeBase <|> before.mtypeBase).getD 0⟩)

def finish (level : Level) (before behind : Given) : Parsed Request :=
  match level with
  | .top => .error .missingCommand
  | .typecheck => request .typecheck before behind
  | .analyze => request (.analyze behind.parallel) before behind

/-- Takes the arguments from left to right; the first problem counts. `before` was given before the
command, `g` at this level. -/
def scan (level : Level) (before g : Given) : List String → Parsed Request
  | [] => finish level before g
  | s :: rest => do
    match Argument.ofString level s with
    | .escape => finish level before (← rest.foldlM (plain level) g)
    | .verbose => scan level before (← g.setVerbose) rest
    | .version => pure .version
    | .help => pure .help
    | .unknown => throw (.unexpected s)
    | .flags cs =>
      match ← flags level g cs with
      | .inl g => scan level before g rest
      | .inr answer => pure answer
    | .option o (some v) => scan level before (← g.set o v) rest
    | .option o none =>
      match rest with
      | [] => throw (.missingValue o.text)
      | v :: rest =>
        if looksLikeOption v then throw (.missingValue o.text)
        else scan level before (← g.set o v) rest
    | .plain =>
      match level, s with
      | .top, "help" => helpFor rest
      | .top, s =>
        match commandNamed? s with
        | some command => scan command g .none rest
        | none => throw (.unexpected s)
      | _, _ => scan level before (← g.setFile s) rest

/-- The request of a whole command line, without the name of the program. -/
def parse (args : List String) : Parsed Request := scan .top .none .none args

end CommandLine
end Promela
