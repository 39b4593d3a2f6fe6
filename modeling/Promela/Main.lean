import Promela.CommandLine
import Std.Time.DateTime.Timestamp

/-! The program. -/
namespace Promela
namespace CommandLine

/-- The errors of a file by number. A number may come negated in 32 bits. -/
def errorOfNumber (code : UInt32) (text : String) : FileError :=
  let code := if code < 0x80000000 then code.toNat else (0 - code).toNat
  let known := [FileError.notFound, .busy, .notADirectory, .isADirectory, .nameTooLong]
  (known.find? (·.code == code)).getD ⟨code, text⟩

/-- The number and text of a failed system call. -/
def fileError : IO.Error → FileError
  | .otherError code text | .resourceBusy code text | .resourceVanished code text
  | .unsupportedOperation code text | .hardwareFault code text | .unsatisfiedConstraints code text
  | .illegalOperation code text | .protocolError code text | .timeExpired code text
  | .alreadyExists _ code text | .interrupted _ code text | .noFileOrDirectory _ code text
  | .invalidArgument _ code text | .permissionDenied _ code text | .resourceExhausted _ code text
  | .inappropriateType _ code text | .noSuchThing _ code text => errorOfNumber code text
  | .unexpectedEof => ⟨5, "Unexpected end of file"⟩
  | .userError text => ⟨5, text⟩

def attempt {α : Type} (action : IO α) : IO (Except FileError α) := do
  match ← action.toBaseIO with
  | .ok a => pure (.ok a)
  | .error e => pure (.error (fileError e))

/-- The world outside. -/
def outside : World IO where
  read path := attempt do pure (← IO.FS.readBinFile path).toList
  write path content := attempt (IO.FS.writeBinFile path ⟨content.toArray⟩)
  rename source target := attempt (IO.FS.rename source target)
  now := do
    let t ← Std.Time.Timestamp.now
    pure ⟨t.toMillisecondsSinceUnixEpoch.val.toNat⟩

def report (o : Outcome) : IO Unit := do
  for l in o.log do IO.eprintln l.render
  for l in o.output do IO.println l
  match o.error with
  | some e => IO.eprintln s!"tool error: {e.message}"
  | none => pure ()

end CommandLine
end Promela

open Promela.CommandLine in
def main (args : List String) : IO UInt32 := do
  match ← run outside (← IO.getEnv "PMLX_GIT_SHA") args with
  | .error e =>
    IO.eprintln s!"error: {e.message}"
    pure 2
  | .ok o =>
    report o
    pure (UInt32.ofNat o.exitCode)
