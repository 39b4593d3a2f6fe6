import Promela.CommandLine
import Promela.Proofs.Positions
import Promela.Proofs.Schema

/-! Results of commands: each is what the schema asks for, its parts agree with one another and with the exit
code, and what it says of a file does not depend on the command that was given. -/
namespace Promela

namespace CommandLine

open Schema

/-- The spans that come with a verdict count from 1. -/
structure Verdict.Counted (v : Verdict) : Prop where
  notices : ∀ n ∈ v.notices, n.span.Counted
  entries : ∀ a ∈ v.report?, ∀ e ∈ a.entries, e.span.Counted

/-- The parts of a result agree: it has one check, and the exit code, the check, the notices and the analysis are
as the status says. -/
structure Coherent (j : Json) (command : Command) (code : Nat) (s : Status) (c : Json) (ns : List Json) : Prop where
  status : j.member? "status" = some (.string s.name)
  exitCode : j.member? "exit_code" = some (.number code)
  outcome : (code, s) ∈ [(0, Status.pass), (2, Status.error), (3, Status.unsupported)]
  checks : j.member? "checks" = some (.array [c])
  checkStatus : c.member? "status" = some (.string s.name)
  reason : (c.member? "reason").isSome = true ↔ s ≠ .pass
  stats : (∃ v, c.member? "stats" = some v ∧ v ≠ .null) ↔ s = .pass
  diagnostics : j.member? "diagnostics" = some (.array ns)
  notices : ns ≠ [] → s = .pass
  analysis : (j.member? "analysis").isSome = true ↔ (∃ n, command = .analyze n) ∧ s = .pass

/-- Two results say the same of a file: the same status, reason, numbers and notices. -/
structure Agree (j j' : Json) : Prop where
  status : j.member? "status" = j'.member? "status"
  check : ∃ c c', j.member? "checks" = some (.array [c]) ∧ j'.member? "checks" = some (.array [c']) ∧
    c.member? "reason" = c'.member? "reason" ∧ c.member? "stats" = c'.member? "stats"
  diagnostics : j.member? "diagnostics" = j'.member? "diagnostics"

section

variable {i j : Invocation} {content : Except FileError Bytes}

/-- A verdict with no report. -/
def Verdict.plain : Verdict → Verdict
  | accepted s ns _ => accepted s ns none
  | unreadable m => unreadable m
  | rejected m => rejected m
  | unsupported m => unsupported m

end

section

variable (v : Verdict)

@[simp] theorem Verdict.status_plain : v.plain.status = v.status := by cases v <;> rfl

@[simp] theorem Verdict.message?_plain : v.plain.message? = v.message? := by cases v <;> rfl

@[simp] theorem Verdict.reasonKind_plain : v.plain.reasonKind = v.reasonKind := by cases v <;> rfl

@[simp] theorem Verdict.stats?_plain : v.plain.stats? = v.stats? := by cases v <;> rfl

@[simp] theorem Verdict.notices_plain : v.plain.notices = v.notices := by cases v <;> rfl

end

section

variable {σ : Type} (w : World (StateM σ)) (revision : Option String) (i : Invocation) (s : σ)

/-- What a run finds when it reads its file. -/
def World.found : Except FileError Bytes := (w.read i.file (w.now s).2).1

/-- The result of a run, and the state it is in when it has the result. -/
def World.result : Result × σ :=
  let started := w.now s
  let content := w.read i.file started.2
  let finished := w.now content.2
  (⟨i, revision, content.1.toOption.map sha256, (judge i content.1).1, started.1, finished.1⟩, finished.2)

theorem run_bind {α β : Type} (x : StateM σ α) (f : α → StateM σ β) :
    (x >>= f).run s = (f (x.run s).1).run (x.run s).2 := rfl

theorem run_parsed {args : List String} {o : Outcome} {s' : σ} (hargs : parse args = .ok (.run i))
    (h : (execute w revision i).run s = (o, s')) : (run w revision args).run s = (.ok o, s') := by
  unfold run
  rw [hargs]
  exact congrArg (fun r => (Except.ok r.1, r.2)) h

end

end CommandLine
end Promela
