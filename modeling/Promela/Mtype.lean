import Promela.Fault

/-! Enumerated constants. Their codes are dense: the constant at place `k` has the code `base + k`, and
every code fits a byte. -/
namespace Promela

structure Mtypes where
  base : Nat
  names : List String
deriving DecidableEq

namespace Mtypes

def withBase (base : Nat) : Mtypes := ⟨base, []⟩

def size (m : Mtypes) : Nat := m.names.length

def code? (m : Mtypes) (name : String) : Option Nat := (m.names.idxOf? name).map (m.base + ·)

def name? (m : Mtypes) (code : Nat) : Option String :=
  if m.base ≤ code then m.names[code - m.base]? else none

def contains (m : Mtypes) (code : Nat) : Bool := (m.name? code).isSome

def lookup (m : Mtypes) (name : String) (span : Span) : Checked Nat :=
  match m.code? name with
  | some code => .ok code
  | none => .error ⟨.undefinedMtype name, span⟩

/-- No model has more constants than this. -/
def limit : Nat := 255

def declare (m : Mtypes) (name : String) (span : Span) : Checked (Nat × Mtypes) :=
  if name ∈ m.names then .error ⟨.duplicateMtype name, span⟩
  else if limit ≤ m.size then .error ⟨.tooManyMtypes, span⟩
  else if ValueType.mtype.maxValue < (m.base + m.size : Nat) then .error ⟨.mtypeAboveByte name, span⟩
  else .ok (m.base + m.size, { m with names := m.names ++ [name] })

/-- The constants with their codes, in code order. -/
def entries (m : Mtypes) : List (String × Nat) := m.names.zipIdx m.base

end Mtypes
end Promela
