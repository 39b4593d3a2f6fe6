/-! Places in a source text. Lines and columns count from 1, a column is one byte, and both ends of a
span belong to it. -/
namespace Promela

/-- Lines and columns are not bounded. Counters of 32 bits give the same positions as long as no line and no
column passes `2 ^ 32 - 1`. -/
structure Position where
  line : Nat
  column : Nat
deriving DecidableEq

namespace Position

def first : Position := ⟨1, 1⟩

/-- The position after the byte `c`. -/
def next (p : Position) (c : Char) : Position :=
  if c = '\n' then ⟨p.line + 1, 1⟩ else ⟨p.line, p.column + 1⟩

def advance (p : Position) (text : List Char) : Position := text.foldl next p

end Position

structure Span where
  path : String
  start : Position
  stop : Position
deriving DecidableEq

namespace Span

def point (path : String) (p : Position) : Span := ⟨path, p, p⟩

/-- From the start of `s` to the end of `t`. -/
def through (s t : Span) : Span := ⟨s.path, s.start, t.stop⟩

end Span

/-- A value together with the piece of source it was read from. -/
structure Located (α : Type) where
  value : α
  span : Span
deriving DecidableEq

/-- A message headed by the position it is about. -/
def Span.headed (span : Span) (message : String) : String :=
  s!"{span.path}:{span.start.line}:{span.start.column}: {message}"

end Promela
