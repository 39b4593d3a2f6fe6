import Promela.Expr.Reads
import Promela.Expr.Typing

/-! The footprint of an operation: what it may read and what it may write. Two operations whose
footprints do not meet in a write are independent. -/
namespace Promela

structure Footprint where
  reads : AccessSet
  writes : AccessSet
deriving DecidableEq

namespace Footprint

def empty : Footprint := ⟨∅, ∅⟩

instance : EmptyCollection Footprint := ⟨empty⟩

/-- The storage to be written. -/
def writable (e : Expr) : Checked Place :=
  match e.place? with
  | some p => .ok p
  | none => .error ⟨.notAVariable, e.span⟩

/-- A guard only reads. -/
def ofGuard (e : Expr) : Footprint := ⟨e.reads, ∅⟩

/-- The assignment `target = value`. -/
def ofAssignment (target value : Expr) : Checked Footprint := do
  let p ← writable target
  require (target.type.accepts value.type) (.assignment value.type target.type) value.span
  pure ⟨value.reads ∪ p.indexReads, .ofList [p.access]⟩

/-- The send `channel!args` reads its arguments and writes the channel. -/
def ofSend (channel : Expr) (args : List Expr) : Checked Footprint := do
  let p ← writable channel
  Typing.message channel args channel.span
  pure ⟨args.foldl (fun s e => s ∪ e.reads) p.indexReads, .ofList [p.access]⟩

/-- A variable receives the field of the message, anything else is compared with it. -/
def receiveArg (f : Footprint) (e : Expr) : Footprint :=
  match e.place? with
  | some p => ⟨f.reads ∪ p.indexReads, f.writes.insert p.access⟩
  | none => { f with reads := f.reads ∪ e.reads }

/-- The receive `channel?args` writes the channel and every variable among its arguments. -/
def ofReceive (channel : Expr) (args : List Expr) : Checked Footprint := do
  let p ← writable channel
  Typing.message channel args channel.span
  pure (args.foldl receiveArg ⟨p.indexReads, .ofList [p.access]⟩)

def union (f g : Footprint) : Footprint := ⟨f.reads ∪ g.reads, f.writes ∪ g.writes⟩

instance : Union Footprint := ⟨union⟩

/-- Neither may write what the other may read or write. -/
def independent (f g : Footprint) : Bool :=
  !f.writes.overlaps g.reads && !f.writes.overlaps g.writes && !g.writes.overlaps f.reads

end Footprint
end Promela
