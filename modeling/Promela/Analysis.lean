import Promela.Expr.Code
import Promela.Expr.Reads
import Promela.Model

/-! What a code generator has to know about the expressions of a model. -/
namespace Promela

inductive EntryKind | define | initializer
deriving DecidableEq

structure Entry where
  kind : EntryKind
  name : String
  span : Span
  type : ValueType
  intCode : String
  boolCode : String
  /-- The locations read, in the order of accesses. -/
  reads : List String
deriving DecidableEq

structure Analysis where
  entries : List Entry
  stats : Stats
  /-- How many locations some entry reads. -/
  readLocations : Nat
deriving DecidableEq

namespace Analysis

def entry (d : Declarations) (kind : EntryKind) (name : String) (e : Expr) : Entry :=
  ⟨kind, name, e.span, e.type, e.intCode, e.boolCode, e.reads.toList.map d.accessText⟩

/-- The macros and then the initial values, each in the order of the source. -/
def ofModel (m : Model) : Analysis where
  entries :=
    m.definitions.map (fun d => entry m.declared .define d.name.value d.body)
    ++ m.initials.map (fun i => entry m.declared .initializer i.var.name i.value)
  stats := m.stats
  readLocations :=
    let exprs := m.definitions.map (·.body) ++ m.initials.map (·.value)
    (exprs.foldl (fun s e => s ∪ e.reads) ∅ : AccessSet).size

end Analysis
end Promela
