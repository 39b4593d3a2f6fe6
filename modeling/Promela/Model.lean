import Promela.Declarations
import Promela.Expr
import Promela.Mtype

/-! A model: the declarations of a source text with every name looked up. -/
namespace Promela

/-- A macro. Its body stands for every later use of its name. -/
structure Definition where
  name : Located String
  body : Expr

/-- The value a variable is declared with. -/
structure InitialValue where
  var : Variable
  value : Expr

/-- What deserves attention in a model that is accepted. -/
inductive Notice
  | unusedMtype (constant : Located String)
deriving DecidableEq

namespace Notice

def message : Notice → String
  | unusedMtype c => s!"mtype constant {c.value} is never used"

def span : Notice → Span
  | unusedMtype c => c.span

end Notice

/-- Numbers of constants, global variables and macros. -/
structure Stats where
  mtypes : Nat
  globals : Nat
  definitions : Nat
deriving DecidableEq

structure Model where
  mtypes : Mtypes
  declared : Declarations
  definitions : List Definition
  initials : List InitialValue
  notices : List Notice

namespace Model

def definition? (m : Model) (name : String) : Option Definition :=
  m.definitions.find? (·.name.value = name)

def stats (m : Model) : Stats := ⟨m.mtypes.size, m.declared.size, m.definitions.length⟩

end Model
end Promela
