import Promela.Model

/-! What happens while a source text is read, for a log. -/
namespace Promela

inductive Event
  | mtypesFrozen (count base : Nat)
  | variableDeclared (name : String) (id : VarId)
  | recordDefined (name : String) (fields : Nat)
  | modelResolved (path : String) (stats : Stats)
  | modelAnalyzed (entries locations : Nat)
  | sourceRejected (path message : String)
deriving DecidableEq

namespace Event

def text : Event → String
  | mtypesFrozen n base => s!"froze mtype registry: {n} constant(s) from base {base}"
  | variableDeclared name id => s!"declared variable {name} as VarId({id})"
  | recordDefined name n => s!"defined typedef {name} with {n} field(s)"
  | modelResolved path s =>
    s!"resolved {path}: {s.mtypes} mtype(s), {s.globals} variable(s), {s.definitions} definition(s)"
  | modelAnalyzed n locations => s!"analyzed {n} entr(ies), {locations} distinct read location(s)"
  | sourceRejected path message => s!"frontend rejected {path}: {message}"

end Event
end Promela
