import Promela.Rejection
import Promela.Surface
import Promela.Token

/-! Reading the front of a token list. What is read comes with the tokens left, and with the proof that
they are fewer. -/
namespace Promela
namespace Surface

/-- A value and the tokens left, fewer than `bound`. -/
structure Parsed (α : Type) (bound : Nat) where
  value : α
  rest : List Token
  shorter : rest.length < bound

/-- The outcome of reading at least one token. -/
abbrev Parse (α : Type) (ts : List Token) := Except Rejection (Parsed α ts.length)

/-- The outcome of reading any number of tokens. -/
abbrev ParseMany (α : Type) (ts : List Token) := Except Rejection (Parsed α (ts.length + 1))

/-- A larger bound holds as well. -/
def Parsed.within {m n : Nat} {α : Type} (h : m ≤ n) (p : Parsed α m) : Parsed α n :=
  ⟨p.value, p.rest, Nat.lt_of_lt_of_le p.shorter h⟩

/-- One token less is left. -/
theorem length_lt_succ (ts : List Token) : ts.length < ts.length + 1 := Nat.lt_succ_self _

/-- What is shorter than the rest is shorter than the whole that a token in front makes of it. -/
theorem length_lt_add_two {ts rest : List Token} (h : ts.length < rest.length) :
    ts.length < rest.length + 1 + 1 := by omega

/-- The next token is not what is expected. -/
def unexpected (what : String) (ts : List Token) : Rejection :=
  ⟨.malformed (.expected what), ts.head?.map (·.span)⟩

/-- Reads the token `kind` and yields its span. -/
def expect (kind : TokenKind) (what : String) : (ts : List Token) → Parse Span ts
  | t :: rest =>
    if t.kind = kind then .ok ⟨t.span, rest, length_lt_succ _⟩ else .error (unexpected what (t :: rest))
  | [] => .error (unexpected what [])

def ident (what : String) : (ts : List Token) → Parse (Located String) ts
  | ⟨.ident name, s⟩ :: rest => .ok ⟨⟨name, s⟩, rest, length_lt_succ _⟩
  | ts => .error (unexpected what ts)

/-- What is left after the token `kind`, which may be missing. -/
def skip (kind : TokenKind) : List Token → List Token
  | t :: rest => if t.kind = kind then rest else t :: rest
  | [] => []

theorem length_skip_le (kind : TokenKind) (ts : List Token) : (skip kind ts).length ≤ ts.length := by
  cases ts with
  | nil => simp [skip]
  | cons t ts => simp only [skip]; split <;> simp

end Surface
end Promela
