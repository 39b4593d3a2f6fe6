/-! JSON values and their indented text. -/
namespace Promela

inductive Json where
  | null
  | number (value : Nat)
  | string (value : String)
  | array (items : List Json)
  | object (members : List (String × Json))

namespace Json

def hexDigit (n : Nat) : Char := "0123456789abcdef".toList.getD n '0'

/-- Control characters are escaped, the shorter way where there is one. -/
def escape (c : Char) : List Char :=
  match c with
  | '"' => ['\\', '"']
  | '\\' => ['\\', '\\']
  | '\x08' => ['\\', 'b']
  | '\x0c' => ['\\', 'f']
  | '\n' => ['\\', 'n']
  | '\r' => ['\\', 'r']
  | '\t' => ['\\', 't']
  | c =>
    if c.toNat < 32 then
      ['\\', 'u', '0', '0', hexDigit (c.toNat / 16), hexDigit (c.toNat % 16)]
    else [c]

def quote (s : String) : String := "\"" ++ String.ofList (s.toList.flatMap escape) ++ "\""

/-- Lines of one level of nesting, between brackets on lines of their own. -/
def block (opening closing : String) (indent : Nat) (lines : List String) : String :=
  if lines.isEmpty then opening ++ closing
  else
    let pad := fun n => String.ofList (List.replicate (2 * n) ' ')
    opening ++ "\n" ++ ",\n".intercalate (lines.map (pad (indent + 1) ++ ·)) ++ "\n"
      ++ pad indent ++ closing

mutual

def render (indent : Nat) : Json → String
  | null => "null"
  | number n => toString n
  | string s => quote s
  | array items => block "[" "]" indent (renderItems (indent + 1) items)
  | object members => block "\x7b" "\x7d" indent (renderMembers (indent + 1) members)

def renderItems (indent : Nat) : List Json → List String
  | [] => []
  | j :: js => render indent j :: renderItems indent js

def renderMembers (indent : Nat) : List (String × Json) → List String
  | [] => []
  | m :: ms => (quote m.1 ++ ": " ++ render indent m.2) :: renderMembers indent ms

end

/-- Two spaces for each level; empty arrays and objects stay on one line. -/
def pretty (j : Json) : String := render 0 j

end Json
end Promela
