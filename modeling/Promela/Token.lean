import Promela.Operator
import Promela.Span
import Promela.ValueType

/-! Tokens of the declaration language. -/
namespace Promela

inductive TokenKind
  | ident (name : String)
  | number (value : Nat)
  | typeName (type : ValueType)
  | query (op : ChannelOp)
  /-- The keyword of a construct that is not read; the construct ends with the block that follows. -/
  | unread (word : String)
  /-- A directive other than `#define`, spelled with its `#`. The rest of its line is no token. -/
  | directive (word : String)
  | mtype | typedef | chan | of | define | skip | eval
  | truth (value : Bool)
  | openBrace | closeBrace | openBracket | closeBracket | openParen | closeParen
  | semicolon | comma | dot | assign | arrow | colon | question
  | bang | tilde
  | binary (op : BinaryOp)
  /-- The end of a line that holds a directive. -/
  | newline
  | eof
deriving DecidableEq

structure Token where
  kind : TokenKind
  span : Span
deriving DecidableEq

namespace TokenKind

def unreadWords : List String :=
  ["proctype", "active", "init", "never", "inline", "ltl", "trace", "notrace"]

def reserved : List (String × TokenKind) :=
  [("mtype", mtype), ("typedef", typedef), ("chan", chan), ("of", of), ("true", truth true),
    ("false", truth false), ("skip", skip), ("eval", eval)]
  ++ unreadWords.map (fun w => (w, unread w))
  ++ ChannelOp.all.map (fun op => (op.keyword, query op))
  ++ [ValueType.bit, .bool, .byte, .pid, .short, .int].map (fun t => (t.keyword, typeName t))

def ofWord (word : String) : TokenKind := (reserved.lookup word).getD (ident word)

/-- The operators and punctuation of two characters. -/
def ofPair? : Char → Char → Option TokenKind
  | '-', '>' => some arrow
  | '<', '<' => some (binary .shl)
  | '>', '>' => some (binary .shr)
  | '&', '&' => some (binary .and)
  | '|', '|' => some (binary .or)
  | '=', '=' => some (binary .eq)
  | '!', '=' => some (binary .ne)
  | '<', '=' => some (binary .le)
  | '>', '=' => some (binary .ge)
  | _, _ => none

def ofChar? : Char → Option TokenKind
  | '\x7b' => some openBrace
  | '\x7d' => some closeBrace
  | '[' => some openBracket
  | ']' => some closeBracket
  | '(' => some openParen
  | ')' => some closeParen
  | ';' => some semicolon
  | ',' => some comma
  | '.' => some dot
  | '=' => some assign
  | ':' => some colon
  | '?' => some question
  | '!' => some bang
  | '~' => some tilde
  | '+' => some (binary .add)
  | '-' => some (binary .sub)
  | '*' => some (binary .mul)
  | '/' => some (binary .div)
  | '%' => some (binary .mod)
  | '&' => some (binary .bitAnd)
  | '|' => some (binary .bitOr)
  | '^' => some (binary .bitXor)
  | '<' => some (binary .lt)
  | '>' => some (binary .gt)
  | _ => none

end TokenKind
end Promela
