import Promela.Rejection
import Promela.Token

/-! Reading tokens from a source text. The text is taken byte by byte, each byte as the character with
its code; all that a token spells is ASCII. -/
namespace Promela

/-- The bytes of the UTF-8 form, as characters below 256. -/
def sourceBytes (source : String) : List Char :=
  source.toUTF8.toList.map fun b => Char.ofNat b.toNat

namespace Lexer

def isBlank (c : Char) : Bool := c == ' ' || c == '\t' || c == '\r'

def isWordStart (c : Char) : Bool := c.isAlpha || c == '_'

def isWordRest (c : Char) : Bool := c.isAlphanum || c == '_'

/-- The length of a text up to and with the first `*/`. -/
def commentLength? : List Char → Option Nat
  | '*' :: '/' :: _ => some 2
  | _ :: cs => (commentLength? cs).map (· + 1)
  | [] => none

def restOfLine (cs : List Char) : List Char := cs.takeWhile (· != '\n')

def decimal (digits : List Char) : Nat := digits.foldl (fun n d => 10 * n + (d.toNat - '0'.toNat)) 0

/-- What a text starts with, and how many characters belong to it beyond the first. -/
inductive Front
  /-- White space, a comment, or the join of two lines. -/
  | layout (extra : Nat)
  | lineEnd
  /-- A directive is followed by characters that are dropped with it. -/
  | directive (kind : TokenKind) (extra dropped : Nat)
  | token (kind : TokenKind) (extra : Nat)
  | malformed (how : Malformed) (extra : Nat)

namespace Front

/-- Only `#define` is read on; any other directive ends its line. -/
def ofDirective (cs : List Char) : Front :=
  let word := cs.takeWhile isWordRest
  if word = "define".toList then .directive .define word.length 0
  else
    .directive (.directive ("#" ++ String.ofList word)) word.length
      (restOfLine (cs.drop word.length)).length

/-- Literals are limited to 64 bits. -/
def ofNumber (c : Char) (cs : List Char) : Front :=
  let digits := c :: cs.takeWhile Char.isDigit
  if decimal digits < UInt64.size then .token (.number (decimal digits)) (digits.length - 1)
  else .malformed (.numberTooLarge (String.ofList digits)) (digits.length - 1)

def ofWord (c : Char) (cs : List Char) : Front :=
  let word := c :: cs.takeWhile isWordRest
  .token (.ofWord (String.ofList word)) (word.length - 1)

/-- The longest operator wins. -/
def ofOperator (c : Char) (cs : List Char) : Front :=
  match cs.head?.bind (TokenKind.ofPair? c) with
  | some kind => .token kind 1
  | none =>
    match TokenKind.ofChar? c with
    | some kind => .token kind 0
    | none => .malformed (.unexpectedCharacter c) 0

def ofChars (c : Char) (cs : List Char) : Front :=
  if isBlank c then .layout 0
  else if c.isDigit then ofNumber c cs
  else if isWordStart c then ofWord c cs
  else
    match c, cs with
    | '\n', _ => .lineEnd
    | '#', cs => ofDirective cs
    | '\\', '\n' :: _ => .layout 1
    | '/', '/' :: cs => .layout (1 + (restOfLine cs).length)
    | '/', '*' :: cs =>
      match commentLength? cs with
      | some n => .layout (1 + n)
      | none => .malformed .unclosedComment 0
    | c, cs => ofOperator c cs

end Front

/-- The span of a token on one line, `extra` bytes beyond its first. -/
def spanOf (path : String) (p : Position) (extra : Nat) : Span :=
  ⟨path, p, ⟨p.line, p.column + extra⟩⟩

/-- The tokens of a text that starts at `p`. A line end is a token only where it ends a directive. -/
def tokensFrom (path : String) (p : Position) (inDirective : Bool) :
    List Char → Except Rejection (List Token)
  | [] => .ok [⟨.eof, .point path p⟩]
  | c :: cs =>
    match Front.ofChars c cs with
    | .layout n => tokensFrom path (p.advance (c :: cs.take n)) inDirective (cs.drop n)
    | .lineEnd => do
      let ts ← tokensFrom path (p.next c) false cs
      pure (if inDirective then ⟨.newline, .point path p⟩ :: ts else ts)
    | .directive kind n dropped => do
      let n' := n + dropped
      let ts ← tokensFrom path (p.advance (c :: cs.take n')) true (cs.drop n')
      pure (⟨kind, spanOf path p n⟩ :: ts)
    | .token kind n => do
      let ts ← tokensFrom path (p.advance (c :: cs.take n)) inDirective (cs.drop n)
      pure (⟨kind, spanOf path p n⟩ :: ts)
    | .malformed how n => .error (.ofMalformed how (spanOf path p n))
termination_by cs => cs.length
decreasing_by all_goals simp only [List.length_cons, List.length_drop]; omega

end Lexer

/-- All tokens of a source text; the last one is the end of the text. -/
def tokens (source path : String) : Except Rejection (List Token) :=
  Lexer.tokensFrom path .first false (sourceBytes source)

end Promela
