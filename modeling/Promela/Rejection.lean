import Promela.Fault

/-! Why a source text is rejected: it leaves the part of the language that is read, it is not well
formed, or its declarations and expressions are at fault. -/
namespace Promela

/-- A construct outside the part of the language that is read. -/
inductive Unread
  /-- A process, claim or directive, by its first word. -/
  | construct (word : String)
  | parameterizedDefine (name : String)
  | nestedRecord (record field type : String)
  | recordInMessage (record : String)
deriving DecidableEq

namespace Unread

def message : Unread → String
  | construct w => s!"unsupported syntax: {w}"
  | parameterizedDefine n => s!"unsupported syntax: parameterized #define {n}"
  | nestedRecord r f t => s!"unsupported syntax: typedef field {r}.{f} of typedef type {t}"
  | recordInMessage r => s!"unsupported syntax: typedef {r} in a channel message"

end Unread

inductive Malformed
  | unclosedComment
  | numberTooLarge (digits : String)
  | unexpectedCharacter (c : Char)
  /-- Something else stands where `what` is expected. -/
  | expected (what : String)
  | noDeclarations
  | channelInitializer (channel : String)
  | notAChannel (name : String)
  | recordInitializer (name : String)
deriving DecidableEq

namespace Malformed

def message : Malformed → String
  | unclosedComment => "unterminated comment"
  | numberTooLarge digits => s!"invalid integer literal: {digits}"
  | unexpectedCharacter c => s!"unexpected character: {c}"
  | expected what => s!"expected {what}"
  | noDeclarations => "empty input"
  | channelInitializer c => s!"channel {c} must be initialized with [N] of \x7b...\x7d"
  | notAChannel n => s!"{n} is not a channel and cannot take a channel initializer"
  | recordInitializer n => s!"typedef variable {n} cannot have an initializer"

end Malformed

inductive Reason
  | unread (what : Unread)
  | malformed (how : Malformed)
  | fault (fault : Fault)
deriving DecidableEq

def Reason.message : Reason → String
  | unread u => u.message
  | malformed m => m.message
  | fault f => f.message

structure Rejection where
  reason : Reason
  span : Option Span
deriving DecidableEq

namespace Rejection

def ofUnread (u : Unread) (span : Span) : Rejection := ⟨.unread u, some span⟩

def ofMalformed (m : Malformed) (span : Span) : Rejection := ⟨.malformed m, some span⟩

def ofFault (f : Located Fault) : Rejection := ⟨.fault f.value, some f.span⟩

/-- The message, headed by where the rejected text starts. -/
def message (r : Rejection) : String :=
  match r.span with
  | some s => s.headed r.reason.message
  | none => r.reason.message

end Rejection
end Promela
