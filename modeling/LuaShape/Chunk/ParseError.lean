import LuaShape.Source.Span
import LuaShape.Token.Kind

/-!
# Why a text is not a Lua chunk

Each way in which parsing can fail is a constructor, with the place it is
reported at.  The wording is fixed in `ParseError.message` alone.
-/

namespace LuaShape

/-- What the grammar would have accepted at the place of an error. -/
inductive Expectation where
  | token (kind : Token.Kind)
  | statement
  | functionArguments
deriving DecidableEq, Repr, Inhabited

/-- How a message names what was expected. -/
def Expectation.describe : Expectation → String
  | token kind => kind.describe
  | statement => "statement"
  | functionArguments => "function arguments"

/-- The ways in which a text fails to be a chunk. -/
inductive ParseError where
  /-- A token stands where another was expected. -/
  | unexpectedToken (expected : Expectation) (found : Token.Kind) (span : Span)
  /-- The text ends too early. -/
  | unexpectedEnd (span : Span)
  /-- No expression starts with the token that stands here. -/
  | invalidExpression (span : Span)
  /-- The left side of an assignment cannot be assigned to. -/
  | invalidTarget (span : Span)
  /-- A string literal holds a malformed escape. -/
  | invalidString (span : Span)
  /-- The text nests deeper than the reader was allowed to follow. -/
  | tooDeep (span : Span)
deriving DecidableEq, Repr, Inhabited

namespace ParseError

/-- The place an error is reported at. -/
def span : ParseError → Span
  | unexpectedToken _ _ span => span
  | unexpectedEnd span => span
  | invalidExpression span => span
  | invalidTarget span => span
  | invalidString span => span
  | tooDeep span => span

/-- The wording of an error. -/
def message : ParseError → String
  | unexpectedToken expected found _ =>
    "unexpected token: expected " ++ expected.describe ++ ", found " ++ found.describe
  | unexpectedEnd _ => "unexpected end of file"
  | invalidExpression _ => "invalid expression"
  | invalidTarget _ => "cannot assign to this expression"
  | invalidString _ => "malformed string literal"
  | tooDeep _ => "nesting too deep"

/-- The error for finding `found`, or the end of the text, instead of `expected`. -/
def unexpected (expected : Expectation) (found : Option Token.Kind) (span : Span) :
    ParseError :=
  match found with
  | some kind => unexpectedToken expected kind span
  | none => unexpectedEnd span

end ParseError

end LuaShape
