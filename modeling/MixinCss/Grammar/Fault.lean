/-
  MixinCss.Grammar.Fault

  What can be wrong with the text of a style sheet, and how it is reported.
-/

import MixinCss.Source.Excerpt
import MixinCss.Text.Quoted

namespace MixinCss

/-- The causes of a syntax error. -/
inductive SyntaxFault where
  | unterminatedString (text : Text)
  | invalidUrl (text : Text)
  /-- A closing mark without its opening one. -/
  | unexpected (text : Text)
  /-- Text after the last rule. -/
  | unexpectedEnd (text : Text)
  | unterminatedCall (name : Text)
  | unbalanced (text : Text)
  | missingSelector
  /-- A reference to the parent selector where there is none. -/
  | noParent (selector : Text)
  | unterminatedBlock (selector : Text)
  | outsideBlock (text : Text)
  | unfinishedCall (name : Text)
  | invalidToken (text : Text)
  | missingColon (property : Text)
  | missingValue (property : Text)
  | afterCall (text name : Text)
  | emptyArgument (name : Text)
  | missingKeywordValue (key : Text)
  | duplicateKeyword (key : Text)
  | mixedArguments (name : Text)
deriving DecidableEq, Repr

namespace SyntaxFault

/-- The wording of each cause. -/
def message : SyntaxFault → Text
  | .unterminatedString text => utf8 "unterminated string " ++ text
  | .invalidUrl text => utf8 "invalid url " ++ text
  | .unexpected text => utf8 "unexpected " ++ text.quoted
  | .unexpectedEnd text => utf8 "unexpected end of input after " ++ text.quoted
  | .unterminatedCall name => utf8 "unterminated mixin call " ++ name
  | .unbalanced text => utf8 "unbalanced parentheses in " ++ text.quoted
  | .missingSelector => utf8 "missing selector before \"\x7b\""
  | .noParent selector =>
    utf8 "\"&\" in top-level selector " ++ selector.quoted ++ utf8 " has no parent"
  | .unterminatedBlock selector => utf8 "unterminated block for " ++ selector.quoted
  | .outsideBlock text =>
    utf8 "expected a rule, found " ++ text.quoted ++ utf8 " outside of any block"
  | .unfinishedCall name => utf8 "expected \";\" after mixin call " ++ name
  | .invalidToken text => utf8 "invalid token " ++ text.quoted
  | .missingColon property => utf8 "expected \":\" after " ++ property.quoted
  | .missingValue property => utf8 "missing value for " ++ property.quoted
  | .afterCall text name =>
    utf8 "unexpected " ++ text.quoted ++ utf8 " after mixin call " ++ name
  | .emptyArgument name => utf8 "empty argument in mixin call " ++ name
  | .missingKeywordValue key => utf8 "missing value for keyword argument " ++ key.quoted
  | .duplicateKeyword key => utf8 "duplicate keyword argument " ++ key.quoted
  | .mixedArguments name =>
    utf8 "mixin call " ++ name ++ utf8 " mixes positional and keyword arguments"

end SyntaxFault

/-- A fault at an offset of the source. -/
structure SyntaxError where
  fault : SyntaxFault
  pos : Pos
  /-- The line of the source with a caret under the place. -/
  context : Text
deriving DecidableEq, Repr

namespace SyntaxError

/-- The error for a fault at `offset` of `source`. -/
def locate (source : Text) (offset : Nat) (fault : SyntaxFault) : SyntaxError :=
  let w := Excerpt.locate source offset
  ⟨fault, ⟨offset, w.line, w.column⟩, Excerpt.context w⟩

/-- `line:column: message` -/
def text (e : SyntaxError) : Text := e.pos.text ++ utf8 ": " ++ e.fault.message

end SyntaxError

end MixinCss
