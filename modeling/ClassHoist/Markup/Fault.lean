import ClassHoist.Markup.Token
import ClassHoist.Markup.Tree

/-! # Faults in markup

Reading never stops at a fault: it is noted with the place where it shows, and reading goes on.
-/

namespace ClassHoist.Markup

/-- What should have come before the end of the file: a token, the end of a comment, or the quote
that ends a value. -/
inductive Missing where
  | token (kind : TokenKind)
  | commentEnd
  | closingQuote
  deriving DecidableEq, Repr

/-- How a missing part is called in messages. -/
def Missing.label : Missing → String
  | token kind => kind.label
  | commentEnd => "'-->'"
  | closingQuote => "closing quote"

/-- What is wrong. A closing tag is mismatched if it is that of another element, and unexpected if
it closes nothing; an invalid tag name is one that no element can have. A tag that continues or ends
a block can stand outside of one, continue a block that has no such branch, or end it under another
name. An attribute can have an equals sign but no value. A second script of the same context is a
duplicate, and so is a second style. -/
inductive Cause where
  | unexpectedToken (expected found : TokenKind)
  | unexpectedEnd (missing : Missing)
  | unclosedTag (name : String)
  | mismatchedClosingTag (expected found : String)
  | unexpectedClosingTag (name : String)
  | unclosedBlock (kind : BlockKind)
  | invalidTagName (name : String)
  | outsideBlock (tag : String)
  | unknownTag (keyword : String)
  | unknownBlock (keyword : String)
  | wrongBranch (tag : String) (kind : BlockKind)
  | wrongBlockEnd (kind : BlockKind) (found : String)
  | unexpectedInTag (found : TokenKind)
  | missingValue (name : String)
  | notInTag (keyword : String)
  | duplicate (name : String)
  deriving DecidableEq, Repr

/-- The wording of a fault. -/
def Cause.message : Cause → String
  | unexpectedToken expected found =>
    "unexpected token: expected " ++ expected.label ++ ", found " ++ found.label
  | unexpectedEnd missing => "unexpected end of file: expected " ++ missing.label
  | unclosedTag name => "unclosed tag: <" ++ name ++ ">"
  | mismatchedClosingTag expected found =>
    "mismatched closing tag: expected </" ++ expected ++ ">, found </" ++ found ++ ">"
  | unexpectedClosingTag name => "unexpected closing tag: </" ++ name ++ ">"
  | unclosedBlock kind => "unclosed block: \x7b#" ++ kind.keyword ++ "\x7d"
  | invalidTagName name => "invalid tag name: " ++ name
  | outsideBlock tag => "invalid block syntax: " ++ tag ++ " is not inside a matching block"
  | unknownTag keyword => "invalid block syntax: unknown tag \x7b@" ++ keyword ++ "\x7d"
  | unknownBlock keyword => "invalid block syntax: unknown block \x7b#" ++ keyword ++ "\x7d"
  | wrongBranch tag kind =>
    "invalid block syntax: " ++ tag ++ " cannot continue \x7b#" ++ kind.keyword ++ "\x7d"
  | wrongBlockEnd kind found =>
    "invalid block syntax: expected \x7b/" ++ kind.keyword ++ "\x7d, found \x7b/" ++ found ++ "\x7d"
  | unexpectedInTag found => "invalid attribute: unexpected " ++ found.label ++ " in tag"
  | missingValue name => "invalid attribute: expected a value for `" ++ name ++ "`"
  | notInTag keyword =>
    "invalid attribute: \x7b@" ++ keyword ++ "\x7d cannot be used in a tag"
  | duplicate name => "a component can have a single top-level <" ++ name ++ "> element"

/-- A fault and where it shows. -/
structure Fault where
  cause : Cause
  span : Span
  deriving DecidableEq, Repr

end ClassHoist.Markup
