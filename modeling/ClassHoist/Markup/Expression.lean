import ClassHoist.Text.Basic

/-! # The end of a bracketed expression

An expression in braces is JavaScript and is not read further; it is only necessary to find where
it ends. The scanner goes over it character by character and tells brackets apart from those in
string literals, template literals and comments. A template literal can hold expressions of its
own, which are scanned the same way.
-/

namespace ClassHoist.Markup.Expression

/-- What the scanner is in the middle of: code, perhaps directly after a slash; a literal that ends
at a quote, perhaps directly after a backslash, where the backtick is the quote of a template; a
template, directly after a dollar sign; a comment up to the end of the line; or a comment up to a
star and a slash, perhaps directly after a star. -/
inductive Mode where
  | code
  | slash
  | literal (quote : Char)
  | escape (quote : Char)
  | dollar
  | lineComment
  | blockComment
  | star
  deriving DecidableEq, Repr

/-- An expression being scanned: the bracket that ends it, and how many brackets are open. -/
structure Level where
  close : Char
  depth : Nat
  deriving DecidableEq, Repr

/-- The state of the scanner: what it is in the middle of, the innermost expression, and the
expressions around that, each inside a template of the next, innermost first. -/
structure Scanner where
  mode : Mode
  level : Level
  outer : List Level
  deriving DecidableEq, Repr

namespace Scanner

/-- The scanner before an expression that ends at `close`. -/
def start (close : Char) : Scanner := ⟨.code, ⟨close, 0⟩, []⟩

/-- A character of code. Any closing bracket ends the innermost open one; the closing bracket of
the expression itself, with none open, ends the expression, and then the template around it goes
on. There is no next state if no template is around it. -/
def stepCode (scanner : Scanner) (c : Char) : Option Scanner :=
  let level := scanner.level
  if c = '"' ∨ c = '\'' ∨ c = '\x60' then some { scanner with mode := .literal c }
  else if c = '/' then some { scanner with mode := .slash }
  else if c = '(' ∨ c = '[' ∨ c = '\x7b' then
    some { scanner with mode := .code, level := ⟨level.close, level.depth + 1⟩ }
  else if c = ')' ∨ c = ']' ∨ c = '\x7d' then
    if level.depth = 0 ∧ c = level.close then
      match scanner.outer with
      | [] => none
      | enclosing :: outer => some ⟨.literal '\x60', enclosing, outer⟩
    else some { scanner with mode := .code, level := ⟨level.close, level.depth - 1⟩ }
  else some { scanner with mode := .code }

/-- A character of a literal that ends at `quote`. -/
def stepLiteral (scanner : Scanner) (quote c : Char) : Scanner :=
  if c = '\\' then { scanner with mode := .escape quote }
  else if c = quote then { scanner with mode := .code }
  else if quote = '\x60' ∧ c = '$' then { scanner with mode := .dollar }
  else { scanner with mode := .literal quote }

/-- The state after a character, or none if the expression ends with it. -/
def step (scanner : Scanner) (c : Char) : Option Scanner :=
  match scanner.mode with
  | .code => scanner.stepCode c
  | .slash =>
    if c = '/' then some { scanner with mode := .lineComment }
    else if c = '*' then some { scanner with mode := .blockComment }
    else scanner.stepCode c
  | .literal quote => some (scanner.stepLiteral quote c)
  | .escape quote => some { scanner with mode := .literal quote }
  | .dollar =>
    if c = '\x7b' then some ⟨.code, ⟨'\x7d', 0⟩, scanner.level :: scanner.outer⟩
    else some (scanner.stepLiteral '\x60' c)
  | .lineComment => some (if c = '\n' then { scanner with mode := .code } else scanner)
  | .blockComment => some (if c = '*' then { scanner with mode := .star } else scanner)
  | .star =>
    if c = '/' then some { scanner with mode := .code }
    else if c = '*' then some scanner
    else some { scanner with mode := .blockComment }

/-- What stands before the closing bracket, and what follows it. -/
def run (scanner : Scanner) : Text → Option (Text × Text)
  | [] => none
  | c :: rest =>
    match scanner.step c with
    | none => some ([], rest)
    | some next => (next.run rest).map fun (inner, after) => (c :: inner, after)

end Scanner

/-- Cut a text at the bracket `close` that ends the expression it starts with: the expression and
what follows the bracket. There is no cut if the expression does not end. -/
def closing? (close : Char) (input : Text) : Option (Text × Text) :=
  (Scanner.start close).run input

/-- What was scanned is shorter than the text, and a closing character stands between the two
parts. -/
theorem Scanner.run_eq_some {scanner : Scanner} {input inner after : Text}
    (ended : scanner.run input = some (inner, after)) :
    ∃ c, input = inner ++ c :: after := by
  induction input generalizing scanner inner with
  | nil => simp [run] at ended
  | cons c rest ih =>
    simp only [run] at ended
    split at ended
    case h_1 =>
      simp only [Option.some.injEq, Prod.mk.injEq] at ended
      obtain ⟨rfl, rfl⟩ := ended
      exact ⟨c, rfl⟩
    case h_2 =>
      obtain ⟨⟨lead, tail⟩, deeper, same⟩ := Option.map_eq_some_iff.mp ended
      simp only [Prod.mk.injEq] at same
      obtain ⟨rfl, rfl⟩ := same
      obtain ⟨d, rfl⟩ := ih deeper
      exact ⟨d, rfl⟩

/-- What follows a closing bracket is shorter than the text it was looked for in. -/
theorem length_closing?_lt {close : Char} {input inner after : Text}
    (ended : closing? close input = some (inner, after)) : after.length < input.length := by
  obtain ⟨c, rfl⟩ := Scanner.run_eq_some ended
  simp
  omega

end ClassHoist.Markup.Expression
