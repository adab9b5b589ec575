import ClassHoist.ClassName
import ClassHoist.Marker

/-! # Global style rules

A rule applies utility classes to everything that has one class, anywhere, possibly only where the
text runs in one direction. Rules are made for groups of classes and for marked classes.
-/

namespace ClassHoist

/-- A global style rule: the direction in which it holds, if only in one, the selector of the class
with its dot, and the utility classes that are applied. -/
structure GlobalRule where
  direction : Option Direction
  selector : Text
  apply : Text
  deriving DecidableEq, Repr

namespace GlobalRule

/-- The text of a rule. It starts with a space, so that rules can follow each other. -/
def render (rule : GlobalRule) : Text :=
  let scope : Text :=
    match rule.direction with
    | some direction => "[dir=".toList ++ direction.name ++ "] ".toList
    | none => []
  " :global(".toList ++ scope ++ rule.selector ++ ") \x7b @apply ".toList ++ rule.apply
    ++ "; \x7d".toList

/-- The text of several rules. -/
def renderAll (rules : List GlobalRule) : Text := rules.flatMap render

end GlobalRule

/-- The selector of a class. -/
def classSelector (name : Text) : Text := '.' :: escapeName name

/-- The class is marked for a direction, at its start or further in. -/
def isDirected (direction : Direction) (token : Text) : Bool :=
  (Marker.direction direction).pattern.occursIn token

/-- Classes in a row. -/
def joinTokens (tokens : List Text) : Text := [' '].intercalate tokens

/-- The rule that applies the classes of a group that are marked for no direction. It is there even
if there are none. -/
def plainRule (group : Text) : GlobalRule where
  direction := none
  selector := classSelector (groupName group)
  apply := joinTokens <|
    (Text.splitOn ' ' group).filter fun token => Direction.all.all fun d => !isDirected d token

/-- The rule that applies the classes of a group that are marked for a direction, without their
first mark for it; none if there are no such classes. -/
def directedRule? (group : Text) (direction : Direction) : Option GlobalRule :=
  let marker := Marker.direction direction
  match (Text.splitOn ' ' group).filter (isDirected direction) with
  | [] => none
  | tokens =>
    some {
      direction := some direction
      selector := classSelector (groupName group)
      apply := joinTokens (tokens.map (marker.pattern.replaceFirst [])) }

/-- The rules of a group of classes. -/
def groupRules (group : Text) (rtl : Bool) : List GlobalRule :=
  plainRule group :: if rtl then Direction.all.filterMap (directedRule? group) else []

/-- A character of a marked class. -/
def isTokenChar (c : Char) : Bool :=
  c.isAlphanum || c == ':' || c == '(' || c == ')' || c == '[' || c == ']' || c == '-'

/-- The pattern of a class with a mark: the mark and at least one more character. -/
def Marker.tokenPattern (marker : Marker) : Pattern where
  read text := (Text.dropLead? marker.lead text).bind fun rest =>
    let run := rest.takeWhile isTokenChar
    if run.isEmpty then none else some (marker.lead ++ run, rest.dropWhile isTokenChar)
  read_append := by
    intro text found rest matched
    obtain ⟨body, lead, matched⟩ := Option.bind_eq_some_iff.mp matched
    dsimp only at matched
    split at matched
    · cases matched
    · cases matched
      rw [Text.dropLead?_eq_some.mp lead, List.append_assoc, List.takeWhile_append_dropWhile]
  read_ne_nil := by
    intro text found rest matched
    obtain ⟨body, lead, matched⟩ := Option.bind_eq_some_iff.mp matched
    dsimp only at matched
    split at matched
    · cases matched
    · cases matched
      simp [Marker.lead]

/-- The marked classes in a text, each once, in order of first appearance, without their marks. -/
def Marker.tokensIn (marker : Marker) (text : Text) : List Text :=
  (marker.tokenPattern.matchesIn text).eraseDups.map (·.drop marker.lead.length)

/-- The rule that applies a marked class to everything that carries it. -/
def Marker.rule (marker : Marker) (token : Text) : GlobalRule where
  direction :=
    match marker with
    | .direction way => some way
    | .global => none
  selector := classSelector (marker.renamedLead ++ token)
  apply := token

/-- The rules of the classes in a text that have a mark. -/
def Marker.rules (marker : Marker) (text : Text) : List GlobalRule :=
  (marker.tokensIn text).map marker.rule

/-- The rules of the classes in a text that are marked for a direction. -/
def directedRules (text : Text) : List GlobalRule :=
  Direction.all.flatMap fun direction => (Marker.direction direction).rules text

/-- The rules of the classes in a text that are marked global. -/
def globalRules (text : Text) : List GlobalRule :=
  Marker.global.rules text

/-- The rules of the marked classes in a text, for the marks that the options enable. -/
def tokenRules (options : Options) (text : Text) : List GlobalRule :=
  (if options.rtl then directedRules text else []) ++
    (if options.globalPrefix then globalRules text else [])

end ClassHoist
