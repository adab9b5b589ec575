import ClassHoist.Text.Blank

/-! # Names for groups of classes

A group of classes, as it is written in an attribute, gets one class name. Groups that are equal
get equal names.
-/

namespace ClassHoist

/-- The text with every run of white space made one underscore and every colon a dash; with
`afterBlank`, white space in front belongs to a run that has its underscore already. -/
def joinClasses (afterBlank : Bool) : Text → Text
  | [] => []
  | c :: rest =>
    if Text.isBlank c then
      if afterBlank then joinClasses true rest else '_' :: joinClasses true rest
    else (if c = ':' then '-' else c) :: joinClasses false rest

/-- The class name of a group of classes. -/
def groupName (group : Text) : Text :=
  ['d', 'e', 'e', 'p', '_'] ++ joinClasses false group

/-- A character that stands for itself in a selector. -/
def isPlainInSelector (c : Char) : Bool :=
  c.isAlphanum || c == '_' || c == '-'

/-- A class name as it is written in a selector: a backslash before every other character. -/
def escapeName (name : Text) : Text :=
  name.flatMap fun c => if isPlainInSelector c then [c] else ['\\', c]

end ClassHoist
