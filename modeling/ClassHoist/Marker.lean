import ClassHoist.Options
import ClassHoist.Text.Pattern

/-! # Marked classes

A class can be marked for one direction of text or as global. In the finished text the colon of
each mark becomes an underscore, which changes the length of nothing.
-/

namespace ClassHoist

/-- A direction of text, from right to left or from left to right. -/
inductive Direction where
  | rtl
  | ltr
  deriving DecidableEq, Repr

/-- Both directions, in the order in which their rules are written. -/
def Direction.all : List Direction := [.rtl, .ltr]

/-- The mark of a class: for one direction of text, or global. -/
inductive Marker where
  | direction (direction : Direction)
  | global
  deriving DecidableEq, Repr

/-- The name of a direction, as in the `dir` attribute. -/
def Direction.name : Direction → Text
  | .rtl => ['r', 't', 'l']
  | .ltr => ['l', 't', 'r']

namespace Marker

/-- The name of a mark. -/
def name : Marker → Text
  | direction d => d.name
  | global => ['g', 'l']

/-- A mark in front of a class: its name and a colon. -/
def lead (marker : Marker) : Text := marker.name ++ [':']

/-- A mark in the finished text: its name and an underscore. -/
def renamedLead (marker : Marker) : Text := marker.name ++ ['_']

/-- The pattern that matches the mark. -/
def pattern (marker : Marker) : Pattern := .literal marker.lead (by simp [lead])

end Marker

/-- The marks that the options enable, in the order in which they are renamed. -/
def Options.markers (options : Options) : List Marker :=
  (if options.rtl then [.direction .ltr, .direction .rtl] else []) ++
    (if options.globalPrefix then [.global] else [])

/-- The text with the colon of every enabled mark made an underscore. -/
def renameMarkers (options : Options) (text : Text) : Text :=
  options.markers.foldl (fun text marker => marker.pattern.replaceAll marker.renamedLead text) text

end ClassHoist
