import ClassHoist.Span
import ClassHoist.Text.Pattern

/-! # Cutting out directives

`@apply` directives are not read as markup: they are cut out of a document before it is read. What
is left keeps, at every cut, what was removed there, so that offsets into it can be turned into
offsets into the document.
-/

namespace ClassHoist

namespace Directive

/-- How a directive starts. -/
def lead : Text := ['@', 'a', 'p', 'p', 'l', 'y', ' ']

/-- A directive: its start, any one character, any closing braces directly after that, and then at
least one character up to the next closing brace. -/
def pattern : Pattern where
  read text :=
    match Text.dropLead? lead text with
    | some (first :: body) =>
      let braces := body.takeWhile (· == '\x7d')
      let after := body.dropWhile (· == '\x7d')
      if after.isEmpty then none
      else
        some (lead ++ first :: (braces ++ after.takeWhile (· != '\x7d')),
          after.dropWhile (· != '\x7d'))
    | _ => none
  read_append := by
    intro text found rest matched
    simp only at matched
    split at matched
    case h_1 first body same =>
      split at matched
      · simp at matched
      · simp only [Option.some.injEq, Prod.mk.injEq] at matched
        obtain ⟨rfl, rfl⟩ := matched
        rw [Text.dropLead?_eq_some.mp same]
        simp [List.takeWhile_append_dropWhile]
    case h_2 => simp at matched
  read_ne_nil := by
    intro text found rest matched
    simp only at matched
    split at matched
    case h_1 first body same =>
      split at matched
      · simp at matched
      · simp only [Option.some.injEq, Prod.mk.injEq] at matched
        obtain ⟨rfl, rfl⟩ := matched
        simp [lead]
    case h_2 => simp at matched

/-- A text without its directives. -/
def strip (text : Text) : Text := pattern.replaceAll [] text

end Directive

/-- A part of a document without its directives: where the part starts in the document, the cuts,
and the text kept after the last of them. A cut is the text kept since the cut before and the text
that was removed. -/
structure Stripped where
  base : Nat
  cuts : List Hit
  tail : Text
  deriving DecidableEq, Repr

namespace Stripped

/-- A document without its directives, from an offset that is a boundary. -/
def ofDocument (content : Text) (start : Nat) : Stripped :=
  let part := ((Text.splitAt? start content).map Prod.snd).getD []
  let (cuts, tail) := Directive.pattern.hits part
  ⟨start, cuts, tail⟩

/-- The text that is left. -/
def text (stripped : Stripped) : Text :=
  stripped.cuts.flatMap Hit.before ++ stripped.tail

/-- The offset before anything was removed, counting what was removed at every cut that `counts`
accepts, given the offset relative to the cut. -/
def restore (counts : Nat → Nat → Bool) : List Hit → Nat → Nat
  | [], offset => offset
  | cut :: rest, offset =>
    let kept := cut.before.bytes
    if counts kept offset then kept + cut.found.bytes + restore counts rest (offset - kept)
    else offset

/-- The document offset of an offset at which something starts: what was cut out exactly there
comes before it. -/
def mapStart (stripped : Stripped) (offset : Nat) : Nat :=
  stripped.base + restore (fun cut place => cut ≤ place) stripped.cuts offset

/-- The document offset of an offset at which something ends: what was cut out exactly there comes
after it. -/
def mapEnd (stripped : Stripped) (offset : Nat) : Nat :=
  stripped.base + restore (fun cut place => cut < place) stripped.cuts offset

/-- The document span of a span of the text that is left. -/
def mapSpan (stripped : Stripped) (span : Span) : Span :=
  if span.start < span.stop then
    Span.saturated (stripped.mapStart span.start) (stripped.mapEnd span.stop)
  else Span.empty (Offset.saturate (stripped.mapStart span.start))

end Stripped

end ClassHoist
