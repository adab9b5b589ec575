import ClassHoist.Proofs.Hoisting
import ClassHoist.Proofs.TaggedNodes
import ClassHoist.Proofs.Verbatim

/-! # Values in quotes

A value in quotes is cut into literal texts and expressions that lie one directly behind the other
from the opening quote up to the closing one (`Partitioned`). The cuts are made only around
expressions, so no text is empty and no two texts stand side by side, and a value without an
expression is one text (`Value.InQuotes`). This holds of every value that is written in quotes in
the source, in the tags of elements, scripts and the style, and no other value mixes text and
expressions (`read_quoted`).
-/

namespace ClassHoist.Markup

variable {source : Text} {quote : Char} {start stop inner : Nat} {parts : List ValuePart}
  {cursor : Cursor}

/-- The bytes of a part of a value. -/
def ValuePart.span : ValuePart → Span
  | .text literal => literal.span
  | .expression embedded => embedded.span

/-- The part is literal text. -/
def ValuePart.isText : ValuePart → Bool
  | .text _ => true
  | .expression _ => false

/-- The part is a text with neither the quote nor a brace in it, or an expression with its braces,
and stands in the source. -/
def ValuePart.StandsIn (source : Text) (quote : Char) : ValuePart → Prop
  | .text literal => literal.raw.toList ≠ [] ∧
      (∀ c ∈ literal.raw.toList, isLiteralChar quote c = true) ∧
        source.Stands literal.span.start literal.span.stop literal.raw.toList
  | .expression embedded => source.Stands embedded.span.start embedded.span.stop
      ('\x7b' :: (embedded.code.toList ++ ['\x7d']))

/-- The parts lie directly one behind the other, with no two texts side by side. -/
structure Partitioned (source : Text) (quote : Char) (start : Nat) (parts : List ValuePart)
    (stop : Nat) : Prop where
  tiled : Spread True start (parts.map ValuePart.span) stop
  apart : parts.IsChain fun first second => ¬ (first.isText = true ∧ second.isText = true)
  stands : ∀ part ∈ parts, part.StandsIn source quote

/-- The value that stands between two quotes: one text, or parts with an expression among them that
start with a text exactly if a character of text comes directly behind the opening quote. -/
def Value.InQuotes (source : Text) (quote : Char) (start stop : Nat) : Value → Prop
  | .text literal => literal.span = ⟨start, stop⟩ ∧
      (∀ c ∈ literal.raw.toList, isLiteralChar quote c = true) ∧
        source.Stands start stop literal.raw.toList
  | .mixed parts => Partitioned source quote start parts stop ∧
      (∃ embedded, .expression embedded ∈ parts) ∧
        ((Value.mixed parts).leadingText?.isSome = true ↔
          ∃ c ∈ source.charAt? start, isLiteralChar quote c = true)
  | _ => False

/-- An attribute of the name is written at `start` with a value in quotes, and the quote ends at
`inner`. -/
def QuotedAt (source : Text) (start : Nat) (name : String) (quote : Char) (inner : Nat) : Prop :=
  (quote = '"' ∨ quote = '\'') ∧ ∃ gap gap', (∀ c ∈ gap, Text.isSeparator c = true) ∧
    (∀ c ∈ gap', Text.isSeparator c = true) ∧
      source.Stands start inner (name.toList ++ (gap ++ (['='] ++ (gap' ++ [quote]))))

theorem literalPart_partitioned {literal : Text}
    (plain : ∀ c ∈ literal, isLiteralChar quote c = true)
    (stands : source.Stands start (start + literal.bytes) literal) :
    Partitioned source quote start (literalPart start literal) (start + literal.bytes) := by
  cases literal with
  | nil => exact ⟨Meets.refl _ _, .nil, nofun⟩
  | cons c literal =>
    have nonempty := stands.start_lt_stop (List.cons_ne_nil c literal)
    refine ⟨⟨Meets.refl _ _, nonempty, Meets.refl _ _⟩, .singleton _, fun part member => ?_⟩
    rw [List.mem_singleton.mp member]
    simp only [ValuePart.StandsIn, String.toList_ofList]
    exact ⟨List.cons_ne_nil c literal, plain, stands⟩

/-- Parts go on behind an expression, whatever they start with. -/
theorem Partitioned.append {embedded : Embedded} {more : List ValuePart}
    (first : Partitioned source quote start parts embedded.span.start)
    (expression : source.Stands embedded.span.start embedded.span.stop
      ('\x7b' :: (embedded.code.toList ++ ['\x7d'])))
    (second : Partitioned source quote embedded.span.stop more stop) :
    Partitioned source quote start (parts ++ .expression embedded :: more) stop := by
  have nonempty := expression.start_lt_stop (List.cons_ne_nil _ _)
  refine ⟨?_, ?_, fun part member => ?_⟩
  · rw [List.map_append]
    exact first.tiled.append ⟨Meets.refl _ _, nonempty, second.tiled⟩
  · refine List.isChain_append.mpr ⟨first.apart, List.isChain_cons.mpr ⟨?_, second.apart⟩, ?_⟩
    · exact fun part _ both => Bool.noConfusion both.1
    · rintro part - next isNext both
      obtain rfl := Option.some.inj isNext
      exact Bool.noConfusion both.2
  · rcases List.mem_append.mp member with before | member
    · exact first.stands part before
    · rcases List.mem_cons.mp member with rfl | behind
      · exact expression
      · exact second.stands part behind

/-- An expression stands in the source with its braces. -/
theorem stands_braces {inside code after : Text} (within : cursor.In source)
    (brace : cursor.rest = '\x7b' :: inside)
    (closed : Expression.closing? '\x7d' inside = some (code, after)) :
    source.Stands cursor.offset (cursor.offset + 1 + code.bytes + 1)
      ('\x7b' :: (code ++ ['\x7d'])) := by
  obtain ⟨split, next⟩ := Cursor.past_brace brace closed
  have stop : cursor.offset + Text.bytes ('\x7b' :: code ++ ['\x7d']) =
    cursor.offset + 1 + code.bytes + 1 := congrArg Cursor.offset next
  exact stop ▸ within.stands split

/-- **The parts of a value in quotes** lie one behind the other up to the closing quote. -/
theorem quotedParts_partitioned {next : Cursor} (within : cursor.In source)
    (done : quotedParts quote cursor.offset cursor.rest = .ok (parts, next)) :
    ∃ stop, next.offset = stop + quote.utf8Size ∧ source.charAt? stop = some quote ∧
      Partitioned source quote cursor.offset parts stop := by
  induction counted : cursor.rest.length using Nat.strong_induction_on
    generalizing cursor parts next with
  | _ count ih =>
    -- Each round takes literal text, and an expression unless the quote follows.
    have split : cursor.rest.takeWhile (isLiteralChar quote) ++
        cursor.rest.dropWhile (isLiteralChar quote) = cursor.rest :=
      List.takeWhile_append_dropWhile
    have plain : ∀ c ∈ cursor.rest.takeWhile (isLiteralChar quote), isLiteralChar quote c = true :=
      List.all_eq_true.mp List.all_takeWhile
    rw [quotedParts_eq] at done
    generalize cursor.rest.takeWhile (isLiteralChar quote) = literal at split plain done
    have first := literalPart_partitioned plain (within.stands split.symm)
    cases left : cursor.rest.dropWhile (isLiteralChar quote) with
    | nil =>
      rw [left] at done
      cases done
    | cons c tail =>
      rw [left] at split done
      have place : (cursor.past literal (c :: tail)).In source :=
        within.trans (Cursor.reaches_past split.symm)
      by_cases closes : c = quote
      · subst closes
        simp only [↓reduceIte, Except.ok.injEq, Prod.mk.injEq] at done
        obtain ⟨rfl, rfl⟩ := done
        obtain ⟨before, whole, offset⟩ := place.exists_before
        exact ⟨_, rfl, Text.charAt?_eq_some_iff.mpr ⟨before, tail, whole, offset.symm⟩, first⟩
      · obtain rfl := eq_brace_of_dropWhile left closes
        cases closed : Expression.closing? '\x7d' tail with
        | none =>
          simp only [closes, ↓reduceIte, closed] at done
          cases done
        | some cut =>
          obtain ⟨code, after⟩ := cut
          have reach : (cursor.past literal ('\x7b' :: tail)).Reaches _ := reaches_brace rfl closed
          have shorter : after.length < count :=
            counted ▸ length_afterExpression_lt left closed
          simp only [closes, ↓reduceIte, closed] at done
          cases deeper : quotedParts quote (cursor.offset + Text.bytes literal + 1 + code.bytes + 1)
              after with
          | error missing =>
            rw [deeper] at done
            cases done
          | ok read =>
            rw [deeper] at done
            obtain ⟨rfl, rfl⟩ := Prod.mk.inj (Except.ok.inj done)
            obtain ⟨stop, ends, isQuote, second⟩ :=
              ih after.length shorter (place.trans reach) deeper rfl
            refine ⟨stop, ends, isQuote, first.append ?_ second⟩
            rw [String.toList_ofList]
            exact stands_braces place rfl closed

/-- The character at a place is the first one behind it. -/
theorem Cursor.In.charAt?_eq (within : cursor.In source) :
    source.charAt? cursor.offset = cursor.rest.head? := by
  obtain ⟨before, rfl, offset⟩ := within.exists_before
  simp only [Text.charAt?, offset, Text.splitAt?_append, Option.bind_some]

/-- The parts start with a text exactly if the value starts with a character of text. -/
theorem head?_quotedParts {next : Cursor} {input : Text}
    (done : quotedParts quote start input = .ok (parts, next)) :
    (∃ literal, parts.head? = some (.text literal)) ↔
      ∃ c ∈ input.head?, isLiteralChar quote c = true := by
  obtain ⟨others, rfl, noText, -⟩ := quotedParts_eq_ok done
  constructor
  · rintro ⟨literal, isHead⟩
    cases input with
    | nil => exact absurd isHead (noText literal)
    | cons c input =>
      by_contra other
      have closes : ¬ isLiteralChar quote c = true := fun plain => other ⟨c, rfl, plain⟩
      rw [List.takeWhile_cons_of_neg closes] at isHead
      exact noText literal isHead
  · rintro ⟨c, isHead, plain⟩
    obtain ⟨tail, rfl⟩ := List.head?_eq_some_iff.mp isHead
    rw [List.takeWhile_cons_of_pos plain]
    exact ⟨_, rfl⟩

theorem leadingText?_mixed (parts : List ValuePart) :
    (Value.mixed parts).leadingText?.isSome = true ↔
      ∃ literal, parts.head? = some (.text literal) := by
  match parts with
  | [] => exact ⟨nofun, nofun⟩
  | .text literal :: rest => exact ⟨fun _ => ⟨literal, rfl⟩, fun _ => rfl⟩
  | .expression embedded :: rest => exact ⟨nofun, nofun⟩

/-- A value that is made of parts in quotes. -/
theorem inQuotes_ofParts (boundary : source.isBoundary start = true)
    (partitioned : Partitioned source quote start parts stop)
    (leads : (∃ literal, parts.head? = some (.text literal)) ↔
      ∃ c ∈ source.charAt? start, isLiteralChar quote c = true) :
    (Value.ofParts start parts).InQuotes source quote start stop := by
  have mixed {embedded : Embedded} (member : .expression embedded ∈ parts) :
      (Value.mixed parts).InQuotes source quote start stop :=
    ⟨partitioned, ⟨embedded, member⟩, (leadingText?_mixed parts).trans leads⟩
  obtain ⟨tiled, apart, stands⟩ := partitioned
  cases parts with
  | nil =>
    obtain rfl : start = stop := tiled.2 trivial
    obtain ⟨before, after, whole, startIs⟩ := Text.isBoundary_iff.mp boundary
    exact ⟨rfl, nofun, before, after, whole, startIs, rfl⟩
  | cons first more =>
    cases first with
    | expression embedded => cases more <;> exact mixed List.mem_cons_self
    | text literal =>
      cases more with
      | nil =>
        obtain ⟨⟨-, starts⟩, -, -, ends⟩ := tiled
        obtain ⟨-, plain, isText⟩ := stands _ List.mem_cons_self
        obtain rfl : start = literal.span.start := starts trivial
        obtain rfl : literal.span.stop = stop := ends trivial
        exact ⟨rfl, plain, isText⟩
      | cons second more =>
        cases second with
        | expression embedded => exact mixed (List.mem_cons_of_mem _ List.mem_cons_self)
        | text other => exact absurd ⟨rfl, rfl⟩ ((List.isChain_cons.mp apart).1 _ rfl)

/-- A value that was read in quotes. -/
theorem inQuotes_quotedParts {next : Cursor} (within : cursor.In source)
    (done : quotedParts quote cursor.offset cursor.rest = .ok (parts, next)) :
    ∃ stop, next.offset = stop + quote.utf8Size ∧ source.charAt? stop = some quote ∧
      (Value.ofParts cursor.offset parts).InQuotes source quote cursor.offset stop := by
  obtain ⟨stop, ends, isQuote, partitioned⟩ := quotedParts_partitioned within done
  obtain ⟨before, rfl, offset⟩ := within.exists_before
  refine ⟨stop, ends, isQuote, inQuotes_ofParts ?_ partitioned ?_⟩
  · rw [offset]
    exact Text.isBoundary_bytes before cursor.rest
  · rw [within.charAt?_eq]
    exact head?_quotedParts done

section Attributes

variable {kind : TokenKind} {blanks gap gap' rest text : Text} {span : Span} {name : String}
  {value : Value} {entry : Attribute} {reading : Reading (Option Attribute)}

/-- An attribute whose value stands in quotes. -/
theorem namedAttribute_inQuotes (isQuote : quote = '"' ∨ quote = '\'')
    (begins : Begins kind blanks text (gap ++ (['='] ++ (gap' ++ ([quote] ++ rest)))))
    (blank : ∀ c ∈ gap, Text.isSeparator c = true)
    (blank' : ∀ c ∈ gap', Text.isSeparator c = true) (offset : Nat)
    (read : (namedAttribute ⟨offset, blanks ++ (text ++ (gap ++ (['='] ++ (gap' ++
      ([quote] ++ rest)))))⟩).value = some entry) :
    let inner := offset + Text.bytes blanks +
      Text.bytes (text ++ (gap ++ (['='] ++ (gap' ++ [quote]))))
    ∃ parts next, quotedParts quote inner rest = .ok (parts, next) ∧
      entry = .named ⟨offset + Text.bytes blanks, next.offset⟩ (String.ofList text)
        (.ofParts inner parts) := by
  have equals := begins_equals blank (gap' ++ ([quote] ++ rest))
  obtain ⟨kind', isKind, quoted⟩ := begins_quote isQuote blank' rest
  intro inner
  have place : inner = offset + Text.bytes blanks + Text.bytes text + Text.bytes gap +
      Text.bytes ['='] + Text.bytes gap' + Text.bytes [quote] := by
    simp only [inner, Text.bytes_append]
    omega
  rw [place]
  unfold namedAttribute at read
  simp only [begins.token, begins.bump, equals.token, equals.bump, quoted.token, ↓reduceIte] at read
  rcases isKind with rfl | rfl
  all_goals
    simp only [quotedValue, quoted.token, quoted.bump, List.headD_cons] at read
    split at read
    case h_1 parts next done => exact ⟨parts, next, done, (Option.some.inj read).symm⟩
    case h_2 => cases read

/-- A named attribute is read from where its name starts. -/
theorem namedAttribute_begins
    (read : (namedAttribute cursor).value = some (.named span name value)) :
    ∃ kind blanks rest, cursor.rest = blanks ++ (name.toList ++ rest) ∧
      Begins kind blanks name.toList rest ∧ span.start = cursor.offset + Text.bytes blanks := by
  obtain ⟨offset, input⟩ := cursor
  obtain ⟨kind, blanks, text, rest, rfl, begins⟩ := exists_begins input
  have starts : span.start = offset + Text.bytes blanks ∧ String.ofList text = name := by
    unfold namedAttribute at read
    simp only [begins.token] at read
    split at read
    case isFalse =>
      cases read
      exact ⟨rfl, rfl⟩
    case isTrue =>
      split at read
      case h_1 | h_2 =>
        obtain ⟨_, -, same⟩ := Option.map_eq_some_iff.mp read
        cases same
        exact ⟨rfl, rfl⟩
      case h_3 =>
        split at read
        · cases read
        · cases read
          exact ⟨rfl, rfl⟩
      case h_4 | h_5 =>
        cases read
        exact ⟨rfl, rfl⟩
      case h_6 => cases read
  obtain ⟨starts, rfl⟩ := starts
  exact ⟨kind, blanks, rest, by rw [String.toList_ofList], by rwa [String.toList_ofList], starts⟩

/-- Only what starts with a name is a named attribute. -/
theorem attribute?_named (read : attribute? cursor = some reading)
    (isNamed : reading.value = some (.named span name value)) :
    reading = namedAttribute cursor := by
  rcases Cursor.attribute?_cases read with ⟨-, rfl⟩ | ⟨-, rfl⟩ | ⟨-, rfl⟩ | ⟨-, rfl⟩
  · rfl
  · unfold bracedAttribute at isNamed
    simp only at isNamed
    split at isNamed
    · cases isNamed
    · have same := Option.some.inj isNamed
      split at same <;> cases same
  · unfold attachAttribute at isNamed
    simp only at isNamed
    split at isNamed
    · cases isNamed
    · split at isNamed <;> cases isNamed
  · cases isNamed

/-- A value in quotes is read up to its closing quote. -/
theorem inQuotes_of_quotedAt (within : cursor.In source)
    (read : (namedAttribute cursor).value = some (.named span name value))
    (quoted : QuotedAt source span.start name quote inner) :
    ∃ stop, span.stop = stop + 1 ∧ source.charAt? stop = some quote ∧
      value.InQuotes source quote inner stop := by
  obtain ⟨offset, input⟩ := cursor
  obtain ⟨kind, blanks, rest, rfl, begins, starts⟩ := namedAttribute_begins read
  obtain ⟨isQuote, gap, gap', blank, blank', before, after, whole, start, innerIs⟩ := quoted
  obtain ⟨front, whole', counted⟩ := within.exists_before
  -- Both the attribute and the name in front of the quote stand at the start of the span.
  obtain ⟨rfl, same⟩ : front ++ blanks = before ∧ name.toList ++ rest = name.toList ++
      (gap ++ (['='] ++ (gap' ++ [quote]))) ++ after := by
    apply Text.append_inj_of_bytes
    · rw [← whole, whole', List.append_assoc]
    · rw [Text.bytes_append, start, starts, counted]
  rw [List.append_assoc] at same
  obtain rfl : gap ++ (['='] ++ (gap' ++ ([quote] ++ after))) = rest := by
    simpa only [List.append_assoc] using (List.append_cancel_left same).symm
  obtain ⟨parts, next, done, isEntry⟩ :=
    namedAttribute_inQuotes isQuote begins blank blank' offset read
  rw [← starts, ← innerIs] at done isEntry
  obtain ⟨spanIs, -, rfl⟩ := Attribute.named.inj isEntry
  have place : Cursor.In ⟨inner, after⟩ source := by
    refine within.trans ⟨blanks ++ (name.toList ++ (gap ++ (['='] ++ (gap' ++ [quote])))), ?_, ?_⟩
    · simp only [List.append_assoc]
    · simp only [innerIs, starts, Text.bytes_append, Nat.add_assoc]
  have one : quote.utf8Size = 1 := by rcases isQuote with rfl | rfl <;> rfl
  obtain ⟨stop, ends, closes, inQuotes⟩ := inQuotes_quotedParts place done
  exact ⟨stop, (congrArg Span.stop spanIs).trans (one ▸ ends), closes, inQuotes⟩

/-- Only a value in quotes mixes text and expressions. -/
theorem quotedAt_of_mixed (within : cursor.In source)
    (read : (namedAttribute cursor).value = some (.named span name (.mixed parts))) :
    ∃ quote inner, QuotedAt source span.start name quote inner := by
  obtain ⟨offset, input⟩ := cursor
  obtain ⟨kind, blanks, rest, rfl, begins, starts⟩ := namedAttribute_begins read
  obtain ⟨kind', gap, equals, behind, rfl, isEquals⟩ := exists_begins rest
  obtain ⟨kind'', gap', opening, after, rfl, isOpening⟩ := exists_begins behind
  unfold namedAttribute at read
  simp only [begins.token, begins.bump, isEquals.token, isEquals.bump, isOpening.token] at read
  have forms : kind' = .equals ∧ ∃ quote, (quote = '"' ∨ quote = '\'') ∧ opening = [quote] := by
    split at read
    case isFalse => simp at read
    case isTrue equal =>
      refine ⟨equal, ?_⟩
      split at read
      case h_1 => exact ⟨'"', .inl rfl, isOpening.text_eq rfl⟩
      case h_2 => exact ⟨'\'', .inr rfl, isOpening.text_eq rfl⟩
      case h_3 => split at read <;> simp at read
      case h_4 | h_5 | h_6 => simp at read
  obtain ⟨rfl, quote, isQuote, rfl⟩ := forms
  obtain rfl := isEquals.text_eq rfl
  obtain ⟨front, whole, counted⟩ := within.exists_before
  refine ⟨quote, _, isQuote, gap, gap', isEquals.blank, isOpening.blank, front ++ blanks, after, ?_,
    ?_, rfl⟩
  · simpa only [List.append_assoc] using whole
  · rw [Text.bytes_append, starts, counted]

/-- Every attribute of a tag was read at some place. -/
theorem exists_namedAttribute (within : cursor.In source)
    (member : .named span name value ∈ (attributes cursor).value) :
    ∃ place : Cursor, place.In source ∧
      (namedAttribute place).value = some (.named span name value) := by
  fun_induction attributes cursor with
  | case1 cursor none => cases member
  | case2 cursor reading found less more ih =>
    rcases List.mem_append.mp member with first | later
    · have isNamed : reading.value = some (.named span name value) := Option.mem_toList.mp first
      exact ⟨cursor, within, attribute?_named found isNamed ▸ isNamed⟩
    · exact ih (within.trans (attribute?_reaches found)) later

/-- A named attribute of a tag that was read in the source. -/
theorem Tagged.exists_namedAttribute {whole : Span} {entries : List Attribute}
    (tagged : Tagged source whole entries) (member : .named span name value ∈ entries) :
    ∃ place : Cursor, place.In source ∧
      (namedAttribute place).value = some (.named span name value) := by
  obtain ⟨tag, ⟨cursor, within, -, read, -⟩, -, rfl⟩ := tagged
  rw [openTag_attributes read] at member
  exact Markup.exists_namedAttribute
    (within.trans ((Cursor.reaches_bump cursor).trans (Cursor.reaches_bump cursor.bump))) member

end Attributes

/-- The attributes of a node's own tag. -/
def Node.attributes : Node → List Attribute
  | .element _ _ attributes _ => attributes
  | _ => []

/-- All attributes of a document. -/
def Document.attributes (document : Document) : List Attribute :=
  (nodesPreorder document.template.nodes).flatMap Node.attributes ++
    (document.moduleScript.toList ++ document.instanceScript.toList).flatMap Script.attributes ++
      document.style.toList.flatMap Style.attributes

theorem Document.Tagged.exists_namedAttribute {document : Document}
    (tagged : document.Tagged source) {span : Span} {name : String} {value : Value}
    (member : .named span name value ∈ document.attributes) :
    ∃ place : Cursor, place.In source ∧
      (namedAttribute place).value = some (.named span name value) := by
  rcases List.mem_append.mp member with member | inStyle
  · rcases List.mem_append.mp member with inNode | inScript
    · obtain ⟨node, isNode, isIn⟩ := List.mem_flatMap.mp inNode
      have here := tagged.nodes node isNode
      cases node with
      | element span role entries children => exact here.1.exists_namedAttribute isIn
      | text | comment | expression | tag | block => cases isIn
    · obtain ⟨script, isScript, isIn⟩ := List.mem_flatMap.mp inScript
      rcases List.mem_append.mp isScript with isModule | isInstance
      · exact (tagged.moduleScript script
          (Option.mem_toList.mp isModule)).exists_namedAttribute isIn
      · exact (tagged.instanceScript script
          (Option.mem_toList.mp isInstance)).exists_namedAttribute isIn
  · obtain ⟨style, isStyle, isIn⟩ := List.mem_flatMap.mp inStyle
    exact (tagged.style style (Option.mem_toList.mp isStyle)).exists_namedAttribute isIn

/-- **Values in quotes are partitioned exactly.** A value that is written in quotes is the text
between them, if there is no expression in it, or else parts that lie one behind the other from the
opening quote up to the closing one; it starts with a text exactly if a character of text comes
directly behind the opening quote. No other value mixes text and expressions. All this holds with
faults in the source or without. -/
theorem read_quoted {span : Span} {name : String} {value : Value}
    (member : .named span name value ∈ (read source).1.attributes) :
    (∀ quote inner, QuotedAt source span.start name quote inner →
      ∃ stop, span.stop = stop + 1 ∧ source.charAt? stop = some quote ∧
        value.InQuotes source quote inner stop) ∧
      ∀ parts, value = .mixed parts →
        ∃ quote inner, QuotedAt source span.start name quote inner := by
  obtain ⟨place, within, isNamed⟩ := (tagged_read source).exists_namedAttribute member
  refine ⟨fun quote inner quoted => inQuotes_of_quotedAt within isNamed quoted, ?_⟩
  rintro parts rfl
  exact quotedAt_of_mixed within isNamed

/-- A value with an expression behind its text. -/
def mixedCard : Text := "<A class=\"a\x7bb\x7d\"/>".toList

/-- What is read of the value. -/
def mixedValue : Value :=
  .mixed [.text ⟨⟨10, 11⟩, "a"⟩, .expression ⟨⟨11, 14⟩, ⟨12, 13⟩, "b"⟩]

/-- The value, from its opening quote on. -/
def mixedPlace : Cursor := ⟨9, "\"a\x7bb\x7d\"/>".toList⟩

theorem quotedValue_mixedPlace :
    quotedValue mixedPlace = ⟨some mixedValue, [], ⟨15, ['/', '>']⟩⟩ := by
  have quote : mixedPlace.token.text.headD '"' = '"' := rfl
  have inside : mixedPlace.bump = ⟨10, ['a', '\x7b', 'b', '\x7d', '"', '/', '>']⟩ := rfl
  have last : quotedParts '"' 14 ['"', '/', '>'] = .ok ([], ⟨15, ['/', '>']⟩) := by
    rw [quotedParts_eq]
    rfl
  have parts : quotedParts '"' 10 ['a', '\x7b', 'b', '\x7d', '"', '/', '>'] =
      .ok ([.text ⟨⟨10, 11⟩, "a"⟩, .expression ⟨⟨11, 14⟩, ⟨12, 13⟩, "b"⟩],
        ⟨15, ['/', '>']⟩) := by
    rw [quotedParts_eq]
    exact congrArg (Except.map _) last
  unfold quotedValue
  simp only [quote, inside, parts]
  rfl

theorem read_mixedCard :
    (read mixedCard).1.attributes = [.named ⟨3, 15⟩ "class" mixedValue] := by
  have first : attribute? (Cursor.start mixedCard).bump.bump =
      some ⟨some (.named ⟨3, 15⟩ "class" mixedValue), [], ⟨15, ['/', '>']⟩⟩ := by
    have same : attribute? (Cursor.start mixedCard).bump.bump =
        some ⟨(quotedValue mixedPlace).value.map
          (.named ⟨3, (quotedValue mixedPlace).next.offset⟩ "class" ·),
            (quotedValue mixedPlace).faults, (quotedValue mixedPlace).next⟩ := rfl
    rw [same, quotedValue_mixedPlace]
    rfl
  have opens := openTag_of_attribute? (show (Cursor.start mixedCard).tagName? = some "A" by rfl)
    first rfl rfl
  have stepped : (Draft.start mixedCard).step = some (Draft.start mixedCard).readElement := by rfl
  have element : (Draft.start mixedCard).readElement = ⟨⟨17, []⟩, [],
      [.element ⟨0, 17⟩ (.component "A" true) [.named ⟨3, 15⟩ "class" mixedValue] []],
        none, none, none, []⟩ := by
    unfold Draft.readElement
    rw [show (Draft.start mixedCard).cursor = Cursor.start mixedCard from rfl, opens]
    rfl
  unfold Markup.read
  rw [Draft.run_of_step stepped, element, Draft.run_of_step_eq_none (by rfl)]
  rfl

/-- The value is in double quotes, with its text directly behind the first one. -/
theorem read_quoted_mixedCard :
    QuotedAt mixedCard 3 "class" '"' 10 ∧ mixedValue.InQuotes mixedCard '"' 10 14 := by
  have member : .named ⟨3, 15⟩ "class" mixedValue ∈ (read mixedCard).1.attributes := by
    rw [read_mixedCard]
    exact List.mem_cons_self
  have quoted : QuotedAt mixedCard 3 "class" '"' 10 :=
    ⟨.inl rfl, [], [], nofun, nofun, "<A ".toList, "a\x7bb\x7d\"/>".toList, by decide, by decide,
      by decide⟩
  obtain ⟨stop, ends, -, inQuotes⟩ := (read_quoted member).1 '"' 10 quoted
  obtain rfl : 14 = stop := Nat.succ.inj ends
  exact ⟨quoted, inQuotes⟩

end ClassHoist.Markup
