import ClassHoist.Proofs.Balanced
import ClassHoist.Proofs.Hoisting
import ClassHoist.Proofs.Roundtrip

/-! # Attribute values as they are written

A value is written in quotes, as an expression in braces, or bare. Which of these it is, is settled
by its first token before any of it is read, and that token does not know that it stands in a tag:
an expression whose first character makes the opening brace that of a block, and a bare value that
starts with a slash, announce no value at all. Every well-formed value that is announced is read
verbatim, and every other one is a fault (`read?_written`).
-/

namespace ClassHoist.Markup

/-- A value as it is written behind the equals sign of an attribute: text in double quotes, an
expression in braces, or text alone. -/
inductive Written where
  | quoted (text : Text)
  | braced (code : Text)
  | bare (text : Text)

/-- A character of a bare value. -/
def isBareChar (c : Char) : Bool :=
  !(Text.isSeparator c || c == '"' || c == '\'' || c == '\x60' || c == '=' || c == '<' ||
    c == '>' || c == '\x7b' || c == '\x7d')

namespace Written

/-- The text of the value. -/
def print : Written → Text
  | quoted text => '"' :: (text ++ ['"'])
  | braced code => '\x7b' :: (code ++ ['\x7d'])
  | bare text => text

/-- Quoted text holds neither the quote nor an expression, all that an expression opens is closed,
and a bare value is one run that does not run into the end of the tag. -/
def WellFormed : Written → Prop
  | quoted text => ∀ c ∈ text, isLiteralChar '"' c = true
  | braced code => Expression.Complete .code code
  | bare text => text ≠ [] ∧ (∀ c ∈ text, isBareChar c = true) ∧ text.getLast? ≠ some '/'

/-- The first token of the value tells its form. -/
def Announced : Written → Prop
  | quoted _ => True
  | braced code => ∀ c ∈ code.head?, c ≠ '#' ∧ c ≠ '/' ∧ c ≠ ':' ∧ c ≠ '@'
  | bare text => ∀ c ∈ text.head?, isWordChar c = true

instance : (written : Written) → Decidable written.Announced
  | quoted _ => .isTrue trivial
  | braced code => code.head?.decidableForallMem
  | bare text => text.head?.decidableForallMem

/-- The value that is written at `start`. -/
def value (start : Nat) : Written → Value
  | quoted text => .text ⟨⟨start + 1, start + 1 + text.bytes⟩, String.ofList text⟩
  | braced code => .expression ⟨⟨start, start + 1 + code.bytes + 1⟩,
      ⟨start + 1, start + 1 + code.bytes⟩, String.ofList code⟩
  | bare text => .text ⟨⟨start, start + text.bytes⟩, String.ofList text⟩

/-- A component with one attribute. -/
def source (written : Written) (name : String) : Text :=
  '<' :: 'A' :: ' ' :: (name.toList ++ ('=' :: (written.print ++ ['>', '<', '/', 'A', '>'])))

/-- The document that holds a component with one attribute. -/
def document (written : Written) (name : String) : Document :=
  let start := 3 + Text.bytes name.toList + 1
  let stop := start + written.print.bytes
  ⟨none, none, none, ⟨[.element ⟨0, stop + 5⟩ (.component "A" false)
    [.named ⟨3, stop⟩ name (written.value start)] []], ⟨0, stop + 5⟩⟩⟩

end Written

section Values

variable {written : Written} {name : String} {value rest : Text} {offset : Nat}

theorem noBlank : ∀ c ∈ [], Text.isSeparator c = true := nofun

/-- An attribute name in front of its equals sign. -/
theorem begins_attributeName (named : isName name.toList = true) (value : Text) :
    Begins .name [' '] name.toList ([] ++ (['='] ++ value)) := by
  have begins := begins_of_isWord blank_space (isWord_of_isName named)
    (stops_before_equals noBlank value)
  rwa [if_pos named] at begins

theorem ofParts_literalPart (offset : Nat) (literal : Text) :
    Value.ofParts offset (literalPart offset literal) =
      .text ⟨⟨offset, offset + literal.bytes⟩, String.ofList literal⟩ := by
  cases literal <;> rfl

/-- Where a bare value ends in a tag that ends with it. -/
theorem unquotedRun_bare (wellFormed : (Written.bare value).WellFormed) (rest : Text) :
    unquotedRun (value ++ '>' :: rest) = (value, '>' :: rest) := by
  obtain ⟨-, plain, last⟩ := wellFormed
  refine unquotedRun_eq_iff.mpr ⟨fun c member => ?_, fun both => last both.1,
    .inr (.inl ⟨'>', rfl, rfl⟩)⟩
  have isBare := plain c member
  simp only [isBareChar, Bool.not_eq_true', Bool.or_eq_false_iff] at isBare
  simp only [isUnquotedChar, isBare, bne, Bool.not_false, Bool.and_self]

theorem afterUnquoted_tagEnd (run rest : Text) (stop : Nat) :
    afterUnquoted run ('>' :: rest) stop = ⟨stop, '>' :: rest⟩ := by
  unfold afterUnquoted
  split
  case h_1 same | h_2 same => cases (List.cons.inj same).1
  case h_3 => rfl

/-- A character without structure starts a name or a word where it stands. -/
theorem token_of_isWordChar {c : Char} (isRun : isWordChar c = true) (offset : Nat) (rest : Text) :
    (Cursor.token ⟨offset, c :: rest⟩).kind.IsRun ∧
      (Cursor.token ⟨offset, c :: rest⟩).span.start = offset := by
  have isWord : IsWord ((c :: rest).takeWhile isWordChar) := by
    refine ⟨?_, List.all_eq_true.mp List.all_takeWhile⟩
    rw [List.takeWhile_cons_of_pos isRun]
    exact List.cons_ne_nil _ _
  have token := (begins_of_isWord noBlank isWord (head?_dropWhile (c :: rest))).token offset
  rw [List.nil_append, List.takeWhile_append_dropWhile] at token
  rw [token]
  exact ⟨isRun_ite _, rfl⟩

/-- Where a value that is written at `start` ends. -/
theorem Written.stop_eq (written : Written) (start : Nat) : start + written.print.bytes =
    match written with
    | quoted text => start + 1 + text.bytes + 1
    | braced code => start + 1 + code.bytes + 1
    | bare text => start + text.bytes := by
  cases written with
  | quoted text | braced text =>
    rw [print, Text.bytes_cons, Text.bytes_append, ← Nat.add_assoc, ← Nat.add_assoc]
    rfl
  | bare text => rfl

/-- **An announced value is read verbatim**, with the name in front of it. -/
theorem namedAttribute_written (named : isName name.toList = true)
    (wellFormed : written.WellFormed) (announced : written.Announced) (offset : Nat)
    (rest : Text) :
    let start := offset + 1 + Text.bytes name.toList + 1
    let stop := start + written.print.bytes
    namedAttribute ⟨offset,
        [' '] ++ (name.toList ++ ([] ++ (['='] ++ (written.print ++ '>' :: rest))))⟩ =
      ⟨some (.named ⟨offset + 1, stop⟩ name (written.value start)), [], ⟨stop, '>' :: rest⟩⟩ := by
  have begins := begins_attributeName named (written.print ++ '>' :: rest)
  have equals := begins_equals noBlank (written.print ++ '>' :: rest)
  intro start stop
  have place : offset + Text.bytes [' '] + Text.bytes name.toList + Text.bytes [] +
      Text.bytes ['='] = start := rfl
  have counted : stop = _ := written.stop_eq start
  unfold namedAttribute
  simp only [begins.token, begins.bump, equals.token, equals.bump, ↓reduceIte,
    String.ofList_toList, place, counted]
  cases written with
  | quoted text =>
    have split : (Written.quoted text).print ++ '>' :: rest =
      [] ++ (['"'] ++ (text ++ ['"'] ++ '>' :: rest)) := rfl
    have opens : Begins .doubleQuote [] ['"'] (text ++ ['"'] ++ '>' :: rest) :=
      ⟨noBlank, fun c isHead => Option.some.inj isHead ▸ rfl, rfl⟩
    simp only [split, quotedValue, opens.token, opens.bump, List.headD_cons,
      quotedParts_literal wellFormed, ofParts_literalPart, Option.map_some]
    rfl
  | braced code =>
    have split : (Written.braced code).print ++ '>' :: rest =
        [] ++ (['\x7b'] ++ (code ++ '\x7d' :: '>' :: rest)) :=
      congrArg (List.cons '\x7b') (List.append_assoc code ['\x7d'] ('>' :: rest))
    have opens : Begins .braceOpen [] ['\x7b'] (code ++ '\x7d' :: '>' :: rest) := by
      refine begins_braceOpen noBlank fun c isHead => ?_
      cases code with
      | nil => exact Option.some.inj isHead ▸ by decide
      | cons d code => exact announced c isHead
    have closed := Expression.closing?_complete wellFormed ('>' :: rest)
    simp only [split, Cursor.braced?, opens.token, opens.bump, closed]
    rfl
  | bare text =>
    obtain ⟨c, others, rfl⟩ := List.exists_cons_of_ne_nil wellFormed.1
    -- A bare value is taken for one only if its first token is a run.
    have isRun := announced c rfl
    obtain ⟨isKind, starts⟩ := token_of_isWordChar isRun start (others ++ '>' :: rest)
    have kept : (c :: others ++ '>' :: rest).dropWhile Text.isSeparator =
        c :: others ++ '>' :: rest :=
      List.dropWhile_cons_of_neg (by rw [isSeparator_of_isWordChar isRun]; exact Bool.false_ne_true)
    simp only [Written.print, kept, unquotedRun_bare wellFormed, afterUnquoted_tagEnd]
    rw [List.cons_append]
    rcases isKind with isKind | isKind
    all_goals
      simp only [isKind, starts]
      rfl

/-- A token with which a value can start. -/
def TokenKind.StartsValue (kind : TokenKind) : Prop :=
  kind = .doubleQuote ∨ kind = .singleQuote ∨ kind = .braceOpen ∨ kind.IsRun

/-- With which character a value starts whose first token can start one. -/
theorem head_of_startsValue {c : Char} (solid : Text.isSeparator c = false)
    (starts : (Cursor.token ⟨offset, c :: rest⟩).kind.StartsValue) :
    c = '"' ∨ c = '\'' ∨
      (c = '\x7b' ∧ ∀ d ∈ rest.head?, d ≠ '#' ∧ d ≠ '/' ∧ d ≠ ':' ∧ d ≠ '@') ∨
        isWordChar c = true := by
  obtain ⟨kind, blanks, text, more, split, begins⟩ := exists_begins (c :: rest)
  cases blanks with
  | cons d blanks =>
    obtain ⟨rfl, -⟩ := List.cons.inj split
    rw [begins.blank c List.mem_cons_self] at solid
    cases solid
  | nil =>
    rw [split, begins.token] at starts
    rcases starts with rfl | rfl | rfl | isRun
    · obtain rfl := begins.text_eq rfl
      exact .inl (List.cons.inj split).1
    · obtain rfl := begins.text_eq rfl
      exact .inr (.inl (List.cons.inj split).1)
    · have plain := begins.braceOpen_plain
      obtain rfl := begins.text_eq rfl
      obtain ⟨rfl, rfl⟩ := List.cons.inj split
      exact .inr (.inr (.inl ⟨rfl, plain⟩))
    · obtain ⟨⟨nonempty, isWord⟩, -⟩ := begins.run isRun
      obtain ⟨d, others, rfl⟩ := List.exists_cons_of_ne_nil nonempty
      obtain ⟨rfl, -⟩ := List.cons.inj split
      exact .inr (.inr (.inr (isWord c List.mem_cons_self)))

/-- A value whose first token can start a value is announced. -/
theorem Written.announced_of_startsValue (wellFormed : written.WellFormed)
    (starts : (Cursor.token ⟨offset, written.print ++ rest⟩).kind.StartsValue) :
    written.Announced := by
  cases written with
  | quoted text => trivial
  | braced code =>
    rcases head_of_startsValue rfl starts with isQuote | isQuote | ⟨-, plain⟩ | isRun
    · cases isQuote
    · cases isQuote
    · intro c isHead
      obtain ⟨others, rfl⟩ := List.head?_eq_some_iff.mp isHead
      exact plain c rfl
    · cases isRun
  | bare text =>
    obtain ⟨c, others, rfl⟩ := List.exists_cons_of_ne_nil wellFormed.1
    have isBare := wellFormed.2.1 c List.mem_cons_self
    simp only [isBareChar, Bool.not_eq_true', Bool.or_eq_false_iff, beq_eq_false_iff_ne] at isBare
    obtain ⟨⟨⟨⟨⟨⟨⟨⟨solid, noQuote⟩, noQuote'⟩, -⟩, -⟩, -⟩, -⟩, noBrace⟩, -⟩ := isBare
    intro d isHead
    obtain rfl := Option.some.inj isHead
    rcases head_of_startsValue solid starts with isQuote | isQuote | ⟨isBrace, -⟩ | isRun
    · exact absurd isQuote noQuote
    · exact absurd isQuote noQuote'
    · exact absurd isBrace noBrace
    · exact isRun

/-- No value is read where the first token cannot start one. -/
theorem namedAttribute_missing (named : isName name.toList = true) (offset : Nat)
    (other : ¬ (Cursor.token ⟨offset + 1 + Text.bytes name.toList + 1, value⟩).kind.StartsValue) :
    let place : Cursor := ⟨offset + 1 + Text.bytes name.toList + 1, value⟩
    namedAttribute ⟨offset, [' '] ++ (name.toList ++ ([] ++ (['='] ++ value)))⟩ =
      ⟨none, [⟨.missingValue name, place.token.span⟩], place⟩ := by
  have begins := begins_attributeName named value
  have equals := begins_equals noBlank value
  intro place
  have isPlace : (⟨offset + Text.bytes [' '] + Text.bytes name.toList + Text.bytes [] +
      Text.bytes ['='], value⟩ : Cursor) = place := rfl
  unfold namedAttribute
  simp only [begins.token, begins.bump, equals.token, equals.bump, ↓reduceIte,
    String.ofList_toList, isPlace]
  split
  case h_1 isKind => exact absurd (.inl isKind) other
  case h_2 isKind => exact absurd (.inr (.inl isKind)) other
  case h_3 isKind => exact absurd (.inr (.inr (.inl isKind))) other
  case h_4 isKind => exact absurd (.inr (.inr (.inr (.inl isKind)))) other
  case h_5 isKind => exact absurd (.inr (.inr (.inr (.inr isKind)))) other
  case h_6 => rfl

theorem tagName?_source (written : Written) (name : String) :
    (Cursor.start (written.source name)).tagName? = some "A" := by rfl

/-- The first attribute of the tag is the one that is written there. -/
theorem attribute?_source (named : isName name.toList = true) (written : Written) :
    attribute? (Cursor.start (written.source name)).bump.bump =
      some (namedAttribute ⟨2, [' '] ++ (name.toList ++ ([] ++ (['='] ++
        (written.print ++ '>' :: ['<', '/', 'A', '>']))))⟩) := by
  have begins := begins_attributeName named (written.print ++ '>' :: ['<', '/', 'A', '>'])
  exact attribute?_of_isRun (.inl (congrArg Token.kind (begins.token 2)))

/-- The tag in which the value is written. -/
def Written.tag (written : Written) (name : String) : OpenTag :=
  let start := 3 + Text.bytes name.toList + 1
  ⟨0, "A", [.named ⟨3, start + written.print.bytes⟩ name (written.value start)], false⟩

/-- A tag with an announced value is read as it is written. -/
theorem openTag_source (named : isName name.toList = true) (wellFormed : written.WellFormed)
    (announced : written.Announced) :
    openTag (Cursor.start (written.source name)) = ⟨some (written.tag name), [],
      ⟨3 + Text.bytes name.toList + 1 + written.print.bytes + 1, ['<', '/', 'A', '>']⟩⟩ := by
  have first := attribute?_source named written
  rw [namedAttribute_written named wellFormed announced] at first
  have last := attribute?_tagEnd noBlank false ['<', '/', 'A', '>']
    (2 + 1 + Text.bytes name.toList + 1 + written.print.bytes)
  have all : attributes (Cursor.start (written.source name)).bump.bump =
      ⟨(written.tag name).attributes, [],
        ⟨2 + 1 + Text.bytes name.toList + 1 + written.print.bytes,
          '>' :: ['<', '/', 'A', '>']⟩⟩ := by
    rw [attributes_of_attribute? first]
    simp only
    rw [show '>' :: ['<', '/', 'A', '>'] = [] ++ (tagEnd false ++ ['<', '/', 'A', '>']) from rfl,
      attributes_of_attribute?_eq_none last]
    rfl
  unfold openTag
  simp only [tagName?_source, all]
  rfl

theorem bytes_source (written : Written) (name : String) : Text.bytes (written.source name) =
    3 + Text.bytes name.toList + 1 + written.print.bytes + 5 := by
  have ends : Text.bytes ['>', '<', '/', 'A', '>'] = 5 := rfl
  simp only [Written.source, Text.bytes_cons, Text.bytes_append, ends]
  simp only [show '<'.utf8Size = 1 from rfl, show 'A'.utf8Size = 1 from rfl,
    show ' '.utf8Size = 1 from rfl, show '='.utf8Size = 1 from rfl]
  omega

/-- The closing tag of the component, and the name in it. -/
theorem closingTag_source (offset : Nat) :
    (Cursor.tagName? ⟨offset, ['<', '/', 'A', '>']⟩ = some "A") ∧
      closingTag ⟨offset, ['<', '/', 'A', '>']⟩ "A" = ⟨(), [], ⟨offset + 4, []⟩⟩ := by
  have begins : Begins .closingOpen [] ['<', '/'] ['A', '>'] :=
    ⟨noBlank, fun c isHead => Option.some.inj isHead ▸ rfl, rfl⟩
  have tagName : Cursor.tagName? ⟨offset, ['<', '/', 'A', '>']⟩ = some "A" :=
    tagName?_eq begins offset
  refine ⟨tagName, ?_⟩
  unfold closingTag
  simp only [show (Cursor.token ⟨offset, ['<', '/', 'A', '>']⟩).kind = .closingOpen from rfl,
    tagName, ↓reduceIte]
  rfl

/-- A document with a component that has an announced value is read as it is written. -/
theorem read?_announced (named : isName name.toList = true) (wellFormed : written.WellFormed)
    (announced : written.Announced) :
    read? (written.source name) = .ok (written.document name) := by
  let inside : Draft :=
    ⟨⟨3 + Text.bytes name.toList + 1 + written.print.bytes + 1, ['<', '/', 'A', '>']⟩,
      [.element ⟨written.tag name, .component "A" false, []⟩], [], none, none, none, []⟩
  have opens : (Draft.start (written.source name)).step =
      some (Draft.start (written.source name)).readElement := by rfl
  have element : (Draft.start (written.source name)).readElement = inside := by
    have read := openTag_source named wellFormed announced
    have value : (openTag (Draft.start (written.source name)).cursor).value =
        some (written.tag name) := congrArg Reading.value read
    have isMarkup : bodyOf "A" false = .markup := by rfl
    have isComponent : Role.ofName "A" false = .component "A" false := by decide
    have known : isUnknownSpecial "A" = false := by decide
    have tagName : (written.tag name).name = "A" := rfl
    have isOpen : (written.tag name).selfClosing = false := rfl
    rw [Draft.readElement_eq value, Draft.unknownFaults_eq_nil_iff.mpr known]
    unfold Draft.readBody
    simp only [tagName, isOpen, isMarkup, isComponent]
    rw [show (Draft.start (written.source name)).cursor =
      Cursor.start (written.source name) from rfl, read]
    rfl
  have closes : inside.step =
      some ⟨⟨inside.cursor.offset + 4, []⟩, [],
        [.element ⟨0, inside.cursor.offset + 4⟩ (.component "A" false)
          (written.tag name).attributes []], none, none, none, []⟩ := by
    obtain ⟨tagName, closing⟩ := closingTag_source inside.cursor.offset
    have isOpen : inside.opened = [.element ⟨written.tag name, .component "A" false, []⟩] := rfl
    have isClosing : inside.cursor.token.kind = .closingOpen := rfl
    have notImplied := Draft.not_implied_of_own isOpen isClosing tagName
    rw [Draft.step_of_close (startsConstruct_cons rfl _) isOpen (.inr (.inl isClosing))]
    unfold Draft.closeElement
    simp only [notImplied, Bool.false_eq_true, ↓reduceIte]
    rw [show closingTag inside.cursor (written.tag name).name = _ from closing]
    rfl
  have ends (offset : Nat) (nodes : List Node) :
      (⟨⟨offset, []⟩, [], nodes, none, none, none, []⟩ : Draft).step = none := by rfl
  unfold read? Markup.read
  rw [Draft.run_of_step opens, element, Draft.run_of_step closes,
    Draft.run_of_step_eq_none (ends _ _)]
  simp only [Draft.document, List.reverse_nil, List.reverse_singleton, bytes_source]
  rfl

/-- A value starts directly behind the equals sign. -/
theorem Written.exists_token_span (wellFormed : written.WellFormed) (offset : Nat) (rest : Text) :
    ∃ stop, (Cursor.token ⟨offset, written.print ++ rest⟩).span = ⟨offset, stop⟩ := by
  have starts {c : Char} (solid : Text.isSeparator c = false) (others : Text) :
      ∃ stop, (Cursor.token ⟨offset, c :: others⟩).span = ⟨offset, stop⟩ := by
    have start : (Cursor.token ⟨offset, c :: others⟩).span.start = offset := by
      rw [Cursor.token_start, List.takeWhile_cons_of_neg (by rw [solid]; exact Bool.false_ne_true)]
      rfl
    exact ⟨_, congrArg (Span.mk · _) start⟩
  cases written with
  | quoted text => exact starts rfl _
  | braced code => exact starts rfl _
  | bare text =>
    obtain ⟨c, others, rfl⟩ := List.exists_cons_of_ne_nil wellFormed.1
    have isBare := wellFormed.2.1 c List.mem_cons_self
    simp only [isBareChar, Bool.not_eq_true', Bool.or_eq_false_iff] at isBare
    exact starts isBare.1.1.1.1.1.1.1.1 _

/-- The first fault of a tag is that of its first attribute. -/
theorem openTag_faults {cursor : Cursor} {tagName : String} {reading : Reading (Option Attribute)}
    {fault : Fault} (isTag : cursor.tagName? = some tagName)
    (first : attribute? cursor.bump.bump = some reading) (faulty : reading.faults = [fault]) :
    ∃ tag more, (openTag cursor).value = some tag ∧ (openTag cursor).faults = fault :: more := by
  have faults : (attributes cursor.bump.bump).faults =
      fault :: (attributes reading.next).faults := by
    rw [attributes_of_attribute? first]
    exact congrArg (· ++ _) faulty
  unfold openTag
  simp only [isTag, faults]
  split <;> exact ⟨_, _, rfl, rfl⟩

/-- A fault in the tag with which a document starts is its first fault. -/
theorem faults_of_openTag {input : Text} {tag : OpenTag} {fault : Fault} {more : List Fault}
    (stepped : (Draft.start input).step = some (Draft.start input).readElement)
    (value : (openTag (Draft.start input).cursor).value = some tag)
    (faults : (openTag (Draft.start input).cursor).faults = fault :: more) :
    ∃ others, (Draft.start input).run.faults.reverse = fault :: others := by
  have noted := Draft.readBody_faults (((Draft.start input).moveTo
    (openTag (Draft.start input).cursor).next).note
      ((openTag (Draft.start input).cursor).faults ++ Draft.unknownFaults tag)) tag
  rw [← Draft.readElement_eq value, Draft.faults_note, faults] at noted
  obtain ⟨later, split⟩ := noted.trans (Draft.run_faults (Draft.start input).readElement)
  refine ⟨more ++ Draft.unknownFaults tag ++ later.reverse, ?_⟩
  rw [Draft.run_of_step stepped, ← split, List.reverse_append, List.reverse_append,
    List.reverse_reverse]
  rfl

/-- A document with a component that has a value which is not announced has a fault where the value
starts. -/
theorem read?_unannounced (named : isName name.toList = true) (wellFormed : written.WellFormed)
    (unannounced : ¬ written.Announced) :
    ∃ stop more, read? (written.source name) =
      .error (⟨.missingValue name, ⟨3 + Text.bytes name.toList + 1, stop⟩⟩ :: more) := by
  have first := attribute?_source named written
  rw [namedAttribute_missing named 2 fun starts =>
    unannounced (written.announced_of_startsValue wellFormed starts)] at first
  obtain ⟨tag, more, value, faults⟩ := openTag_faults (tagName?_source written name) first rfl
  obtain ⟨others, all⟩ := faults_of_openTag (by rfl) value faults
  obtain ⟨stop, span⟩ := written.exists_token_span wellFormed (2 + 1 + Text.bytes name.toList + 1)
    ('>' :: ['<', '/', 'A', '>'])
  refine ⟨stop, others, ?_⟩
  unfold read? Markup.read
  simp only [all, span]

/-- **Every announced value is read verbatim, and no other.** A component with one attribute, whose
value is well formed, is read without faults, with that attribute alone and the value as it is
written, if the first token of the value tells its form; otherwise the first fault is that the
attribute has no value, where the value starts. -/
theorem read?_written (named : isName name.toList = true) (wellFormed : written.WellFormed) :
    (written.Announced → read? (written.source name) = .ok (written.document name)) ∧
      (¬ written.Announced → ∃ stop more, read? (written.source name) =
        .error (⟨.missingValue name, ⟨3 + Text.bytes name.toList + 1, stop⟩⟩ :: more)) :=
  ⟨read?_announced named wellFormed, read?_unannounced named wellFormed⟩

end Values

/-- A value of each form that is read, and an expression behind a comment, which is not. -/
theorem read?_written_samples :
    read? "<A class=\"a/b <c>\"></A>".toList =
        .ok ((Written.quoted "a/b <c>".toList).document "class") ∧
      read? "<A on:click=\x7bf('\x7d')\x7d></A>".toList =
        .ok ((Written.braced "f('\x7d')".toList).document "on:click") ∧
      read? "<A href=a/b></A>".toList = .ok ((Written.bare "a/b".toList).document "href") ∧
      ∃ stop more, read? "<A n=\x7b/**/x\x7d></A>".toList =
        .error (⟨.missingValue "n", ⟨5, stop⟩⟩ :: more) := by
  have quoted : (Written.quoted "a/b <c>".toList).WellFormed :=
    List.all_eq_true.mp (show "a/b <c>".toList.all (isLiteralChar '"') = true by decide)
  have bare : (Written.bare "a/b".toList).WellFormed :=
    ⟨by decide, List.all_eq_true.mp (show "a/b".toList.all isBareChar = true by decide), by decide⟩
  have call : (Written.braced "f('\x7d')".toList).WellFormed := by
    have string : Expression.StringText '\'' ['\x7d'] := .char (by decide) (by decide) .nil
    exact .plain rfl (.brackets (show ('(', ')') ∈ Expression.bracketPairs by decide)
      (.string (.inr rfl) string .nil) .nil)
  have comment : (Written.braced "/**/x".toList).WellFormed :=
    .comment (.block (show ¬ ['*', '/'] <:+: [] by decide)) (.plain rfl .nil)
  have isClass : isName "class".toList = true := by decide
  have isClick : isName "on:click".toList = true := by decide
  have isHref : isName "href".toList = true := by decide
  have isN : isName "n".toList = true := by decide
  exact ⟨(read?_written isClass quoted).1 (by decide), (read?_written isClick call).1 (by decide),
    (read?_written isHref bare).1 (by decide), (read?_written isN comment).2 (by decide)⟩

/-- A bare value that starts with a slash is refused, though it is one run of plain characters. -/
theorem read?_slash : isName "n".toList = true ∧ (Written.bare ['/', 'a']).WellFormed ∧
    (Written.bare ['/', 'a']).source "n" = "<A n=/a></A>".toList ∧
      ∃ stop more, read? "<A n=/a></A>".toList =
        .error (⟨.missingValue "n", ⟨5, stop⟩⟩ :: more) := by
  have wellFormed : (Written.bare ['/', 'a']).WellFormed :=
    ⟨by decide, List.all_eq_true.mp (show ['/', 'a'].all isBareChar = true by decide), by decide⟩
  have isN : isName "n".toList = true := by decide
  exact ⟨isN, wellFormed, by decide, read?_unannounced isN wellFormed (by decide)⟩

end ClassHoist.Markup
