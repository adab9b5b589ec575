import ClassHoist.Proofs.Printing
import ClassHoist.Proofs.Shifted

/-! # Printed tags are read again

Printed code ends at the brace behind it, so what is printed in braces is read as a whole
(`exists_braced`). A printed attribute is read in front of anything that does not go on with
a word or an equals sign (`attribute?_print`), and the next attribute and the end of the tag do
not, so all attributes of a tag are read again, and the tag with them (`openTag_print`).
-/

namespace ClassHoist.Text

/-- A text has no white space around it if it neither starts nor ends with some. -/
theorem trim_eq_self_iff {text : Text} : trim text = text ↔
    (∀ c ∈ text.head?, isBlank c = false) ∧ ∀ c ∈ text.getLast?, isBlank c = false := by
  have keeps {text : Text} (stops : ∀ c ∈ text.head?, isBlank c = false) :
      text.dropWhile isBlank = text :=
    Markup.dropWhile_blanks (show ∀ c ∈ [], isBlank c = true from nofun) stops
  constructor
  · intro same
    have front : text.dropWhile isBlank = text := by
      have shorter := (List.dropWhile_suffix isBlank (l := (trimLeft text).reverse)).length_le
      have kept : (trim text).length ≤ (trimLeft text).length := by
        rw [trim, trimRight, List.length_reverse]
        exact shorter.trans_eq List.length_reverse
      rw [same] at kept
      exact (List.dropWhile_suffix isBlank).eq_of_length_le kept
    have back : text.reverse.dropWhile isBlank = text.reverse := by
      rw [trim, trimLeft, front, trimRight] at same
      exact List.reverse_eq_iff.mp same
    refine ⟨fun c isHead => Markup.head?_dropWhile text c ?_,
      fun c isLast => Markup.head?_dropWhile text.reverse c ?_⟩
    · rw [front]
      exact isHead
    · rw [back, List.head?_reverse]
      exact isLast
  · rintro ⟨first, last⟩
    rw [trim, trimLeft, keeps first, trimRight, keeps, List.reverse_reverse]
    rwa [List.head?_reverse]

end ClassHoist.Text

namespace ClassHoist.Markup

variable {code keyword rest : Text} {offset : Nat}

namespace Expression

/-- Plain characters in front of balanced code leave it balanced. -/
theorem Balanced.append_plain {word : Text} (plain : word.all isPlainCode = true)
    (balanced : Balanced .code code) : Balanced .code (word ++ code) := by
  induction word with
  | nil => exact balanced
  | cons c word ih =>
    rw [List.all_cons, Bool.and_eq_true_iff] at plain
    exact .plain plain.1 (ih plain.2)

/-- Balanced code is closed by the brace behind it. -/
theorem Balanced.closed (balanced : Balanced .code code) :
    closing? '\x7d' (code ++ ['\x7d']) = some (code, []) :=
  closing?_balanced balanced []

namespace Printable

/-- Code that may be printed is the code of an expression. -/
theorem codeText (printable : Printable code) : CodeText code where
  plain := by
    intro c isHead
    refine printable.plain c ?_
    cases code with
    | nil => exact absurd rfl printable.nonempty
    | cons d code => exact isHead
  closed := printable.balanced.closed

/-- Words stand apart from the code behind them. -/
theorem trim_append {word : Text} (nonempty : word ≠ [])
    (first : ∀ c ∈ word.head?, Text.isBlank c = false) (printable : Printable code) :
    Text.trim (word ++ code) = word ++ code := by
  obtain ⟨-, last⟩ := Text.trim_eq_self_iff.mp printable.trimmed
  refine Text.trim_eq_self_iff.mpr ⟨?_, ?_⟩
  · cases word with
    | nil => exact absurd rfl nonempty
    | cons c word => exact first
  · rw [List.getLast?_append_of_ne_nil _ printable.nonempty]
    exact last

end Printable

end Expression

/-- At the start of a token, it is the next one, and the rest follows. -/
theorem Begins.read_at {cursor : Cursor} {kind : TokenKind} {blanks text : Text}
    (begins : Begins kind blanks text rest) (split : cursor.rest = blanks ++ (text ++ rest)) :
    cursor.token.kind = kind ∧ cursor.bump.rest = rest := by
  obtain ⟨offset, input⟩ := cursor
  obtain rfl := split
  exact ⟨congrArg Token.kind (begins.token offset), congrArg Cursor.rest (begins.bump offset)⟩

/-- What is printed in braces is read as far as the closing brace. -/
theorem exists_braced {cursor : Cursor} {kind : TokenKind} {symbol : Text}
    (begins : Begins kind [] symbol (code ++ (['\x7d'] ++ rest)))
    (balanced : Expression.Balanced .code code)
    (split : cursor.rest = symbol ++ (code ++ (['\x7d'] ++ rest))) :
    cursor.token.kind = kind ∧ ∃ braced, cursor.braced? = some braced ∧ braced.inner = code ∧
      braced.next.rest = rest := by
  obtain ⟨offset, input⟩ := cursor
  obtain rfl := split
  exact ⟨congrArg Token.kind (begins.token offset), begins.braced? balanced.closed offset⟩

/-- An expression is read again. -/
theorem exists_braced_expression {cursor : Cursor} (printable : Expression.Printable code)
    (split : cursor.rest = braces code ++ rest) :
    StartsConstruct cursor.rest ∧ cursor.token.kind = .braceOpen ∧
      ∃ braced, cursor.braced? = some braced ∧ braced.inner = code ∧ braced.next.rest = rest := by
  have split' : cursor.rest = ['\x7b'] ++ (code ++ (['\x7d'] ++ rest)) := by
    rw [split, braces]
    simp only [List.cons_append, List.append_assoc, List.nil_append]
  have begins := printable.codeText.begins (show ∀ c ∈ [], Text.isSeparator c = true from nofun) rest
  exact ⟨split ▸ startsConstruct_cons rfl _, exists_braced begins printable.balanced split'⟩

/-- A tag whose sign makes one token with its opening brace is read again. -/
theorem exists_braced_sign {cursor : Cursor} {kind : TokenKind} {sign : Char}
    (read : ∀ more, lexeme ('\x7b' :: sign :: more) = (kind, ['\x7b', sign], more))
    (balanced : Expression.Balanced .code code)
    (split : cursor.rest = braces (sign :: code) ++ rest) :
    StartsConstruct cursor.rest ∧ cursor.token.kind = kind ∧
      ∃ braced, cursor.braced? = some braced ∧ braced.inner = code ∧ braced.next.rest = rest := by
  have split' : cursor.rest = ['\x7b', sign] ++ (code ++ (['\x7d'] ++ rest)) := by
    rw [split, braces]
    simp only [List.cons_append, List.append_assoc, List.nil_append]
  have begins : Begins kind [] ['\x7b', sign] (code ++ (['\x7d'] ++ rest)) :=
    ⟨nofun, fun c isHead => Option.some.inj isHead ▸ rfl, read _⟩
  exact ⟨split ▸ startsConstruct_cons rfl _, exists_braced begins balanced split'⟩

/-- A space in front is trimmed. -/
theorem trim_space (code : Text) : Text.trim (' ' :: code) = Text.trim code := by
  rw [Text.trim, Text.trim, Text.trimLeft, List.dropWhile_cons_of_pos (by decide), Text.trimLeft]

/-- A keyword in front of balanced code leaves it balanced. -/
theorem Expression.Balanced.clause (plain : keyword.all Expression.isPlainCode = true)
    (balanced : Expression.Balanced .code code) :
    Expression.Balanced .code (clause keyword code) := by
  unfold Markup.clause
  split
  · rw [← List.append_nil keyword]
    exact Balanced.nil.append_plain plain
  · exact (Balanced.plain rfl balanced).append_plain plain

/-- A keyword is told apart from the code behind it. -/
theorem Braced.withKeyword_clause {braced : Braced} (inner : braced.inner = clause keyword code)
    (letters : keyword.all Char.isAlpha = true) (trimmed : Text.trim code = code) :
    braced.withKeyword.1 = String.ofList keyword ∧
      braced.withKeyword.2.code = String.ofList code := by
  obtain ⟨tail, isClause, stops, isCode⟩ : ∃ tail, clause keyword code = keyword ++ tail ∧
      (∀ c ∈ tail.head?, Char.isAlpha c = false) ∧ Text.trim tail = code := by
    cases code with
    | nil => exact ⟨[], (List.append_nil _).symm, nofun, rfl⟩
    | cons c code =>
      refine ⟨' ' :: c :: code, rfl, fun d isHead => Option.some.inj isHead ▸ rfl, ?_⟩
      rw [trim_space, trimmed]
  have all := List.all_eq_true.mp letters
  unfold Braced.withKeyword splitKeyword
  rw [inner, isClause, takeWhile_blanks all stops, dropWhile_blanks all stops]
  exact ⟨rfl, congrArg String.ofList isCode⟩

/-- The text does not go on with a word or an equals sign, so an attribute ends in front of it. -/
def EndsAttribute (rest : Text) : Prop :=
  (∀ c ∈ rest.head?, isWordChar c = false) ∧
    ∀ offset, (Cursor.token ⟨offset, rest⟩).kind ≠ .equals

theorem blank_space : ∀ c ∈ [' '], Text.isSeparator c = true :=
  fun _ member => List.mem_singleton.mp member ▸ rfl

/-- Literal text alone makes up a value. -/
theorem exists_ofParts_literalPart (offset : Nat) (literal : Text) : ∃ span,
    Value.ofParts offset (literalPart offset literal) = .text ⟨span, String.ofList literal⟩ := by
  cases literal with
  | nil => exact ⟨_, rfl⟩
  | cons c literal => exact ⟨_, rfl⟩

/-- A literal without quotes and braces is the only part of a value in quotes. -/
theorem quotedParts_literal {quote : Char} {literal : Text}
    (plain : ∀ c ∈ literal, isLiteralChar quote c = true) (offset : Nat) (rest : Text) :
    quotedParts quote offset (literal ++ [quote] ++ rest) = .ok (literalPart offset literal,
      ⟨offset + Text.bytes literal + quote.utf8Size, rest⟩) := by
  have stops : ∀ c ∈ (quote :: rest).head?, isLiteralChar quote c = false :=
    fun c isHead => Option.some.inj isHead ▸ isLiteralChar_quote quote
  rw [List.append_assoc, List.singleton_append, quotedParts_eq]
  simp only [takeWhile_blanks plain stops, dropWhile_blanks plain stops, ↓reduceIte]

/-- A printed value is read behind the name of its attribute. -/
theorem namedAttribute_print {name : String} {value : Value} (isWord : IsWord name.toList)
    (printable : value.Printable) (ends : EndsAttribute rest) (offset : Nat) :
    let input := [' '] ++ (name.toList ++ (value.print ++ rest))
    (Cursor.token ⟨offset, input⟩).kind.IsRun ∧ (namedAttribute ⟨offset, input⟩).Clean rest ∧
      ∃ read, (namedAttribute ⟨offset, input⟩).value = some read ∧
        ∀ span, read.bare = (Attribute.named span name value).bare := by
  have noBlank : ∀ c ∈ [], Text.isSeparator c = true := nofun
  cases printable with
  | absent =>
    have begins := begins_of_isWord blank_space isWord ends.1
    obtain ⟨clean, span, read⟩ := namedAttribute_absent blank_space isWord ends.1 ends.2 offset
    rw [String.ofList_toList] at read
    refine ⟨?_, clean, _, read, fun _ => rfl⟩
    rw [Value.print, List.nil_append, begins.token]
    exact isRun_ite _
  | @text literal isLiteral =>
    have split : Value.print (.text literal) ++ rest =
        [] ++ (['='] ++ ([] ++ (['"'] ++ (literal.raw.toList ++ ['"'] ++ rest)))) := rfl
    have begins := begins_of_isWord blank_space isWord
      (stops_before_equals noBlank ([] ++ (['"'] ++ (literal.raw.toList ++ ['"'] ++ rest))))
    obtain ⟨clean, span, parts, next, done, read⟩ := namedAttribute_quoted blank_space isWord
      noBlank noBlank (.inl rfl) (.close isLiteral) rest offset
    rw [split]
    refine ⟨?_, clean, _, read, ?_⟩
    · rw [begins.token]
      exact isRun_ite _
    · rw [quotedParts_literal isLiteral] at done
      obtain ⟨rfl, -⟩ := Prod.mk.inj (Except.ok.inj done)
      obtain ⟨place, isText⟩ := exists_ofParts_literalPart (offset + Text.bytes ([' '] ++
        (name.toList ++ ([] ++ (['='] ++ ([] ++ ['"'])))))) literal.raw.toList
      intro span
      rw [isText]
      simp only [Attribute.bare, Attribute.mapSpans, Value.mapSpans, Literal.mapSpans,
        String.ofList_toList]
  | @expression embedded printable =>
    have split : Value.print (.expression embedded) ++ rest =
        [] ++ (['='] ++ ([] ++ (['\x7b'] ++ (embedded.code.toList ++ (['\x7d'] ++ rest))))) := by
      simp only [Value.print, braces, List.cons_append, List.nil_append, List.append_assoc]
    have begins := begins_of_isWord blank_space isWord (stops_before_equals noBlank
      ([] ++ (['\x7b'] ++ (embedded.code.toList ++ (['\x7d'] ++ rest)))))
    have equals := begins_equals noBlank
      ([] ++ (['\x7b'] ++ (embedded.code.toList ++ (['\x7d'] ++ rest))))
    have opens := printable.codeText.begins noBlank rest
    obtain ⟨braced, found, isCode, isRest⟩ := opens.braced? printable.balanced.closed
      (offset + Text.bytes [' '] + Text.bytes name.toList + Text.bytes [] + Text.bytes ['='])
    rw [split]
    unfold namedAttribute
    simp only [begins.token, begins.bump, equals.token, equals.bump, ↓reduceIte, opens.token, found]
    refine ⟨isRun_ite _, ⟨rfl, isRest⟩, _, rfl, fun span => ?_⟩
    simp only [Attribute.bare, Attribute.mapSpans, Value.mapSpans, Embedded.mapSpans, isCode,
      String.ofList_toList]

/-- A printed spread is read again. -/
theorem bracedAttribute_print {code : String} (printable : Expression.Printable code.toList)
    (rest : Text) (offset : Nat) :
    let input := [' '] ++ (braces (['.', '.', '.'] ++ code.toList) ++ rest)
    (Cursor.token ⟨offset, input⟩).kind = .braceOpen ∧
      (bracedAttribute ⟨offset, input⟩).Clean rest ∧ ∃ read, (bracedAttribute ⟨offset, input⟩).value = some read ∧
        ∀ span, read.bare = (Attribute.spread span code).bare := by
  have balanced : Expression.Balanced .code (['.', '.', '.'] ++ code.toList) :=
    printable.balanced.append_plain (by decide)
  have opens : Begins .braceOpen [' '] ['\x7b']
      (['.', '.', '.'] ++ code.toList ++ (['\x7d'] ++ rest)) :=
    begins_braceOpen blank_space fun c isHead => Option.some.inj isHead ▸ by decide
  have split : [' '] ++ (braces (['.', '.', '.'] ++ code.toList) ++ rest) =
      [' '] ++ (['\x7b'] ++ (['.', '.', '.'] ++ code.toList ++ (['\x7d'] ++ rest))) := by
    simp only [braces, List.cons_append, List.nil_append, List.append_assoc]
  obtain ⟨braced, found, isCode, isRest⟩ := opens.braced? balanced.closed offset
  have trimmed : Text.trim (['.', '.', '.'] ++ code.toList) = ['.', '.', '.'] ++ code.toList :=
    printable.trim_append (List.cons_ne_nil _ _) fun c isHead => Option.some.inj isHead ▸ by decide
  have isSpread := Text.dropLead?_eq_some.mpr (Eq.refl (['.', '.', '.'] ++ code.toList))
  rw [split]
  refine ⟨by rw [opens.token], ?_⟩
  unfold bracedAttribute
  simp only [found, Markup.trimmed, isCode, trimmed, isSpread]
  refine ⟨⟨rfl, isRest⟩, _, rfl, fun span => ?_⟩
  simp only [Attribute.bare, Attribute.mapSpans, printable.trimmed, String.ofList_toList]

/-- **A printed attribute is read again.** -/
theorem attribute?_print {attr : Attribute} (printable : attr.Printable)
    (ends : EndsAttribute rest) (offset : Nat) :
    ∃ reading read, attribute? ⟨offset, ' ' :: (attr.print ++ rest)⟩ = some reading ∧
      reading.Clean rest ∧ reading.value = some read ∧ read.bare = attr.bare := by
  cases printable with
  | @named span name value isWord valuePrintable =>
    obtain ⟨isRun, clean, read, isRead, same⟩ :=
      namedAttribute_print isWord valuePrintable ends offset
    have split : ' ' :: ((Attribute.named span name value).print ++ rest) =
        [' '] ++ (name.toList ++ (value.print ++ rest)) := by
      rw [Attribute.print, List.append_assoc, List.singleton_append]
    rw [split]
    exact ⟨_, read, attribute?_of_isRun isRun, clean, isRead, same span⟩
  | @spread span code codePrintable =>
    obtain ⟨opens, clean, read, isRead, same⟩ :=
      bracedAttribute_print codePrintable rest offset
    refine ⟨_, read, ?_, clean, isRead, same span⟩
    rw [Attribute.print, ← List.singleton_append]
    unfold attribute?
    rw [opens]

/-- The next attribute, behind its space, is no part of the one before it. -/
theorem endsAttribute_space {c : Char} (solid : Text.isSeparator c = false) (other : c ≠ '=') :
    EndsAttribute (' ' :: c :: rest) := by
  refine ⟨fun d isHead => Option.some.inj isHead ▸ rfl, fun offset isEquals => other ?_⟩
  obtain ⟨kind, blanks, text, more, split, begins⟩ := exists_begins (' ' :: c :: rest)
  rw [split, begins.token] at isEquals
  obtain rfl : kind = .equals := isEquals
  obtain rfl := begins.text_eq rfl
  have first := congrArg (List.dropWhile Text.isSeparator) split
  rw [dropWhile_blanks begins.blank begins.head?_append,
    List.dropWhile_cons_of_pos (show Text.isSeparator ' ' = true from rfl),
    List.dropWhile_cons_of_neg (by rw [solid]; exact Bool.false_ne_true)] at first
  exact (List.cons.inj first).1

/-- An attribute ends in front of the end of a tag. -/
theorem endsAttribute_tagEnd (selfClosing : Bool) (rest : Text) :
    EndsAttribute (tagEnd selfClosing ++ rest) := by
  have noBlank : ∀ c ∈ [], Text.isSeparator c = true := nofun
  have begins := begins_tagEnd noBlank selfClosing rest
  refine ⟨?_, fun offset => ?_⟩
  · cases selfClosing <;> exact fun c isHead => Option.some.inj isHead ▸ rfl
  · rw [← List.nil_append (tagEnd selfClosing ++ rest), begins.token]
    cases selfClosing <;> exact TokenKind.noConfusion

/-- An attribute ends in front of the next one and of the end of the tag. -/
theorem endsAttribute_print {attributes : List Attribute}
    (printable : ∀ attr ∈ attributes, attr.Printable) (selfClosing : Bool) (rest : Text) :
    EndsAttribute (printAttributes attributes ++ (tagEnd selfClosing ++ rest)) := by
  cases attributes with
  | nil => exact endsAttribute_tagEnd selfClosing rest
  | cons attr attributes =>
    cases printable attr List.mem_cons_self with
    | @named span name value isWord =>
      obtain ⟨c, letters, isName⟩ := List.exists_cons_of_ne_nil isWord.1
      have isRun := isWord.2 c (isName ▸ List.mem_cons_self)
      rw [printAttributes, List.flatMap_cons, Attribute.print, isName]
      refine endsAttribute_space (isSeparator_of_isWordChar isRun) ?_
      rintro rfl
      cases isRun
    | spread => exact endsAttribute_space rfl (by decide)

/-- **All printed attributes of a tag are read again.** -/
theorem attributes_print {attrs : List Attribute} (printable : ∀ attr ∈ attrs, attr.Printable)
    (selfClosing : Bool) (rest : Text) (offset : Nat) :
    let reading := attributes ⟨offset, printAttributes attrs ++ (tagEnd selfClosing ++ rest)⟩
    reading.Clean (tagEnd selfClosing ++ rest) ∧
      reading.value.map Attribute.bare = attrs.map Attribute.bare := by
  induction attrs generalizing offset with
  | nil =>
    have noBlank : ∀ c ∈ [], Text.isSeparator c = true := nofun
    have ended := attribute?_tagEnd noBlank selfClosing rest offset
    intro reading
    have none : reading = ⟨[], [], _⟩ := attributes_of_attribute?_eq_none ended
    rw [none]
    exact ⟨⟨rfl, rfl⟩, rfl⟩
  | cons attr attrs ih =>
    have others : ∀ attr ∈ attrs, attr.Printable :=
      fun other member => printable other (List.mem_cons_of_mem attr member)
    obtain ⟨reading, read, found, ⟨noFaults, goesOn⟩, isRead, same⟩ :=
      attribute?_print (printable attr List.mem_cons_self)
        (endsAttribute_print others selfClosing rest) offset
    have split : printAttributes (attr :: attrs) ++ (tagEnd selfClosing ++ rest) =
        ' ' :: (attr.print ++ (printAttributes attrs ++ (tagEnd selfClosing ++ rest))) := by
      rw [printAttributes, List.flatMap_cons, List.append_assoc, List.cons_append, printAttributes]
    obtain ⟨⟨noMore, ends⟩, sameMore⟩ := ih others reading.next.offset
    rw [← goesOn] at noMore ends sameMore
    simp only [split, attributes_of_attribute? found]
    refine ⟨⟨List.append_eq_nil_iff.mpr ⟨noFaults, noMore⟩, ends⟩, ?_⟩
    rw [isRead, List.map_append, sameMore, Option.toList_some, List.map_singleton, same,
      List.map_cons, List.singleton_append]

/-- A name is an expression that can be printed. -/
theorem Expression.Printable.of_isName (named : isName code = true) : Expression.Printable code := by
  have solid : ∀ c ∈ code, Text.isBlank c = false :=
    fun c member => isBlank_of_isWordChar (isWordChar_of_isName named c member)
  have trimmed : Text.trim code = code := Text.trim_eq_self_iff.mpr
    ⟨fun c isHead => solid c (List.mem_of_mem_head? isHead),
      fun c isLast => solid c (List.mem_of_mem_getLast? isLast)⟩
  have plain : code.all Expression.isPlainCode = true := by
    refine List.all_eq_true.mpr fun c member => ?_
    have other := beq_eq_false_of_test (isNameChar_of_isName named c member)
    simp only [Expression.isPlainCode, other '"' rfl, other '\'' rfl, other '\x60' rfl,
      other '/' rfl, other '(' rfl, other '[' rfl, other '\x7b' rfl, other ')' rfl, other ']' rfl,
      other '\x7d' rfl, Bool.or_false, Bool.not_false]
  refine ⟨?_, trimmed, fun c isHead => ?_, ?_⟩
  · rintro rfl
    cases named
  · have starts : isNameStart c = true := by
      cases code with
      | nil => cases isHead
      | cons d code => exact Option.some.inj isHead ▸ (Bool.and_eq_true_iff.mp named).1
    have other := beq_eq_false_of_test starts
    exact ⟨beq_eq_false_iff_ne.mp (other '#' rfl), beq_eq_false_iff_ne.mp (other '/' rfl),
      beq_eq_false_iff_ne.mp (other ':' rfl), beq_eq_false_iff_ne.mp (other '@' rfl)⟩
  · rw [← List.append_nil code]
    exact Balanced.nil.append_plain plain

section TagName

variable {name : String} (tagName : TagName name)

include tagName

/-- A name that a tag can have is the leading name of the text. -/
theorem TagName.leadingName? (stops : ∀ c ∈ rest.head?, isWordChar c = false) :
    Markup.leadingName? (name.toList ++ rest) = some name.toList :=
  leadingName?_append.mpr ⟨tagName.isName, isWordChar_of_isName tagName.isName, stops⟩

/-- **A printed opening tag is read again.** -/
theorem openTag_print {attrs : List Attribute} (printable : ∀ attr ∈ attrs, attr.Printable)
    (selfClosing : Bool) (rest : Text) (offset : Nat) :
    let reading := openTag ⟨offset,
      '<' :: (name.toList ++ (printAttributes attrs ++ (tagEnd selfClosing ++ rest)))⟩
    reading.Clean rest ∧ ∃ read, reading.value = some ⟨offset, name, read, selfClosing⟩ ∧
      read.map Attribute.bare = attrs.map Attribute.bare := by
  obtain ⟨stops, -⟩ := endsAttribute_print printable selfClosing rest
  obtain ⟨clean, same⟩ := attributes_print printable selfClosing rest
    (offset + 1 + Text.bytes name.toList)
  obtain ⟨cleanTag, isTag⟩ := openTag_eq (show ∀ c ∈ [], Text.isSeparator c = true from nofun)
    (tagName.leadingName? stops) clean
  rw [String.ofList_toList] at isTag
  exact ⟨cleanTag, _, isTag, same⟩

/-- A printed closing tag is read again. -/
theorem closingTag_print (rest : Text) (offset : Nat) :
    (closingTag ⟨offset, closingLead name ++ (['>'] ++ rest)⟩ name).Clean rest := by
  have noBlank : ∀ c ∈ [], Text.isSeparator c = true := nofun
  have closed := closingTag_eq noBlank tagName.isName noBlank rest offset
  rw [String.ofList_toList] at closed
  exact closed

end TagName

end ClassHoist.Markup
