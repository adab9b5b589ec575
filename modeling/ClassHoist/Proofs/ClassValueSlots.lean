import ClassHoist.ClassName
import ClassHoist.Proofs.Attributes

/-! # Class values in other surroundings

A class value can be exchanged for a text that fits in its place (`Fits`): the attribute is read as
before, with that text for its value (`namedAttribute_slot`, `attributes_slot`), because what stands
around the value (`Slot`) settles where it starts and ends.
-/

namespace ClassHoist.Markup

variable {rest : Text} {offset : Nat}

/-- A text that can be written for a class value: its characters and its ends are those of the value
or plain ones, and it ends with no sign that matters there unless the value does. -/
structure Fits (value name : Text) : Prop where
  nonempty : name ≠ []
  chars : ∀ c ∈ name, c ∈ value ∨ isPlainInSelector c = true
  first : ∀ c ∈ name.head?, value.head? = some c ∨ isPlainInSelector c = true
  ends : EndsAlike value name

/-- What stands around a class value: in front of it an equals sign or a quote, and blanks behind
that; after it what ends the value or its literal text. -/
structure Slot (before after : Text) : Prop where
  fence : ∃ front c blanks, before = front ++ c :: blanks ∧ isFence c = true ∧
    ∀ d ∈ blanks, Text.isSeparator d = true
  stops : ∃ c ∈ after.head?, Text.isSeparator c = true ∨ c ∈ ['"', '\'', '\x7b', '>', '/']

theorem isNameChar_of_isPlainInSelector {c : Char} (plain : isPlainInSelector c = true) :
    isNameChar c = true := by
  simp only [isPlainInSelector, Bool.or_eq_true] at plain
  rcases plain with (letter | low) | dash
  · simp only [isNameChar, letter, Bool.true_or]
  · rw [beq_iff_eq.mp low]
    rfl
  · rw [beq_iff_eq.mp dash]
    rfl

/-- A plain character is a character of every kind of value. -/
theorem isPlainInSelector_value {c : Char} (plain : isPlainInSelector c = true) :
    isWordChar c = true ∧ isUnquotedChar c = true ∧
      ∀ quote, quote = '"' ∨ quote = '\'' → isLiteralChar quote c = true := by
  have other := beq_eq_false_of_test plain
  have isRun := isWordChar_of_isNameChar (isNameChar_of_isPlainInSelector plain)
  have notSeparator := isSeparator_of_isWordChar isRun
  refine ⟨isRun, ?_, ?_⟩
  · simp only [isUnquotedChar, notSeparator, Bool.not_false, Bool.true_and, bne, other '>' rfl]
  · rintro quote (rfl | rfl)
    all_goals
      simp only [isLiteralChar, bne, other '"' rfl, other '\'' rfl, other '\x7b' rfl, Bool.not_false,
        Bool.and_self]

theorem Slot.append {before after : Text} (slot : Slot before after) (lead : Text) :
    Slot (lead ++ before) after := by
  obtain ⟨⟨front, c, blanks, rfl, fence, blank⟩, stops⟩ := slot
  exact ⟨⟨lead ++ front, c, blanks, (List.append_assoc _ _ _).symm, fence, blank⟩, stops⟩

/-- The opening quote is in front of the literal text with which a quoted value starts, and the closing
quote or an expression in braces behind it. -/
theorem Quoted.slot {quote : Char} {text : Text} (quoted : Quoted quote text)
    (isQuote : quote = '"' ∨ quote = '\'') (rest : Text) :
    Slot [quote] (text.dropWhile (isLiteralChar quote) ++ rest) := by
  refine ⟨⟨[], quote, [], rfl, ?_, fun d member => nomatch member⟩, ?_⟩
  · rcases isQuote with rfl | rfl <;> rfl
  · rcases quoted.head?_dropWhile with isHead | isHead
    · refine ⟨quote, List.mem_head?_append_of_mem_head? isHead, .inr ?_⟩
      rcases isQuote with rfl | rfl <;> decide
    · exact ⟨_, List.mem_head?_append_of_mem_head? isHead, .inr (by decide)⟩

/-- A text that fits can take the place of the literal text with which a quoted value starts. -/
theorem Fits.quoted {quote : Char} {text name : Text}
    (fits : Fits (text.takeWhile (isLiteralChar quote)) name)
    (isQuote : quote = '"' ∨ quote = '\'') (quoted : Quoted quote text) :
    Quoted quote (name ++ text.dropWhile (isLiteralChar quote)) := by
  refine quoted.replace fun c member => ?_
  rcases fits.chars c member with inValue | plain
  · exact List.all_eq_true.mp List.all_takeWhile c inValue
  · exact (isPlainInSelector_value plain).2.2 quote isQuote

/-- The equals sign is in front of a value without quotes, and what ends the value behind it. -/
theorem Unquoted.slot {blanks run after : Text} (unquoted : Unquoted run after rest)
    (blank : ∀ c ∈ blanks, Text.isSeparator c = true) (closes : '>' ∈ rest) :
    Slot (['='] ++ blanks) (after ++ rest) := by
  refine ⟨⟨[], '=', blanks, rfl, rfl, blank⟩, ?_⟩
  obtain ⟨-, -, stops⟩ := unquotedRun_eq_iff.mp unquoted.read
  rcases unquoted.slash with rfl | rfl
  · rcases stops with none | ⟨c, isHead, ends⟩ | ⟨more, rfl⟩
    · subst none
      cases closes
    · refine ⟨c, isHead, ?_⟩
      simp only [isUnquotedChar, Bool.and_eq_false_iff, Bool.not_eq_false',
        bne_eq_false_iff_eq] at ends
      rcases ends with blank | rfl
      · exact .inl blank
      · exact .inr (by decide)
    · exact ⟨'/', rfl, .inr (by decide)⟩
  · exact ⟨'/', rfl, .inr (by decide)⟩

/-- A text that fits can take the place of a value without quotes. -/
theorem Fits.unquoted {run after name : Text} (fits : Fits run name)
    (unquoted : Unquoted run after rest) (closes : '>' ∈ rest) : Unquoted name after rest := by
  refine unquoted.replace (fun c member => ?_) fits.ends (.refl closes)
  rcases fits.chars c member with inValue | plain
  · exact (unquotedRun_eq_iff.mp unquoted.read).1 c inValue
  · exact (isPlainInSelector_value plain).2.1

/-- A text that fits starts a token of characters without structure where the value does. -/
theorem Fits.starts {value name : Text} (fits : Fits value name)
    (starts : ∃ c ∈ value.head?, isWordChar c = true) : ∃ c ∈ name.head?, isWordChar c = true := by
  obtain ⟨d, isHead, isChar⟩ := starts
  obtain ⟨c, more, rfl⟩ := List.exists_cons_of_ne_nil fits.nonempty
  refine ⟨c, rfl, ?_⟩
  rcases fits.first c rfl with same | plain
  · rw [same] at isHead
    exact Option.some.inj isHead ▸ isChar
  · exact (isPlainInSelector_value plain).1

/-- The literal text with which the value of a named attribute starts can be exchanged. -/
theorem namedAttribute_slot {input : Text} {entry : Attribute} {literal : Literal}
    (isRun : (Cursor.token ⟨offset, input⟩).kind.IsRun)
    (clean : (namedAttribute ⟨offset, input⟩).Clean rest)
    (read : (namedAttribute ⟨offset, input⟩).value = some entry)
    (leads : entry.literal? = some literal) (nonempty : literal.raw.toList ≠ [])
    (closes : '>' ∈ rest) :
    ∃ before after, input = before ++ (literal.raw.toList ++ (after ++ rest)) ∧
      literal.span.start = offset + Text.bytes before ∧ Slot before (after ++ rest) ∧
        ∀ name, Fits literal.raw.toList name → ∀ offset',
          (Cursor.token ⟨offset', before ++ (name ++ (after ++ rest))⟩).kind.IsRun ∧
            (namedAttribute ⟨offset', before ++ (name ++ (after ++ rest))⟩).Clean rest := by
  obtain ⟨taken, rfl, form⟩ := namedAttribute_text isRun clean
  -- Only values in quotes and values without them start with literal text.
  cases form with
  | absent blank isWord stops noEquals =>
    rw [List.append_assoc, (namedAttribute_absent blank isWord stops noEquals offset).2.choose_spec]
      at read
    obtain rfl := Option.some.inj read
    cases leads
  | @assigned blanks name blanks' value blank isWord blank' assigned =>
    cases assigned with
    | @quoted blanks'' text quote blank'' isQuote quoted =>
      simp only [List.append_assoc] at read
      obtain ⟨-, span, parts, next, done, read'⟩ :=
        namedAttribute_quoted blank isWord blank' blank'' isQuote quoted rest offset
      rw [read'] at read
      obtain rfl := Option.some.inj read
      obtain ⟨same, start⟩ := leadingText?_literal done leads nonempty
      rw [quoted.takeWhile_append] at same
      refine ⟨blanks ++ (name ++ (blanks' ++ (['='] ++ (blanks'' ++ [quote])))),
        text.dropWhile (isLiteralChar quote), ?_, start,
        ((((quoted.slot isQuote rest).append blanks'').append ['=']).append blanks').append name
          |>.append blanks, ?_⟩
      · rw [same]
        simp only [List.append_assoc]
        rw [← List.append_assoc (text.takeWhile _), List.takeWhile_append_dropWhile]
      · intro name' fits offset'
        rw [same] at fits
        have value : ValueText rest
            (blanks'' ++ ([quote] ++ (name' ++ text.dropWhile (isLiteralChar quote)))) :=
          .quoted blank'' isQuote (fits.quoted isQuote quoted)
        have done := (NamedText.assigned blank isWord blank' value).read offset'
        simp only [List.append_assoc] at done ⊢
        exact done
    | braced blank'' code =>
      simp only [List.append_assoc] at read
      obtain ⟨-, span, embedded, read'⟩ :=
        namedAttribute_braced blank isWord blank' blank'' code rest offset
      rw [read'] at read
      obtain rfl := Option.some.inj read
      cases leads
    | @unquoted blanks'' run after blank'' starts unquoted =>
      simp only [List.append_assoc] at read
      obtain ⟨-, span, stop, read'⟩ :=
        namedAttribute_unquoted blank isWord blank' blank'' starts unquoted offset
      rw [read'] at read
      obtain rfl := Option.some.inj read
      obtain rfl := Option.some.inj leads
      rw [String.toList_ofList] at nonempty ⊢
      refine ⟨blanks ++ (name ++ (blanks' ++ (['='] ++ blanks''))), after, ?_, rfl,
        ((unquoted.slot blank'' closes).append blanks').append name |>.append blanks, ?_⟩
      · simp only [List.append_assoc]
      · intro name' fits offset'
        have value : ValueText rest (blanks'' ++ (name' ++ after)) :=
          .unquoted blank'' (fits.starts starts) (fits.unquoted unquoted closes)
        have done := (NamedText.assigned blank isWord blank' value).read offset'
        simp only [List.append_assoc] at done ⊢
        exact done

theorem Slot.front {before after : Text} (slot : Slot before after) (first second : Text) :
    Front (before ++ first) (before ++ second) := by
  obtain ⟨lead, c, blanks, rfl, fence, -⟩ := slot.fence
  exact ⟨_, first, _, second, rfl, rfl, .refl _, c,
    List.mem_append_right _ List.mem_cons_self, fence⟩

theorem Slot.append_right {before after : Text} (slot : Slot before after) (behind : Text) :
    Slot before (after ++ behind) := by
  obtain ⟨c, isFirst, stops⟩ := slot.stops
  refine ⟨slot.fence, c, ?_, stops⟩
  rw [List.head?_append, Option.mem_def.mp isFirst]
  rfl

theorem Slot.of_append_right {before after behind : Text} (slot : Slot before (after ++ behind))
    (nonempty : after ≠ []) : Slot before after := by
  obtain ⟨c, isFirst, stops⟩ := slot.stops
  refine ⟨slot.fence, c, ?_, stops⟩
  rwa [List.head?_append_of_ne_nil _ nonempty] at isFirst

/-- A character that ends markup, or starts it. -/
def isMark (c : Char) : Bool := c == '<' || c == '>' || c == '/' || c == '\x7b'

/-- Different marks stand in the text. -/
def Busy (text : Text) : Prop :=
  ∃ c d, c ∈ text ∧ d ∈ text ∧ isMark c = true ∧ isMark d = true ∧ c ≠ d

theorem Busy.mono {text text' : Text} (busy : Busy text) (more : text ⊆ text') : Busy text' := by
  obtain ⟨c, d, inText, inText', marks⟩ := busy
  exact ⟨c, d, more inText, more inText', marks⟩

theorem attribute?_of_isRun {cursor : Cursor} (isRun : cursor.token.kind.IsRun) :
    attribute? cursor = some (namedAttribute cursor) := by
  unfold attribute?
  rcases isRun with same | same <;> rw [same]

/-- Only a named attribute has a value that starts with literal text. -/
theorem attribute?_literal {cursor : Cursor} {reading : Reading (Option Attribute)}
    {entry : Attribute} {literal : Literal} (found : attribute? cursor = some reading)
    (read : reading.value = some entry) (leads : entry.literal? = some literal) :
    cursor.token.kind.IsRun ∧ reading = namedAttribute cursor := by
  unfold attribute? at found
  split at found
  case h_1 | h_2 | h_3 => cases found
  case h_4 isName => exact ⟨.inl isName, (Option.some.inj found).symm⟩
  case h_5 isWord => exact ⟨.inr isWord, (Option.some.inj found).symm⟩
  case h_6 =>
    obtain rfl := Option.some.inj found
    unfold bracedAttribute at read
    split at read
    · cases read
    · simp only [Option.some.injEq] at read
      split at read
      all_goals
        subst read
        cases leads
  case h_7 =>
    obtain rfl := Option.some.inj found
    unfold attachAttribute at read
    split at read
    · cases read
    · simp only at read
      split at read
      · obtain rfl := Option.some.inj read
        cases leads
      · cases read
  case h_8 =>
    obtain rfl := Option.some.inj found
    cases read

/-- The literal text with which the value of an attribute in a tag starts can be exchanged. -/
theorem attributes_slot {cursor : Cursor} {entry : Attribute} {literal : Literal}
    (clean : (attributes cursor).Clean rest) (closes : '>' ∈ rest)
    (ends : ∀ offset, attribute? ⟨offset, rest⟩ = none)
    (member : entry ∈ (attributes cursor).value) (leads : entry.literal? = some literal)
    (nonempty : literal.raw.toList ≠ []) :
    ∃ before after, cursor.rest = before ++ (literal.raw.toList ++ (after ++ rest)) ∧
      literal.span.start = cursor.offset + Text.bytes before ∧ Slot before (after ++ rest) ∧
        ∀ name, Fits literal.raw.toList name → ∀ offset',
          (attributes ⟨offset', before ++ (name ++ (after ++ rest))⟩).Clean rest := by
  fun_induction attributes cursor with
  | case1 => cases member
  | case2 cursor reading found less more ih =>
    obtain ⟨noFaults, noMore⟩ := List.append_eq_nil_iff.mp clean.1
    have cleanMore : more.Clean rest := ⟨noMore, clean.2⟩
    rcases List.mem_append.mp member with here | later
    · have read : reading.value = some entry := Option.mem_toList.mp here
      obtain ⟨isRun, rfl⟩ := attribute?_literal found read leads
      obtain ⟨others, split, replaced⟩ := attributes_replace cleanMore
      have closes' : '>' ∈ (namedAttribute cursor).next.rest := by
        rw [split]
        exact List.mem_append_right _ closes
      obtain ⟨before, after, whole, start, slot, exchanged⟩ :=
        namedAttribute_slot isRun ⟨noFaults, rfl⟩ read leads nonempty closes'
      rw [split, ← List.append_assoc after] at whole slot exchanged
      refine ⟨before, after ++ others, whole, start, slot, fun name fits offset' => ?_⟩
      obtain ⟨isRun', noFaults', goesOn⟩ := exchanged name fits offset'
      have found' := attribute?_of_isRun isRun'
      obtain ⟨⟨noMore', ends'⟩, -⟩ := replaced others rest (namedAttribute
        ⟨offset', before ++ (name ++ ((after ++ others) ++ rest))⟩).next.offset (.refl others)
          (.refl closes) ends
      have next : (namedAttribute ⟨offset', before ++ (name ++ ((after ++ others) ++ rest))⟩).next =
          ⟨(namedAttribute ⟨offset', before ++ (name ++ ((after ++ others) ++ rest))⟩).next.offset,
            others ++ rest⟩ := by rw [← goesOn]
      rw [attributes_of_attribute? found', next]
      exact ⟨List.append_eq_nil_iff.mpr ⟨noFaults', noMore'⟩, ends'⟩
    · obtain ⟨first, split, replaced⟩ := attribute?_replace found ⟨noFaults, rfl⟩
      obtain ⟨before, after, whole, start, slot, exchanged⟩ := ih cleanMore later
      obtain ⟨taken, split', counted⟩ := attribute?_reaches found
      obtain rfl := List.append_cancel_right (split'.symm.trans split)
      refine ⟨taken ++ before, after, ?_, ?_, slot.append taken, fun name fits offset' => ?_⟩
      · rw [split, whole, List.append_assoc]
      · rw [start, counted, Text.bytes_append, Nat.add_assoc]
      · have front := slot.front (literal.raw.toList ++ (after ++ rest)) (name ++ (after ++ rest))
        rw [← whole] at front
        obtain ⟨reading', found', ⟨noFaults', goesOn⟩, -⟩ :=
          replaced taken _ offset' (.refl taken) front
        obtain ⟨noMore', ends'⟩ := exchanged name fits reading'.next.offset
        have next : reading'.next = ⟨reading'.next.offset, before ++ (name ++ (after ++ rest))⟩ := by
          rw [← goesOn]
        rw [List.append_assoc, attributes_of_attribute? found', next]
        exact ⟨List.append_eq_nil_iff.mpr ⟨noFaults', noMore'⟩, ends'⟩

end ClassHoist.Markup
