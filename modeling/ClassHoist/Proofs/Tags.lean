import ClassHoist.Proofs.ClassValueSlots

/-! # Tags in other surroundings

The name of a tag directly follows its bracket (`leadingName?`), and no mark can reach over the
bracket, so the name is renamed as if it stood alone. A tag that is read without faults is read
without faults after renaming, whatever follows it (`openTag_replace`, `closingTag_replace`), and
with another class value in it (`openTag_slot`).
-/

namespace ClassHoist.Markup

variable {blanks more name rest text out input : Text} {kind : TokenKind} {offset : Nat}
  {options : Options}

/-- The name with which a text starts, if it starts with one. -/
def leadingName? (text : Text) : Option Text :=
  let run := text.takeWhile isWordChar
  if isName run then some run else none

/-- The leading name is the run at the start, if that is a name. -/
theorem leadingName?_eq_some_iff : leadingName? text = some name ↔
    isName name = true ∧ text.takeWhile isWordChar = name := by
  unfold leadingName?
  simp only
  split
  case isTrue named =>
    rw [Option.some.injEq]
    exact ⟨fun same => ⟨same ▸ named, same⟩, And.right⟩
  case isFalse unnamed =>
    exact ⟨nofun, fun both => absurd (both.2 ▸ both.1) unnamed⟩

/-- The name of a tag is the name that directly follows its bracket. -/
theorem tagName?_eq (begins : Begins kind blanks text more) (offset : Nat) :
    Cursor.tagName? ⟨offset, blanks ++ (text ++ more)⟩ =
      (leadingName? more).map String.ofList := by
  unfold Cursor.tagName?
  simp only [begins.bump, begins.token]
  by_cases starts : more.takeWhile isWordChar = []
  · have unnamed : leadingName? more = none := by
      unfold leadingName?
      rw [starts]
      rfl
    rw [unnamed, if_neg, Option.map_none]
    rintro ⟨named, directly⟩
    obtain ⟨kind', blanks', text', rest, rfl, begins'⟩ := exists_begins more
    rw [begins'.token] at named directly
    obtain rfl := Text.bytes_eq_zero.mp (Nat.left_eq_add.mp directly.symm)
    obtain ⟨isWord, -, -⟩ := begins'.run (.inl named)
    cases text' with
    | nil => exact isWord.1 rfl
    | cons c text' =>
      rw [List.nil_append, List.cons_append,
        List.takeWhile_cons_of_pos (isWord.2 c List.mem_cons_self)] at starts
      cases starts
  · have isWord : IsWord (more.takeWhile isWordChar) :=
      ⟨starts, List.all_eq_true.mp List.all_takeWhile⟩
    have begins' := begins_of_isWord (show ∀ c ∈ [], Text.isSeparator c = true from nofun)
      isWord (head?_dropWhile more)
    have token := begins'.token (offset + Text.bytes blanks + Text.bytes text)
    rw [List.nil_append, List.takeWhile_append_dropWhile] at token
    rw [token]
    unfold leadingName?
    by_cases named : isName (more.takeWhile isWordChar) = true
    · simp only [named, ↓reduceIte, Text.bytes_nil, Nat.add_zero, and_self, Option.map_some]
    · simp only [named, Bool.false_eq_true, ↓reduceIte, reduceCtorEq, false_and, Option.map_none]

/-- A name in front of a character that ends it is the leading one. -/
theorem leadingName?_append : leadingName? (name ++ rest) = some name ↔
    isName name = true ∧ (∀ c ∈ name, isWordChar c = true) ∧
      ∀ c ∈ rest.head?, isWordChar c = false := by
  rw [leadingName?_eq_some_iff]
  refine and_congr_right fun _ => ⟨fun taken => ?_, fun both => takeWhile_blanks both.1 both.2⟩
  have plain : ∀ c ∈ name, isWordChar c = true := by
    rw [← taken]
    exact List.all_eq_true.mp List.all_takeWhile
  refine ⟨plain, ?_⟩
  have dropped := List.takeWhile_append_dropWhile (p := isWordChar) (l := name ++ rest)
  rw [taken] at dropped
  rw [← List.append_cancel_left dropped]
  exact head?_dropWhile _

/-- A bracket in front of a name opens a tag. -/
theorem begins_of_leadingName? (named : leadingName? more = some name) :
    Begins .tagOpen [] ['<'] more := by
  obtain ⟨isName, taken⟩ := leadingName?_eq_some_iff.mp named
  cases more with
  | nil =>
    subst taken
    cases isName
  | cons c more =>
    refine ⟨nofun, fun d isHead => Option.some.inj isHead ▸ rfl, ?_⟩
    have starts : isNameStart c = true := by
      by_cases isChar : isWordChar c = true
      · rw [List.takeWhile_cons_of_pos isChar] at taken
        subst taken
        exact (Bool.and_eq_true_iff.mp isName).1
      · rw [List.takeWhile_cons_of_neg isChar] at taken
        subst taken
        cases isName
    rw [List.singleton_append]
    unfold lexeme
    split
    case h_1 same =>
      obtain rfl := (List.cons.inj (List.cons.inj same).2).1
      cases starts
    case h_2 same =>
      obtain rfl := (List.cons.inj (List.cons.inj same).2).1
      cases starts
    case h_3 same =>
      rw [(List.cons.inj same).2]
    case h_16 =>
      next other _ _ _ _ _ _ _ _ _ _ _ _ => exact absurd rfl (other _)
    all_goals
      next same => cases (List.cons.inj same).1

/-- How a tag ends. -/
def tagEnd (selfClosing : Bool) : Text := if selfClosing then ['/', '>'] else ['>']

/-- The end of a tag is a token of its own. -/
theorem begins_tagEnd (blank : ∀ c ∈ blanks, Text.isSeparator c = true) (selfClosing : Bool)
    (rest : Text) :
    Begins (if selfClosing then .selfClose else .tagEnd) blanks (tagEnd selfClosing) rest := by
  cases selfClosing
  all_goals exact ⟨blank, fun c isHead => Option.some.inj isHead ▸ rfl, rfl⟩

/-- No attribute begins at the end of a tag. -/
theorem attribute?_tagEnd (blank : ∀ c ∈ blanks, Text.isSeparator c = true) (selfClosing : Bool)
    (rest : Text) (offset : Nat) :
    attribute? ⟨offset, blanks ++ (tagEnd selfClosing ++ rest)⟩ = none := by
  unfold attribute?
  rw [(begins_tagEnd blank selfClosing rest).token]
  cases selfClosing <;> rfl

/-- The text of a tag behind its bracket is read as far as its end. -/
theorem openTag_eq {entries : Text} {selfClosing : Bool}
    (blank : ∀ c ∈ blanks, Text.isSeparator c = true)
    (named : leadingName? (name ++ (entries ++ (blanks ++ (tagEnd selfClosing ++ rest)))) =
      some name)
    (clean : (attributes ⟨offset + 1 + Text.bytes name,
      entries ++ (blanks ++ (tagEnd selfClosing ++ rest))⟩).Clean
        (blanks ++ (tagEnd selfClosing ++ rest))) :
    let reading := openTag ⟨offset,
      '<' :: (name ++ (entries ++ (blanks ++ (tagEnd selfClosing ++ rest))))⟩
    reading.Clean rest ∧ reading.value = some ⟨offset, String.ofList name,
      (attributes ⟨offset + 1 + Text.bytes name,
        entries ++ (blanks ++ (tagEnd selfClosing ++ rest))⟩).value, selfClosing⟩ := by
  have begins := begins_of_leadingName? named
  have tagName := tagName?_eq begins offset
  rw [named, Option.map_some, List.nil_append, List.singleton_append] at tagName
  obtain ⟨starts, plain, stops⟩ := leadingName?_append.mp named
  have isWord := isWord_of_isName starts
  have begins' := begins_of_isWord (show ∀ c ∈ [], Text.isSeparator c = true from nofun) isWord stops
  have ends := begins_tagEnd blank selfClosing rest
  have bump := begins.bump offset
  have bump' := begins'.bump (offset + 1)
  rw [List.nil_append, List.singleton_append] at bump
  rw [List.nil_append] at bump'
  have start := begins.token offset
  rw [List.nil_append, List.singleton_append] at start
  obtain ⟨noFaults, goesOn⟩ := clean
  have place : (⟨offset, '<' :: (name ++ (entries ++ (blanks ++ (tagEnd selfClosing ++ rest))))⟩ :
      Cursor).bump.bump = ⟨offset + 1 + Text.bytes name,
        entries ++ (blanks ++ (tagEnd selfClosing ++ rest))⟩ := by
    rw [bump]
    exact bump'
  unfold openTag
  simp only [tagName, place, start]
  generalize attributes ⟨offset + 1 + Text.bytes name,
    entries ++ (blanks ++ (tagEnd selfClosing ++ rest))⟩ = read at noFaults goesOn ⊢
  obtain ⟨value, faults, ⟨stop, after⟩⟩ := read
  simp only at noFaults goesOn
  subst noFaults goesOn
  simp only [ends.token, ends.bump, Cursor.expect]
  cases selfClosing <;> exact ⟨⟨rfl, rfl⟩, rfl⟩

/-- What is read as a tag without faults has the text of one. -/
theorem openTag_text {tag : OpenTag} (begins : Begins .tagOpen [] ['<'] more)
    (read : (openTag ⟨offset, '<' :: more⟩).value = some tag)
    (clean : (openTag ⟨offset, '<' :: more⟩).Clean rest) :
    ∃ name entries blanks, more = name ++ (entries ++ (blanks ++ (tagEnd tag.selfClosing ++ rest))) ∧
      (∀ c ∈ blanks, Text.isSeparator c = true) ∧ leadingName? more = some name ∧
        (attributes ⟨offset + 1 + Text.bytes name,
          entries ++ (blanks ++ (tagEnd tag.selfClosing ++ rest))⟩).Clean
            (blanks ++ (tagEnd tag.selfClosing ++ rest)) ∧
          tag = ⟨offset, String.ofList name, (attributes ⟨offset + 1 + Text.bytes name,
            entries ++ (blanks ++ (tagEnd tag.selfClosing ++ rest))⟩).value, tag.selfClosing⟩ := by
  have tagName := tagName?_eq begins offset
  have bump := begins.bump offset
  have start := begins.token offset
  rw [List.nil_append, List.singleton_append] at tagName bump start
  obtain ⟨noFaults, goesOn⟩ := clean
  unfold openTag at read noFaults goesOn
  simp only [tagName, start, bump] at read noFaults goesOn
  cases named : leadingName? more with
  | none =>
    rw [named] at read
    cases read
  | some name =>
    obtain ⟨starts, taken⟩ := leadingName?_eq_some_iff.mp named
    obtain ⟨after, rfl⟩ : ∃ after, more = name ++ after :=
      ⟨more.dropWhile isWordChar, by rw [← taken, List.takeWhile_append_dropWhile]⟩
    obtain ⟨-, -, stops⟩ := leadingName?_append.mp named
    have isWord := isWord_of_isName starts
    have bump' := (begins_of_isWord (show ∀ c ∈ [], Text.isSeparator c = true from nofun) isWord stops).bump (offset + 1)
    rw [List.nil_append] at bump'
    have place : (Cursor.bump ⟨offset + Text.bytes [] + Text.bytes ['<'], name ++ after⟩) =
        ⟨offset + 1 + Text.bytes name, after⟩ := bump'
    rw [named] at read noFaults goesOn
    simp only [Option.map_some, place] at read noFaults goesOn
    have reached := attributes_reaches ⟨offset + 1 + Text.bytes name, after⟩
    obtain ⟨entries, split, -⟩ := reached
    simp only at split
    obtain ⟨kind, blanks, text, tail, ends, begins'⟩ :=
      exists_begins (attributes ⟨offset + 1 + Text.bytes name, after⟩).next.rest
    have token := begins'.token (attributes ⟨offset + 1 + Text.bytes name, after⟩).next.offset
    have next := begins'.bump (attributes ⟨offset + 1 + Text.bytes name, after⟩).next.offset
    rw [← ends] at token next
    rw [ends] at split
    -- Behind the attributes only the end of the tag, of either kind, is no fault.
    by_cases closes : kind = .selfClose
    · subst closes
      obtain rfl := begins'.text_eq rfl
      simp only [token, next, ↓reduceIte] at read noFaults goesOn
      obtain rfl := Option.some.inj read
      subst goesOn split
      exact ⟨name, entries, blanks, rfl, begins'.blank, rfl, ⟨noFaults, ends⟩, rfl⟩
    · simp only [token, closes, ↓reduceIte, Cursor.expect] at read noFaults goesOn
      obtain rfl := Option.some.inj read
      by_cases closes' : kind = .tagEnd
      · subst closes'
        obtain rfl := begins'.text_eq rfl
        simp only [↓reduceIte, next, List.append_nil] at noFaults goesOn
        subst goesOn split
        exact ⟨name, entries, blanks, rfl, begins'.blank, rfl, ⟨noFaults, ends⟩, rfl⟩
      · simp only [closes', ↓reduceIte, List.append_eq_nil_iff, List.cons_ne_self] at noFaults
        exact nomatch noFaults.2

/-- Where a tag ends makes it end in every text. -/
theorem front_tagEnd (blanks : Text) (selfClosing : Bool) (rest rest' : Text) :
    Front (blanks ++ (tagEnd selfClosing ++ rest)) (blanks ++ (tagEnd selfClosing ++ rest')) := by
  refine ⟨blanks ++ tagEnd selfClosing, rest, blanks ++ tagEnd selfClosing, rest',
    (List.append_assoc _ _ _).symm, (List.append_assoc _ _ _).symm, .refl _, '>', ?_, rfl⟩
  refine List.mem_append_right _ ?_
  cases selfClosing <;> decide

/-- The end of a tag holds a closing bracket. -/
theorem mem_tagEnd (selfClosing : Bool) (blanks rest : Text) :
    '>' ∈ blanks ++ (tagEnd selfClosing ++ rest) := by
  refine List.mem_append_right _ (List.mem_append_left _ ?_)
  cases selfClosing <;> decide

/-- No mark ends at the start of a text, so the first character stays. -/
theorem underscored_nil_cons (c : Char) (text : Text) :
    underscored options.names [] (c :: text) = c :: underscored options.names [c] text := by
  rw [underscored, if_neg]
  rintro ⟨-, found⟩
  obtain ⟨name, isName, ends⟩ := List.any_eq_true.mp found
  obtain ⟨marker, -, rfl⟩ := List.mem_map.mp isName
  cases marker with
  | direction way => cases way <;> cases ends
  | global => cases ends

/-- A name is one after renaming. -/
theorem isName_underscored (options : Options) (name : Text) :
    isName (underscored options.names [] name) = isName name := by
  cases name with
  | nil => rfl
  | cons c name =>
    have twins : Twins name (underscored options.names [c] name) :=
      Renamed.twins (show Renamed options _ _ from ⟨[c], rfl⟩)
    rw [underscored_nil_cons, isName, isName, twins.all_eq (show Steady isNameChar from rfl)]

/-- The name of an element after renaming. -/
def renamedName (options : Options) (name : String) : String :=
  String.ofList (renameMarkers options name.toList)

/-- Renaming a name is the same for texts and strings. -/
theorem renamedName_ofList (options : Options) (name : Text) :
    renamedName options (String.ofList name) =
      String.ofList (underscored options.names [] name) := by
  rw [renamedName, String.toList_ofList, renameMarkers_eq]

/-- **A renamed tag.** An opening tag that is read without faults is read without faults after
renaming, whatever follows it. -/
theorem openTag_replace {tag : OpenTag} (begins : Begins .tagOpen [] ['<'] more)
    (read : (openTag ⟨offset, '<' :: more⟩).value = some tag)
    (clean : (openTag ⟨offset, '<' :: more⟩).Clean rest) :
    ∃ taken, more = taken ++ rest ∧ tagEnd tag.selfClosing <:+ taken ∧
      ∀ (options : Options) (rest' : Text) (offset' : Nat),
      let reading := openTag ⟨offset', '<' :: (underscored options.names [] taken ++ rest')⟩
      Begins .tagOpen [] ['<'] (underscored options.names [] taken ++ rest') ∧ reading.Clean rest' ∧
        ∃ tag', reading.value = some tag' ∧ tag'.name = renamedName options tag.name ∧
          tag'.selfClosing = tag.selfClosing ∧
            tag'.attributes.any Attribute.isShared = tag.attributes.any Attribute.isShared := by
  obtain ⟨name, entries, blanks, rfl, blank, named, attrs, isTag⟩ := openTag_text begins read clean
  refine ⟨name ++ (entries ++ (blanks ++ tagEnd tag.selfClosing)), ?_, ?_,
    fun options rest' offset' => ?_⟩
  · simp only [List.append_assoc]
  · exact ((List.suffix_append _ _).trans (List.suffix_append _ _)).trans (List.suffix_append _ _)
  obtain ⟨entries₀, split, replaced⟩ := attributes_replace attrs
  obtain rfl := List.append_cancel_right split
  obtain ⟨starts, plain, stops⟩ := leadingName?_append.mp named
  -- There is no colon behind the attributes, so only the name and the attributes are renamed.
  have ends : underscored options.names [] (name ++ (entries ++ (blanks ++ tagEnd tag.selfClosing))) =
      underscored options.names [] name ++
        (underscored options.names (name.reverse ++ []) entries ++
          (blanks ++ tagEnd tag.selfClosing)) := by
    have noColon : ':' ∉ blanks ++ tagEnd tag.selfClosing := by
      intro member
      rcases List.mem_append.mp member with inBlanks | inEnd
      · cases blank ':' inBlanks
      · cases sc : tag.selfClosing with
        | false => exact absurd (sc ▸ inEnd) (by decide)
        | true => exact absurd (sc ▸ inEnd) (by decide)
    rw [underscored_append, underscored_append, underscored_of_no_colon _ _ noColon]
  have twins : Twins entries (underscored options.names (name.reverse ++ []) entries) :=
    Renamed.twins (show Renamed options _ _ from ⟨_, rfl⟩)
  have names : Twins name (underscored options.names [] name) :=
    Renamed.twins (show Renamed options _ _ from ⟨_, rfl⟩)
  generalize underscored options.names (name.reverse ++ []) entries = entries' at ends twins
  have front := front_tagEnd blanks tag.selfClosing rest rest'
  have named' : leadingName? (underscored options.names [] name ++
      (entries' ++ (blanks ++ (tagEnd tag.selfClosing ++ rest')))) =
        some (underscored options.names [] name) := by
    refine leadingName?_append.mpr ⟨(isName_underscored options name).trans starts, ?_, ?_⟩
    · exact names.forall_mem fun c member d twin =>
        (twin.test_eq (show Steady isWordChar from rfl)).trans (plain c member)
    · exact (front.append twins).stops (show Steady isWordChar from rfl) stops
  obtain ⟨clean', shared⟩ := replaced entries' (blanks ++ (tagEnd tag.selfClosing ++ rest'))
    (offset' + 1 + Text.bytes (underscored options.names [] name)) twins front
      (attribute?_tagEnd blank _ _)
  have done := openTag_eq blank named' clean'
  rw [ends]
  simp only [List.append_assoc]
  refine ⟨begins_of_leadingName? named', done.1, _, done.2, ?_, rfl, ?_⟩
  · rw [isTag, renamedName_ofList]
  · rw [isTag]
    exact shared

/-- The literal text with which the value of an attribute in an opening tag starts can be
exchanged. -/
theorem openTag_slot {tag : OpenTag} {entry : Attribute} {literal : Literal}
    (begins : Begins .tagOpen [] ['<'] more)
    (read : (openTag ⟨offset, '<' :: more⟩).value = some tag)
    (clean : (openTag ⟨offset, '<' :: more⟩).Clean rest) (member : entry ∈ tag.attributes)
    (leads : entry.literal? = some literal) (nonempty : literal.raw.toList ≠ []) :
    ∃ before after, more = before ++ (literal.raw.toList ++ (after ++ rest)) ∧
      literal.span.start = offset + 1 + Text.bytes before ∧ Slot before (after ++ rest) ∧
        '>' ∈ after ∧ (tag.selfClosing = true → '/' ∈ after) ∧
          ∀ name, Fits literal.raw.toList name → ∀ offset',
            let reading := openTag ⟨offset', '<' :: (before ++ (name ++ (after ++ rest)))⟩
            Begins .tagOpen [] ['<'] (before ++ (name ++ (after ++ rest))) ∧ reading.Clean rest ∧
              ∃ tag', reading.value = some tag' ∧ tag'.name = tag.name ∧
                tag'.selfClosing = tag.selfClosing := by
  obtain ⟨name, entries, blanks, rfl, blank, named, attrs, isTag⟩ := openTag_text begins read clean
  obtain ⟨starts, plain, stops⟩ := leadingName?_append.mp named
  rw [isTag] at member
  obtain ⟨before, after, whole, start, slot, exchanged⟩ := attributes_slot attrs
    (mem_tagEnd _ _ _) (attribute?_tagEnd blank _ _) member leads nonempty
  simp only at whole
  have again : after ++ (blanks ++ (tagEnd tag.selfClosing ++ rest)) =
      after ++ (blanks ++ tagEnd tag.selfClosing) ++ rest := by
    simp only [List.append_assoc]
  refine ⟨name ++ before, after ++ (blanks ++ tagEnd tag.selfClosing), ?_, ?_, ?_, ?_, ?_, ?_⟩
  · rw [whole]
    simp only [List.append_assoc]
  · rw [start, Text.bytes_append, ← Nat.add_assoc]
  · rw [← again]
    exact slot.append name
  · refine List.mem_append_right _ (List.mem_append_right _ ?_)
    cases tag.selfClosing <;> decide
  · intro selfClosing
    rw [selfClosing]
    exact List.mem_append_right _ (List.mem_append_right _ (by decide))
  · intro name' fits offset'
    -- The name of the tag stays, since the classes are exchanged behind it.
    have clean' := exchanged name' fits (offset' + 1 + Text.bytes name)
    have front := slot.front (literal.raw.toList ++ (after ++ (blanks ++ (tagEnd tag.selfClosing ++ rest))))
      (name' ++ (after ++ (blanks ++ (tagEnd tag.selfClosing ++ rest))))
    rw [← whole] at front
    have same : before ++ (name' ++ (after ++ (blanks ++ (tagEnd tag.selfClosing ++ rest)))) =
        before ++ (name' ++ after) ++ (blanks ++ (tagEnd tag.selfClosing ++ rest)) := by
      simp only [List.append_assoc]
    rw [same] at front clean'
    have named' : leadingName? (name ++ (before ++ (name' ++ after) ++
        (blanks ++ (tagEnd tag.selfClosing ++ rest)))) = some name :=
      leadingName?_append.mpr ⟨starts, plain, front.stops (show Steady isWordChar from rfl) stops⟩
    have done := openTag_eq blank named' clean'
    have whole' : name ++ before ++ (name' ++ (after ++ (blanks ++ tagEnd tag.selfClosing) ++ rest)) =
        name ++ (before ++ (name' ++ after) ++ (blanks ++ (tagEnd tag.selfClosing ++ rest))) := by
      simp only [List.append_assoc]
    rw [whole']
    refine ⟨begins_of_leadingName? named', done.1, _, done.2, ?_, rfl⟩
    rw [isTag]

/-- A name ends before a separator or a closing bracket. -/
theorem leadingName?_closing (named : isName name = true)
    (blank : ∀ c ∈ blanks, Text.isSeparator c = true) (rest : Text) :
    leadingName? (name ++ (blanks ++ (['>'] ++ rest))) = some name :=
  leadingName?_append.mpr ⟨named, isWordChar_of_isName named, isWordChar_blanks blank rfl rest⟩

/-- The text of a closing tag is read as far as its end. -/
theorem closingTag_eq {blanks' : Text} (blank : ∀ c ∈ blanks, Text.isSeparator c = true)
    (named : isName name = true) (blank' : ∀ c ∈ blanks', Text.isSeparator c = true)
    (rest : Text) (offset : Nat) :
    (closingTag ⟨offset, blanks ++ (['<', '/'] ++ (name ++ (blanks' ++ (['>'] ++ rest))))⟩
      (String.ofList name)).Clean rest := by
  have begins : Begins .closingOpen blanks ['<', '/'] (name ++ (blanks' ++ (['>'] ++ rest))) :=
    ⟨blank, fun c isHead => Option.some.inj isHead ▸ rfl, rfl⟩
  have ahead := leadingName?_closing named blank' rest
  have tagName := tagName?_eq begins offset
  have begins' := begins_of_isWord (show ∀ c ∈ [], Text.isSeparator c = true from nofun)
    (isWord_of_isName named) (leadingName?_append.mp ahead).2.2
  have ends : Begins .tagEnd blanks' ['>'] rest :=
    ⟨blank', fun c isHead => Option.some.inj isHead ▸ rfl, rfl⟩
  have bump' := begins'.bump (offset + Text.bytes blanks + Text.bytes ['<', '/'])
  rw [List.nil_append] at bump'
  rw [ahead, Option.map_some] at tagName
  unfold closingTag
  simp only [begins.token, tagName, begins.bump, bump', ↓reduceIte, Cursor.expect, ends.token,
    ends.bump]
  exact ⟨rfl, rfl⟩

/-- What is read as a closing tag without faults has the text of one. -/
theorem closingTag_text {element : String}
    (clean : (closingTag ⟨offset, text⟩ element).Clean rest) :
    ∃ blanks name blanks', text = blanks ++ (['<', '/'] ++ (name ++ (blanks' ++ (['>'] ++ rest)))) ∧
      (∀ c ∈ blanks, Text.isSeparator c = true) ∧ (∀ c ∈ blanks', Text.isSeparator c = true) ∧
        isName name = true ∧ (∀ c ∈ name, isWordChar c = true) ∧ element = String.ofList name := by
  obtain ⟨kind, blanks, symbol, more, rfl, begins⟩ := exists_begins text
  obtain ⟨noFaults, goesOn⟩ := clean
  have tagName := tagName?_eq begins offset
  unfold closingTag at noFaults goesOn
  simp only [begins.token, begins.bump, tagName] at noFaults goesOn
  by_cases opens : kind = .closingOpen
  case neg =>
    simp only [opens, ↓reduceIte] at noFaults
    cases noFaults
  subst opens
  obtain rfl := begins.text_eq rfl
  cases named : leadingName? more with
  | none =>
    rw [named] at noFaults
    simp only [Option.map_none, reduceCtorEq, ↓reduceIte, List.cons_ne_self] at noFaults
  | some name =>
    by_cases same : String.ofList name = element
    case neg =>
      rw [named] at noFaults
      simp only [Option.map_some, Option.some.injEq, same, ↓reduceIte] at noFaults
      cases noFaults
    subst same
    obtain ⟨starts, taken⟩ := leadingName?_eq_some_iff.mp named
    obtain ⟨after, rfl⟩ : ∃ after, more = name ++ after :=
      ⟨more.dropWhile isWordChar, by rw [← taken, List.takeWhile_append_dropWhile]⟩
    obtain ⟨-, plain, stops⟩ := leadingName?_append.mp named
    have begins' := begins_of_isWord (show ∀ c ∈ [], Text.isSeparator c = true from nofun)
      (isWord_of_isName starts) stops
    have bump' := begins'.bump (offset + Text.bytes blanks + Text.bytes ['<', '/'])
    rw [List.nil_append] at bump'
    obtain ⟨kind', blanks', symbol', tail, rfl, ends⟩ := exists_begins after
    rw [named] at noFaults goesOn
    simp only [Option.map_some, ↓reduceIte, bump', Cursor.expect, ends.token, ends.bump]
      at noFaults goesOn
    by_cases closes : kind' = .tagEnd
    case neg =>
      simp only [closes, ↓reduceIte] at noFaults
      cases noFaults
    subst closes
    obtain rfl := ends.text_eq rfl
    obtain rfl : tail = rest := goesOn
    exact ⟨blanks, name, blanks', rfl, begins.blank, ends.blank, starts, plain, rfl⟩

/-- **A renamed closing tag.** -/
theorem closingTag_replace {element : String}
    (clean : (closingTag ⟨offset, text⟩ element).Clean rest) :
    ∃ taken, text = taken ++ rest ∧ ∀ (options : Options) (out rest' : Text) (offset' : Nat),
      Renamed options taken out →
        (closingTag ⟨offset', out ++ rest'⟩ (renamedName options element)).Clean rest' := by
  obtain ⟨blanks, name, blanks', rfl, blank, blank', named, -, rfl⟩ := closingTag_text clean
  refine ⟨blanks ++ (['<', '/'] ++ (name ++ (blanks' ++ ['>']))), ?_,
    fun options out rest' offset' renamed => ?_⟩
  · simp only [List.append_assoc]
  · obtain ⟨b₁, out₁, rfl, spaces, renamed₁⟩ := renamed.append
    obtain ⟨bracket, out₂, rfl, twin, renamed₂⟩ := Renamed.cons renamed₁
    obtain rfl := Twins.eq_of_blank blank (Renamed.twins spaces)
    obtain rfl := twin.eq_of_ne_colon (by decide)
    have noColon : ':' ∉ blanks' ++ ['>'] := by
      intro member
      rcases List.mem_append.mp member with inBlanks | inEnd
      · cases blank' ':' inBlanks
      · exact absurd inEnd (by decide)
    have ends : out₂ = '/' :: underscored options.names [] (name ++ (blanks' ++ ['>'])) :=
      Renamed.behind renamed₂ (by rfl) (by decide)
    rw [underscored_append, underscored_of_no_colon _ _ noColon] at ends
    subst ends
    rw [renamedName_ofList]
    have done := closingTag_eq blank ((isName_underscored options name).trans named) blank' rest'
      offset'
    simp only [List.append_assoc, List.cons_append, List.nil_append] at done ⊢
    exact done

end ClassHoist.Markup
