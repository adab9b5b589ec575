import ClassHoist.Proofs.Shifted
import ClassHoist.Proofs.Tags

/-! # Content that is not markup, in other surroundings

The content of a script or style ends at the first place where its closing tag starts (`Quiet`), and
whether one starts somewhere is settled by the text up to the closing tag. So what stands behind the
opening tag of a script or style that is read without faults (`RawText`) is read without faults
after renaming (`rawElement_replace`), and with text at the start of its content that holds no
closing tag (`rawElement_slot`). The same goes for text and expressions (`textContent_replace`).
-/

namespace ClassHoist.Markup

variable {stop stop' : Text → Bool} {content content' lead text text' tail more more' rest : Text}
  {offset : Nat}

/-- A content in front of a tail that goes on as far as the tail: nowhere in it does the end of the
content start. -/
def Quiet (stop : Text → Bool) : Text → Text → Prop
  | [], _ => True
  | c :: content, tail => stop (c :: content ++ tail) = false ∧ Quiet stop content tail

/-- A content in which its end does not start is all that is spanned. -/
theorem spanUntil_of_quiet (quiet : Quiet stop content tail) (ends : tail = [] ∨ stop tail = true) :
    Text.spanUntil stop (content ++ tail) = (content, tail) := by
  induction content with
  | nil =>
    cases tail with
    | nil => rfl
    | cons c tail =>
      rw [List.nil_append, Text.spanUntil, if_pos (ends.resolve_left nofun)]
  | cons c content ih =>
    have goesOn : stop (c :: (content ++ tail)) = false := quiet.1
    rw [List.cons_append, Text.spanUntil, if_neg (by rw [goesOn]; exact Bool.false_ne_true),
      ih quiet.2]

/-- What is spanned is a content in which its end does not start, and behind it the end starts. -/
theorem quiet_spanUntil (stop : Text → Bool) (text : Text) :
    Quiet stop (Text.spanUntil stop text).1 (Text.spanUntil stop text).2 ∧
      ((Text.spanUntil stop text).2 = [] ∨ stop (Text.spanUntil stop text).2 = true) := by
  induction text with
  | nil => exact ⟨trivial, .inl rfl⟩
  | cons c text ih =>
    unfold Text.spanUntil
    split
    case isTrue stops => exact ⟨trivial, .inr stops⟩
    case isFalse goesOn =>
      refine ⟨⟨?_, ih.1⟩, ih.2⟩
      rw [List.cons_append, Text.spanUntil_append]
      exact Bool.not_eq_true _ ▸ goesOn

/-- What a text starts with is settled by a part that is long enough, or that holds a character
that does not occur there. -/
theorem startsWith_settled (noColon : ':' ∉ lead) (noUnderscore : '_' ∉ lead)
    (twins : Twins text text') (settled : lead.length ≤ text.length ∨ ∃ c ∈ text, c ∉ lead)
    (more more' : Text) :
    Text.startsWith lead (text' ++ more') = Text.startsWith lead (text ++ more) := by
  induction twins generalizing lead with
  | nil =>
    rcases settled with short | ⟨c, member, -⟩
    · obtain rfl := List.length_eq_zero_iff.mp (Nat.le_zero.mp short)
      rfl
    · cases member
  | @cons c d text text' twin rest ih =>
    cases lead with
    | nil => rfl
    | cons a lead =>
      have same := twin.eq_iff (fun same => noColon (same ▸ List.mem_cons_self))
        fun same => noUnderscore (same ▸ List.mem_cons_self)
      rw [List.cons_append, List.cons_append]
      unfold Text.startsWith
      rw [Text.dropLead?, Text.dropLead?]
      by_cases leads : a = c
      · rw [if_pos leads, if_pos (same.mpr leads.symm).symm]
        refine ih (fun inLead => noColon (List.mem_cons_of_mem _ inLead))
          (fun inLead => noUnderscore (List.mem_cons_of_mem _ inLead)) ?_
        rcases settled with short | ⟨e, member, other⟩
        · exact .inl (Nat.le_of_succ_le_succ short)
        · rcases List.mem_cons.mp member with rfl | later
          · exact absurd (leads ▸ List.mem_cons_self) other
          · exact .inr ⟨e, later, fun inLead => other (List.mem_cons_of_mem _ inLead)⟩
      · rw [if_neg leads, if_neg fun other => leads (same.mp other.symm).symm]

/-- The renaming of a content goes on as far, if what follows settles where it ends. -/
theorem Quiet.replace {anchor anchor' : Text} (noColon : ':' ∉ lead) (noUnderscore : '_' ∉ lead)
    (quiet : Quiet (Text.startsWith lead) content (anchor ++ more)) (twins : Twins content content')
    (anchors : Twins anchor anchor') (settled : lead.length ≤ anchor.length ∨ ∃ c ∈ anchor, c ∉ lead)
    (more' : Text) : Quiet (Text.startsWith lead) content' (anchor' ++ more') := by
  induction twins with
  | nil => trivial
  | @cons c d content content' twin rest ih =>
    refine ⟨?_, ih quiet.2⟩
    have goesOn := quiet.1
    rw [← List.append_assoc] at goesOn ⊢
    rw [← goesOn]
    have both : Twins (c :: content ++ anchor) (d :: content' ++ anchor') :=
      List.rel_append (.cons twin rest) anchors
    refine startsWith_settled noColon noUnderscore both ?_ _ _
    rcases settled with short | ⟨e, member, other⟩
    · exact .inl (Nat.le_trans short (by rw [List.length_append, List.length_cons]; omega))
    · exact .inr ⟨e, List.mem_append_right _ member, other⟩

/-- More text in front, in which the end does not start, may belong to the content. -/
theorem Quiet.append (first : Quiet stop text (content ++ tail)) (second : Quiet stop content tail) :
    Quiet stop (text ++ content) tail := by
  induction text with
  | nil => exact second
  | cons c text ih =>
    refine ⟨?_, ih first.2⟩
    have goesOn := first.1
    rw [← List.append_assoc] at goesOn
    exact goesOn

/-- Nothing that starts in a text reaches over a character at its end that does not occur there. -/
theorem Quiet.sealed {c : Char} (noColon : ':' ∉ lead) (noUnderscore : '_' ∉ lead)
    (other : c ∉ lead) (quiet : Quiet (Text.startsWith lead) (text ++ [c]) tail) (tail' : Text) :
    Quiet (Text.startsWith lead) (text ++ [c]) tail' := by
  induction text with
  | nil =>
    refine ⟨?_, trivial⟩
    rw [← quiet.1]
    exact startsWith_settled noColon noUnderscore (.refl [c]) (.inr ⟨c, List.mem_cons_self, other⟩) _ _
  | cons d text ih =>
    refine ⟨?_, ih quiet.2⟩
    rw [← quiet.1]
    exact startsWith_settled noColon noUnderscore (.refl (d :: (text ++ [c])))
      (.inr ⟨c, List.mem_cons_of_mem _ (List.mem_append_right _ List.mem_cons_self), other⟩) _ _

/-- The lead of a closing tag whose name has no mark is renamed to itself only. -/
structure PlainName (name : String) : Prop where
  colon : ':' ∉ name.toList
  underscore : '_' ∉ name.toList
  brace : '\x7b' ∉ name.toList ∧ '\x7d' ∉ name.toList

/-- A plain name puts no colon, underscore or brace into the lead of its closing tag. -/
theorem PlainName.not_mem {name : String} (plain : PlainName name) {c : Char}
    (special : c = ':' ∨ c = '_' ∨ c = '\x7b' ∨ c = '\x7d') : c ∉ closingLead name := by
  intro member
  rcases List.mem_cons.mp member with rfl | member
  · revert special
    decide
  rcases List.mem_cons.mp member with rfl | member
  · revert special
    decide
  rcases special with rfl | rfl | rfl | rfl
  exacts [plain.colon member, plain.underscore member, plain.brace.1 member, plain.brace.2 member]

/-- The text of content that is not markup, with the closing tag of the element. -/
structure BodyText (name : String) (content blanks : Text) : Prop where
  quiet : Quiet (Text.startsWith (closingLead name)) content (closingLead name)
  blank : ∀ c ∈ blanks, Text.isSeparator c = true
  named : isName name.toList = true
  plain : ∀ c ∈ name.toList, isWordChar c = true

/-- A text behind a lead starts with it. -/
theorem startsWith_append (lead rest : Text) : Text.startsWith lead (lead ++ rest) = true := by
  unfold Text.startsWith
  rw [Text.dropLead?_eq_some.mpr rfl]
  rfl

/-- A text that starts with a lead is the lead and some rest. -/
theorem eq_append_of_startsWith (starts : Text.startsWith lead text = true) :
    ∃ rest, text = lead ++ rest := by
  obtain ⟨rest, dropped⟩ := Option.isSome_iff_exists.mp starts
  exact ⟨rest, Text.dropLead?_eq_some.mp dropped⟩

variable {name : String} {blanks : Text}

/-- Content is read as far as its closing tag. -/
theorem BodyText.read (form : BodyText name content blanks) (plainName : PlainName name)
    (rest : Text) (offset : Nat) :
    let read := rawContent ⟨offset, content ++ (closingLead name ++ (blanks ++ (['>'] ++ rest)))⟩ name
    read.2.1 = content ∧ (closingTag read.2.2 name).Clean rest := by
  have quiet : Quiet (Text.startsWith (closingLead name)) content (closingLead name ++ []) := by
    rw [List.append_nil]
    exact form.quiet
  have quiet' := quiet.replace (plainName.not_mem (.inl rfl)) (plainName.not_mem (.inr (.inl rfl)))
    (.refl content) (.refl (closingLead name)) (.inl (Nat.le_refl _)) (blanks ++ (['>'] ++ rest))
  have split := spanUntil_of_quiet quiet' (.inr (startsWith_append _ _))
  have closing := closingTag_eq (show ∀ c ∈ [], Text.isSeparator c = true from nofun) form.named
    form.blank rest (offset + Text.bytes content)
  rw [String.ofList_toList] at closing
  unfold rawContent
  simp only [split]
  exact ⟨trivial, closing⟩

/-- What is read as content with its closing tag without faults has the text of it. -/
theorem bodyText_of_clean (plainName : PlainName name)
    (clean : (closingTag (rawContent ⟨offset, text⟩ name).2.2 name).Clean rest) :
    ∃ content blanks, text = content ++ (closingLead name ++ (blanks ++ (['>'] ++ rest))) ∧
      BodyText name content blanks := by
  obtain ⟨quiet, ends⟩ := quiet_spanUntil (Text.startsWith (closingLead name)) text
  have joined := Text.spanUntil_append (Text.startsWith (closingLead name)) text
  unfold rawContent Cursor.past at clean
  simp only at clean
  obtain ⟨blanks, found, blanks', tail, blank, blank', named, plain, same⟩ := closingTag_text clean
  rcases ends with none | starts
  · rw [none] at tail
    cases blanks <;> cases tail
  · obtain ⟨more, split⟩ := eq_append_of_startsWith starts
    subst same
    rw [split] at tail joined quiet
    cases blanks with
    | cons c blanks =>
      obtain ⟨rfl, -⟩ := List.cons.inj tail
      cases blank '<' List.mem_cons_self
    | nil =>
      have lead : closingLead (String.ofList found) = ['<', '/'] ++ found := by
        rw [closingLead, String.toList_ofList]
        rfl
      rw [lead, List.nil_append, List.append_assoc] at tail
      obtain rfl := List.append_cancel_left (List.append_cancel_left tail)
      refine ⟨_, blanks', joined.symm, ?_, blank', ?_, ?_⟩
      · have settled := quiet.replace (plainName.not_mem (.inl rfl))
          (plainName.not_mem (.inr (.inl rfl))) (.refl _) (.refl _) (.inl (Nat.le_refl _)) []
        rwa [List.append_nil] at settled
      · rwa [String.toList_ofList]
      · rwa [String.toList_ofList]

/-- Renamed content is content with the same closing tag. -/
theorem BodyText.twins (form : BodyText name content blanks) (plainName : PlainName name)
    (twins : Twins content content') : BodyText name content' blanks := by
  refine ⟨?_, form.blank, form.named, form.plain⟩
  have quiet : Quiet (Text.startsWith (closingLead name)) content (closingLead name ++ []) := by
    rw [List.append_nil]
    exact form.quiet
  have quiet' := quiet.replace (plainName.not_mem (.inl rfl)) (plainName.not_mem (.inr (.inl rfl)))
    twins (.refl (closingLead name)) (.inl (Nat.le_refl _)) []
  rwa [List.append_nil] at quiet'

/-- Text can be put in front of content if it holds no closing tag itself and ends with a brace. -/
theorem BodyText.insert (form : BodyText name content blanks) (plainName : PlainName name)
    (quiet : Quiet (Text.startsWith (closingLead name)) text [])
    (ends : text = [] ∨ text.getLast? = some '\x7d') :
    BodyText name (text ++ content) blanks := by
  refine ⟨Quiet.append ?_ form.quiet, form.blank, form.named, form.plain⟩
  rcases ends with rfl | last
  · trivial
  · obtain ⟨front, rfl⟩ := List.getLast?_eq_some_iff.mp last
    exact quiet.sealed (plainName.not_mem (.inl rfl)) (plainName.not_mem (.inr (.inl rfl)))
      (plainName.not_mem (.inr (.inr (.inr rfl)))) _

/-- Neither an expression nor the closing tag starts at the text. -/
theorem quiet_or {stop₁ stop₂ : Text → Bool} :
    Quiet (fun text => stop₁ text || stop₂ text) content tail ↔
      Quiet stop₁ content tail ∧ Quiet stop₂ content tail := by
  induction content with
  | nil => exact ⟨fun _ => ⟨trivial, trivial⟩, fun _ => trivial⟩
  | cons c content ih =>
    simp only [Quiet, ih, Bool.or_eq_false_iff]
    exact and_and_and_comm

/-- Where text and expressions end. -/
def stopsText (name : String) (text : Text) : Bool :=
  Text.startsWith ['\x7b'] text || Text.startsWith (closingLead name) text

/-- Renamed text goes on as far as it did, in front of an anchor that renaming leaves alone. -/
theorem Quiet.replace_text {anchor : Text} (plainName : PlainName name)
    (quiet : Quiet (stopsText name) content (anchor ++ more)) (twins : Twins content content')
    (settled : anchor = closingLead name ∨ anchor = ['\x7b']) (more' : Text) :
    Quiet (stopsText name) content' (anchor ++ more') := by
  obtain ⟨braces, tags⟩ := quiet_or.mp quiet
  refine quiet_or.mpr ⟨?_, ?_⟩
  · refine braces.replace (by decide) (by decide) twins (.refl anchor) (.inl ?_) more'
    rcases settled with rfl | rfl
    · exact Nat.succ_le_succ (Nat.zero_le _)
    · exact Nat.le_refl _
  · refine tags.replace (plainName.not_mem (.inl rfl)) (plainName.not_mem (.inr (.inl rfl))) twins
      (.refl anchor) ?_ more'
    rcases settled with rfl | rfl
    · exact .inl (Nat.le_refl _)
    · exact .inr ⟨_, List.mem_cons_self, plainName.not_mem (.inr (.inr (.inl rfl)))⟩

/-- Text up to the closing tag. -/
theorem textContent_of_text {cursor : Cursor}
    (quiet : Quiet (stopsText name) content (closingLead name ++ rest))
    (split : cursor.rest = content ++ (closingLead name ++ rest)) :
    textContent name cursor = ⟨cursor.run content (closingLead name ++ rest), [],
      cursor.past content (closingLead name ++ rest)⟩ := by
  have found := spanUntil_of_quiet quiet
    (.inr (Bool.or_eq_true_iff.mpr (.inr (startsWith_append _ _))))
  unfold stopsText at found
  rw [textContent_eq]
  simp only [split, found]
  rfl

/-- Text up to an expression, and what follows that. -/
theorem textContent_of_expression {cursor : Cursor} {inside inner after : Text}
    (quiet : Quiet (stopsText name) content ('\x7b' :: inside))
    (closed : Expression.closing? '\x7d' inside = some (inner, after))
    (split : cursor.rest = content ++ '\x7b' :: inside) :
    textContent name cursor =
      let place := cursor.past content ('\x7b' :: inside)
      let stop := place.offset + 1 + inner.bytes + 1
      let code := trimmed (place.offset + 1) inner
      let more := textContent name ⟨stop, after⟩
      ⟨cursor.run content ('\x7b' :: inside) ++
        .expression ⟨⟨place.offset, stop⟩, code.1, String.ofList code.2⟩ :: more.value,
        more.faults, more.next⟩ := by
  have found := spanUntil_of_quiet quiet (.inr rfl)
  unfold stopsText at found
  rw [textContent_eq]
  simp only [split, found, closed]

/-- Text and expressions end at a closing tag. -/
theorem textContent_text
    (quiet : Quiet (stopsText name) content (closingLead name ++ rest)) (offset : Nat) :
    (textContent name ⟨offset, content ++ (closingLead name ++ rest)⟩).Clean
      (closingLead name ++ rest) := by
  rw [textContent_of_text quiet rfl]
  exact ⟨rfl, rfl⟩

/-- Text and expressions go on behind an expression. -/
theorem textContent_expression {inner : Text}
    (quiet : Quiet (stopsText name) content (['\x7b'] ++ (inner ++ (['\x7d'] ++ more))))
    (closed : Expression.closing? '\x7d' (inner ++ ['\x7d']) = some (inner, []))
    (clean : ∀ offset, (textContent name ⟨offset, more⟩).Clean rest) (offset : Nat) :
    (textContent name ⟨offset, content ++ (['\x7b'] ++ (inner ++ (['\x7d'] ++ more)))⟩).Clean
      rest := by
  have ends : Expression.closing? '\x7d' (inner ++ (['\x7d'] ++ more)) = some (inner, more) :=
    Expression.closing?_twins closed (.refl inner) more
  rw [textContent_of_expression quiet ends rfl]
  exact clean _

/-- Text and expressions that are read without faults as far as a closing tag are read so after
renaming. -/
theorem textContent_replace {cursor : Cursor} (plainName : PlainName name)
    (clean : (textContent name cursor).Clean (closingLead name ++ rest)) :
    ∃ taken, cursor.rest = taken ++ (closingLead name ++ rest) ∧
      ∀ (out rest' : Text) (offset' : Nat), Twins taken out →
        (textContent name ⟨offset', out ++ (closingLead name ++ rest')⟩).Clean
          (closingLead name ++ rest') := by
  fun_induction textContent name cursor with
  | case1 => cases clean.1
  | case2 cursor stops found place leading inside left inner after closed stop _ _ _ _ more ih =>
    obtain ⟨taken, goesOn, replaced⟩ := ih clean
    obtain ⟨quiet, -⟩ := quiet_spanUntil (stopsText name) cursor.rest
    have joined := Text.spanUntil_append (stopsText name) cursor.rest
    have isFound : Text.spanUntil (stopsText name) cursor.rest = found := rfl
    have alone := Expression.closing?_twins closed (.refl inner) []
    rw [isFound, left, Expression.closing?_eq_some closed] at quiet joined
    simp only at goesOn
    rw [goesOn] at quiet joined
    refine ⟨found.1 ++ (['\x7b'] ++ (inner ++ (['\x7d'] ++ taken))), ?_,
      fun out rest' offset' twins => ?_⟩
    · rw [← joined]
      simp only [List.append_assoc, List.cons_append, List.nil_append]
    · obtain ⟨content', out₁, rfl, contents, twins₁⟩ := twins.append
      obtain ⟨out₂, rfl, twins₂⟩ := Twins.append_left (by decide) twins₁
      obtain ⟨inner', out₃, rfl, inners, twins₃⟩ := Twins.append twins₂
      obtain ⟨taken', rfl, takens⟩ := Twins.append_left (by decide) twins₃
      simp only [List.append_assoc]
      refine textContent_expression ?_ (Expression.closing?_twins closed inners [])
        (fun offset => replaced taken' rest' offset takens) offset'
      exact Quiet.replace_text plainName (show Quiet _ _ (['\x7b'] ++ _) from quiet) contents
        (.inr rfl) _
  | case3 cursor stops found place leading notBrace =>
    obtain ⟨quiet, -⟩ := quiet_spanUntil (stopsText name) cursor.rest
    have joined := Text.spanUntil_append (stopsText name) cursor.rest
    have isFound : Text.spanUntil (stopsText name) cursor.rest = found := rfl
    have ends : found.2 = closingLead name ++ rest := clean.2
    rw [isFound, ends] at quiet joined
    refine ⟨found.1, joined.symm, fun out rest' offset' twins => ?_⟩
    exact textContent_text (quiet.replace_text plainName twins (.inl rfl) rest') offset'

variable {options : Options}

/-- A plain name is renamed to itself. -/
theorem renamedName_of_plain (plainName : PlainName name) : renamedName options name = name := by
  rw [renamedName, renameMarkers_eq, underscored_of_no_colon _ _ plainName.colon,
    String.ofList_toList]

/-- Nothing in the closing tag of content is renamed. -/
theorem BodyText.no_colon (form : BodyText name content blanks) (plainName : PlainName name) :
    ':' ∉ closingLead name ++ (blanks ++ ['>']) := by
  intro member
  rcases List.mem_append.mp member with inLead | member
  · exact plainName.not_mem (.inl rfl) inLead
  · rcases List.mem_append.mp member with inBlanks | inEnd
    · exact no_colon_of_blank form.blank inBlanks
    · exact absurd inEnd (by decide)

/-- Content with its closing tag is read without faults after renaming. -/
theorem BodyText.replace (form : BodyText name content blanks) (plainName : PlainName name)
    {out : Text} (twins : Twins (content ++ (closingLead name ++ (blanks ++ ['>']))) out) :
    ∃ content', out = content' ++ (closingLead name ++ (blanks ++ ['>'])) ∧
      BodyText name content' blanks := by
  obtain ⟨content', rfl, contents⟩ := twins.append_right (form.no_colon plainName)
  exact ⟨content', rfl, form.twins plainName contents⟩

/-- What stands behind the opening tag of a script or style: nothing if the tag closes itself, and
else content with a closing tag. -/
inductive RawText (tag : OpenTag) : Text → Prop where
  | ended (selfClosing : tag.selfClosing = true) : RawText tag []
  | body {content blanks : Text} (opens : tag.selfClosing = false)
      (form : BodyText tag.name content blanks) :
      RawText tag (content ++ (closingLead tag.name ++ (blanks ++ ['>'])))

/-- A script or style is read as far as the text behind its opening tag goes. -/
theorem RawText.read {tag : OpenTag} {body : Text} {cursor : Cursor} (form : RawText tag body)
    (plainName : PlainName tag.name) (opened : (openTag cursor).value = some tag)
    (clean : (openTag cursor).Clean (body ++ rest)) :
    (rawElement cursor).Clean rest ∧
      ∃ raw, (rawElement cursor).value = some raw ∧ raw.attributes = tag.attributes := by
  obtain ⟨noFaults, goesOn⟩ := clean
  unfold rawElement
  cases form with
  | ended selfClosing =>
    simp only [opened, selfClosing, ↓reduceIte]
    exact ⟨⟨noFaults, goesOn⟩, _, rfl, rfl⟩
  | body opens form =>
    simp only [opened, opens, Bool.false_eq_true, ↓reduceIte]
    generalize openTag cursor = opening at noFaults goesOn ⊢
    obtain ⟨value, faults, ⟨stop, after⟩⟩ := opening
    simp only [List.append_assoc] at noFaults goesOn
    subst noFaults goesOn
    exact ⟨(form.read plainName rest stop).2, _, rfl, rfl⟩

/-- What is read as a script or style without faults has the text of one. -/
theorem rawElement_text {cursor : Cursor} {raw : RawElement}
    (plainName : ∀ tag, (openTag cursor).value = some tag → PlainName tag.name)
    (read : (rawElement cursor).value = some raw) (clean : (rawElement cursor).Clean rest) :
    ∃ tag body, (openTag cursor).value = some tag ∧ (openTag cursor).Clean (body ++ rest) ∧
      RawText tag body ∧ raw.attributes = tag.attributes := by
  obtain ⟨noFaults, goesOn⟩ := clean
  unfold rawElement at read noFaults goesOn
  cases opened : (openTag cursor).value with
  | none =>
    simp only [opened] at read
    cases read
  | some tag =>
    simp only [opened] at read noFaults goesOn
    cases selfClosing : tag.selfClosing with
    | true =>
      simp only [selfClosing, ↓reduceIte] at read noFaults goesOn
      obtain rfl := Option.some.inj read
      exact ⟨tag, [], rfl, ⟨noFaults, goesOn⟩, .ended selfClosing, rfl⟩
    | false =>
      simp only [selfClosing, Bool.false_eq_true, ↓reduceIte] at read noFaults goesOn
      obtain rfl := Option.some.inj read
      obtain ⟨noTagFaults, noBodyFaults⟩ := List.append_eq_nil_iff.mp noFaults
      obtain ⟨content, blanks, split, form⟩ := bodyText_of_clean (plainName tag opened)
        (show Reading.Clean (closingTag (rawContent ⟨_, _⟩ tag.name).2.2 tag.name) _ from
          ⟨noBodyFaults, goesOn⟩)
      refine ⟨tag, _, rfl, ⟨noTagFaults, ?_⟩, .body selfClosing form, rfl⟩
      rw [split]
      simp only [List.append_assoc]

/-- What stands behind the opening tag of a script or style is kept by renaming. -/
theorem RawText.twins {tag tag' : OpenTag} {body out : Text} (form : RawText tag body)
    (plainName : PlainName tag.name) (twins : Twins body out) (sameName : tag'.name = tag.name)
    (sameEnd : tag'.selfClosing = tag.selfClosing) : RawText tag' out := by
  cases form with
  | ended selfClosing =>
    cases twins
    exact .ended (sameEnd.trans selfClosing)
  | body opens form =>
    obtain ⟨content', rfl, form'⟩ := form.replace plainName twins
    rw [← sameName] at form' ⊢
    exact .body (sameEnd.trans opens) form'

/-- **A renamed script or style.** -/
theorem rawElement_replace {raw : RawElement} (begins : Begins .tagOpen [] ['<'] more)
    (plainName : ∀ tag, (openTag ⟨offset, '<' :: more⟩).value = some tag → PlainName tag.name)
    (read : (rawElement ⟨offset, '<' :: more⟩).value = some raw)
    (clean : (rawElement ⟨offset, '<' :: more⟩).Clean rest) :
    ∃ taken, more = taken ++ rest ∧ ∀ (options : Options) (rest' : Text) (offset' : Nat),
      let place : Cursor := ⟨offset', '<' :: (underscored options.names [] taken ++ rest')⟩
      Begins .tagOpen [] ['<'] (underscored options.names [] taken ++ rest') ∧
        place.tagName? = Cursor.tagName? ⟨offset, '<' :: more⟩ ∧ (rawElement place).Clean rest' ∧
          ∃ raw', (rawElement place).value = some raw' ∧
            raw'.attributes.any Attribute.isShared = raw.attributes.any Attribute.isShared := by
  obtain ⟨tag, body, opened, openClean, form, attributes⟩ := rawElement_text plainName read clean
  have plain := plainName tag opened
  obtain ⟨taken, split, -, replaced⟩ := openTag_replace begins opened openClean
  refine ⟨taken ++ body, ?_, fun options rest' offset' => ?_⟩
  · rw [split, List.append_assoc]
  have twins : Twins body (underscored options.names (taken.reverse ++ []) body) :=
    Renamed.twins (show Renamed options _ _ from ⟨_, rfl⟩)
  rw [underscored_append, List.append_assoc]
  generalize underscored options.names (taken.reverse ++ []) body = body' at twins ⊢
  obtain ⟨begins', clean', tag', opened', named, closes, shared⟩ :=
    replaced options (body' ++ rest') offset'
  rw [renamedName_of_plain plain] at named
  have form' : RawText tag' body' := form.twins plain twins named closes
  obtain ⟨done, raw', read', attributes'⟩ := form'.read (named ▸ plain) opened' clean'
  refine ⟨begins', ?_, done, raw', read', ?_⟩
  · rw [openTag_name opened', named, openTag_name opened]
  · rw [attributes', attributes, shared]

/-- Renaming without marks changes nothing. -/
theorem names_none : Options.names ⟨false, false⟩ = [] := rfl

/-- The end of a tag ends with a closing bracket. -/
theorem tagEnd_ends (selfClosing : Bool) : ['>'] <:+ tagEnd selfClosing := by
  cases selfClosing with
  | false => exact List.suffix_refl _
  | true => exact ⟨['/'], rfl⟩

/-- Text can be put at the start of the content of a script or style that has content. -/
theorem rawElement_slot {element : String} {raw : RawElement}
    (begins : Begins .tagOpen [] ['<'] more)
    (named : ∀ tag, (openTag ⟨offset, '<' :: more⟩).value = some tag → tag.name = element)
    (plainName : PlainName element) (read : (rawElement ⟨offset, '<' :: more⟩).value = some raw)
    (clean : (rawElement ⟨offset, '<' :: more⟩).Clean rest) :
    ∃ before after, more = before ++ (after ++ rest) ∧
      raw.contentSpan.start = offset + 1 + Text.bytes before ∧ ['>'] <:+ before ∧
        (['/', '>'] <:+ before ∨ '<' ∈ after ∧ '/' ∈ after ∧
          ∀ text, Quiet (Text.startsWith (closingLead element)) text [] →
            (text = [] ∨ text.getLast? = some '\x7d') → ∀ offset',
              let place : Cursor := ⟨offset', '<' :: (before ++ (text ++ (after ++ rest)))⟩
              Begins .tagOpen [] ['<'] (before ++ (text ++ (after ++ rest))) ∧
                (rawElement place).Clean rest ∧ place.tagName? = some element ∧
                  (rawElement place).value.isSome = true) := by
  obtain ⟨tag, body, opened, openClean, form, -⟩ :=
    rawElement_text (fun tag isTag => (named tag isTag).symm ▸ plainName) read clean
  obtain rfl := named tag opened
  obtain ⟨before, split, ends, replaced⟩ := openTag_replace begins opened openClean
  have start : raw.contentSpan.start = offset + 1 + Text.bytes before := by
    obtain ⟨taken, whole, counted⟩ := openTag_reaches ⟨offset, '<' :: more⟩
    rw [openClean.2, show '<' :: more = '<' :: before ++ (body ++ rest) from
      congrArg ('<' :: ·) split] at whole
    rw [(contentSpan_start_of_rawElement read).2, counted, ← List.append_cancel_right whole,
      Text.bytes_cons, Nat.add_assoc]
    rfl
  refine ⟨before, body, split, start, (tagEnd_ends _).trans ends, ?_⟩
  cases form with
  | ended selfClosing =>
    rw [selfClosing] at ends
    exact .inl ends
  | @body content blanks opens form =>
    refine .inr ⟨by simp [closingLead], by simp [closingLead], fun text quiet last offset' => ?_⟩
    obtain ⟨begins', clean', tag', opened', named', closes, -⟩ := replaced ⟨false, false⟩
      (text ++ (content ++ (closingLead tag.name ++ (blanks ++ ['>'])) ++ rest)) offset'
    rw [renamedName_of_plain plainName] at named'
    rw [names_none, underscored_nil_names] at begins' clean' opened'
    have form' := RawText.body (closes.trans opens) (named' ▸ form.insert plainName quiet last)
    rw [named', List.append_assoc text] at form'
    obtain ⟨done, raw', read', -⟩ :=
      form'.read (named' ▸ plainName) opened' (by rwa [List.append_assoc text])
    refine ⟨begins', done, ?_, Option.isSome_iff_exists.mpr ⟨raw', read'⟩⟩
    rw [openTag_name opened', named']

end ClassHoist.Markup
