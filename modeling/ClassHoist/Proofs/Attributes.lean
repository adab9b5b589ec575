import ClassHoist.Proofs.NamedAttributes

/-! # Attributes in other surroundings

Attributes in braces are renamed inside of their braces only, so that all attributes of a tag are
read without faults after renaming if they are before (`attributes_replace`).
-/

namespace ClassHoist.Markup

variable {blanks inner text rest : Text} {kind : TokenKind} {offset : Nat}

/-- What is read in braces is closed by a brace. -/
theorem Begins.eq_of_braced? {symbol more : Text} {braced : Braced} (begins : Begins kind blanks symbol more)
    (found : Cursor.braced? ⟨offset, blanks ++ (symbol ++ more)⟩ = some braced) :
    more = braced.inner ++ (['\x7d'] ++ braced.next.rest) ∧
      Expression.closing? '\x7d' (braced.inner ++ ['\x7d']) = some (braced.inner, []) := by
  obtain ⟨closed, -⟩ := Cursor.braced?_eq_some found
  rw [begins.bump] at closed
  exact ⟨Expression.closing?_eq_some closed, Expression.closing?_twins closed (.refl _) []⟩

theorem codeText_of_begins (begins : Begins .braceOpen blanks text (inner ++ (['\x7d'] ++ rest)))
    (closed : Expression.closing? '\x7d' (inner ++ ['\x7d']) = some (inner, [])) :
    CodeText inner := by
  refine ⟨fun c isHead => begins.braceOpen_plain c ?_, closed⟩
  cases inner with
  | nil => exact isHead
  | cons d inner => exact isHead

/-- Renaming changes no keyword. -/
theorem Braced.keyword_eq {braced braced' : Braced} (twins : Twins braced.inner braced'.inner) :
    braced'.withKeyword.1 = braced.withKeyword.1 := by
  have letters : ':' ∉ braced.inner.takeWhile Char.isAlpha := fun member =>
    absurd (List.all_eq_true.mp List.all_takeWhile ':' member) (by decide)
  exact congrArg String.ofList (Twins.eq_of_no_colon (twins.takeWhile (show Steady Char.isAlpha from rfl)) letters)

theorem bracedAttribute_replace {more : Text} (begins : Begins .braceOpen blanks text more)
    (clean : (bracedAttribute ⟨offset, blanks ++ (text ++ more)⟩).Clean rest) :
    ∃ taken, blanks ++ (text ++ more) = taken ++ rest ∧ ∀ out rest' offset', Twins taken out →
      (Cursor.token ⟨offset', out ++ rest'⟩).kind = .braceOpen ∧
        (bracedAttribute ⟨offset', out ++ rest'⟩).Clean rest' := by
  obtain rfl := begins.text_eq rfl
  unfold bracedAttribute at clean
  split at clean
  case h_1 => cases clean.1
  case h_2 braced isBraced =>
    obtain ⟨rfl, closed⟩ := begins.eq_of_braced? isBraced
    obtain rfl : braced.next.rest = rest := clean.2
    have code := codeText_of_begins begins closed
    refine ⟨blanks ++ (['\x7b'] ++ (braced.inner ++ ['\x7d'])), ?_, fun out rest' offset' twins => ?_⟩
    · simp only [List.append_assoc]
    · obtain ⟨inner', rfl, inners⟩ := Twins.enclosed begins.blank (by decide) (by decide) twins
      have code' := code.twins inners
      have opens := code'.begins begins.blank rest'
      obtain ⟨braced', isBraced', -, isRest⟩ := opens.braced? code'.closed offset'
      simp only [List.append_assoc]
      refine ⟨by rw [opens.token], ?_⟩
      unfold bracedAttribute
      rw [isBraced']
      exact ⟨rfl, isRest⟩

theorem attachAttribute_replace {more : Text} (begins : Begins .specialOpen blanks text more)
    (clean : (attachAttribute ⟨offset, blanks ++ (text ++ more)⟩).Clean rest) :
    ∃ taken, blanks ++ (text ++ more) = taken ++ rest ∧ ∀ out rest' offset', Twins taken out →
      (Cursor.token ⟨offset', out ++ rest'⟩).kind = .specialOpen ∧
        (attachAttribute ⟨offset', out ++ rest'⟩).Clean rest' := by
  obtain rfl := begins.text_eq rfl
  unfold attachAttribute at clean
  split at clean
  case h_1 => cases clean.1
  case h_2 braced isBraced =>
    obtain ⟨rfl, closed⟩ := begins.eq_of_braced? isBraced
    simp only at clean
    split at clean
    case isFalse => cases clean.1
    case isTrue isAttach =>
      obtain rfl : braced.next.rest = rest := clean.2
      refine ⟨blanks ++ (['\x7b', '@'] ++ (braced.inner ++ ['\x7d'])), ?_,
        fun out rest' offset' twins => ?_⟩
      · simp only [List.append_assoc]
      · obtain ⟨inner', rfl, inners⟩ := Twins.enclosed begins.blank (by decide) (by decide) twins
        have opens := begins.replace rfl (inner' ++ (['\x7d'] ++ rest'))
        obtain ⟨braced', isBraced', inner, isRest⟩ :=
          opens.braced? (Expression.closing?_twins closed inners []) offset'
        subst inner
        simp only [List.append_assoc]
        refine ⟨by rw [opens.token], ?_⟩
        unfold attachAttribute
        rw [isBraced']
        simp only [Braced.keyword_eq inners, isAttach, ↓reduceIte]
        exact ⟨rfl, isRest⟩

/-- Only a named attribute declares a script to be shared. -/
theorem isShared_bracedAttribute (cursor : Cursor) :
    (bracedAttribute cursor).value.any Attribute.isShared = false := by
  unfold bracedAttribute
  split
  · rfl
  · simp only
    split <;> rfl

theorem isShared_attachAttribute (cursor : Cursor) :
    (attachAttribute cursor).value.any Attribute.isShared = false := by
  unfold attachAttribute
  split
  · rfl
  · simp only
    split <;> rfl

/-- **A renamed attribute.** An attribute that is read without faults is read without faults after
renaming, in front of any text that starts alike. -/
theorem attribute?_replace {input : Text} {reading : Reading (Option Attribute)}
    (found : attribute? ⟨offset, input⟩ = some reading) (clean : reading.Clean rest) :
    ∃ taken, input = taken ++ rest ∧ ∀ out rest' offset', Twins taken out →
      Front rest rest' → ∃ reading', attribute? ⟨offset', out ++ rest'⟩ = some reading' ∧
        reading'.Clean rest' ∧
          reading'.value.any Attribute.isShared = reading.value.any Attribute.isShared := by
  have named (isRun : (Cursor.token ⟨offset, input⟩).kind.IsRun)
      (clean : (namedAttribute ⟨offset, input⟩).Clean rest) :
      ∃ taken, input = taken ++ rest ∧ ∀ out rest' offset', Twins taken out →
        Front rest rest' → ∃ reading', attribute? ⟨offset', out ++ rest'⟩ = some reading' ∧
          reading'.Clean rest' ∧ reading'.value.any Attribute.isShared =
            (namedAttribute ⟨offset, input⟩).value.any Attribute.isShared := by
    obtain ⟨taken, rfl, form⟩ := namedAttribute_text isRun clean
    refine ⟨taken, rfl, fun out rest' offset' twins front => ?_⟩
    obtain ⟨isRun', clean', shared⟩ := namedAttribute_replace form twins front offset offset'
    refine ⟨_, ?_, clean', shared⟩
    unfold attribute?
    rcases isRun' with same | same <;> rw [same]
  -- The first token tells what attribute begins, and it stays the same kind.
  obtain ⟨kind, blanks, text, more, rfl, begins⟩ := exists_begins input
  unfold attribute? at found
  split at found
  case h_1 | h_2 | h_3 => cases found
  case h_4 isName =>
    obtain rfl := Option.some.inj found
    exact named (.inl isName) clean
  case h_5 isWord =>
    obtain rfl := Option.some.inj found
    exact named (.inr isWord) clean
  case h_6 isBrace =>
    obtain rfl := Option.some.inj found
    rw [begins.token] at isBrace
    obtain rfl := isBrace
    obtain ⟨taken, split, replaced⟩ := bracedAttribute_replace begins clean
    refine ⟨taken, split, fun out rest' offset' twins front => ?_⟩
    obtain ⟨opens, clean'⟩ := replaced out rest' offset' twins
    refine ⟨_, ?_, clean', ?_⟩
    · unfold attribute?
      rw [opens]
    · rw [isShared_bracedAttribute, isShared_bracedAttribute]
  case h_7 isSpecial =>
    obtain rfl := Option.some.inj found
    rw [begins.token] at isSpecial
    obtain rfl := isSpecial
    obtain ⟨taken, split, replaced⟩ := attachAttribute_replace begins clean
    refine ⟨taken, split, fun out rest' offset' twins front => ?_⟩
    obtain ⟨opens, clean'⟩ := replaced out rest' offset' twins
    refine ⟨_, ?_, clean', ?_⟩
    · unfold attribute?
      rw [opens]
    · rw [isShared_attachAttribute, isShared_attachAttribute]
  case h_8 =>
    obtain rfl := Option.some.inj found
    cases clean.1

/-- **Renamed attributes.** Attributes that are read without faults are read without faults after
renaming, and declare a script to be shared only if they did so before. -/
theorem attributes_replace {cursor : Cursor} (clean : (attributes cursor).Clean rest) :
    ∃ taken, cursor.rest = taken ++ rest ∧ ∀ out rest' offset', Twins taken out →
      Front rest rest' → (∀ offset, attribute? ⟨offset, rest'⟩ = none) →
        (attributes ⟨offset', out ++ rest'⟩).Clean rest' ∧
          (attributes ⟨offset', out ++ rest'⟩).value.any Attribute.isShared =
            (attributes cursor).value.any Attribute.isShared := by
  fun_induction attributes cursor with
  | case1 cursor none =>
    refine ⟨[], clean.2, fun out rest' offset' twins front ends => ?_⟩
    cases twins
    rw [List.nil_append, attributes_of_attribute?_eq_none (ends offset')]
    exact ⟨⟨rfl, rfl⟩, rfl⟩
  | case2 cursor reading found less more ih =>
    obtain ⟨noFaults, noMore⟩ := List.append_eq_nil_iff.mp clean.1
    obtain ⟨first, split, replaced⟩ := attribute?_replace found ⟨noFaults, rfl⟩
    obtain ⟨others, split', replaced'⟩ := ih ⟨noMore, clean.2⟩
    refine ⟨first ++ others, ?_, fun out rest' offset' twins front ends => ?_⟩
    · rw [split, split', List.append_assoc]
    · obtain ⟨out₁, out₂, rfl, twins₁, twins₂⟩ := twins.append
      have ahead : Front reading.next.rest (out₂ ++ rest') := by
        rw [split']
        exact front.append twins₂
      obtain ⟨reading', found', ⟨noFaults', goesOn⟩, shared⟩ :=
        replaced out₁ (out₂ ++ rest') offset' twins₁ ahead
      obtain ⟨⟨noMore', ends'⟩, shared'⟩ :=
        replaced' out₂ rest' reading'.next.offset twins₂ front ends
      have next : reading'.next = ⟨reading'.next.offset, out₂ ++ rest'⟩ := by rw [← goesOn]
      rw [List.append_assoc, attributes_of_attribute? found', next]
      refine ⟨⟨List.append_eq_nil_iff.mpr ⟨noFaults', noMore'⟩, ends'⟩, ?_⟩
      have toList (entry : Option Attribute) :
          entry.toList.any Attribute.isShared = entry.any Attribute.isShared := by
        cases entry with
        | none => rfl
        | some entry => exact Bool.or_false _
      rw [List.any_append, List.any_append, shared', toList, toList, shared]

end ClassHoist.Markup
