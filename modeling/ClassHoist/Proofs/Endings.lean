import ClassHoist.Proofs.Elements
import ClassHoist.Proofs.ReadRun

/-! # Ends of elements and blocks in a renamed document

What a closing tag closes depends on the names of the elements that are open, and in the same way
after renaming if it keeps them apart. So an element ends in the renamed document where it ends in
the document (`Draft.closeElement_replay`), and so does a part of a block
(`Draft.continueBlock_replay`, `Draft.endBlock_replay`).
-/

namespace ClassHoist.Markup

variable {options : Options} {offset : Nat} {rest : Text}

/-- A closing tag without faults is the first token, and has the name of its element. -/
theorem closingTag_starts {cursor : Cursor} {name : String}
    (noFaults : (closingTag cursor name).faults = []) :
    cursor.token.kind = .closingOpen ∧ cursor.tagName? = some name := by
  unfold closingTag at noFaults
  simp only at noFaults
  split at noFaults
  case isTrue opens =>
    split at noFaults
    case isTrue named => exact ⟨opens, named⟩
    case isFalse => cases noFaults
  case isFalse => cases noFaults

/-- Closing tags without faults, of a name and of what it is renamed to, are ahead in the same way.
-/
theorem Ahead.of_closingTag {cursor other : Cursor} {name : String}
    (starts : StartsConstruct cursor.rest) (starts' : StartsConstruct other.rest)
    (noFaults : (closingTag cursor name).faults = [])
    (noFaults' : (closingTag other (renamedName options name)).faults = []) :
    Ahead options cursor.rest other.rest := by
  obtain ⟨offset, input⟩ := cursor
  obtain ⟨offset', input'⟩ := other
  obtain ⟨opens, named⟩ := closingTag_starts noFaults
  obtain ⟨opens', named'⟩ := closingTag_starts noFaults'
  obtain ⟨more, rfl, begins⟩ := starts.begins opens rfl
  obtain ⟨more', rfl, begins'⟩ := starts'.begins opens' rfl
  refine Ahead.of_begins begins begins' (List.cons_ne_nil _ _) fun _ => ⟨offset, offset', ?_⟩
  exact named'.trans (congrArg (Option.map (renamedName options)) named).symm

/-- Renaming does not turn the start of a construct into a run of text. -/
theorem StartsConstruct.renamed {taken out rest rest' : Text} (nonempty : taken ≠ [])
    (starts : StartsConstruct (taken ++ rest)) (renamed : Renamed options taken out) :
    StartsConstruct (out ++ rest') := by
  cases taken with
  | nil => exact absurd rfl nonempty
  | cons c taken =>
    obtain ⟨d, more, rfl, twin, -⟩ := renamed.cons
    intro e isHead
    obtain rfl := Option.some.inj isHead
    have noText := starts c rfl
    rcases isTextChar_eq_false noText with rfl | rfl
    all_goals
      rw [twin.eq_of_ne_colon (by decide)]
      exact noText

namespace Outline

/-- The name of an element. -/
def name? : Outline → Option String
  | element name | component name => some name
  | block _ => none

end Outline

namespace Draft

variable {draft other : Draft}

/-- The names of the open elements. -/
def openNames (draft : Draft) : List String :=
  draft.opened.filterMap fun opened => opened.outline.name?

/-- What closing tags can close is told by the outlines of what is open. -/
theorem scopes_eq (draft : Draft) : draft.scopes = draft.summary.opened.map Outline.scope := by
  rw [scopes, summary, List.map_map]
  exact List.map_congr_left fun opened _ => (Opened.scope_outline opened).symm

/-- In drafts that are alike, what closing tags can close is renamed. -/
theorem scopes_alike (alike : Alike options draft other) :
    other.scopes = (draft.summary.opened.map (Outline.renamed options)).map Outline.scope := by
  rw [scopes_eq, alike.summary]
  rfl

/-- The names of open elements are known. -/
theorem namedIn_openNames (draft : Draft) :
    ∀ outline ∈ draft.summary.opened, outline.NamedIn (· ∈ draft.openNames) := by
  intro outline member
  obtain ⟨opened, isOpen, rfl⟩ := List.mem_map.mp member
  have named (name : String) (isName : opened.outline.name? = some name) :
      name ∈ draft.openNames := List.mem_filterMap.mpr ⟨opened, isOpen, isName⟩
  cases same : opened.outline with
  | element name => exact named name (congrArg Outline.name? same)
  | component name => exact named name (congrArg Outline.name? same)
  | block kind => trivial

/-- A tag that closes an element around the innermost has the name of an open element. -/
theorem mem_openNames_of_closesEnclosing {name : String} {outlines : List Outline}
    {names : String → Prop} (known : ∀ outline ∈ outlines, outline.NamedIn names)
    (closes : closesEnclosing name (outlines.map Outline.scope) = true) : names name := by
  induction outlines with
  | nil => cases closes
  | cons outline outlines ih =>
    obtain ⟨isKnown, outer⟩ := List.forall_mem_cons.mp known
    cases outline with
    | element current =>
      rcases Bool.or_eq_true_iff.mp closes with same | closes
      · exact beq_iff_eq.mp same ▸ isKnown
      · exact ih outer closes
    | component current => exact beq_iff_eq.mp closes ▸ isKnown
    | block kind => cases closes

/-- A name that closes something around a place is one of the known names. -/
theorem mem_openNames_of_closesAround {name : String} {outlines : List Outline}
    {names : String → Prop} (known : ∀ outline ∈ outlines, outline.NamedIn names)
    (closes : closesAround name (outlines.map Outline.scope) = true) : names name := by
  cases outlines with
  | nil => cases closes
  | cons outline outlines =>
    cases outline with
    | element current =>
      exact mem_openNames_of_closesEnclosing (List.forall_mem_cons.mp known).2
        (Bool.and_eq_true_iff.mp closes).2
    | component | block => cases closes

/-- In drafts that are alike, a sibling closes the element in both or in neither. -/
theorem atSibling_alike (alike : Alike options draft other)
    (ahead : Ahead options draft.cursor.rest other.cursor.rest)
    (nonempty : draft.cursor.rest ≠ []) (starts : StartsConstruct draft.cursor.rest) :
    other.atSibling = draft.atSibling := by
  have kind : other.cursor.token.kind = draft.cursor.token.kind :=
    ahead.kind nonempty starts draft.cursor.offset other.cursor.offset
  unfold atSibling
  rw [kind]
  by_cases opens : draft.cursor.token.kind = .tagOpen
  · have named : other.cursor.tagName? = draft.cursor.tagName?.map (renamedName options) :=
      ahead.name nonempty starts draft.cursor.offset other.cursor.offset (.inl opens)
    rw [named, scopes_alike alike, scopes_eq]
    cases draft.cursor.tagName? with
    | none => rfl
    | some name =>
      simp only [Option.map_some, Option.any_some, closesSibling_renamed]
  · rw [beq_eq_false_iff_ne.mpr opens, Bool.false_and, Bool.false_and]

/-- Where a closing tag closes an element around the innermost one, it does so after renaming. -/
theorem atOuterClosing_alike (alike : Alike options draft other)
    (apart : Apart options (· ∈ draft.openNames))
    (ahead : Ahead options draft.cursor.rest other.cursor.rest)
    (nonempty : draft.cursor.rest ≠ []) (starts : StartsConstruct draft.cursor.rest)
    (closes : draft.atOuterClosing = true) : other.atOuterClosing = true := by
  have kind : other.cursor.token.kind = draft.cursor.token.kind :=
    ahead.kind nonempty starts draft.cursor.offset other.cursor.offset
  unfold atOuterClosing at closes ⊢
  obtain ⟨opens, found⟩ := Bool.and_eq_true_iff.mp closes
  have named : other.cursor.tagName? = draft.cursor.tagName?.map (renamedName options) :=
    ahead.name nonempty starts draft.cursor.offset other.cursor.offset (.inr (beq_iff_eq.mp opens))
  obtain ⟨name, isName⟩ : ∃ name, draft.cursor.tagName? = some name := by
    cases isName : draft.cursor.tagName? with
    | none =>
      rw [isName] at found
      cases found
    | some name => exact ⟨name, rfl⟩
  have around : closesAround name draft.scopes = true := by
    rw [isName] at found
    exact found
  rw [scopes_eq] at around
  have isOpen := mem_openNames_of_closesAround draft.namedIn_openNames around
  rw [kind, opens, named, isName, scopes_alike alike, Option.map_some, Option.any_some,
    closesAround_renamed apart isOpen draft.namedIn_openNames, around]
  rfl

/-- An element that is open is open in the renamed document, with its name renamed. -/
theorem exists_of_outline {entry : OpenElement} {other : Opened}
    (same : other.outline = (Opened.element entry).outline.renamed options) :
    ∃ entry', other = .element entry' ∧ entry'.tag.name = renamedName options entry.tag.name := by
  have name (entry : OpenElement) : (Opened.element entry).outline.name? = some entry.tag.name := by
    obtain ⟨tag, role, children⟩ := entry
    cases role <;> rfl
  have renamed (outline : Outline) :
      (outline.renamed options).name? = outline.name?.map (renamedName options) := by
    cases outline <;> rfl
  have names := congrArg Outline.name? same
  rw [renamed, name, Option.map_some] at names
  cases other with
  | block block => cases names
  | element entry' =>
    rw [name] at names
    exact ⟨entry', rfl, Option.some.inj names⟩

/-- What is open around the innermost element or block is so in the renamed document. -/
theorem exists_of_opened {opened : Opened} {outer : List Opened}
    (alike : Alike options draft other) (isOpen : draft.opened = opened :: outer) :
    ∃ opened' outer', other.opened = opened' :: outer' ∧
      opened'.outline = opened.outline.renamed options ∧
        outer'.map Opened.outline = (outer.map Opened.outline).map (Outline.renamed options) := by
  have same := congrArg Summary.opened alike.summary
  unfold summary Summary.renamed at same
  simp only [isOpen, List.map_cons] at same
  obtain ⟨opened', outer', isOpen', first, later⟩ := List.map_eq_cons_iff.mp same
  exact ⟨opened', outer', isOpen', first, later⟩

/-- Leaving an element or block leaves drafts alike. -/
theorem leave_alike {outer outer' : List Opened} {node node' : Node}
    (alike : Alike options draft other)
    (same : outer'.map Opened.outline =
      (outer.map Opened.outline).map (Outline.renamed options)) :
    Alike options (draft.leave outer node) (other.leave outer' node') := by
  refine ⟨by rw [faults_leave, alike.clean], ?_⟩
  rw [summary_leave, summary_leave, alike.summary, same]
  rfl

/-- The closing tag of the innermost element closes it as such. -/
theorem not_implied_of_own {entry : OpenElement} {outer : List Opened}
    (isOpen : draft.opened = .element entry :: outer)
    (opens : draft.cursor.token.kind = .closingOpen)
    (named : draft.cursor.tagName? = some entry.tag.name) :
    (draft.atSibling || draft.atOuterClosing) = false := by
  unfold atSibling atOuterClosing scopes
  rw [opens, named, isOpen, List.map_cons]
  obtain ⟨tag, role, children⟩ := entry
  cases role with
  | element name selfClosing =>
    simp only [Option.any_some, Opened.scope, closesAround, bne_self_eq_false, Bool.false_and,
      Bool.and_false, Bool.or_false]
    rfl
  | component | special => rfl

/-- A closing tag takes up text. -/
theorem ne_nil_of_closingTag {cursor : Cursor} {element : String} {taken : Text}
    (noFaults : (closingTag cursor element).faults = [])
    (split : cursor.rest = taken ++ (closingTag cursor element).next.rest) : taken ≠ [] := by
  obtain ⟨offset, input⟩ := cursor
  rintro rfl
  obtain ⟨blanks, name, blanks', text, -⟩ := closingTag_text ⟨noFaults, rfl⟩
  have counted := congrArg List.length (split.symm.trans text)
  simp only [List.nil_append, List.length_append, List.length_cons] at counted
  omega

/-- **The end of an element.** It ends in the renamed document where it ends in the document, if
renaming keeps the names of the open elements apart. -/
theorem closeElement_replay {entry : OpenElement} {outer : List Opened}
    (isOpen : draft.opened = .element entry :: outer) (starts : StartsConstruct draft.cursor.rest)
    (nonempty : draft.cursor.rest ≠ []) (apart : Apart options (· ∈ draft.openNames))
    (clean : (draft.closeElement entry outer).faults = []) :
    ∃ taken, draft.cursor.rest = taken ++ (draft.closeElement entry outer).cursor.rest ∧
      ∀ other out rest', Alike options draft other → other.cursor.rest = out ++ rest' →
        Renamed options taken out →
          Ahead options (draft.closeElement entry outer).cursor.rest rest' →
            Ahead options draft.cursor.rest other.cursor.rest ∧ ∃ entry' outer',
              other.opened = .element entry' :: outer' ∧
                (other.closeElement entry' outer').cursor.rest = rest' ∧
                  Alike options (draft.closeElement entry outer)
                    (other.closeElement entry' outer') := by
  cases implied : draft.atSibling || draft.atOuterClosing with
  | true =>
    -- Nothing is read, so the element ends in front of the same tag.
    rw [closeElement_of_implied implied, cursor_leave]
    refine ⟨[], rfl, fun other out rest' alike split renamed ahead => ?_⟩
    obtain rfl := renamed.twins.eq_nil_iff.mpr rfl
    obtain rfl : other.cursor.rest = rest' := split
    refine ⟨ahead, ?_⟩
    obtain ⟨opened', outer', isOpen', first, later⟩ := exists_of_opened alike isOpen
    obtain ⟨entry', rfl, -⟩ := exists_of_outline first
    have implied' : (other.atSibling || other.atOuterClosing) = true := by
      rw [Bool.or_eq_true, atSibling_alike alike ahead nonempty starts]
      exact (Bool.or_eq_true_iff.mp implied).imp_right fun closes =>
        atOuterClosing_alike alike apart ahead nonempty starts closes
    refine ⟨entry', outer', isOpen', ?_, ?_⟩
    · rw [closeElement_of_implied implied', cursor_leave]
    · rw [closeElement_of_implied implied']
      exact leave_alike alike later
  | false =>
    -- The element ends with its own closing tag, which is renamed like its name.
    rw [closeElement_of_not_implied implied] at clean ⊢
    rw [faults_leave, faults_note_eq_nil] at clean
    rw [cursor_leave, cursor_note, cursor_moveTo]
    obtain ⟨taken, split, replaced⟩ := closingTag_replace
      (show Reading.Clean (closingTag ⟨_, draft.cursor.rest⟩ entry.tag.name) _ from
        ⟨clean.1, rfl⟩)
    refine ⟨taken, split, fun other out rest' alike split' renamed _ => ?_⟩
    obtain ⟨opened', outer', isOpen', first, later⟩ := exists_of_opened alike isOpen
    obtain ⟨entry', rfl, named⟩ := exists_of_outline first
    have closed := replaced options out rest' other.cursor.offset renamed
    rw [← split', ← named] at closed
    obtain ⟨noFaults', goesOn'⟩ := closed
    obtain ⟨opens', isName'⟩ := closingTag_starts noFaults'
    have own := not_implied_of_own isOpen' opens' isName'
    have consumed := ne_nil_of_closingTag clean.1 split
    refine ⟨?_, entry', outer', isOpen', ?_, ?_⟩
    · have starts' : StartsConstruct other.cursor.rest := by
        rw [split']
        exact StartsConstruct.renamed consumed (split ▸ starts) renamed
      exact .of_closingTag starts starts' clean.1 (named ▸ noFaults')
    · rw [closeElement_of_not_implied own, cursor_leave, cursor_note, cursor_moveTo]
      exact goesOn'
    · rw [closeElement_of_not_implied own]
      refine leave_alike ⟨?_, alike.summary⟩ later
      exact faults_note_eq_nil.mpr ⟨noFaults', alike.clean⟩

end Draft

/-- The branch that a continuing tag starts is of the same kind after renaming. -/
theorem branchKind_eq {braced braced' : Braced} (twins : Twins braced.inner braced'.inner) :
    (branchHeader braced').map Prod.fst = (branchHeader braced).map Prod.fst := by
  have keyword := Braced.keyword_eq twins
  have codes : Twins braced.withKeyword.2.code.toList braced'.withKeyword.2.code.toList := by
    unfold Braced.withKeyword splitKeyword trimmed
    simp only [String.toList_ofList]
    exact (twins.dropWhile (show Steady Char.isAlpha from rfl)).trim
  unfold branchHeader
  simp only [keyword]
  split
  · have afterIf := codes.dropLead? (show ':' ∉ ['i', 'f'] by decide) (by decide)
    generalize Text.dropLead? ['i', 'f'] braced.withKeyword.2.code.toList = condition at afterIf
    generalize Text.dropLead? ['i', 'f'] braced'.withKeyword.2.code.toList = condition' at afterIf
    have empty {text text' : Text} (twins : Twins text text') : text'.isEmpty = text.isEmpty := by
      rw [Bool.eq_iff_iff, List.isEmpty_iff, List.isEmpty_iff, twins.eq_nil_iff]
    cases afterIf with
    | none =>
      simp only [empty codes]
    | @some condition condition' conditions =>
      have blank : (condition'.head?.map Text.isBlank).getD false =
          (condition.head?.map Text.isBlank).getD false := by
        cases conditions with
        | nil => rfl
        | cons twin _ => exact twin.test_eq (show Steady Text.isBlank from rfl)
      simp only [empty conditions, blank]
      split <;> rfl
  · split
    · rfl
    · split <;> rfl

/-- A branch is one after renaming, of the same kind. -/
theorem exists_branch {braced braced' : Braced} {block : BlockKind} {kind : BranchKind}
    {code : String} (twins : Twins braced.inner braced'.inner)
    (found : (branchHeader braced).filter (block.accepts ·.1) = some (kind, code)) :
    ∃ code', (branchHeader braced').filter (block.accepts ·.1) = some (kind, code') := by
  obtain ⟨isBranch, accepts⟩ := Option.filter_eq_some_iff.mp found
  have same := branchKind_eq twins
  rw [isBranch, Option.map_some, Option.map_eq_some_iff] at same
  obtain ⟨⟨kind', code'⟩, isBranch', rfl⟩ := same
  exact ⟨code', Option.filter_eq_some_iff.mpr ⟨isBranch', accepts⟩⟩

namespace Draft

variable {draft : Draft} {entry : OpenBlock} {outer : List Opened}

/-- A block is a block after renaming, of the same kind. -/
theorem exists_block_of_outline {other : Opened}
    (same : other.outline = (Opened.block entry).outline.renamed options) :
    ∃ entry', other = .block entry' ∧ entry'.kind = entry.kind := by
  cases other with
  | block block => exact ⟨block, rfl, Outline.block.inj same⟩
  | element element =>
    obtain ⟨tag, role, children⟩ := element
    cases role <;> cases same

/-- **A further part of a block.** It starts in the renamed document where it starts in the
document. -/
theorem continueBlock_replay (isOpen : draft.opened = .block entry :: outer)
    (opens : draft.cursor.token.kind = .blockNext)
    (clean : (draft.continueBlock entry outer).faults = []) :
    ∃ taken, draft.cursor.rest = taken ++ (draft.continueBlock entry outer).cursor.rest ∧
      ∀ other out rest', Alike options draft other → other.cursor.rest = out ++ rest' →
        Renamed options taken out →
          Ahead options draft.cursor.rest other.cursor.rest ∧ ∃ entry' outer',
            other.opened = .block entry' :: outer' ∧
              (other.continueBlock entry' outer').cursor.rest = rest' ∧
                Alike options (draft.continueBlock entry outer)
                  (other.continueBlock entry' outer') := by
  obtain ⟨braced, kind, code, found, isBranch⟩ := exists_branch_of_clean clean
  obtain ⟨taken, split, replaced⟩ := Cursor.braced_replace found (.inr (.inr (.inr (.inl opens))))
  rw [continueBlock_of_branch found isBranch]
  refine ⟨taken, split, fun other out rest' alike split' renamed => ?_⟩
  obtain ⟨ahead, braced', found', isRest, inners⟩ :=
    replaced options other.cursor out rest' split' renamed
  obtain ⟨opened', outer', isOpen', first, later⟩ := exists_of_opened alike isOpen
  obtain ⟨entry', rfl, sameKind⟩ := exists_block_of_outline first
  obtain ⟨code', isBranch'⟩ := exists_branch inners isBranch
  rw [← sameKind] at isBranch'
  refine ⟨ahead, entry', outer', isOpen', ?_⟩
  rw [continueBlock_of_branch found' isBranch']
  refine ⟨isRest, alike.clean, ?_⟩
  have summary := alike.summary
  unfold Draft.summary Summary.renamed at summary ⊢
  simp only [Summary.mk.injEq] at summary ⊢
  refine ⟨?_, summary.2⟩
  rw [List.map_cons, List.map_cons, List.map_cons, later]
  simp only [Opened.outline, sameKind]
  rfl

/-- **The end of a block.** It ends in the renamed document where it ends in the document. -/
theorem endBlock_replay (isOpen : draft.opened = .block entry :: outer)
    (opens : draft.cursor.token.kind = .blockEnd)
    (clean : (draft.endBlock entry outer).faults = []) :
    ∃ taken, draft.cursor.rest = taken ++ (draft.endBlock entry outer).cursor.rest ∧
      ∀ other out rest', Alike options draft other → other.cursor.rest = out ++ rest' →
        Renamed options taken out →
          Ahead options draft.cursor.rest other.cursor.rest ∧ ∃ entry' outer',
            other.opened = .block entry' :: outer' ∧
              (other.endBlock entry' outer').cursor.rest = rest' ∧
                Alike options (draft.endBlock entry outer) (other.endBlock entry' outer') := by
  obtain ⟨braced, found, named⟩ := exists_end_of_clean clean
  obtain ⟨taken, split, replaced⟩ := Cursor.braced_replace found (.inr (.inr (.inl opens)))
  rw [endBlock_of_end found named, cursor_leave]
  refine ⟨taken, split, fun other out rest' alike split' renamed => ?_⟩
  obtain ⟨ahead, braced', found', isRest, inners⟩ :=
    replaced options other.cursor out rest' split' renamed
  obtain ⟨opened', outer', isOpen', first, later⟩ := exists_of_opened alike isOpen
  obtain ⟨entry', rfl, sameKind⟩ := exists_block_of_outline first
  have named' : String.ofList (Text.trim braced'.inner) = entry'.kind.keyword := by
    have plain : ':' ∉ entry.kind.keyword.toList ∧ '_' ∉ entry.kind.keyword.toList := by
      cases entry.kind <;> decide
    rw [← String.toList_inj, String.toList_ofList] at named ⊢
    rw [sameKind]
    exact (inners.trim.eq_iff plain.1 plain.2).mpr named
  refine ⟨ahead, entry', outer', isOpen', ?_⟩
  rw [endBlock_of_end found' named', cursor_leave]
  exact ⟨isRest, leave_alike ⟨alike.clean, alike.summary⟩ later⟩

end Draft

end ClassHoist.Markup
