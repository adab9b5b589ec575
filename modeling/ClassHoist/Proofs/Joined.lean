import ClassHoist.Proofs.Enclosure
import ClassHoist.Proofs.Followed
import ClassHoist.Proofs.ReadingBehind

/-! # Documents one behind the other

A source that is read without faults is read the same in front of a second one that starts with a
construct (`Draft.run_followed`), and the second one is read the same behind it (`Draft.run_onto`).
So the document of both is the first document followed by the second, and the faults are those of
the second (`read_followed`).
-/

namespace ClassHoist.Markup

variable {more : Text}

namespace Draft

/-- The draft of a source that goes on with more text. -/
def followed (draft : Draft) (more : Text) : Draft := draft.moveTo (draft.cursor.followed more)

variable {draft : Draft}

/-- A node is added in front of more text as without it. -/
theorem add_followed (draft : Draft) (node : Node) :
    (draft.followed more).add node = (draft.add node).followed more := by
  unfold add
  cases isOpen : draft.opened with
  | nil =>
    have top : (draft.followed more).opened = [] := isOpen
    simp only [top]
    rfl
  | cons innermost outer =>
    have top : (draft.followed more).opened = innermost :: outer := isOpen
    simp only [top]
    rfl

/-- An element or block is left in front of more text as without it. -/
theorem leave_followed (outer : List Opened) (node : Node) :
    (draft.followed more).leave outer node = (draft.leave outer node).followed more :=
  add_followed { draft with opened := outer } node

/-- Text is read in front of more text as without it. -/
theorem readText_followed (text rest : Text) :
    (draft.followed more).readText text (rest ++ more) =
      (draft.readText text rest).followed more :=
  add_followed (draft.moveTo (draft.cursor.past text rest)) _

/-- A comment without faults is read the same in front of more text. -/
theorem readComment_followed (starts : StartsConstruct more)
    (goesOn : draft.cursor.token.kind ≠ .endOfFile) (clean : draft.readComment.faults = []) :
    (draft.followed more).readComment = draft.readComment.followed more := by
  have cursor : (draft.followed more).cursor = draft.cursor.followed more := rfl
  unfold readComment at clean ⊢
  rw [cursor, Cursor.token_followed starts goesOn, Cursor.bump_followed starts goesOn]
  have rest : (draft.cursor.bump.followed more).rest = draft.cursor.bump.rest ++ more := rfl
  simp only [rest] at clean ⊢
  split at clean
  case h_1 after found =>
    have again := spanUntil_followed ['-', '-', '>'] (by decide) (by decide)
      (found ▸ List.cons_ne_nil _ _) more
    simp only [again, found, List.cons_append]
    rw [← add_followed]
    rfl
  case h_2 => exact absurd clean (faults_note_ne_nil _ _ _)

/-- A construct in braces is read the same in front of more text, if what it is used for is. -/
theorem readBraced_followed {use use' : Braced → Draft → Draft} (starts : StartsConstruct more)
    (goesOn : draft.cursor.token.kind ≠ .endOfFile)
    (uses : ∀ braced moved, (use braced moved).faults = [] →
      use' (braced.followed more) (moved.followed more) = (use braced moved).followed more)
    (clean : (draft.readBraced use).faults = []) :
    (draft.followed more).readBraced use' = (draft.readBraced use).followed more := by
  have cursor : (draft.followed more).cursor = draft.cursor.followed more := rfl
  unfold readBraced at clean ⊢
  rw [cursor]
  cases found : draft.cursor.braced? with
  | none =>
    simp only [found] at clean
    exact absurd clean (faults_note_ne_nil _ _ _)
  | some braced =>
    simp only [found] at clean
    simp only [Cursor.braced?_followed starts goesOn found]
    exact uses braced (draft.moveTo braced.next) clean

/-- A block is opened in the same way in front of more text. -/
theorem readBlock_followed (starts : StartsConstruct more)
    (goesOn : draft.cursor.token.kind ≠ .endOfFile) (clean : draft.readBlock.faults = []) :
    (draft.followed more).readBlock = draft.readBlock.followed more := by
  refine readBraced_followed starts goesOn (fun braced moved clean => ?_) clean
  have keyword : (braced.followed more).withKeyword = braced.withKeyword := rfl
  simp only [keyword] at clean ⊢
  cases known : BlockKind.ofKeyword? braced.withKeyword.1 with
  | none =>
    simp only [known] at clean
    exact absurd clean (faults_note_ne_nil _ _ _)
  | some kind => rfl

/-- A special tag without faults is read the same in front of more text. -/
theorem readSpecialTag_followed (starts : StartsConstruct more)
    (goesOn : draft.cursor.token.kind ≠ .endOfFile) (clean : draft.readSpecialTag.faults = []) :
    (draft.followed more).readSpecialTag = draft.readSpecialTag.followed more := by
  refine readBraced_followed starts goesOn (fun braced moved clean => ?_) clean
  have keyword : (braced.followed more).withKeyword = braced.withKeyword := rfl
  simp only [keyword] at clean ⊢
  cases known : SpecialTag.ofKeyword? braced.withKeyword.1 with
  | none =>
    simp only [known] at clean
    exact absurd clean (faults_note_ne_nil _ _ _)
  | some kind => exact add_followed _ _

/-- An expression without faults is read the same in front of more text. -/
theorem readExpression_followed (starts : StartsConstruct more)
    (goesOn : draft.cursor.token.kind ≠ .endOfFile) (clean : draft.readExpression.faults = []) :
    (draft.followed more).readExpression = draft.readExpression.followed more :=
  readBraced_followed starts goesOn (fun _ _ _ => add_followed _ _) clean

/-- What follows an opening tag is read the same in front of more text, if it is without faults. -/
theorem readBody_followed {tag : OpenTag} (starts : StartsConstruct more)
    (clean : (draft.readBody tag).faults = []) :
    (draft.followed more).readBody tag = (draft.readBody tag).followed more := by
  have cursor : (draft.followed more).cursor = draft.cursor.followed more := rfl
  unfold readBody at clean ⊢
  cases body : bodyOf tag.name tag.selfClosing with
  | empty => exact add_followed _ _
  | raw =>
    simp only [body, faults_add] at clean
    obtain ⟨ends, -⟩ := faults_note_eq_nil.mp clean
    simp only [cursor, rawContent_followed (plainName_of_bodyOf_raw body) ends more,
      closingTag_followed starts ends]
    rw [← add_followed]
    rfl
  | text =>
    simp only [body, faults_add] at clean
    obtain ⟨clean, ends⟩ := List.append_eq_nil_iff.mp (faults_note_eq_nil.mp clean).1
    simp only [cursor, textContent_followed (plainName_of_bodyOf_text body) _ clean ends more,
      Reading.followed, closingTag_followed starts ends]
    rw [← add_followed]
    rfl
  | markup => rfl

/-- An element without faults is read the same in front of more text. -/
theorem readElement_followed (starts : StartsConstruct more)
    (goesOn : draft.cursor.token.kind ≠ .endOfFile) (clean : draft.readElement.faults = []) :
    (draft.followed more).readElement = draft.readElement.followed more := by
  obtain ⟨tag, read, noFaults, known⟩ := exists_of_readElement_clean clean
  have again := openTag_followed starts goesOn noFaults
  have read' : (openTag (draft.followed more).cursor).value = some tag :=
    (congrArg Reading.value again).trans read
  rw [readElement_eq read] at clean ⊢
  rw [readElement_eq read', ← readBody_followed starts clean]
  have cursor : (draft.followed more).cursor = draft.cursor.followed more := rfl
  rw [cursor, again]
  rfl

/-- One construct is read the same in front of more text. -/
theorem readNode_followed (starts : StartsConstruct more)
    (goesOn : draft.cursor.token.kind ≠ .endOfFile) (clean : draft.readNode.faults = []) :
    (draft.followed more).readNode = draft.readNode.followed more := by
  have kind : (draft.followed more).cursor.token.kind = draft.cursor.token.kind :=
    congrArg Token.kind (Cursor.token_followed starts goesOn)
  unfold readNode at clean ⊢
  rw [kind]
  split at clean
  · exact readComment_followed starts goesOn clean
  · exact readElement_followed starts goesOn clean
  · exact absurd clean (faults_note_ne_nil _ _ _)
  · exact readBlock_followed starts goesOn clean
  · exact readSpecialTag_followed starts goesOn clean
  · exact readExpression_followed starts goesOn clean
  · exact absurd clean (readStrayBraced_faults_ne_nil draft)
  · exact absurd clean (readStrayBraced_faults_ne_nil draft)
  · exact congrArg draft.moveTo (Cursor.bump_followed starts goesOn)

/-- A script or style without faults is read the same in front of more text, if it is kept so. -/
theorem readRaw_followed {keep : RawElement → Span → Draft → Draft} {name : String}
    (starts : StartsConstruct more) (goesOn : draft.cursor.token.kind ≠ .endOfFile)
    (plainName : PlainName name) (named : draft.cursor.tagName? = some name)
    (grows : ∀ raw span moved, moved.faults <:+ (keep raw span moved).faults)
    (keeps : ∀ raw span (moved : Draft),
      keep raw span (moved.followed more) = (keep raw span moved).followed more)
    (clean : (draft.readRaw keep).faults = []) :
    (draft.followed more).readRaw keep = (draft.readRaw keep).followed more := by
  obtain ⟨raw, read, noFaults, -⟩ := exists_of_readRaw_clean grows clean
  have cursor : (draft.followed more).cursor = draft.cursor.followed more := rfl
  unfold readRaw
  simp only [cursor, rawElement_followed starts goesOn plainName named noFaults,
    Cursor.token_followed starts goesOn, Reading.followed, read]
  rw [← keeps]
  rfl

/-- A script is kept in front of more text as without it. -/
theorem keepScript_followed (raw : RawElement) (span : Span) (draft : Draft) :
    keepScript raw span (draft.followed more) = (keepScript raw span draft).followed more := by
  have modules : (draft.followed more).moduleScript = draft.moduleScript := rfl
  have instances : (draft.followed more).instanceScript = draft.instanceScript := rfl
  unfold keepScript
  simp only [modules, instances]
  split <;> split <;> rfl

/-- A style is kept in front of more text as without it. -/
theorem keepStyle_followed (raw : RawElement) (span : Span) (draft : Draft) :
    keepStyle raw span (draft.followed more) = (keepStyle raw span draft).followed more := by
  have style : (draft.followed more).style = draft.style := rfl
  unfold keepStyle
  rw [style]
  split <;> rfl

/-- A step without faults at top level is the same in front of more text. -/
theorem readTop_followed (starts : StartsConstruct more)
    (goesOn : draft.cursor.token.kind ≠ .endOfFile) (clean : draft.readTop.faults = []) :
    (draft.followed more).readTop = draft.readTop.followed more := by
  have kind : (draft.followed more).cursor.token.kind = draft.cursor.token.kind :=
    congrArg Token.kind (Cursor.token_followed starts goesOn)
  have name : (draft.followed more).cursor.tagName? = draft.cursor.tagName? :=
    Cursor.tagName?_followed starts goesOn
  by_cases script : draft.cursor.token.kind = .tagOpen ∧ draft.cursor.tagName? = some "script"
  · obtain ⟨opens, named⟩ := script
    rw [readTop_of_script opens named] at clean ⊢
    rw [readTop_of_script (kind.trans opens) (name.trans named)]
    exact readRaw_followed starts goesOn plainName_script named keepScript_faults
      keepScript_followed clean
  · by_cases style : draft.cursor.token.kind = .tagOpen ∧ draft.cursor.tagName? = some "style"
    · obtain ⟨opens, named⟩ := style
      rw [readTop_of_style opens named] at clean ⊢
      rw [readTop_of_style (kind.trans opens) (name.trans named)]
      exact readRaw_followed starts goesOn plainName_style named keepStyle_faults
        keepStyle_followed clean
    · have other (opens : draft.cursor.token.kind = .tagOpen) :
          draft.cursor.tagName? ≠ some "script" ∧ draft.cursor.tagName? ≠ some "style" :=
        ⟨fun named => script ⟨opens, named⟩, fun named => style ⟨opens, named⟩⟩
      rw [readTop_of_other other] at clean ⊢
      rw [readTop_of_other (kind ▸ name ▸ other)]
      exact readNode_followed starts goesOn clean

/-- More text puts nothing else around a place. -/
theorem scopes_followed : (draft.followed more).scopes = draft.scopes := rfl

/-- An element is closed in the same way in front of more text. -/
theorem closeElement_followed {entry : OpenElement} {outer : List Opened}
    (starts : StartsConstruct more) (goesOn : draft.cursor.token.kind ≠ .endOfFile)
    (clean : (draft.closeElement entry outer).faults = []) :
    (draft.followed more).closeElement entry outer =
      (draft.closeElement entry outer).followed more := by
  have cursor : (draft.followed more).cursor = draft.cursor.followed more := rfl
  have sibling : (draft.followed more).atSibling = draft.atSibling := by
    simp only [atSibling, cursor, Cursor.token_followed starts goesOn,
      Cursor.tagName?_followed starts goesOn, scopes_followed]
  have closing : (draft.followed more).atOuterClosing = draft.atOuterClosing := by
    simp only [atOuterClosing, cursor, Cursor.token_followed starts goesOn,
      Cursor.tagName?_followed starts goesOn, scopes_followed]
  unfold closeElement at clean ⊢
  rw [sibling, closing]
  split at clean
  case isTrue implied =>
    rw [if_pos implied, if_pos implied]
    exact leave_followed _ _
  case isFalse own =>
    rw [if_neg own, if_neg own]
    rw [faults_leave, faults_note_eq_nil] at clean
    simp only [cursor, closingTag_followed starts clean.1]
    rw [← leave_followed]
    rfl

/-- A block goes on in the same way in front of more text. -/
theorem continueBlock_followed {entry : OpenBlock} {outer : List Opened}
    (starts : StartsConstruct more) (goesOn : draft.cursor.token.kind ≠ .endOfFile)
    (clean : (draft.continueBlock entry outer).faults = []) :
    (draft.followed more).continueBlock entry outer =
      (draft.continueBlock entry outer).followed more := by
  obtain ⟨braced, kind, code, found, isBranch⟩ := exists_branch_of_clean clean
  have found' : (draft.followed more).cursor.braced? = some (braced.followed more) :=
    Cursor.braced?_followed starts goesOn found
  rw [continueBlock_of_branch found isBranch, continueBlock_of_branch found' isBranch]
  rfl

/-- A block is ended in the same way in front of more text. -/
theorem endBlock_followed {entry : OpenBlock} {outer : List Opened}
    (starts : StartsConstruct more) (goesOn : draft.cursor.token.kind ≠ .endOfFile)
    (clean : (draft.endBlock entry outer).faults = []) :
    (draft.followed more).endBlock entry outer = (draft.endBlock entry outer).followed more := by
  obtain ⟨braced, found, named⟩ := exists_end_of_clean clean
  have found' : (draft.followed more).cursor.braced? = some (braced.followed more) :=
    Cursor.braced?_followed starts goesOn found
  rw [endBlock_of_end found named, endBlock_of_end found' named, ← leave_followed]
  rfl

/-- **A step in front of more text.** A step without faults is the same step. -/
theorem step_followed {next : Draft} (starts : StartsConstruct more)
    (stepped : draft.step = some next) (clean : next.faults = []) :
    (draft.followed more).step = some (next.followed more) := by
  obtain ⟨taken, dropped⟩ := span_followed isTextChar starts (fun _ => id) draft.cursor.rest
  have kind (goesOn : draft.cursor.token.kind ≠ .endOfFile) :
      (draft.followed more).cursor.token.kind = draft.cursor.token.kind :=
    congrArg Token.kind (Cursor.token_followed starts goesOn)
  have sibling (goesOn : draft.cursor.token.kind ≠ .endOfFile) :
      (draft.followed more).atSibling = draft.atSibling := by
    have name : (draft.followed more).cursor.tagName? = draft.cursor.tagName? :=
      Cursor.tagName?_followed starts goesOn
    simp only [atSibling, kind goesOn, name, scopes_followed]
  rw [step_eq_some_iff]
  -- The same step is taken, since the next token is the same; at the end every step is a fault.
  cases step_eq_some_iff.mp stepped with
  | text someText =>
    rw [← readText_followed, ← taken, ← dropped]
    refine .text ?_
    rwa [show (draft.followed more).cursor.rest = draft.cursor.rest ++ more from rfl, taken]
  | top noText isOpen goesOn =>
    rw [← readTop_followed starts goesOn clean]
    exact .top (taken.trans noText) isOpen (kind goesOn ▸ goesOn)
  | close noText isOpen ends =>
    have goesOn : draft.cursor.token.kind ≠ .endOfFile := fun ended =>
      closeElement_faults_ne_nil ended clean
    rw [← closeElement_followed starts goesOn clean]
    refine .close (taken.trans noText) isOpen ?_
    rwa [kind goesOn, sibling goesOn]
  | child noText isOpen goesOn notClosing noSibling =>
    rw [← readNode_followed starts goesOn clean]
    refine .child (taken.trans noText) isOpen (kind goesOn ▸ goesOn) (kind goesOn ▸ notClosing) ?_
    rwa [sibling goesOn]
  | abandon => exact absurd clean abandonBlock_faults_ne_nil
  | branch noText isOpen opens =>
    have goesOn : draft.cursor.token.kind ≠ .endOfFile := by
      rw [opens]
      decide
    rw [← continueBlock_followed starts goesOn clean]
    exact .branch (taken.trans noText) isOpen ((kind goesOn).trans opens)
  | finish noText isOpen opens =>
    have goesOn : draft.cursor.token.kind ≠ .endOfFile := by
      rw [opens]
      decide
    rw [← endBlock_followed starts goesOn clean]
    exact .finish (taken.trans noText) isOpen ((kind goesOn).trans opens)
  | inner noText isOpen goesOn notClosing notNext notEnd =>
    rw [← readNode_followed starts goesOn clean]
    exact .inner (taken.trans noText) isOpen (kind goesOn ▸ goesOn) (kind goesOn ▸ notClosing)
      (kind goesOn ▸ notNext) (kind goesOn ▸ notEnd)

/-- **A whole run in front of more text.** What is read without faults is read first. -/
theorem run_followed (draft : Draft) (starts : StartsConstruct more)
    (clean : draft.run.faults = []) :
    (draft.followed more).run = (draft.run.followed more).run := by
  fun_induction run draft with
  | case1 draft ended => rfl
  | case2 draft next stepped ih =>
    have nextClean : next.faults = [] := List.suffix_nil.mp (clean ▸ run_faults next)
    rw [run_of_step (step_followed starts stepped nextClean), ih clean]

/-- A run goes on until no step is left. -/
theorem step_run (draft : Draft) : draft.run.step = none := by
  fun_induction run draft with
  | case1 draft ended => exact ended
  | case2 draft next stepped ih => exact ih

/-- Behind a source that has been read without faults, nothing has been read of the second one. -/
theorem run_start_followed {first : Text} (second : Text) (clean : (start first).run.faults = []) :
    (start first).run.followed second =
      (start second).onto (start first).run (Text.bytes first) := by
  obtain ⟨taken, whole, counted⟩ := (run_sound (start_sound first) clean).reach
  have ended := rest_of_step_eq_none (step_run (start first))
  have top := opened_run (start first)
  rw [ended, List.append_nil] at whole
  obtain rfl : first = taken := whole
  generalize (start first).run = base at *
  obtain ⟨⟨offset, rest⟩, opened, nodes, moduleScript, instanceScript, style, faults⟩ := base
  simp only at clean ended top counted
  subst clean ended top counted
  simp only [followed, moveTo, onto, start, Cursor.followed, Cursor.start, Cursor.shift,
    List.nil_append, List.map_nil, Option.map_none, Option.or_none, Nat.zero_add, Nat.add_zero]

/-- **A run over two sources.** The second is read on top of what has been read of the first. -/
theorem run_append {first second : Text} (starts : StartsConstruct second)
    (clean : (start first).run.faults = [])
    (apart : (start first).run.SlotsApart (start second).run) :
    (start (first ++ second)).run =
      (start second).run.onto (start first).run (Text.bytes first) := by
  have joined : start (first ++ second) = (start first).followed second := rfl
  rw [joined, run_followed _ starts clean, run_start_followed second clean, run_onto _ apart]

end Draft

/-- The document of two sources of which the second follows the first, which is of the length. -/
def Document.followedBy (first second : Document) (length : Nat) : Document where
  moduleScript :=
    first.moduleScript.or (second.moduleScript.map (Script.mapSpans (.shift length)))
  instanceScript :=
    first.instanceScript.or (second.instanceScript.map (Script.mapSpans (.shift length)))
  style := first.style.or (second.style.map (Style.mapSpans (.shift length)))
  template := ⟨first.template.nodes ++ second.template.nodes.map (Node.mapSpans (.shift length)),
    ⟨first.template.span.start, length + second.template.span.stop⟩⟩

/-- No script or style of one kind is in both documents. -/
structure Document.SlotsApart (first second : Document) : Prop where
  moduleScript : first.moduleScript = none ∨ second.moduleScript = none
  instanceScript : first.instanceScript = none ∨ second.instanceScript = none
  style : first.style = none ∨ second.style = none

/-- **Reading is compositional at top level.** Behind a source that is read without faults, a source
that starts with a tag or a brace is read as if it stood alone: the nodes, scripts and styles of
both are those of the first, followed by those of the second with all spans shifted, and the faults
are those of the second. -/
theorem read_followed {first second : Text} {document : Document}
    (done : read? first = .ok document) (starts : ∀ c ∈ second.head?, c = '<' ∨ c = '\x7b')
    (apart : document.SlotsApart (read second).1) :
    read (first ++ second) =
      (document.followedBy (read second).1 first.bytes,
        (read second).2.map (Fault.mapSpans (.shift first.bytes))) := by
  have whole := read_eq_of_read? done
  obtain ⟨rfl, noFaults⟩ := Prod.mk.inj whole
  have clean : (Draft.start first).run.faults = [] := List.reverse_eq_nil_iff.mp noFaults
  have construct : StartsConstruct second := by
    intro c isHead
    rcases starts c isHead with rfl | rfl <;> rfl
  have joined := Draft.run_append construct clean
    ⟨apart.moduleScript, apart.instanceScript, apart.style⟩
  unfold read
  rw [joined]
  refine Prod.ext ?_ ?_
  · simp only [Draft.document, Draft.onto, Document.followedBy, List.reverse_append,
      List.map_reverse, Text.bytes_append]
  · simp only [Draft.onto, clean, List.append_nil, List.map_reverse]

/-- A closing tag that closes nothing. -/
def stray : Text := ['<', '/', 'p', '>']

/-- Behind the paragraph and the rule, the closing tag is the only fault. -/
theorem read_followed_stray : read? ruled = .ok ruledDocument ∧
    read (ruled ++ stray) = (ruledDocument.followedBy (read stray).1 7,
      [⟨.unexpectedClosingTag "p", ⟨7, 9⟩⟩]) := by
  have stepped : (Draft.start stray).step = some ⟨⟨4, []⟩, [], [], none, none, none,
    [⟨.unexpectedClosingTag "p", ⟨0, 2⟩⟩]⟩ := by rfl
  have faults : (read stray).2 = [⟨.unexpectedClosingTag "p", ⟨0, 2⟩⟩] := by
    unfold read
    rw [Draft.run_of_step stepped, Draft.run_of_step_eq_none (by rfl)]
    rfl
  refine ⟨read?_ruled, ?_⟩
  have opens : ∀ c ∈ stray.head?, c = '<' ∨ c = '\x7b' := by
    intro c isHead
    cases isHead
    exact .inl rfl
  rw [read_followed read?_ruled opens ⟨.inl rfl, .inl rfl, .inl rfl⟩, faults]
  rfl

end ClassHoist.Markup
