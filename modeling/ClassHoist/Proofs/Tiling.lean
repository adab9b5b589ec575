import ClassHoist.Proofs.Hoisting
import ClassHoist.Proofs.Layout

/-! # Nothing of a source is lost

Every step of reading keeps what has been read in order up to the place reached, and leaves nothing
out unless it notes a fault (`Draft.step_spaced`). So siblings come in order inside their parents in
every document, and the parts of a document without faults tile its source (`read_spaced`).
-/

namespace ClassHoist.Markup

namespace Cursor

/-- Whatever is reached with less text left lies further on. -/
theorem offset_lt_of_lt {first second : Cursor} (reach : first.Reaches second)
    (less : second.lt first) : first.offset < second.offset := by
  obtain ⟨taken, joined, counted⟩ := reach
  have nonempty : taken ≠ [] := by
    rintro rfl
    rw [lt, joined] at less
    exact absurd less (Nat.lt_irrefl _)
  have positive := Text.bytes_pos nonempty
  omega

end Cursor

/-- No tag is left out without a fault. -/
theorem faults_of_openTag_eq_none {cursor : Cursor} (none : (openTag cursor).value = none) :
    (openTag cursor).faults ≠ [] := by
  intro clean
  obtain ⟨tag, read⟩ := openTag_of_clean clean
  rw [none] at read
  cases read

/-- A script or style stands from the first token up to the place reached. -/
theorem span_of_rawElement {cursor : Cursor} {raw : RawElement}
    (read : (rawElement cursor).value = some raw) :
    raw.span = ⟨cursor.token.span.start, (rawElement cursor).next.offset⟩ := by
  unfold rawElement at read ⊢
  simp only at read ⊢
  split at read
  case h_1 => cases read
  case h_2 tag found =>
    rw [← start_of_openTag found]
    split at read
    · next closes =>
      obtain rfl := Option.some.inj read
      simp only [closes, ↓reduceIte]
    · next opens =>
      obtain rfl := Option.some.inj read
      simp only [opens, Bool.false_eq_true, ↓reduceIte]

/-- A raw element that is not there has faults. -/
theorem faults_of_rawElement_eq_none {cursor : Cursor} (none : (rawElement cursor).value = none) :
    (rawElement cursor).faults ≠ [] := by
  intro clean
  obtain ⟨raw, read⟩ := exists_of_rawElement_clean clean
  rw [none] at read
  cases read

/-- A run of text, if there is some, up to the place after it. -/
theorem spread_run (exact : Prop) (cursor : Cursor) (text rest : Text) :
    Spread exact cursor.offset
      ((if text.isEmpty then [] else
        [Node.text ⟨cursor.offset, (cursor.past text rest).offset⟩ (String.ofList text)]).map
          Node.span)
      (cursor.past text rest).offset := by
  by_cases empty : text = []
  · subst empty
    exact Meets.refl _ _
  · rw [if_neg (by simpa using empty)]
    refine ⟨Meets.refl _ _, ?_, Meets.refl _ _⟩
    have positive := Text.bytes_pos empty
    change cursor.offset < cursor.offset + Text.bytes text
    omega

/-- A run of text is whole if it stands in order between two places. -/
theorem whole_run {exact : Prop} {text : Text} {span : Span} {node : Node} {lo hi : Nat}
    (spread : Spread exact lo
      ((if text.isEmpty then [] else [Node.text span (String.ofList text)]).map Node.span) hi)
    (member : node ∈ (if text.isEmpty then [] else [Node.text span (String.ofList text)])) :
    node.Whole exact := by
  have nonempty := (spread.lt_stop_of_mem (List.mem_map_of_mem member)).2
  split at member
  · cases member
  · obtain rfl := List.mem_singleton.mp member
    exact whole_leaf rfl nonempty

/-- The text of an element whose content is not markup, from where it starts. -/
theorem rawContent_spread (exact : Prop) (cursor : Cursor) (name : String) :
    Spread exact cursor.offset
      ((if (rawContent cursor name).2.1.isEmpty then [] else
        [Node.text (rawContent cursor name).1 (String.ofList (rawContent cursor name).2.1)]).map
          Node.span)
      (rawContent cursor name).2.2.offset :=
  spread_run exact cursor _ _

/-- Text and expressions follow each other from where they start. -/
theorem textContent_spread (exact : Prop) (name : String) (cursor : Cursor) :
    (∃ stop, Spread exact cursor.offset ((textContent name cursor).value.map Node.span) stop ∧
      stop ≤ (textContent name cursor).next.offset) ∧
      ∀ node ∈ (textContent name cursor).value, node.Whole exact := by
  fun_induction textContent name cursor with
  | case1 cursor stops found place leading inside left closed =>
    have run := spread_run exact cursor found.1 found.2
    exact ⟨⟨_, run, (Cursor.reaches_toEnd place).offset_le⟩,
      fun node member => whole_run run member⟩
  | case2 cursor stops found place leading inside left inner after closed stop code text less _ more
      ih =>
    obtain ⟨⟨last, spread, upTo⟩, whole⟩ := ih
    have run := spread_run exact cursor found.1 found.2
    have nonempty : place.offset < stop := by
      change place.offset < place.offset + 1 + Text.bytes inner + 1
      omega
    refine ⟨⟨last, ?_, upTo⟩, ?_⟩
    · rw [List.map_append]
      exact run.append ⟨Meets.refl _ _, nonempty, spread⟩
    · intro node member
      rcases List.mem_append.mp member with inRun | member
      · exact whole_run run inRun
      · rcases List.mem_cons.mp member with rfl | later
        · exact whole_leaf rfl nonempty
        · exact whole node later
  | case3 cursor stops found place leading =>
    have run := spread_run exact cursor found.1 found.2
    exact ⟨⟨_, run, Nat.le_refl _⟩, fun node member => whole_run run member⟩

namespace Draft

section Spaced

variable {exact : Prop} {draft : Draft}

/-- Where a fault is noted, nothing exact was promised. -/
theorem inexact_of_note {faults : List Fault} (nonempty : faults ≠ [])
    (clean : exact → (draft.note faults).faults = []) : ¬ exact :=
  fun isExact => nonempty (faults_note_eq_nil.mp (clean isExact)).1

/-- A step that notes a fault may skip what it read. -/
theorem Spaced.fault (spaced : draft.Spaced exact draft.cursor.offset) {cursor : Cursor}
    (reach : draft.cursor.Reaches cursor) {faults : List Fault} (nonempty : faults ≠ [])
    (clean : exact → ((draft.moveTo cursor).note faults).faults = []) :
    ((draft.moveTo cursor).note faults).Spaced exact cursor.offset :=
  ((spaced.skip (inexact_of_note nonempty clean) reach.offset_le).moveTo cursor).note faults

/-- A part of the document that is no node. -/
theorem Spaced.addPart {next : Draft} {span : Span} (spaced : draft.Spaced exact span.start)
    (nonempty : span.start < span.stop) (top : draft.opened = []) (sameOpened : next.opened = [])
    (sameNodes : next.nodes = draft.nodes) (parts : next.parts.Perm (span :: draft.parts)) :
    next.Spaced exact span.stop := by
  obtain ⟨nodes, -, spans, last, nested, spread, perm, sub⟩ := spaced
  rw [top] at nested
  obtain rfl : last = span.start := nested
  refine ⟨by rw [sameNodes]; exact nodes, ?_, spans ++ [span], span.stop, ?_,
    spread.concat nonempty, ?_, ?_⟩
  · rw [sameOpened]
    intro opened member
    cases member
  · rw [sameOpened]
    rfl
  · exact parts.trans ((List.Perm.cons _ perm).trans (List.perm_append_singleton _ _).symm)
  · rw [sameNodes]
    exact sub.trans (List.sublist_append_left _ _)

/-- What the innermost open element or block holds. -/
theorem Spaced.innermost {stop : Nat} (spaced : draft.Spaced exact stop) {innermost : Opened}
    {outer : List Opened} (isOpen : draft.opened = innermost :: outer) :
    innermost.Spaced exact stop ∧ ∀ node ∈ innermost.held, node.Whole exact := by
  obtain ⟨-, held, spans, top, nested, -⟩ := spaced
  rw [isOpen] at nested held
  exact ⟨nested.1, held innermost List.mem_cons_self⟩

/-- Text that is read stands behind what has been read. -/
theorem readText_spaced (spaced : draft.Spaced exact draft.cursor.offset) {text : Text}
    (nonempty : text ≠ []) (rest : Text) :
    (draft.readText text rest).Spaced exact (draft.readText text rest).cursor.offset := by
  have positive := Text.bytes_pos nonempty
  have forward : draft.cursor.offset < draft.cursor.offset + Text.bytes text := by omega
  rw [readText, cursor_add, cursor_moveTo]
  exact Spaced.add (spaced.moveTo _) forward (whole_leaf rfl forward)

/-- A comment stands behind what has been read. -/
theorem readComment_spaced (spaced : draft.Spaced exact draft.cursor.offset)
    (noText : draft.cursor.rest.takeWhile isTextChar = [])
    (more : draft.cursor.token.kind ≠ .endOfFile)
    (clean : exact → draft.readComment.faults = []) :
    draft.readComment.Spaced exact draft.readComment.cursor.offset := by
  have forward := Cursor.offset_lt_of_lt (readComment_passes draft).reach (readComment_lt more)
  rw [← Cursor.token_start_of_no_text noText] at forward spaced
  unfold readComment at clean forward ⊢
  simp only at clean forward ⊢
  split at clean
  case h_1 after same =>
    simp only [same, cursor_add, cursor_moveTo] at forward ⊢
    exact Spaced.add (spaced.moveTo _) forward (whole_leaf rfl forward)
  case h_2 other =>
    rw [Cursor.token_start_of_no_text noText] at spaced
    exact spaced.fault ((Cursor.reaches_bump _).trans (Cursor.reaches_toEnd _))
      (List.cons_ne_nil _ _) clean

/-- An element, or its opening tag, stands behind what has been read. -/
theorem readElement_spaced (spaced : draft.Spaced exact draft.cursor.offset)
    (noText : draft.cursor.rest.takeWhile isTextChar = [])
    (more : draft.cursor.token.kind ≠ .endOfFile)
    (clean : exact → draft.readElement.faults = []) :
    draft.readElement.Spaced exact draft.readElement.cursor.offset := by
  have forward := Cursor.offset_lt_of_lt (openTag_reaches draft.cursor) (openTag_lt more)
  unfold readElement at clean ⊢
  simp only at clean ⊢
  split at clean
  case h_1 none =>
    exact spaced.fault (openTag_reaches _) (faults_of_openTag_eq_none none) clean
  case h_2 tag read =>
    have startIs := (start_of_openTag read).trans (Cursor.token_start_of_no_text noText)
    rw [← startIs] at spaced forward
    -- Whatever the element holds, it starts behind its tag and ends before the place reached.
    have element (children : List Node) (last : Nat) {stop : Nat} (upTo : last ≤ stop)
        (spread : Spread exact (openTag draft.cursor).next.offset
          (children.reverse.map Node.span) last)
        (whole : ∀ node ∈ children, node.Whole exact) :
        (OpenElement.node ⟨tag, Role.ofName tag.name tag.selfClosing, children⟩ stop).Whole exact ∧
          tag.start < stop :=
      ⟨OpenElement.whole_node upTo ⟨_, forward, spread⟩ whole,
        Nat.lt_of_lt_of_le forward (Nat.le_trans spread.le upTo)⟩
    split
    · simp only [cursor_add, cursor_note, cursor_moveTo]
      obtain ⟨whole, nonempty⟩ := element [] _ (Nat.le_refl _) (Meets.refl _ _) (by simp)
      exact Spaced.add ((spaced.moveTo _).note _) nonempty whole
    · split
      · simp only [cursor_add, cursor_note, cursor_moveTo]
        have run := rawContent_spread exact (openTag draft.cursor).next tag.name
        obtain ⟨whole, nonempty⟩ := element
          (if (rawContent (openTag draft.cursor).next tag.name).2.1.isEmpty then []
            else [.text (rawContent (openTag draft.cursor).next tag.name).1
              (String.ofList (rawContent (openTag draft.cursor).next tag.name).2.1)]) _
          (closingTag_reaches (rawContent (openTag draft.cursor).next tag.name).2.2
            tag.name).offset_le
          (by rwa [apply_ite List.reverse]) (fun node member => whole_run run member)
        exact Spaced.add (((spaced.moveTo _).note _ |>.moveTo _).note _) nonempty whole
      · split
        · simp only [cursor_add, cursor_note, cursor_moveTo]
          obtain ⟨⟨last, spread, upTo⟩, inside⟩ :=
            textContent_spread exact tag.name (openTag draft.cursor).next
          obtain ⟨whole, nonempty⟩ := element
            (textContent tag.name (openTag draft.cursor).next).value.reverse last
            (Nat.le_trans upTo (closingTag_reaches
              (textContent tag.name (openTag draft.cursor).next).next tag.name).offset_le)
            (by rwa [List.reverse_reverse])
            (fun node member => inside node (List.mem_reverse.mp member))
          exact Spaced.add (((spaced.moveTo _).note _ |>.moveTo _).note _) nonempty whole
        · simp only [cursor_enter, cursor_note, cursor_moveTo]
          exact Spaced.enter ((spaced.moveTo _).note _) ⟨_, forward, Meets.refl _ _⟩ rfl

/-- A stray closing tag is skipped with a fault. -/
theorem readStrayClosing_spaced (spaced : draft.Spaced exact draft.cursor.offset)
    (clean : exact → draft.readStrayClosing.faults = []) :
    draft.readStrayClosing.Spaced exact draft.readStrayClosing.cursor.offset :=
  spaced.fault (readStrayClosing_passes draft).reach (List.cons_ne_nil _ _) clean

/-- What is made of a construct in braces starts where the construct does. -/
theorem readBraced_spaced (spaced : draft.Spaced exact draft.cursor.offset)
    (noText : draft.cursor.rest.takeWhile isTextChar = []) {use : Braced → Draft → Draft}
    (clean : exact → (draft.readBraced use).faults = [])
    (uses : ∀ braced (moved : Draft), braced.span.start < braced.next.offset →
      braced.span.stop = braced.next.offset → moved.cursor = braced.next →
      moved.Spaced exact braced.span.start → (exact → (use braced moved).faults = []) →
      (use braced moved).Spaced exact (use braced moved).cursor.offset) :
    (draft.readBraced use).Spaced exact (draft.readBraced use).cursor.offset := by
  unfold readBraced at clean ⊢
  cases found : draft.cursor.braced? with
  | none =>
    rw [found] at clean
    exact spaced.fault (Cursor.reaches_toEnd _) (List.cons_ne_nil _ _) clean
  | some braced =>
    rw [found] at clean
    obtain ⟨-, spanIs, -, -⟩ := Cursor.braced?_eq_some found
    have forward := Cursor.offset_lt_of_lt (Cursor.reaches_braced? found) (Cursor.braced?_lt found)
    rw [← Cursor.token_start_of_no_text noText] at spaced forward
    refine uses braced (draft.moveTo braced.next) ?_ (by rw [spanIs]) rfl ?_ clean
    · rw [spanIs]
      exact forward
    · rw [spanIs]
      exact spaced.moveTo _

/-- The opening tag of a block stands behind what has been read. -/
theorem readBlock_spaced (spaced : draft.Spaced exact draft.cursor.offset)
    (noText : draft.cursor.rest.takeWhile isTextChar = [])
    (clean : exact → draft.readBlock.faults = []) :
    draft.readBlock.Spaced exact draft.readBlock.cursor.offset := by
  refine readBraced_spaced spaced noText clean
    fun braced moved forward stopIs place here clean => ?_
  simp only at clean ⊢
  split at clean
  case h_1 =>
    have inexact := inexact_of_note (List.cons_ne_nil _ _) clean
    rw [cursor_note, place]
    exact (here.skip inexact (Nat.le_of_lt forward)).note _
  case h_2 kind known =>
    rw [cursor_enter, place]
    refine Spaced.enter here ⟨?_, fun _ => id, ?_, Meets.refl _ _, _, rfl, Meets.refl _ _⟩ rfl
    · exact Nat.lt_of_lt_of_eq forward stopIs.symm
    · exact ⟨Nat.le_of_eq stopIs, fun _ => stopIs⟩

/-- A special tag stands behind what has been read. -/
theorem readSpecialTag_spaced (spaced : draft.Spaced exact draft.cursor.offset)
    (noText : draft.cursor.rest.takeWhile isTextChar = [])
    (clean : exact → draft.readSpecialTag.faults = []) :
    draft.readSpecialTag.Spaced exact draft.readSpecialTag.cursor.offset := by
  refine readBraced_spaced spaced noText clean
    fun braced moved forward stopIs place here clean => ?_
  simp only at clean ⊢
  split at clean
  case h_1 =>
    have inexact := inexact_of_note (List.cons_ne_nil _ _) clean
    rw [cursor_note, place]
    exact (here.skip inexact (Nat.le_of_lt forward)).note _
  case h_2 kind known =>
    rw [← stopIs] at forward
    rw [cursor_add, place, ← stopIs]
    exact Spaced.add here forward (whole_leaf rfl forward)

/-- An expression stands behind what has been read. -/
theorem readExpression_spaced (spaced : draft.Spaced exact draft.cursor.offset)
    (noText : draft.cursor.rest.takeWhile isTextChar = [])
    (clean : exact → draft.readExpression.faults = []) :
    draft.readExpression.Spaced exact draft.readExpression.cursor.offset := by
  refine readBraced_spaced spaced noText clean
    fun braced moved forward stopIs place here clean => ?_
  rw [← stopIs] at forward
  rw [cursor_add, place, ← stopIs]
  exact Spaced.add here forward (whole_leaf rfl forward)

/-- A construct in braces that stands alone is skipped with a fault. -/
theorem readStrayBraced_spaced (spaced : draft.Spaced exact draft.cursor.offset)
    (noText : draft.cursor.rest.takeWhile isTextChar = [])
    (clean : exact → draft.readStrayBraced.faults = []) :
    draft.readStrayBraced.Spaced exact draft.readStrayBraced.cursor.offset := by
  refine readBraced_spaced spaced noText clean
    fun braced moved forward stopIs place here clean => ?_
  have inexact := inexact_of_note (List.cons_ne_nil _ _) clean
  rw [cursor_note, place]
  exact (here.skip inexact (Nat.le_of_lt forward)).note _

/-- Whatever node is read, it stands behind what has been read. -/
theorem readNode_spaced (spaced : draft.Spaced exact draft.cursor.offset)
    (noText : draft.cursor.rest.takeWhile isTextChar = [])
    (more : draft.cursor.token.kind ≠ .endOfFile)
    (clean : exact → draft.readNode.faults = []) :
    draft.readNode.Spaced exact draft.readNode.cursor.offset := by
  have kinds := Cursor.kind_of_no_text noText
  unfold readNode at clean ⊢
  split at clean
  · exact readComment_spaced spaced noText more clean
  · exact readElement_spaced spaced noText more clean
  · exact readStrayClosing_spaced spaced clean
  · exact readBlock_spaced spaced noText clean
  · exact readSpecialTag_spaced spaced noText clean
  · exact readExpression_spaced spaced noText clean
  · exact readStrayBraced_spaced spaced noText clean
  · exact readStrayBraced_spaced spaced noText clean
  · simp_all

/-- A second script or style is a fault, and skipped. -/
theorem Spaced.again (spaced : draft.Spaced exact draft.cursor.offset) {cursor : Cursor}
    (reach : draft.cursor.Reaches cursor) (faults : List Fault) {fault : Fault}
    (clean : exact → (((draft.moveTo cursor).note faults).note [fault]).faults = []) :
    (((draft.moveTo cursor).note faults).note [fault]).Spaced exact cursor.offset :=
  (((spaced.skip (inexact_of_note (List.cons_ne_nil _ _) clean) reach.offset_le).moveTo cursor).note
    faults).note _

/-- A first script or style goes on from what has been read at top level. -/
theorem Spaced.addRaw {next : Draft} {raw : RawElement}
    (spaced : draft.Spaced exact draft.cursor.offset)
    (noText : draft.cursor.rest.takeWhile isTextChar = [])
    (more : draft.cursor.token.kind ≠ .endOfFile) (top : draft.opened = [])
    (read : (rawElement draft.cursor).value = some raw) (sameOpened : next.opened = draft.opened)
    (sameNodes : next.nodes = draft.nodes) (parts : next.parts.Perm (raw.span :: draft.parts)) :
    next.Spaced exact (rawElement draft.cursor).next.offset := by
  have forward := Cursor.offset_lt_of_lt (rawElement_reaches draft.cursor) (rawElement_lt more)
  have spanIs := span_of_rawElement read
  rw [Cursor.token_start_of_no_text noText] at spanIs
  rw [spanIs] at parts
  exact Spaced.addPart spaced forward top (sameOpened.trans top) sameNodes parts

/-- A script stands behind what has been read. -/
theorem readScript_spaced (spaced : draft.Spaced exact draft.cursor.offset)
    (noText : draft.cursor.rest.takeWhile isTextChar = [])
    (more : draft.cursor.token.kind ≠ .endOfFile) (top : draft.opened = [])
    (clean : exact → draft.readScript.faults = []) :
    draft.readScript.Spaced exact draft.readScript.cursor.offset := by
  have reach := rawElement_reaches draft.cursor
  unfold readScript at clean ⊢
  simp only at clean ⊢
  split at clean
  case h_1 none => exact spaced.fault reach (faults_of_rawElement_eq_none none) clean
  case h_2 raw read =>
    split at clean
    case h_1 =>
      split at clean
      case isTrue again =>
        rw [if_pos again]
        exact spaced.again reach _ clean
      case isFalse first =>
        rw [if_neg first]
        refine spaced.addRaw noText more top read rfl rfl ?_
        simp only [Draft.parts, Option.not_isSome_iff_eq_none.mp first]
        exact List.perm_middle
    case h_2 =>
      split at clean
      case isTrue again =>
        rw [if_pos again]
        exact spaced.again reach _ clean
      case isFalse first =>
        rw [if_neg first]
        refine spaced.addRaw noText more top read rfl rfl ?_
        simp only [Draft.parts, Option.not_isSome_iff_eq_none.mp first, Option.toList_some,
          Option.toList_none, List.map_cons, List.map_nil, List.cons_append, List.nil_append,
          ← List.append_assoc]
        exact List.perm_middle

/-- A style stands behind what has been read. -/
theorem readStyle_spaced (spaced : draft.Spaced exact draft.cursor.offset)
    (noText : draft.cursor.rest.takeWhile isTextChar = [])
    (more : draft.cursor.token.kind ≠ .endOfFile) (top : draft.opened = [])
    (clean : exact → draft.readStyle.faults = []) :
    draft.readStyle.Spaced exact draft.readStyle.cursor.offset := by
  have reach := rawElement_reaches draft.cursor
  unfold readStyle at clean ⊢
  simp only at clean ⊢
  split at clean
  case h_1 none => exact spaced.fault reach (faults_of_rawElement_eq_none none) clean
  case h_2 raw read =>
    split at clean
    case isTrue again =>
      rw [if_pos again]
      exact spaced.again reach _ clean
    case isFalse first =>
      rw [if_neg first]
      refine spaced.addRaw noText more top read rfl rfl ?_
      simp only [Draft.parts, Option.not_isSome_iff_eq_none.mp first, Option.toList_some,
        Option.toList_none, List.map_cons, List.map_nil, ← List.append_assoc]
      exact List.perm_middle

/-- A step at top level keeps what has been read in order. -/
theorem readTop_spaced (spaced : draft.Spaced exact draft.cursor.offset)
    (noText : draft.cursor.rest.takeWhile isTextChar = [])
    (more : draft.cursor.token.kind ≠ .endOfFile) (top : draft.opened = [])
    (clean : exact → draft.readTop.faults = []) :
    draft.readTop.Spaced exact draft.readTop.cursor.offset := by
  revert clean
  unfold readTop
  split
  · split
    · exact readScript_spaced spaced noText more top
    · exact readStyle_spaced spaced noText more top
    · exact readNode_spaced spaced noText more
  · exact readNode_spaced spaced noText more

section Opened

variable {outer : List Opened}

/-- A closed element ends at the place reached. -/
theorem closeElement_spaced {entry : OpenElement}
    (spaced : draft.Spaced exact draft.cursor.offset)
    (isOpen : draft.opened = .element entry :: outer) :
    (draft.closeElement entry outer).Spaced exact
      (draft.closeElement entry outer).cursor.offset := by
  obtain ⟨inside, whole⟩ := spaced.innermost isOpen
  unfold closeElement
  split
  · rw [cursor_leave]
    exact Spaced.leave spaced isOpen rfl (Nat.le_refl _)
      (OpenElement.whole_node (Nat.le_refl _) inside whole)
  · have upTo := (closingTag_reaches draft.cursor entry.tag.name).offset_le
    simp only [cursor_leave, cursor_note, cursor_moveTo]
    exact Spaced.leave ((spaced.moveTo _).note _) isOpen rfl upTo
      (OpenElement.whole_node upTo inside whole)

/-- A block that is given up ends at the place reached. -/
theorem abandonBlock_spaced {entry : OpenBlock}
    (spaced : draft.Spaced exact draft.cursor.offset)
    (isOpen : draft.opened = .block entry :: outer) :
    (draft.abandonBlock entry outer).Spaced exact
      (draft.abandonBlock entry outer).cursor.offset := by
  obtain ⟨inside, whole⟩ := spaced.innermost isOpen
  rw [abandonBlock, cursor_leave, cursor_note]
  exact Spaced.leave (spaced.note _) isOpen rfl (Nat.le_refl _)
    (OpenBlock.whole_node (Nat.le_refl _) inside whole)

/-- A block that is ended ends at the place reached. -/
theorem endBlock_spaced {entry : OpenBlock} (spaced : draft.Spaced exact draft.cursor.offset)
    (isOpen : draft.opened = .block entry :: outer) :
    (draft.endBlock entry outer).Spaced exact (draft.endBlock entry outer).cursor.offset := by
  obtain ⟨inside, whole⟩ := spaced.innermost isOpen
  unfold endBlock
  simp only
  split
  case h_1 =>
    have upTo := (Cursor.reaches_toEnd draft.cursor).offset_le
    simp only [cursor_leave, cursor_note, cursor_moveTo]
    exact Spaced.leave ((spaced.moveTo _).note _) isOpen rfl upTo
      (OpenBlock.whole_node upTo inside whole)
  case h_2 braced found =>
    have upTo := (Cursor.reaches_braced? found).offset_le
    simp only [cursor_leave, cursor_note, cursor_moveTo]
    exact Spaced.leave ((spaced.moveTo _).note _) isOpen rfl upTo
      (OpenBlock.whole_node upTo inside whole)

/-- The innermost open element or block goes on in another way. -/
theorem Spaced.replace {innermost other : Opened} {stop next : Nat}
    (spaced : draft.Spaced exact stop) (isOpen : draft.opened = innermost :: outer)
    (startIs : other.start = innermost.start) (inside : other.Spaced exact next)
    (held : ∀ node ∈ other.held, node ∈ innermost.held) :
    Draft.Spaced exact { draft with opened := other :: outer } next := by
  obtain ⟨nodes, whole, spans, top, nested, spread, perm, sub⟩ := spaced
  rw [isOpen] at nested whole
  refine ⟨nodes, ?_, spans, top, ⟨inside, ?_⟩, spread, perm, sub⟩
  · intro opened member node isIn
    rcases List.mem_cons.mp member with rfl | outside
    · exact whole innermost List.mem_cons_self node (held node isIn)
    · exact whole opened (List.mem_cons_of_mem _ outside) node isIn
  · rw [startIs]
    exact nested.2

/-- A block that goes on has its next part start at the place reached. -/
theorem continueBlock_spaced {entry : OpenBlock} (spaced : draft.Spaced exact draft.cursor.offset)
    (noText : draft.cursor.rest.takeWhile isTextChar = [])
    (isOpen : draft.opened = .block entry :: outer)
    (clean : exact → (draft.continueBlock entry outer).faults = []) :
    (draft.continueBlock entry outer).Spaced exact
      (draft.continueBlock entry outer).cursor.offset := by
  obtain ⟨inside, whole⟩ := spaced.innermost isOpen
  unfold continueBlock at clean ⊢
  simp only at clean ⊢
  split at clean
  case h_1 =>
    have upTo := (Cursor.reaches_toEnd draft.cursor).offset_le
    simp only [cursor_leave, cursor_note, cursor_moveTo]
    exact Spaced.leave ((spaced.moveTo _).note _) isOpen rfl upTo
      (OpenBlock.whole_node upTo inside whole)
  case h_2 braced found =>
    have forward := (Cursor.reaches_braced? found).offset_le
    obtain ⟨-, spanIs, -, -⟩ := Cursor.braced?_eq_some found
    have begins : braced.span.start = draft.cursor.offset := by
      rw [spanIs]
      exact Cursor.token_start_of_no_text noText
    split at clean
    case h_1 kind code header =>
      refine Spaced.replace (spaced.moveTo _) isOpen rfl (inside.continue ?_ ?_ forward)
        (entry.held_continue _ _ _)
      · intro start isStart
        obtain rfl := Option.some.inj isStart
        exact begins
      · exact fun impossible => nomatch impossible
    case h_2 none =>
      have inexact : ¬ exact := inexact_of_note (List.cons_ne_nil _ _) clean
      refine Spaced.replace ((spaced.moveTo _).note _) isOpen rfl
        (inside.continue ?_ (fun _ => inexact) forward) (entry.held_continue _ _ _)
      exact fun start isStart => nomatch isStart

end Opened

/-- **One step.** What has been read stays in order, and nothing is left out of it unless a fault is
noted. -/
theorem step_spaced {next : Draft} (spaced : draft.Spaced exact draft.cursor.offset)
    (stepped : draft.step = some next) (clean : exact → next.faults = []) :
    next.Spaced exact next.cursor.offset := by
  cases step_eq_some_iff.mp stepped with
  | text someText => exact readText_spaced spaced someText _
  | top noText isOpen more => exact readTop_spaced spaced noText more isOpen clean
  | close _ isOpen => exact closeElement_spaced spaced isOpen
  | child noText _ more | inner noText _ more => exact readNode_spaced spaced noText more clean
  | abandon _ isOpen => exact abandonBlock_spaced spaced isOpen
  | branch noText isOpen => exact continueBlock_spaced spaced noText isOpen clean
  | finish _ isOpen => exact endBlock_spaced spaced isOpen

/-- **A whole run.** -/
theorem run_spaced (spaced : draft.Spaced exact draft.cursor.offset)
    (clean : exact → draft.run.faults = []) : draft.run.Spaced exact draft.run.cursor.offset := by
  fun_induction run draft with
  | case1 draft => exact spaced
  | case2 draft next stepped ih =>
    refine ih (step_spaced spaced stepped fun isExact => ?_) clean
    exact List.suffix_nil.mp (clean isExact ▸ run_faults next)

end Spaced

/-- Going on with a block never leads back. -/
theorem continueBlock_reaches (draft : Draft) (entry : OpenBlock) (outer : List Opened) :
    draft.cursor.Reaches (draft.continueBlock entry outer).cursor := by
  unfold continueBlock
  simp only
  split
  · simp only [cursor_leave, cursor_note, cursor_moveTo]
    exact Cursor.reaches_toEnd _
  · next found => split <;> exact Cursor.reaches_braced? found

/-- Ending a block never leads back. -/
theorem endBlock_reaches (draft : Draft) (entry : OpenBlock) (outer : List Opened) :
    draft.cursor.Reaches (draft.endBlock entry outer).cursor := by
  unfold endBlock
  simp only
  split
  · simp only [cursor_leave, cursor_note, cursor_moveTo]
    exact Cursor.reaches_toEnd _
  · next found =>
    simp only [cursor_leave, cursor_note, cursor_moveTo]
    exact Cursor.reaches_braced? found

/-- A step moves forward in the source, whatever faults it finds. -/
theorem step_reaches {draft next : Draft} (stepped : draft.step = some next) :
    draft.cursor.Reaches next.cursor := by
  cases step_eq_some_iff.mp stepped with
  | text => exact (readText_passes List.takeWhile_append_dropWhile.symm).reach
  | top => exact (readTop_follows draft).reach
  | close _ isOpen => exact (closeElement_passes isOpen).reach
  | child | inner => exact (readNode_follows draft).reach
  | abandon =>
    rw [abandonBlock, cursor_leave, cursor_note]
    exact Cursor.Reaches.refl _
  | @branch entry outer => exact continueBlock_reaches draft entry outer
  | @finish entry outer => exact endBlock_reaches draft entry outer

/-- A run ends at the end of the source. -/
theorem offset_run {draft : Draft} :
    draft.run.cursor.offset = draft.cursor.offset + Text.bytes draft.cursor.rest := by
  fun_induction run draft with
  | case1 draft ended =>
    rw [rest_of_step_eq_none ended]
    rfl
  | case2 draft next stepped ih =>
    obtain ⟨taken, joined, counted⟩ := step_reaches stepped
    rw [ih, counted, joined, Text.bytes_append, Nat.add_assoc]

/-- All of a source has been read, and what was read lies in order. -/
theorem start_run_spaced (exact : Prop) (source : Text)
    (clean : exact → (start source).run.faults = []) :
    (start source).run.Spaced exact (Text.bytes source) := by
  have spaced := run_spaced (start_spaced exact source) clean
  rw [offset_run] at spaced
  exact Nat.zero_add (Text.bytes source) ▸ spaced

end Draft

/-- The nodes directly inside a node: the children of an element, or the nodes of the body and of
the branches of a block. -/
def Node.inside : Node → List Node
  | .element _ _ _ children => children
  | .block _ _ _ body branches => body.nodes ++ branches.flatMap fun branch => branch.body.nodes
  | _ => []

/-- The spans of the nodes at top level, and of the scripts and the style. -/
def Document.parts (document : Document) : List Span :=
  document.template.nodes.map Node.span ++ (document.moduleScript.toList.map Script.span ++
    (document.instanceScript.toList.map Script.span ++ document.style.toList.map Style.span))

/-- The nodes of branches lie in order behind what stands before the branches. -/
theorem Chained.spread {exact : Prop} {lo hi stop : Nat} {branches : List (Branch Node)}
    (chained : Chained exact lo branches hi) (upTo : hi ≤ stop) :
    Spread False lo ((branches.flatMap fun branch => branch.body.nodes).map Node.span) stop := by
  induction branches generalizing lo with
  | nil =>
    obtain rfl : lo = hi := chained
    exact ⟨upTo, False.elim⟩
  | cons branch rest ih =>
    obtain ⟨meets, opens, spaced, stopIs, later⟩ := chained
    rw [List.flatMap_cons, List.map_append]
    have behind : Spread False lo [] branch.body.span.start :=
      ⟨Nat.le_trans meets.1 opens, False.elim⟩
    rw [← stopIs] at later
    exact (behind.append (spaced.sublist (List.Sublist.refl _))).append (ih later)

/-- The nodes directly inside a node lie in order inside its span. -/
theorem Node.Spaced.inside {exact : Prop} {node : Node} (spaced : node.Spaced exact) :
    Spread False node.span.start (node.inside.map Node.span) node.span.stop := by
  cases node with
  | text | comment | expression | tag => exact ⟨Nat.le_of_lt spaced, False.elim⟩
  | element span role attributes children =>
    obtain ⟨lo, hi, starts, spread, upTo⟩ := spaced
    have before : Spread False span.start [] lo := ⟨starts, False.elim⟩
    exact (before.append (spread.sublist (List.Sublist.refl _))).skip id upTo
  | block span kind header body branches =>
    obtain ⟨startIs, opens, meets, filled, last, chained, upTo⟩ := spaced
    change Spread False span.start ((body.nodes ++ _).map Node.span) span.stop
    rw [List.map_append]
    have before : Spread False span.start [] body.span.start := by
      refine ⟨?_, False.elim⟩
      have from_ := meets.1
      omega
    exact (before.append (filled.sublist (List.Sublist.refl _))).append (chained.spread upTo)

/-- **Nothing is lost.** -/
theorem read_spaced (source : Text) :
    let document := (read source).1
    let nodes := document.template.nodes
    -- Siblings come in order, without overlap, inside their parents.
    Spread False 0 (nodes.map Node.span) (Text.bytes source) ∧
      (∀ node ∈ nodesPreorder nodes,
        Spread False node.span.start (node.inside.map Node.span) node.span.stop) ∧
      -- Without faults, the parts of the document tile the source, and nothing is left out between
      -- the children of an element, in the parts of a block or between them.
      ((read source).2 = [] →
        Spread True 0 (document.parts.mergeSort fun first second => first.start ≤ second.start)
          (Text.bytes source) ∧
        ∀ node ∈ nodesPreorder nodes, node.Spaced True) := by
  intro document nodes
  have partsAre : (Draft.start source).run.parts = document.parts := rfl
  have whole {exact : Prop} (spaced : (Draft.start source).run.Spaced exact (Text.bytes source)) :
      ∀ node ∈ nodesPreorder nodes, node.Spaced exact := by
    intro node member
    obtain ⟨top, isTop, isIn⟩ := mem_nodesPreorder.mp member
    exact spaced.nodes top (List.mem_reverse.mp isTop) node isIn
  have tiles {exact : Prop} (spaced : (Draft.start source).run.Spaced exact (Text.bytes source)) :
      ∃ spans, Spread exact 0 spans (Text.bytes source) ∧ document.parts.Perm spans ∧
        (nodes.map Node.span).Sublist spans := by
    obtain ⟨spans, top, nested, spread, perm, sub⟩ := spaced.parts
    rw [Draft.opened_run] at nested
    obtain rfl : top = Text.bytes source := nested
    exact ⟨spans, spread, perm, sub⟩
  have loosely := Draft.start_run_spaced False source False.elim
  refine ⟨?_, fun node member => (whole loosely node member).inside, fun clean => ?_⟩
  · obtain ⟨spans, spread, -, sub⟩ := tiles loosely
    exact spread.sublist sub
  · have exactly := Draft.start_run_spaced True source fun _ => List.reverse_eq_nil_iff.mp clean
    obtain ⟨spans, spread, perm, -⟩ := tiles exactly
    rw [spread.mergeSort perm]
    exact ⟨spread, whole exactly⟩

/-- The parts of the card tile its source. -/
theorem read_spaced_card :
    (read card).2 = [] ∧
      Spread True 0 ((read card).1.parts.mergeSort fun first second => first.start ≤ second.start)
        (Text.bytes card) ∧
      ∀ node ∈ nodesPreorder (read card).1.template.nodes, node.Spaced True := by
  have clean : (read card).2 = [] := by rw [read_eq_of_read? read?_card]
  exact ⟨clean, (read_spaced card).2.2 clean⟩

end ClassHoist.Markup
