import ClassHoist.Proofs.Endings
import ClassHoist.Proofs.TopLevel
import Mathlib.Data.List.TakeWhile

/-! # Reading a renamed document

Each step of reading a document without faults is taken again in the renamed document, with the
classes handed to components exchanged and the rules put in (`Draft.step_replays`).
-/

namespace ClassHoist.Markup

variable {options : Options} {exchange : Exchange}

/-- What is asked of the texts put in place of others: the names fit in place of the classes of some
usages, and the rules can stand at the start of a style. -/
structure Exchange.Sound (exchange : Exchange) (usages : List Usage) : Prop where
  fits : ∀ usage ∈ usages, Fits usage.group (exchange.name usage)
  quiet : Quiet (Text.startsWith (closingLead "style")) exchange.rules []
  ends : exchange.rules = [] ∨ exchange.rules.getLast? = some '\x7d'

/-- The second text is the first, which was read off the first draft to give the second, with the
exchange made in it. -/
def Exchange.Image (exchange : Exchange) (draft next : Draft) (taken edited : Text) : Prop :=
  (next.style = draft.style ∧ ∃ new : Option Usage, next.usages = draft.usages ++ new.toList ∧
    exchange.Swaps draft.cursor.offset (next.opened = []) new taken edited) ∨
  (draft.style = none ∧ next.usages = draft.usages ∧ ∃ style, next.style = some style ∧
    exchange.Inserts draft.cursor.offset style taken edited)

/-- A step without usages and style takes the same text from both documents. -/
theorem Exchange.Image.of_passes {draft next : Draft} (passes : draft.Passes next)
    (taken : Text) : exchange.Image draft next taken taken :=
  .inl ⟨passes.style, none, by rw [passes.usages]; exact (List.append_nil _).symm,
    .inl ⟨rfl, rfl⟩⟩

/-- Reading in another way that is the same here and where texts start alike. -/
theorem Turn.congr {read read' : Draft → Draft} {draft : Draft} {taken edited : Text}
    (turn : Turn options read draft taken edited) (here : read' draft = read draft)
    (there : ∀ other : Draft, Ahead options draft.cursor.rest other.cursor.rest →
      read' other = read other) : Turn options read' draft taken edited where
  split := by rw [here]; exact turn.split
  replay other out rest' alike split renamed := by
    obtain ⟨ahead, isRest, alike'⟩ := turn.replay other out rest' alike split renamed
    rw [here, there other ahead]
    exact ⟨ahead, isRest, alike'⟩

/-- The first token of a construct opens it. -/
theorem StartsConstruct.kind {cursor : Cursor} (starts : StartsConstruct cursor.rest)
    (more : cursor.token.kind ≠ .endOfFile) :
    cursor.token.kind = .commentOpen ∨ cursor.token.kind = .tagOpen ∨
      cursor.token.kind = .closingOpen ∨ cursor.token.kind.OpensBraces := by
  have kinds := Cursor.kind_of_no_text (startsConstruct_iff.mp starts)
  simp only [List.mem_cons, List.not_mem_nil, or_false] at kinds
  unfold TokenKind.OpensBraces
  tauto

namespace Draft

variable {draft : Draft}

/-- Read the construct whose first token is of the kind. -/
def readAs (kind : TokenKind) (draft : Draft) : Draft :=
  match kind with
  | .commentOpen => draft.readComment
  | .tagOpen => draft.readElement
  | .closingOpen => draft.readStrayClosing
  | .blockOpen => draft.readBlock
  | .specialOpen => draft.readSpecialTag
  | .braceOpen => draft.readExpression
  | .blockNext => draft.readStrayBraced
  | .blockEnd => draft.readStrayBraced
  | _ => draft.moveTo draft.cursor.bump

/-- What node is read, the next token tells. -/
theorem readNode_eq (draft : Draft) : draft.readNode = readAs draft.cursor.token.kind draft := rfl

/-- A construct in braces that stands alone is a fault. -/
theorem readStrayBraced_faults_ne_nil (draft : Draft) : draft.readStrayBraced.faults ≠ [] := by
  unfold readStrayBraced readBraced
  simp only
  split
  all_goals
    intro none
    exact absurd none (faults_note_ne_nil _ _ _)

/-- In front of a token there is some text. -/
theorem rest_ne_nil (more : draft.cursor.token.kind ≠ .endOfFile) : draft.cursor.rest ≠ [] :=
  mt Cursor.kind_of_ended more

variable (options) in
/-- What a construct that is no element is read as is read of what it is renamed to. -/
theorem readNode_turn (starts : StartsConstruct draft.cursor.rest)
    (more : draft.cursor.token.kind ≠ .endOfFile) (sound : exchange.Sound draft.readNode.usages)
    (clean : draft.readNode.faults = []) :
    ∃ taken edited, exchange.Image draft draft.readNode taken edited ∧
      Turn options readNode draft taken edited := by
  have same {read : Draft → Draft} {taken edited : Text}
      (turn : Turn options read draft taken edited) (here : draft.readNode = read draft)
      (there : ∀ other : Draft, other.cursor.token.kind = draft.cursor.token.kind →
        other.readNode = read other) : Turn options readNode draft taken edited :=
    turn.congr here fun other ahead => there other (ahead.kind (rest_ne_nil more) starts _ _)
  have carried {read : Draft → Draft} (here : draft.readNode = read draft)
      (passes : draft.Passes (read draft)) (carries : (read draft).faults = [] →
        Carries options read draft)
      (there : ∀ other : Draft, other.cursor.token.kind = draft.cursor.token.kind →
        other.readNode = read other) : ∃ taken edited,
          exchange.Image draft draft.readNode taken edited ∧
            Turn options readNode draft taken edited := by
    obtain ⟨taken, turn⟩ := carries (here ▸ clean)
    refine ⟨taken, taken, ?_, same turn here there⟩
    rw [here]
    exact .of_passes passes taken
  have isRead {other : Draft} {kind : TokenKind} (isKind : other.cursor.token.kind = kind) :
      other.readNode = readAs kind other := isKind ▸ readNode_eq other
  -- Only an element can hold classes; stray tags and braces are faults.
  rcases starts.kind more with opens | opens | opens | opens
  · exact carried (isRead opens) (readComment_passes draft)
      (fun noFaults => readComment_carries opens noFaults)
      fun other isKind => isRead (isKind.trans opens)
  · have here : draft.readNode = draft.readElement := isRead opens
    obtain ⟨more, split, begins⟩ := starts.begins opens rfl
    rw [here] at clean sound
    obtain ⟨taken, edited, new, usages, style, swaps, turn⟩ :=
      readElement_turn split begins clean sound.fits
    refine ⟨taken, edited, ?_, same turn here fun other isKind => isRead (isKind.trans opens)⟩
    rw [here]
    exact .inl ⟨style, new, usages, swaps⟩
  · have here : draft.readNode = draft.readStrayClosing := isRead opens
    rw [here, readStrayClosing] at clean
    exact absurd clean (faults_note_ne_nil _ _ _)
  · rcases opens with opens | opens | opens | opens | opens
    · exact carried (isRead opens) (readExpression_passes draft)
        (fun noFaults => readExpression_carries opens noFaults)
        fun other isKind => isRead (isKind.trans opens)
    · exact carried (isRead opens) (readBlock_passes draft)
        (fun noFaults => readBlock_carries opens noFaults)
        fun other isKind => isRead (isKind.trans opens)
    · rw [isRead opens] at clean
      exact absurd clean draft.readStrayBraced_faults_ne_nil
    · rw [isRead opens] at clean
      exact absurd clean draft.readStrayBraced_faults_ne_nil
    · exact carried (isRead opens) (readSpecialTag_passes draft)
        (fun noFaults => readSpecialTag_carries opens noFaults)
        fun other isKind => isRead (isKind.trans opens)

/-- At top level a tag named `script` is read as a script. -/
theorem readTop_of_script (opens : draft.cursor.token.kind = .tagOpen)
    (named : draft.cursor.tagName? = some "script") : draft.readTop = draft.readScript := by
  unfold readTop
  rw [if_pos opens]
  simp only [named]

/-- At top level a tag named `style` is read as a style. -/
theorem readTop_of_style (opens : draft.cursor.token.kind = .tagOpen)
    (named : draft.cursor.tagName? = some "style") : draft.readTop = draft.readStyle := by
  unfold readTop
  rw [if_pos opens]
  simp only [named]

/-- At top level everything else is read as a node. -/
theorem readTop_of_other (other : draft.cursor.token.kind = .tagOpen →
    draft.cursor.tagName? ≠ some "script" ∧ draft.cursor.tagName? ≠ some "style") :
    draft.readTop = draft.readNode := by
  unfold readTop
  split
  case isTrue opens =>
    obtain ⟨notScript, notStyle⟩ := other opens
    split
    · next named => exact absurd named notScript
    · next named => exact absurd named notStyle
    · rfl
  case isFalse => rfl

/-- A style brings no usages. -/
theorem usages_readStyle (draft : Draft) : draft.readStyle.usages = draft.usages := by
  unfold readStyle
  simp only
  repeat' split
  all_goals rfl

variable (options) in
/-- What a construct at top level is read as is read of what it is renamed to. -/
theorem readTop_turn (starts : StartsConstruct draft.cursor.rest)
    (more : draft.cursor.token.kind ≠ .endOfFile) (sound : exchange.Sound draft.readTop.usages)
    (opened : exchange.rules ≠ [] → ∀ style ∈ draft.readTop.style,
      style.FollowsOpenTag draft.cursor.offset draft.cursor.rest)
    (clean : draft.readTop.faults = []) :
    ∃ taken edited, exchange.Image draft draft.readTop taken edited ∧
      Turn options readTop draft taken edited := by
  have kind {other : Draft} (ahead : Ahead options draft.cursor.rest other.cursor.rest) :
      other.cursor.token.kind = draft.cursor.token.kind :=
    ahead.kind (rest_ne_nil more) starts _ _
  have name {other : Draft} (opens : draft.cursor.token.kind = .tagOpen)
      (ahead : Ahead options draft.cursor.rest other.cursor.rest) :
      other.cursor.tagName? = draft.cursor.tagName?.map (renamedName options) :=
    ahead.name (rest_ne_nil more) starts _ _ (.inl opens)
  have same (word : String) (plain : isPlainWord word = true) (found : Option String) :
      found.map (renamedName options) = some word ↔ found = some word := by
    cases found with
    | none => exact ⟨nofun, nofun⟩
    | some name => simp only [Option.map_some, Option.some.injEq, renamedName_eq_iff plain]
  -- Scripts and styles are told by names that renaming neither changes nor makes.
  by_cases script : draft.cursor.token.kind = .tagOpen ∧ draft.cursor.tagName? = some "script"
  · obtain ⟨opens, named⟩ := script
    have here := readTop_of_script opens named
    obtain ⟨more, split, begins⟩ := starts.begins opens rfl
    rw [here] at clean
    obtain ⟨taken, turn⟩ := readScript_carries options split begins named clean
    refine ⟨taken, taken, ?_, turn.congr here fun other ahead => ?_⟩
    · rw [here]
      exact .of_passes (readScript_passes draft) taken
    · exact readTop_of_script ((kind ahead).trans opens)
        ((name opens ahead).trans ((same _ (by decide) _).mpr named))
  · by_cases style : draft.cursor.token.kind = .tagOpen ∧ draft.cursor.tagName? = some "style"
    · obtain ⟨opens, named⟩ := style
      have here := readTop_of_style opens named
      obtain ⟨more, split, begins⟩ := starts.begins opens rfl
      rw [here] at clean opened
      obtain ⟨taken, edited, style, first, isStyle, inserts, turn⟩ :=
        readStyle_turn options split begins named clean sound.quiet sound.ends opened
      refine ⟨taken, edited, ?_, turn.congr here fun other ahead => ?_⟩
      · rw [here]
        exact .inr ⟨first, usages_readStyle draft, style, isStyle, inserts⟩
      · exact readTop_of_style ((kind ahead).trans opens)
          ((name opens ahead).trans ((same _ (by decide) _).mpr named))
    · have here := readTop_of_other fun opens =>
        ⟨fun named => script ⟨opens, named⟩, fun named => style ⟨opens, named⟩⟩
      rw [here] at clean sound
      obtain ⟨taken, edited, image, turn⟩ :=
        readNode_turn options starts more sound clean
      refine ⟨taken, edited, by rw [here]; exact image, turn.congr here fun other ahead => ?_⟩
      refine readTop_of_other fun opens => ?_
      have opens := (kind ahead).symm.trans opens
      rw [name opens ahead]
      exact ⟨fun named => script ⟨opens, (same _ (by decide) _).mp named⟩,
        fun named => style ⟨opens, (same _ (by decide) _).mp named⟩⟩

section Step

variable {outer : List Opened}

/-- In front of text, the next step reads the text. -/
theorem step_of_text {text rest : Text} (isText : ∀ c ∈ text, isTextChar c = true)
    (nonempty : text ≠ []) (starts : StartsConstruct rest)
    (split : draft.cursor.rest = text ++ rest) : draft.step = some (draft.readText text rest) := by
  unfold step
  have someText : text.isEmpty = false := List.isEmpty_eq_false_iff.mpr nonempty
  simp only [split, takeWhile_blanks isText starts, dropWhile_blanks isText starts, someText,
    Bool.false_eq_true, ↓reduceIte]

/-- At top level, the next step in front of a construct reads it. -/
theorem step_of_top (starts : StartsConstruct draft.cursor.rest) (isOpen : draft.opened = [])
    (more : draft.cursor.token.kind ≠ .endOfFile) : draft.step = some draft.readTop :=
  (Steps.top (startsConstruct_iff.mp starts) isOpen more).step

/-- At top level, no step is left at the end. -/
theorem step_of_ended (starts : StartsConstruct draft.cursor.rest) (isOpen : draft.opened = [])
    (ended : draft.cursor.token.kind = .endOfFile) : draft.step = none := by
  have noText := List.isEmpty_iff.mpr (startsConstruct_iff.mp starts)
  unfold step
  simp only [noText, ↓reduceIte, isOpen, ended]

/-- An element is closed in front of a closing tag, a sibling that ends it or the end. -/
theorem step_of_close {entry : OpenElement} (starts : StartsConstruct draft.cursor.rest)
    (isOpen : draft.opened = .element entry :: outer)
    (ends : draft.cursor.token.kind = .endOfFile ∨ draft.cursor.token.kind = .closingOpen ∨
      draft.atSibling = true) : draft.step = some (draft.closeElement entry outer) :=
  (Steps.close (startsConstruct_iff.mp starts) isOpen ends).step

/-- Inside an element, the next step in front of any other construct reads it. -/
theorem step_of_child {entry : OpenElement} (starts : StartsConstruct draft.cursor.rest)
    (isOpen : draft.opened = .element entry :: outer)
    (more : draft.cursor.token.kind ≠ .endOfFile)
    (notClosing : draft.cursor.token.kind ≠ .closingOpen) (noSibling : draft.atSibling ≠ true) :
    draft.step = some draft.readNode :=
  (Steps.child (startsConstruct_iff.mp starts) isOpen more notClosing noSibling).step

/-- Inside a block, the next step in front of a branch goes on with it. -/
theorem step_of_continue {entry : OpenBlock} (starts : StartsConstruct draft.cursor.rest)
    (isOpen : draft.opened = .block entry :: outer)
    (opens : draft.cursor.token.kind = .blockNext) :
    draft.step = some (draft.continueBlock entry outer) :=
  (Steps.branch (startsConstruct_iff.mp starts) isOpen opens).step

/-- Inside a block, the next step in front of an end tag ends it. -/
theorem step_of_end {entry : OpenBlock} (starts : StartsConstruct draft.cursor.rest)
    (isOpen : draft.opened = .block entry :: outer)
    (opens : draft.cursor.token.kind = .blockEnd) :
    draft.step = some (draft.endBlock entry outer) :=
  (Steps.finish (startsConstruct_iff.mp starts) isOpen opens).step

/-- Inside a block, the next step in front of a closing tag or the end gives the block up. -/
theorem step_of_abandon {entry : OpenBlock} (starts : StartsConstruct draft.cursor.rest)
    (isOpen : draft.opened = .block entry :: outer)
    (ends : draft.cursor.token.kind = .endOfFile ∨ draft.cursor.token.kind = .closingOpen) :
    draft.step = some (draft.abandonBlock entry outer) :=
  (Steps.abandon (startsConstruct_iff.mp starts) isOpen ends).step

/-- Inside a block, the next step in front of any other construct reads it. -/
theorem step_of_inner {entry : OpenBlock} (starts : StartsConstruct draft.cursor.rest)
    (isOpen : draft.opened = .block entry :: outer)
    (other : draft.cursor.token.kind ≠ .endOfFile ∧ draft.cursor.token.kind ≠ .closingOpen ∧
      draft.cursor.token.kind ≠ .blockNext ∧ draft.cursor.token.kind ≠ .blockEnd) :
    draft.step = some draft.readNode :=
  (Steps.inner (startsConstruct_iff.mp starts) isOpen other.1 other.2.1 other.2.2.1 other.2.2.2).step

/-- A step that reads the first text off the first draft is taken in every draft like it whose text
starts with what the second text is renamed to. -/
structure Replay (options : Options) (draft next : Draft) (taken edited : Text) : Prop where
  split : draft.cursor.rest = taken ++ next.cursor.rest
  replay : ∀ other out rest', Alike options draft other → other.cursor.rest = out ++ rest' →
    Renamed options edited out → Ahead options next.cursor.rest rest' →
      Ahead options draft.cursor.rest other.cursor.rest ∧ ∃ next', other.step = some next' ∧
        next'.cursor.rest = rest' ∧ Alike options next next'

/-- The next step can be replayed, with the exchange made in what it reads. -/
def Replays (options : Options) (exchange : Exchange) (draft next : Draft) : Prop :=
  ∃ taken edited, exchange.Image draft next taken edited ∧ Replay options draft next taken edited

/-- A step that is read in the same way in drafts that are alike can be replayed. -/
theorem Replay.of_turn {read : Draft → Draft} {taken edited : Text}
    (turn : Turn options read draft taken edited)
    (steps : ∀ other, Alike options draft other →
      Ahead options draft.cursor.rest other.cursor.rest → other.step = some (read other)) :
    Replay options draft (read draft) taken edited where
  split := turn.split
  replay other out rest' alike split renamed _ := by
    obtain ⟨ahead, isRest, alike'⟩ := turn.replay other out rest' alike split renamed
    exact ⟨ahead, read other, steps other alike ahead, isRest, alike'⟩

/-- Behind a run of text a construct starts, or nothing. -/
theorem startsConstruct_dropWhile (text : Text) :
    StartsConstruct (text.dropWhile isTextChar) := by
  intro c isFirst
  have noText := List.head?_dropWhile_not isTextChar text
  rw [Option.mem_def.mp isFirst] at noText
  exact noText

/-- Where nothing is open, nothing is open in the draft that is alike. -/
theorem opened_eq_nil_of_alike {other : Draft} (alike : Alike options draft other)
    (isOpen : draft.opened = []) : other.opened = [] := by
  have same : other.opened.map Opened.outline =
      (draft.opened.map Opened.outline).map (Outline.renamed options) :=
    congrArg Summary.opened alike.summary
  rw [isOpen] at same
  exact List.map_eq_nil_iff.mp same

/-- Renaming does not change which characters are text. -/
theorem steady_isTextChar : Steady isTextChar := rfl

/-- Reading text can be replayed. -/
theorem readText_replays {text rest : Text} (isText : ∀ c ∈ text, isTextChar c = true)
    (nonempty : text ≠ []) (starts : StartsConstruct rest)
    (split : draft.cursor.rest = text ++ rest) :
    Replays options exchange draft (draft.readText text rest) := by
  have goesOn : (draft.readText text rest).cursor.rest = rest := by
    rw [readText, cursor_add, cursor_moveTo]
    rfl
  refine ⟨text, text, .of_passes (readText_passes split) text, ?_, ?_⟩
  · rw [goesOn, split]
  · intro other out rest' alike split' renamed ahead
    have isText' : ∀ d ∈ out, isTextChar d = true :=
      renamed.twins.forall_mem fun c member d twin => by
        rw [twin.test_eq steady_isTextChar, isText c member]
    have nonempty' : out ≠ [] := mt renamed.twins.eq_nil_iff.mp nonempty
    obtain ⟨isRest, alike'⟩ := readText_alike alike text rest out rest'
    refine ⟨?_, _, step_of_text isText' nonempty' (ahead.starts ?_) split', isRest, alike'⟩
    rotate_left
    · rw [goesOn]
      exact starts
    rw [split]
    cases text with
    | nil => exact absurd rfl nonempty
    | cons c text => exact .of_isTextChar (isText c List.mem_cons_self)

/-- An element is not closed by the end of the source. -/
theorem closeElement_faults_ne_nil {entry : OpenElement}
    (ended : draft.cursor.token.kind = .endOfFile) : (draft.closeElement entry outer).faults ≠ [] := by
  have noSibling : draft.atSibling = false := by
    rw [atSibling, ended]
    rfl
  have noOuter : draft.atOuterClosing = false := by
    rw [atOuterClosing, ended]
    rfl
  have notClosing : ¬ draft.cursor.token.kind = .closingOpen := by
    rw [ended]
    exact nofun
  simp only [closeElement, noSibling, noOuter, Bool.or_self, Bool.false_eq_true, ↓reduceIte,
    closingTag, notClosing, faults_leave, faults_note]
  exact List.cons_ne_nil _ _

/-- A block that is given up is a fault. -/
theorem abandonBlock_faults_ne_nil {entry : OpenBlock} :
    (draft.abandonBlock entry outer).faults ≠ [] := by
  rw [abandonBlock, faults_leave, faults_note]
  exact List.cons_ne_nil _ _

/-- The end of an element can be replayed. -/
theorem closeElement_replays {entry : OpenElement} (starts : StartsConstruct draft.cursor.rest)
    (isOpen : draft.opened = .element entry :: outer)
    (ends : draft.cursor.token.kind = .endOfFile ∨ draft.cursor.token.kind = .closingOpen ∨
      draft.atSibling = true)
    (clean : (draft.closeElement entry outer).faults = [])
    (apart : Apart options (· ∈ draft.openNames)) :
    Replays options exchange draft (draft.closeElement entry outer) := by
  have nonempty := rest_ne_nil fun ended => closeElement_faults_ne_nil ended clean
  have closes := ends.resolve_left fun ended => closeElement_faults_ne_nil ended clean
  obtain ⟨taken, split, replay⟩ :=
    @closeElement_replay options draft entry outer isOpen starts nonempty apart clean
  refine ⟨taken, taken, .of_passes (closeElement_passes isOpen) taken, split,
    fun other out rest' alike split' renamed ahead => ?_⟩
  obtain ⟨ahead', entry', outer', isOpen', isRest, alike'⟩ :=
    replay other out rest' alike split' renamed ahead
  refine ⟨ahead', _, step_of_close (ahead'.starts starts) isOpen' ?_, isRest, alike'⟩
  rw [atSibling_alike alike ahead' nonempty starts]
  exact .inr (closes.imp_left (ahead'.kind nonempty starts _ _).trans)

/-- A node can be replayed where the step in every draft like it is to read one. -/
theorem readNode_replays (starts : StartsConstruct draft.cursor.rest)
    (more : draft.cursor.token.kind ≠ .endOfFile) (clean : draft.readNode.faults = [])
    (sound : exchange.Sound draft.readNode.usages)
    (steps : ∀ other : Draft, Alike options draft other →
      Ahead options draft.cursor.rest other.cursor.rest → other.step = some other.readNode) :
    Replays options exchange draft draft.readNode := by
  obtain ⟨taken, edited, image, turn⟩ := readNode_turn options starts more sound clean
  exact ⟨taken, edited, image, .of_turn turn steps⟩

/-- **Every step.** What is read in one step without faults is read in one step of what it is
renamed to, once the exchange has been made. -/
theorem step_replays {next : Draft} (stepped : draft.step = some next) (clean : next.faults = [])
    (kept : draft.Kept) (apart : Apart options (· ∈ draft.openNames))
    (sound : exchange.Sound next.usages)
    (opened : exchange.rules ≠ [] → ∀ style ∈ next.style,
      style.FollowsOpenTag draft.cursor.offset draft.cursor.rest) :
    Replays options exchange draft next := by
  have kind {other : Draft} (starts : StartsConstruct draft.cursor.rest)
      (more : draft.cursor.token.kind ≠ .endOfFile)
      (ahead : Ahead options draft.cursor.rest other.cursor.rest) :
      other.cursor.token.kind = draft.cursor.token.kind :=
    ahead.kind (rest_ne_nil more) starts _ _
  -- The first token and what is open settle the step, and both are alike in the two documents.
  cases step_eq_some_iff.mp stepped with
  | text someText =>
    exact readText_replays (fun c member => List.mem_takeWhile_imp member) someText
      (startsConstruct_dropWhile draft.cursor.rest) List.takeWhile_append_dropWhile.symm
  | top noText isOpen more =>
    have starts := startsConstruct_iff.mpr noText
    obtain ⟨taken, edited, image, turn⟩ := readTop_turn options starts more sound opened clean
    refine ⟨taken, edited, image, .of_turn turn fun other alike ahead => ?_⟩
    exact step_of_top (ahead.starts starts) (opened_eq_nil_of_alike alike isOpen)
      (kind starts more ahead ▸ more)
  | close noText isOpen ends =>
    exact closeElement_replays (startsConstruct_iff.mpr noText) isOpen ends clean apart
  | child noText isOpen more notClosing noSibling =>
    have starts := startsConstruct_iff.mpr noText
    refine readNode_replays starts more clean sound fun other alike ahead => ?_
    obtain ⟨opened', outer', isOpen', same, -⟩ := exists_of_opened alike isOpen
    obtain ⟨entry', rfl, -⟩ := exists_of_outline same
    refine step_of_child (ahead.starts starts) isOpen' (kind starts more ahead ▸ more)
      (kind starts more ahead ▸ notClosing) ?_
    rwa [atSibling_alike alike ahead (rest_ne_nil more) starts]
  | abandon => exact absurd clean abandonBlock_faults_ne_nil
  | @branch entry outer noText isOpen opens =>
    have starts := startsConstruct_iff.mpr noText
    have more : draft.cursor.token.kind ≠ .endOfFile := opens ▸ nofun
    obtain ⟨taken, split, replay⟩ := @continueBlock_replay options draft entry outer isOpen opens clean
    refine ⟨taken, taken, .of_passes (continueBlock_passes isOpen kept clean) taken, split,
      fun other out rest' alike split' renamed _ => ?_⟩
    obtain ⟨ahead, entry', outer', isOpen', isRest, alike'⟩ :=
      replay other out rest' alike split' renamed
    exact ⟨ahead, _, step_of_continue (ahead.starts starts) isOpen'
      ((kind starts more ahead).trans opens), isRest, alike'⟩
  | @finish entry outer noText isOpen opens =>
    have starts := startsConstruct_iff.mpr noText
    have more : draft.cursor.token.kind ≠ .endOfFile := opens ▸ nofun
    obtain ⟨taken, split, replay⟩ := @endBlock_replay options draft entry outer isOpen opens clean
    refine ⟨taken, taken, .of_passes (endBlock_passes isOpen kept) taken, split,
      fun other out rest' alike split' renamed _ => ?_⟩
    obtain ⟨ahead, entry', outer', isOpen', isRest, alike'⟩ :=
      replay other out rest' alike split' renamed
    exact ⟨ahead, _, step_of_end (ahead.starts starts) isOpen'
      ((kind starts more ahead).trans opens), isRest, alike'⟩
  | inner noText isOpen more notClosing notNext notEnd =>
    have starts := startsConstruct_iff.mpr noText
    refine readNode_replays starts more clean sound fun other alike ahead => ?_
    obtain ⟨opened', outer', isOpen', same, -⟩ := exists_of_opened alike isOpen
    obtain ⟨entry', rfl, -⟩ := exists_block_of_outline same
    refine step_of_inner (ahead.starts starts) isOpen' ?_
    rw [kind starts more ahead]
    exact ⟨more, notClosing, notNext, notEnd⟩

end Step

end Draft

end ClassHoist.Markup
