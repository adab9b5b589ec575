import ClassHoist.Proofs.Contents
import ClassHoist.Proofs.Outlines
import ClassHoist.Proofs.Reading

/-! # Reading a construct in a renamed document

Whether a draft will have faults depends on what is open and on which scripts and styles there have
been (`Summary`), and on the text to come. A construct that is read without faults is read without
faults in the renamed document, and the summaries stay the renamings of each other (`Carries`).
-/

namespace ClassHoist.Markup

variable {options : Options}

/-- What of a draft settles whether there will be faults, the text to be read apart: what is open,
innermost first, and whether the scripts of either kind and the style have been read. -/
structure Summary where
  opened : List Outline
  moduleScript : Bool
  instanceScript : Bool
  style : Bool

/-- What is open is renamed. -/
def Summary.renamed (options : Options) (summary : Summary) : Summary :=
  { summary with opened := summary.opened.map (Outline.renamed options) }

namespace Draft

/-- What of the draft settles whether there will be faults. -/
def summary (draft : Draft) : Summary :=
  ⟨draft.opened.map Opened.outline, draft.moduleScript.isSome, draft.instanceScript.isSome,
    draft.style.isSome⟩

@[simp] theorem summary_moveTo (draft : Draft) (cursor : Cursor) :
    (draft.moveTo cursor).summary = draft.summary := rfl

@[simp] theorem summary_note (draft : Draft) (faults : List Fault) :
    (draft.note faults).summary = draft.summary := rfl

@[simp] theorem summary_enter (draft : Draft) (opened : Opened) :
    (draft.enter opened).summary =
      { draft.summary with opened := opened.outline :: draft.summary.opened } := rfl

@[simp] theorem summary_add (draft : Draft) (node : Node) :
    (draft.add node).summary = draft.summary := by
  have kept (opened : Opened) : (opened.add node).outline = opened.outline := by
    cases opened <;> rfl
  unfold add
  split
  case h_1 => rfl
  case h_2 innermost outer isOpen =>
    simp only [summary, isOpen, List.map_cons, kept]

@[simp] theorem summary_leave (draft : Draft) (outer : List Opened) (node : Node) :
    (draft.leave outer node).summary =
      { draft.summary with opened := outer.map Opened.outline } := by
  rw [leave, summary_add]
  rfl

end Draft

/-- The second draft is one of the renamed document where the first is one of the document, as far
as faults are concerned. -/
structure Alike (options : Options) (draft other : Draft) : Prop where
  clean : other.faults = []
  summary : other.summary = draft.summary.renamed options

/-- The text does not start with a run of text. -/
def StartsConstruct (rest : Text) : Prop := ∀ c ∈ rest.head?, isTextChar c = false

theorem startsConstruct_nil : StartsConstruct [] := fun c member =>
  absurd member (Option.not_mem_none c)

theorem startsConstruct_cons {c : Char} (special : isTextChar c = false) (rest : Text) :
    StartsConstruct (c :: rest) :=
  fun _ isHead => Option.some.inj isHead ▸ special

/-- A text starts with a construct exactly if no run of text is at its start. -/
theorem startsConstruct_iff {rest : Text} :
    StartsConstruct rest ↔ rest.takeWhile isTextChar = [] := by
  cases rest with
  | nil => exact ⟨fun _ => rfl, fun _ c member => absurd member (Option.not_mem_none c)⟩
  | cons c rest =>
    constructor
    · intro starts
      rw [List.takeWhile_cons_of_neg (by rw [starts c rfl]; exact Bool.false_ne_true)]
    · intro noText d isFirst
      obtain rfl := Option.some.inj isFirst
      rw [Bool.eq_false_iff]
      intro isText
      rw [List.takeWhile_cons_of_pos isText] at noText
      cases noText

/-- A construct starts with its first token. -/
theorem StartsConstruct.begins {input symbol : Text} {kind : TokenKind} {offset : Nat}
    (starts : StartsConstruct input) (isKind : (Cursor.token ⟨offset, input⟩).kind = kind)
    (isSymbol : kind.symbol? = some symbol) :
    ∃ more, input = symbol ++ more ∧ Begins kind [] symbol more := by
  obtain ⟨kind', blanks, text, more, rfl, begins⟩ := exists_begins input
  rw [begins.token] at isKind
  obtain rfl : kind' = kind := isKind
  obtain rfl := begins.text_eq isSymbol
  cases blanks with
  | nil => exact ⟨more, rfl, begins⟩
  | cons c blanks =>
    have isBlank := begins.blank c List.mem_cons_self
    rcases isTextChar_eq_false (starts c rfl) with rfl | rfl <;> cases isBlank

/-- Two texts start alike as far as the next step is concerned: unless the first starts with a run
of text, their first tokens are of the same kind, and if these open tags, the tags have the same name
up to renaming. -/
structure Ahead (options : Options) (rest rest' : Text) : Prop where
  starts : StartsConstruct rest → StartsConstruct rest'
  kind : rest ≠ [] → StartsConstruct rest → ∀ offset offset',
    (Cursor.token ⟨offset', rest'⟩).kind = (Cursor.token ⟨offset, rest⟩).kind
  name : rest ≠ [] → StartsConstruct rest → ∀ offset offset',
    (Cursor.token ⟨offset, rest⟩).kind = .tagOpen ∨
        (Cursor.token ⟨offset, rest⟩).kind = .closingOpen →
      Cursor.tagName? ⟨offset', rest'⟩ =
        (Cursor.tagName? ⟨offset, rest⟩).map (renamedName options)

/-- Nothing is asked of what follows a run of text. -/
theorem Ahead.of_isTextChar {c : Char} {rest rest' : Text} (isText : isTextChar c = true) :
    Ahead options (c :: rest) rest' := by
  have impossible : ¬ StartsConstruct (c :: rest) := fun none => by
    rw [none c rfl] at isText
    cases isText
  exact ⟨fun none => absurd none impossible, fun _ none => absurd none impossible,
    fun _ none => absurd none impossible⟩

/-- The name behind a bracket does not depend on the offset. -/
theorem tagName?_offset (input : Text) (offset offset' : Nat) :
    Cursor.tagName? ⟨offset, input⟩ = Cursor.tagName? ⟨offset', input⟩ := by
  obtain ⟨kind, blanks, text, more, rfl, begins⟩ := exists_begins input
  rw [tagName?_eq begins, tagName?_eq begins]

/-- Texts with the same first token start alike, if the same name follows where it opens a tag. -/
theorem Ahead.of_begins {kind : TokenKind} {blanks text more more' : Text}
    (begins : Begins kind blanks text more) (begins' : Begins kind blanks text more')
    (nonempty : text ≠ [])
    (named : kind = .tagOpen ∨ kind = .closingOpen → ∃ offset offset',
      Cursor.tagName? ⟨offset', blanks ++ (text ++ more')⟩ =
        (Cursor.tagName? ⟨offset, blanks ++ (text ++ more)⟩).map (renamedName options)) :
    Ahead options (blanks ++ (text ++ more)) (blanks ++ (text ++ more')) where
  starts none c isHead := by
    refine none c ?_
    cases blanks with
    | cons d blanks => exact isHead
    | nil =>
      cases text with
      | nil => exact absurd rfl nonempty
      | cons d text => exact isHead
  kind _ _ offset offset' := by rw [begins.token, begins'.token]
  name _ _ offset offset' isTag := by
    rw [begins.token] at isTag
    obtain ⟨first, second, same⟩ := named isTag
    rw [tagName?_offset _ offset' second, tagName?_offset _ offset first, same]

/-- The first text is read off a draft; in a draft of the renamed document, whatever the second text
is renamed to is read in its place. -/
structure Turn (options : Options) (read : Draft → Draft) (draft : Draft) (taken edited : Text) :
    Prop where
  split : draft.cursor.rest = taken ++ (read draft).cursor.rest
  replay : ∀ other out rest', Alike options draft other → other.cursor.rest = out ++ rest' →
    Renamed options edited out → Ahead options draft.cursor.rest other.cursor.rest ∧
      (read other).cursor.rest = rest' ∧ Alike options (read draft) (read other)

/-- What is read of a draft is read of a draft of the renamed document in the same way. -/
def Carries (options : Options) (read : Draft → Draft) (draft : Draft) : Prop :=
  ∃ taken, Turn options read draft taken taken

namespace Draft

variable {draft : Draft}

/-- Text is read in both documents, and they stay alike. -/
theorem readText_alike {other : Draft} (alike : Alike options draft other) (text rest out rest' : Text) :
    (other.readText out rest').cursor.rest = rest' ∧
      Alike options (draft.readText text rest) (other.readText out rest') := by
  refine ⟨?_, ?_, ?_⟩
  · rw [readText, cursor_add, cursor_moveTo]
    rfl
  · rw [readText, faults_add, faults_moveTo, alike.clean]
  · rw [readText, summary_add, summary_moveTo, alike.summary, readText, summary_add, summary_moveTo]

/-- A comment is read as far as its end. -/
theorem readComment_eq {blanks data rest : Text}
    (blank : ∀ c ∈ blanks, Text.isSeparator c = true)
    (quiet : Quiet (Text.startsWith ['-', '-', '>']) data ['-', '-', '>'])
    (split : draft.cursor.rest =
      blanks ++ (['<', '!', '-', '-'] ++ (data ++ (['-', '-', '>'] ++ rest)))) :
    draft.readComment.cursor.rest = rest ∧ draft.readComment.faults = draft.faults ∧
      draft.readComment.summary = draft.summary := by
  have begins : Begins .commentOpen blanks ['<', '!', '-', '-'] (data ++ (['-', '-', '>'] ++ rest)) :=
    ⟨blank, fun c isHead => Option.some.inj isHead ▸ rfl, rfl⟩
  have ends : Text.spanUntil (Text.startsWith ['-', '-', '>']) (data ++ (['-', '-', '>'] ++ rest)) =
      (data, ['-', '-', '>'] ++ rest) := by
    refine spanUntil_of_quiet ?_ (.inr (startsWith_append _ _))
    exact Quiet.replace (by decide) (by decide)
      (show Quiet _ _ (['-', '-', '>'] ++ []) from quiet) (.refl _) (.refl _) (.inl (Nat.le_refl _)) rest
  obtain ⟨⟨offset, input⟩, opened, nodes, moduleScript, instanceScript, style, faults⟩ := draft
  simp only at split
  subst split
  unfold readComment
  simp only [begins.bump, begins.token, ends]
  simp only [List.cons_append, List.nil_append, cursor_add, cursor_moveTo, faults_add,
    faults_moveTo, summary_add, summary_moveTo, Cursor.past, and_self]

/-- A comment is read in the renamed document in the same way. -/
theorem readComment_carries (opens : draft.cursor.token.kind = .commentOpen)
    (clean : draft.readComment.faults = []) : Carries options readComment draft := by
  obtain ⟨blanks, data, rest, blank, quiet, split⟩ : ∃ blanks data rest,
      (∀ c ∈ blanks, Text.isSeparator c = true) ∧
        Quiet (Text.startsWith ['-', '-', '>']) data ['-', '-', '>'] ∧ draft.cursor.rest =
          blanks ++ (['<', '!', '-', '-'] ++ (data ++ (['-', '-', '>'] ++ rest))) := by
    obtain ⟨⟨offset, input⟩, opened, nodes, moduleScript, instanceScript, style, faults⟩ := draft
    obtain ⟨kind, blanks, text, more, rfl, begins⟩ := exists_begins input
    simp only at opens
    rw [begins.token] at opens
    obtain rfl := opens
    obtain rfl := begins.text_eq rfl
    obtain ⟨quiet, -⟩ := quiet_spanUntil (Text.startsWith ['-', '-', '>']) more
    have joined := Text.spanUntil_append (Text.startsWith ['-', '-', '>']) more
    unfold readComment at clean
    simp only [begins.bump, begins.token] at clean
    split at clean
    case h_2 => exact absurd clean (faults_note_ne_nil _ _ _)
    case h_1 after ends =>
      rw [ends] at quiet joined
      refine ⟨blanks, (Text.spanUntil (Text.startsWith ['-', '-', '>']) more).1, after,
        begins.blank, ?_, ?_⟩
      · exact Quiet.replace (by decide) (by decide)
          (show Quiet _ _ (['-', '-', '>'] ++ after) from quiet) (.refl _) (.refl _) (.inl (Nat.le_refl _)) []
      · exact congrArg (fun text => blanks ++ (['<', '!', '-', '-'] ++ text)) joined.symm
  obtain ⟨isRest, noFaults, same⟩ := readComment_eq blank quiet split
  have begins {data' rest' : Text} : Begins .commentOpen blanks ['<', '!', '-', '-']
      (data' ++ (['-', '-', '>'] ++ rest')) :=
    ⟨blank, fun c isHead => Option.some.inj isHead ▸ rfl, rfl⟩
  refine ⟨blanks ++ (['<', '!', '-', '-'] ++ (data ++ ['-', '-', '>'])), ⟨?_,
    fun other out rest' alike split' renamed => ?_⟩⟩
  · rw [split, isRest]
    simp only [List.append_assoc]
  · obtain ⟨data', rfl, datas⟩ := renamed.twins.enclosed blank (by decide) (by decide)
    simp only [List.append_assoc] at split'
    have quiet' : Quiet (Text.startsWith ['-', '-', '>']) data' ['-', '-', '>'] :=
      Quiet.replace (by decide) (by decide)
        (show Quiet _ _ (['-', '-', '>'] ++ []) from quiet) datas (.refl _) (.inl (Nat.le_refl _)) []
    obtain ⟨isRest', noFaults', same'⟩ := readComment_eq blank quiet' split'
    refine ⟨?_, isRest', noFaults'.trans alike.clean, by rw [same', alike.summary, same]⟩
    rw [split, split']
    exact .of_begins begins begins (List.cons_ne_nil _ _) (fun isTag => nomatch isTag)

end Draft

/-- The kinds of token that open a construct in braces. -/
def TokenKind.OpensBraces (kind : TokenKind) : Prop :=
  kind = .braceOpen ∨ kind = .blockOpen ∨ kind = .blockEnd ∨ kind = .blockNext ∨ kind = .specialOpen

/-- What opens a construct in braces is a brace and at most one sign, and no other sign follows. -/
theorem TokenKind.OpensBraces.symbol {kind : TokenKind} (opens : kind.OpensBraces) :
    ∃ signs, kind.symbol? = some ('\x7b' :: signs) ∧ (signs = [] ∨ ∃ c, signs = [c]) ∧
      (kind.isClosed = true ∨ kind = .braceOpen ∧ signs = []) := by
  rcases opens with rfl | rfl | rfl | rfl | rfl
  · exact ⟨[], rfl, .inl rfl, .inr ⟨rfl, rfl⟩⟩
  all_goals exact ⟨_, rfl, .inr ⟨_, rfl⟩, .inl rfl⟩

/-- **A renamed construct in braces.** -/
theorem Cursor.braced_replace {cursor : Cursor} {braced : Braced}
    (found : cursor.braced? = some braced) (opens : cursor.token.kind.OpensBraces) :
    ∃ taken, cursor.rest = taken ++ braced.next.rest ∧
      ∀ (options : Options) (other : Cursor) (out rest' : Text), other.rest = out ++ rest' →
        Renamed options taken out → Ahead options cursor.rest other.rest ∧
          ∃ braced', other.braced? = some braced' ∧ braced'.next.rest = rest' ∧
            Twins braced.inner braced'.inner := by
  obtain ⟨offset, input⟩ := cursor
  obtain ⟨kind, blanks, text, more, rfl, begins⟩ := exists_begins input
  rw [begins.token] at opens
  simp only at opens ⊢
  obtain ⟨signs, isSymbol, short, closes⟩ := opens.symbol
  obtain rfl := begins.text_eq isSymbol
  obtain ⟨rfl, closed⟩ := begins.eq_of_braced? found
  refine ⟨blanks ++ ('\x7b' :: signs ++ (braced.inner ++ ['\x7d'])), ?_, ?_⟩
  · simp only [List.append_assoc]
  rintro options ⟨offset', input'⟩ out rest' rfl renamed
  obtain ⟨b₁, out₁, rfl, spaces, renamed₁⟩ := renamed.append
  obtain rfl := Twins.eq_of_blank begins.blank spaces.twins
  have behind : out₁ = '\x7b' :: underscored options.names [] (signs ++ (braced.inner ++ ['\x7d'])) :=
    Renamed.behind renamed₁ (by rfl) (by decide)
  obtain ⟨inner', rfl, twins⟩ : ∃ inner',
      out₁ = '\x7b' :: signs ++ (inner' ++ ['\x7d']) ∧ Twins braced.inner inner' := by
    have close (seen : Text) : underscored options.names seen ['\x7d'] = ['\x7d'] :=
      underscored_of_no_colon _ _ (by decide)
    rcases short with rfl | ⟨c, rfl⟩
    · refine ⟨_, ?_, Renamed.twins (show Renamed options _ _ from ⟨[], rfl⟩)⟩
      rw [behind, List.nil_append, underscored_append, close]
      rfl
    · refine ⟨_, ?_, Renamed.twins (show Renamed options _ _ from ⟨[c], rfl⟩)⟩
      rw [behind, List.singleton_append, underscored_nil_cons, underscored_append, close]
      rfl
  have begins' : Begins kind b₁ ('\x7b' :: signs) (inner' ++ (['\x7d'] ++ rest')) := by
    rcases closes with isClosed | ⟨rfl, rfl⟩
    · exact begins.replace isClosed _
    · exact ((codeText_of_begins begins closed).twins twins).begins begins.blank rest'
  obtain ⟨braced', found', inner, isRest⟩ :=
    begins'.braced? (Expression.closing?_twins closed twins []) offset'
  simp only [List.append_assoc]
  refine ⟨?_, braced', found', isRest, inner ▸ twins⟩
  refine .of_begins begins begins' (List.cons_ne_nil _ _) fun isTag => ?_
  rcases isTag with rfl | rfl <;> cases isSymbol

namespace Draft

variable {draft : Draft}

/-- A construct in braces is read in the renamed document in the same way, if what it is used for
is. -/
theorem readBraced_carries {use : Braced → Draft → Draft}
    (opens : draft.cursor.token.kind.OpensBraces) (clean : (draft.readBraced use).faults = [])
    (stays : ∀ braced moved, (use braced moved).cursor = moved.cursor)
    (same : ∀ (braced braced' : Braced) (moved other : Draft), Twins braced.inner braced'.inner →
      Alike options moved other → (use braced moved).faults = [] →
        Alike options (use braced moved) (use braced' other)) :
    Carries options (readBraced · use) draft := by
  unfold readBraced at clean
  split at clean
  case h_1 => exact absurd clean (faults_note_ne_nil _ _ _)
  case h_2 braced found =>
    obtain ⟨taken, split, replaced⟩ := Cursor.braced_replace found opens
    refine ⟨taken, ⟨?_, fun other out rest' alike split' renamed => ?_⟩⟩
    · simp only [readBraced, found]
      rw [split, stays, cursor_moveTo]
    · obtain ⟨ahead, braced', found', isRest, inners⟩ :=
        replaced options other.cursor out rest' split' renamed
      simp only [readBraced, found, found']
      refine ⟨ahead, by rw [stays, cursor_moveTo, isRest], same braced braced' _ _ inners ?_ clean⟩
      exact ⟨alike.clean, alike.summary⟩

/-- A block is opened in the renamed document in the same way. -/
theorem readBlock_carries (opens : draft.cursor.token.kind = .blockOpen)
    (clean : draft.readBlock.faults = []) : Carries options readBlock draft := by
  refine readBraced_carries (.inr (.inl opens)) clean (fun braced moved => ?_) ?_
  · simp only
    split <;> rfl
  · intro braced braced' moved other inners alike noFaults
    simp only [Braced.keyword_eq inners] at noFaults ⊢
    split at noFaults
    case h_1 => exact absurd noFaults (faults_note_ne_nil _ _ _)
    case h_2 kind isKind =>
      refine ⟨alike.clean, ?_⟩
      simp only [summary_enter, alike.summary]
      rfl

/-- A special tag is read in the renamed document in the same way. -/
theorem readSpecialTag_carries (opens : draft.cursor.token.kind = .specialOpen)
    (clean : draft.readSpecialTag.faults = []) : Carries options readSpecialTag draft := by
  refine readBraced_carries (.inr (.inr (.inr (.inr opens)))) clean (fun braced moved => ?_) ?_
  · simp only
    split
    · rfl
    · exact cursor_add _ _
  · intro braced braced' moved other inners alike noFaults
    simp only [Braced.keyword_eq inners] at noFaults ⊢
    split at noFaults
    case h_1 => exact absurd noFaults (faults_note_ne_nil _ _ _)
    case h_2 kind isKind =>
      exact ⟨by rw [faults_add, alike.clean], by rw [summary_add, summary_add, alike.summary]⟩

/-- An expression is read in the renamed document in the same way. -/
theorem readExpression_carries (opens : draft.cursor.token.kind = .braceOpen)
    (clean : draft.readExpression.faults = []) : Carries options readExpression draft := by
  refine readBraced_carries (.inl opens) clean (fun braced moved => cursor_add _ _) ?_
  intro braced braced' moved other inners alike noFaults
  exact ⟨by rw [faults_add, alike.clean], by rw [summary_add, summary_add, alike.summary]⟩

end Draft

end ClassHoist.Markup
