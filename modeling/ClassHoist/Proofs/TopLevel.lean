import ClassHoist.Proofs.Elements
import ClassHoist.Proofs.ReadRun

/-! # Scripts and styles at top level in a renamed document

A script at top level that is read without faults is read without faults after renaming, and counts
as one of the same kind (`Draft.readScript_carries`). So is a style, with rules put in where its
content starts (`Draft.readStyle_turn`).
-/

namespace ClassHoist.Markup

variable {options : Options} {exchange : Exchange} {more : Text}

/-- The second text is the first, which starts at the offset, with the rules put in where the content
of the style starts, if there are any. -/
def Exchange.Inserts (exchange : Exchange) (offset : Nat) (style : Style) (taken edited : Text) :
    Prop :=
  (exchange.rules = [] ∧ edited = taken) ∨ ∃ before after, taken = before ++ after ∧
    ['>'] <:+ before ∧ '<' ∈ after ∧ '/' ∈ after ∧
      style.contentSpan.start = offset + Text.bytes before ∧
        edited = before ++ (exchange.rules ++ after)

/-- The content of a style that starts behind the first part of a text does not follow the bracket of
a tag that closes itself. -/
def Style.FollowsOpenTag (style : Style) (offset : Nat) (text : Text) : Prop :=
  ∀ before after, text = before ++ after → style.contentSpan.start = offset + Text.bytes before →
    ¬ ['/', '>'] <:+ before

/-- A script or style at top level is read wherever what it is renamed to stands. -/
theorem rawElement_renamed {offset : Nat} {rest : Text} {name : String} {raw : RawElement}
    (begins : Begins .tagOpen [] ['<'] more)
    (named : Cursor.tagName? ⟨offset, '<' :: more⟩ = some name) (plain : PlainName name)
    (read : (rawElement ⟨offset, '<' :: more⟩).value = some raw)
    (clean : (rawElement ⟨offset, '<' :: more⟩).Clean rest) :
    ∃ taken, '<' :: more = taken ++ rest ∧ ∀ (options : Options) (out rest' : Text),
      Renamed options taken out → ∃ more', out ++ rest' = '<' :: more' ∧
        Begins .tagOpen [] ['<'] more' ∧ ∀ offset',
          Cursor.tagName? ⟨offset', '<' :: more'⟩ = some name ∧
            (rawElement ⟨offset', '<' :: more'⟩).Clean rest' ∧
              ∃ raw', (rawElement ⟨offset', '<' :: more'⟩).value = some raw' ∧
                raw'.attributes.any Attribute.isShared = raw.attributes.any Attribute.isShared := by
  have plainTag (tag : OpenTag) (isTag : (openTag ⟨offset, '<' :: more⟩).value = some tag) :
      PlainName tag.name :=
    Option.some.inj (named.symm.trans (openTag_name isTag)) ▸ plain
  obtain ⟨taken, rfl, replaced⟩ := rawElement_replace begins plainTag read clean
  refine ⟨'<' :: taken, rfl, fun options out rest' renamed => ?_⟩
  obtain rfl := renamed.behind (by rfl) (by decide)
  refine ⟨_, rfl, (replaced options rest' 0).1, fun offset' => ?_⟩
  obtain ⟨-, named', clean', found⟩ := replaced options rest' offset'
  exact ⟨named'.trans named, clean', found⟩

/-- Tags of the same name start alike, if renaming leaves the name alone. -/
theorem Ahead.of_tagName? {offset offset' : Nat} {more' : Text} {name : String}
    (plain : PlainName name) (begins : Begins .tagOpen [] ['<'] more)
    (begins' : Begins .tagOpen [] ['<'] more')
    (named : Cursor.tagName? ⟨offset, '<' :: more⟩ = some name)
    (named' : Cursor.tagName? ⟨offset', '<' :: more'⟩ = some name) :
    Ahead options ('<' :: more) ('<' :: more') := by
  refine Ahead.of_begins begins begins' (List.cons_ne_nil _ _) fun _ => ⟨offset, offset', ?_⟩
  show Cursor.tagName? ⟨offset', '<' :: more'⟩ = (Cursor.tagName? ⟨offset, '<' :: more⟩).map _
  rw [named, named', Option.map_some, renamedName_of_plain plain]

/-- A script is shared by all instances exactly if one of its attributes says so. -/
theorem context_ofRaw (raw : RawElement) :
    (Script.ofRaw raw).context =
      if raw.attributes.any Attribute.isShared then .perModule else .perInstance := rfl

namespace Draft

variable {draft : Draft}

/-- Read a script or style at top level, and keep it. -/
def readRaw (draft : Draft) (keep : RawElement → Span → Draft → Draft) : Draft :=
  let reading := rawElement draft.cursor
  let next := (draft.moveTo reading.next).note reading.faults
  match reading.value with
  | none => next
  | some raw => keep raw draft.cursor.token.span next

/-- A script is read as a raw element and kept. -/
theorem readScript_eq (draft : Draft) : draft.readScript = draft.readRaw keepScript := rfl

/-- A style is read as a raw element and kept. -/
theorem readStyle_eq (draft : Draft) : draft.readStyle = draft.readRaw keepStyle := rfl

theorem cursor_keepScript (raw : RawElement) (span : Span) (draft : Draft) :
    (keepScript raw span draft).cursor = draft.cursor := by
  unfold keepScript
  simp only
  split <;> split <;> rfl

theorem cursor_keepStyle (raw : RawElement) (span : Span) (draft : Draft) :
    (keepStyle raw span draft).cursor = draft.cursor := by
  unfold keepStyle
  split <;> rfl

/-- Keeping a script takes back no faults. -/
theorem keepScript_faults (raw : RawElement) (span : Span) (draft : Draft) :
    draft.faults <:+ (keepScript raw span draft).faults := by
  unfold keepScript
  simp only
  split
  all_goals
    split
    · exact List.suffix_append _ _
    · exact List.suffix_refl _

/-- Keeping a style takes back no faults. -/
theorem keepStyle_faults (raw : RawElement) (span : Span) (draft : Draft) :
    draft.faults <:+ (keepStyle raw span draft).faults := by
  unfold keepStyle
  split
  · exact List.suffix_append _ _
  · exact List.suffix_refl _

/-- Scripts that are both shared or both not leave drafts alike. -/
theorem keepScript_alike {other : Draft} {raw raw' : RawElement} {span span' : Span}
    (shared : raw'.attributes.any Attribute.isShared = raw.attributes.any Attribute.isShared)
    (alike : Alike options draft other) (clean : (keepScript raw span draft).faults = []) :
    Alike options (keepScript raw span draft) (keepScript raw' span' other) := by
  have noFaults := alike.clean
  have summary := alike.summary
  have modules : other.moduleScript.isSome = draft.moduleScript.isSome :=
    congrArg Summary.moduleScript summary
  have instances : other.instanceScript.isSome = draft.instanceScript.isSome :=
    congrArg Summary.instanceScript summary
  have same : (Script.ofRaw raw').context = (Script.ofRaw raw).context := by
    rw [context_ofRaw, context_ofRaw, shared]
  unfold keepScript at clean ⊢
  simp only [same] at clean ⊢
  generalize (Script.ofRaw raw).context = context at clean ⊢
  cases context with
  | perModule =>
    simp only [modules] at clean ⊢
    split at clean
    case isTrue => exact absurd clean (faults_note_ne_nil _ _ _)
    case isFalse first =>
      rw [if_neg first, if_neg first]
      refine ⟨noFaults, ?_⟩
      exact congrArg (fun summary => { summary with moduleScript := true }) summary
  | perInstance =>
    simp only [instances] at clean ⊢
    split at clean
    case isTrue => exact absurd clean (faults_note_ne_nil _ _ _)
    case isFalse first =>
      rw [if_neg first, if_neg first]
      refine ⟨noFaults, ?_⟩
      exact congrArg (fun summary => { summary with instanceScript := true }) summary

/-- Styles leave drafts alike. -/
theorem keepStyle_alike {other : Draft} {raw raw' : RawElement} {span span' : Span}
    (alike : Alike options draft other) (clean : (keepStyle raw span draft).faults = []) :
    Alike options (keepStyle raw span draft) (keepStyle raw' span' other) := by
  have noFaults := alike.clean
  have summary := alike.summary
  have styles : other.style.isSome = draft.style.isSome := congrArg Summary.style summary
  unfold keepStyle at clean ⊢
  simp only [styles] at clean ⊢
  split at clean
  case isTrue => exact absurd clean (faults_note_ne_nil _ _ _)
  case isFalse first =>
    rw [if_neg first, if_neg first]
    refine ⟨noFaults, ?_⟩
    exact congrArg (fun summary => { summary with style := true }) summary

variable {keep : RawElement → Span → Draft → Draft}

/-- A script or style that leaves no fault has been read without one. -/
theorem exists_of_readRaw_clean
    (grows : ∀ raw span moved, moved.faults <:+ (keep raw span moved).faults)
    (clean : (draft.readRaw keep).faults = []) :
    ∃ raw, (rawElement draft.cursor).value = some raw ∧ (rawElement draft.cursor).faults = [] ∧
      draft.readRaw keep = keep raw draft.cursor.token.span
        ((draft.moveTo (rawElement draft.cursor).next).note []) := by
  have noFaults : (rawElement draft.cursor).faults = [] := by
    have grown : ((draft.moveTo (rawElement draft.cursor).next).note
        (rawElement draft.cursor).faults).faults <:+ (draft.readRaw keep).faults := by
      unfold readRaw
      simp only
      split
      · exact List.suffix_refl _
      · exact grows _ _ _
    rw [clean, List.suffix_nil, faults_note_eq_nil] at grown
    exact grown.1
  obtain ⟨raw, read⟩ := exists_of_rawElement_clean noFaults
  refine ⟨raw, read, noFaults, ?_⟩
  unfold readRaw
  simp only [read, noFaults]

/-- If elements are read alike from what the second text is renamed to, so are the scripts or styles
that they hold. -/
theorem readRaw_turn {same : RawElement → Prop} {taken edited more : Text}
    {raw : RawElement} {name : String} (split : draft.cursor.rest = '<' :: more)
    (begins : Begins .tagOpen [] ['<'] more) (named : draft.cursor.tagName? = some name)
    (plain : PlainName name)
    (stays : ∀ raw span moved, (keep raw span moved).cursor = moved.cursor)
    (whole : draft.readRaw keep = keep raw draft.cursor.token.span
      ((draft.moveTo (rawElement draft.cursor).next).note []))
    (tagSplit : '<' :: more = taken ++ (rawElement draft.cursor).next.rest)
    (keeps : ∀ raw' span' other, same raw' →
      Alike options ((draft.moveTo (rawElement draft.cursor).next).note []) other →
        Alike options (draft.readRaw keep) (keep raw' span' other))
    (replaced : ∀ out rest', Renamed options edited out → ∃ more', out ++ rest' = '<' :: more' ∧
      Begins .tagOpen [] ['<'] more' ∧ ∀ offset',
        Cursor.tagName? ⟨offset', '<' :: more'⟩ = some name ∧
          (rawElement ⟨offset', '<' :: more'⟩).Clean rest' ∧
            ∃ raw', (rawElement ⟨offset', '<' :: more'⟩).value = some raw' ∧ same raw') :
    Turn options (readRaw · keep) draft taken edited := by
  refine ⟨?_, fun other out rest' alike split' renamed => ?_⟩
  · rw [whole, stays, split, tagSplit]
    rfl
  · obtain ⟨more', starts, begins', replay⟩ := replaced out rest' renamed
    obtain ⟨named', ⟨noFaults', goesOn'⟩, raw', read', related⟩ := replay other.cursor.offset
    have place' : other.cursor = ⟨other.cursor.offset, '<' :: more'⟩ := by rw [← starts, ← split']
    rw [← place'] at noFaults' goesOn' read'
    have whole' : other.readRaw keep = keep raw' other.cursor.token.span
        ((other.moveTo (rawElement other.cursor).next).note []) := by
      unfold readRaw
      simp only [read', noFaults']
    refine ⟨?_, ?_, ?_⟩
    · rw [split, split', starts]
      have place : draft.cursor = ⟨draft.cursor.offset, '<' :: more⟩ := by rw [← split]
      exact .of_tagName? plain begins begins' (place ▸ named) named'
    · rw [whole', stays]
      exact goesOn'
    · rw [whole']
      exact keeps raw' _ _ related ⟨alike.clean, alike.summary⟩

variable (options) in
/-- A script is read wherever what it is renamed to stands. -/
theorem readScript_carries {more : Text} (split : draft.cursor.rest = '<' :: more)
    (begins : Begins .tagOpen [] ['<'] more) (named : draft.cursor.tagName? = some "script")
    (clean : draft.readScript.faults = []) : Carries options readScript draft := by
  rw [readScript_eq] at clean
  obtain ⟨raw, read, noFaults, whole⟩ := exists_of_readRaw_clean keepScript_faults clean
  have place : draft.cursor = ⟨draft.cursor.offset, '<' :: more⟩ := by rw [← split]
  rw [place] at read noFaults
  obtain ⟨taken, tagSplit, replaced⟩ :=
    rawElement_renamed begins (place ▸ named) plainName_script read ⟨noFaults, rfl⟩
  rw [← place] at tagSplit
  refine ⟨taken, readRaw_turn split begins named plainName_script cursor_keepScript whole tagSplit
    (fun raw' span' other shared alike => ?_) (replaced options)⟩
  rw [whole] at clean ⊢
  exact keepScript_alike shared alike clean

/-- A style is no fault only if it is the first, and then it is kept. -/
theorem style_of_keepStyle_clean {raw : RawElement} {span : Span}
    (clean : (keepStyle raw span draft).faults = []) :
    draft.style = none ∧ (keepStyle raw span draft).style = some (Style.ofRaw raw) := by
  unfold keepStyle at clean ⊢
  split
  case isTrue again =>
    rw [if_pos again] at clean
    exact absurd clean (faults_note_ne_nil _ _ _)
  case isFalse first => exact ⟨Option.not_isSome_iff_eq_none.mp first, rfl⟩

variable (options) in
/-- **A style with the rules put in.** It is read wherever what it is renamed to stands. -/
theorem readStyle_turn {more : Text} (split : draft.cursor.rest = '<' :: more)
    (begins : Begins .tagOpen [] ['<'] more) (named : draft.cursor.tagName? = some "style")
    (clean : draft.readStyle.faults = [])
    (quiet : Quiet (Text.startsWith (closingLead "style")) exchange.rules [])
    (ends : exchange.rules = [] ∨ exchange.rules.getLast? = some '\x7d')
    (opened : exchange.rules ≠ [] → ∀ style ∈ draft.readStyle.style,
      style.FollowsOpenTag draft.cursor.offset draft.cursor.rest) :
    ∃ taken edited style, draft.style = none ∧ draft.readStyle.style = some style ∧
      exchange.Inserts draft.cursor.offset style taken edited ∧
        Turn options readStyle draft taken edited := by
  rw [readStyle_eq] at clean opened ⊢
  obtain ⟨raw, read, noFaults, whole⟩ := exists_of_readRaw_clean keepStyle_faults clean
  have place : draft.cursor = ⟨draft.cursor.offset, '<' :: more⟩ := by rw [← split]
  rw [place] at read noFaults
  have named₀ : Cursor.tagName? ⟨draft.cursor.offset, '<' :: more⟩ = some "style" := place ▸ named
  obtain ⟨first, kept⟩ := style_of_keepStyle_clean (whole ▸ clean)
  rw [← whole] at kept
  -- A style is kept whatever its attributes are, unlike a script.
  have keeps {same : RawElement → Prop} (raw' : RawElement) (span' : Span)
      (other : Draft) (_ : same raw')
      (alike : Alike options ((draft.moveTo (rawElement draft.cursor).next).note []) other) :
      Alike options (draft.readRaw keepStyle) (keepStyle raw' span' other) := by
    rw [whole] at clean ⊢
    exact keepStyle_alike alike clean
  obtain ⟨before, after, tagSplit, start, closes, slot⟩ := rawElement_slot begins
    (fun tag isTag => Option.some.inj ((openTag_name isTag).symm.trans named₀)) plainName_style
    read ⟨noFaults, rfl⟩
  have isStart : (Style.ofRaw raw).contentSpan.start =
      draft.cursor.offset + Text.bytes ('<' :: before) := by
    rw [Text.bytes_cons, ← Nat.add_assoc]
    exact start
  by_cases noRules : exchange.rules = []
  case pos =>
    obtain ⟨taken, tagSplit', replaced⟩ :=
      rawElement_renamed begins named₀ plainName_style read ⟨noFaults, rfl⟩
    rw [← place] at tagSplit'
    exact ⟨taken, taken, _, first, kept, .inl ⟨noRules, rfl⟩, readRaw_turn split begins named
      plainName_style cursor_keepStyle whole tagSplit' keeps (replaced options)⟩
  case neg =>
    rcases slot with closesItself | ⟨bracket, slash, swapped⟩
    · refine absurd (closesItself.trans (List.suffix_cons _ _)) (opened noRules _ kept ('<' :: before)
        (after ++ (rawElement ⟨draft.cursor.offset, '<' :: more⟩).next.rest) ?_ isStart)
      rw [split]
      exact congrArg ('<' :: ·) tagSplit
    · obtain ⟨begins', ⟨noFaults', goesOn'⟩, named', hasValue⟩ :=
        swapped exchange.rules quiet ends draft.cursor.offset
      obtain ⟨raw', read'⟩ := Option.isSome_iff_exists.mp hasValue
      obtain ⟨edited, editedSplit, replaced⟩ :=
        rawElement_renamed begins' named' plainName_style read' ⟨noFaults', goesOn'⟩
      have isEdited : edited = '<' :: before ++ (exchange.rules ++ after) := by
        refine (List.append_cancel_right (editedSplit.symm.trans ?_ : edited ++ _ = _ ++ _))
        simp only [List.append_assoc, List.cons_append]
      have tagSplit' : '<' :: more =
          '<' :: before ++ after ++ (rawElement draft.cursor).next.rest := by
        rw [tagSplit, place]
        simp only [List.append_assoc, List.cons_append]
      exact ⟨'<' :: before ++ after, edited, _, first, kept,
        .inr ⟨'<' :: before, after, rfl, closes.trans (List.suffix_cons _ _), bracket, slash, isStart,
          isEdited⟩,
        readRaw_turn split begins named plainName_style cursor_keepStyle whole tagSplit' keeps
          (replaced options)⟩

end Draft

end ClassHoist.Markup
