import ClassHoist.Proofs.Copies
import ClassHoist.Proofs.ReachedTags
import ClassHoist.Proofs.ReadingBehind
import ClassHoist.Proofs.Rehoisting

/-! # Where rules are put

Rules go directly behind the bracket of the opening tag of the style, or into a new style at the end
(`hoist_places_rules`). Which it is, the content decides: the character in front of the bracket is
the same there as in what was read (`Stripped.IsFrom.exists_bracket`), since a directive ends only in
front of a closing brace. A slash there closes the tag, unless it belongs to a token with the end of
a value without quotes (`openTag_ends`). Then the style has content, but the rules go into a new one
(`hoist_appends_behind_slash`).
-/

namespace ClassHoist.Markup

/-- The text ends with a token that takes in a slash. -/
def TakesSlash (text : Text) : Prop := ['<', '/'] <:+ text ∨ ['\x7b', '/'] <:+ text

/-- More text in front leaves the token at the end. -/
theorem TakesSlash.append {text : Text} (takes : TakesSlash text) (before : Text) :
    TakesSlash (before ++ text) :=
  takes.imp (·.trans (List.suffix_append _ _)) (·.trans (List.suffix_append _ _))

/-- A run that ends with an opening bracket or brace takes in a slash. -/
theorem takesSlash_of_opensToken {run : Text} (opens : OpensToken run) :
    TakesSlash (run ++ ['/']) := by
  refine opens.imp (fun last => ?_) fun last => ?_
  all_goals
    obtain ⟨before, rfl⟩ := List.getLast?_eq_some_iff.mp last
    exact ⟨before, by rw [List.append_assoc]; rfl⟩

/-- A text in front of others ends with a slash only if a token takes it in, or if no closing
bracket follows. -/
def EndsOpen (taken rest : Text) : Prop :=
  taken.getLast? = some '/' → rest.head? = some '>' → TakesSlash taken

variable {taken rest : Text} {offset : Nat}

/-- No text ends with no slash. -/
theorem endsOpen_nil (rest : Text) : EndsOpen [] rest := fun last => nomatch last

/-- A text that ends with another character than a slash does not end with one. -/
theorem endsOpen_of_getLast? {c : Char} (last : taken.getLast? = some c) (other : c ≠ '/') :
    EndsOpen taken rest :=
  fun slash => absurd (Option.some.inj (last.symm.trans slash)) other

/-- What a text ends with is not changed by text in front of it. -/
theorem EndsOpen.append (before : Text) (ends : EndsOpen taken rest) (nonempty : taken ≠ []) :
    EndsOpen (before ++ taken) rest := by
  intro slash bracket
  rw [List.getLast?_append_of_ne_nil _ nonempty] at slash
  exact (ends slash bracket).append before

/-- A run has no slash at its end that closes a tag. -/
theorem endsOpen_of_isWord {blanks name : Text} (isWord : IsWord name) :
    EndsOpen (blanks ++ name) rest := by
  refine EndsOpen.append blanks (fun slash => ?_) isWord.1
  exact absurd (isWord.2 '/' (List.mem_of_getLast? slash)) (by decide)

/-- A value in quotes ends with its quote. -/
theorem Quoted.getLast?_eq {quote : Char} {text : Text} (quoted : Quoted quote text) :
    text.getLast? = some quote := by
  induction quoted with
  | @close literal => exact List.getLast?_concat
  | @expression literal inner more plain closed others ih =>
    obtain ⟨before, rfl⟩ := List.getLast?_eq_some_iff.mp ih
    rw [show literal ++ '\x7b' :: (inner ++ '\x7d' :: (before ++ [quote])) =
      literal ++ '\x7b' :: (inner ++ '\x7d' :: before) ++ [quote] by simp]
    exact List.getLast?_concat

/-- Only a value without quotes leaves a slash in front of the bracket that ends a tag. -/
theorem ValueText.endsOpen (form : ValueText rest taken) : taken ≠ [] ∧ EndsOpen taken rest := by
  cases form with
  | @quoted blanks text quote _ isQuote quoted =>
    refine ⟨by simp, endsOpen_of_getLast? (c := quote) ?_ ?_⟩
    · obtain ⟨before, rfl⟩ := List.getLast?_eq_some_iff.mp quoted.getLast?_eq
      simp only [← List.append_assoc, List.getLast?_concat]
    · rcases isQuote with rfl | rfl <;> decide
  | braced =>
    refine ⟨by simp, endsOpen_of_getLast? (c := '\x7d') ?_ (by decide)⟩
    simp only [← List.append_assoc, List.getLast?_concat]
  | @unquoted blanks run after _ starts unquoted =>
    obtain ⟨slash, read, goesOn⟩ := unquoted
    obtain ⟨-, noClose, -⟩ := unquotedRun_eq_iff.mp read
    have nonempty : run ≠ [] := by
      rintro rfl
      obtain ⟨c, isHead, -⟩ := starts
      cases isHead
    refine ⟨by simp [nonempty], EndsOpen.append blanks (fun isSlash bracket => ?_) (by simp [nonempty])⟩
    rcases slash with rfl | rfl
    · rw [List.append_nil] at isSlash
      exact absurd ⟨isSlash, bracket⟩ noClose
    · refine takesSlash_of_opensToken ?_
      by_contra closed
      have goes := goesOn 0
      rw [afterUnquoted_rest_eq fun both => closed both.1] at goes
      exact List.cons_ne_self _ _ goes

/-- An attribute with a name does not end with a slash, unless a token takes it in. -/
theorem NamedText.endsOpen (form : NamedText rest taken) : EndsOpen taken rest := by
  cases form with
  | absent _ isWord => exact endsOpen_of_isWord isWord
  | assigned _ _ _ assigned =>
    obtain ⟨nonempty, ends⟩ := assigned.endsOpen
    simp only [← List.append_assoc]
    exact ends.append _ nonempty

/-- What is read as an attribute without faults ends with a slash in front of a closing bracket
only if a token takes the slash in. -/
theorem attribute?_endsOpen {input : Text} {reading : Reading (Option Attribute)}
    (found : attribute? ⟨offset, input⟩ = some reading) (clean : reading.Clean rest) :
    ∃ taken, input = taken ++ rest ∧ EndsOpen taken rest := by
  have named (isRun : (Cursor.token ⟨offset, input⟩).kind.IsRun)
      (clean : (namedAttribute ⟨offset, input⟩).Clean rest) :
      ∃ taken, input = taken ++ rest ∧ EndsOpen taken rest := by
    obtain ⟨taken, split, form⟩ := namedAttribute_text isRun clean
    exact ⟨taken, split, form.endsOpen⟩
  have braced {braced : Braced} (isBraced : Cursor.braced? ⟨offset, input⟩ = some braced)
      (goesOn : braced.next.rest = rest) : ∃ taken, input = taken ++ rest ∧ EndsOpen taken rest := by
    obtain ⟨kind, blanks, text, more, rfl, begins⟩ := exists_begins input
    obtain ⟨rfl, -⟩ := begins.eq_of_braced? isBraced
    refine ⟨blanks ++ text ++ braced.inner ++ ['\x7d'], ?_,
      endsOpen_of_getLast? List.getLast?_concat (by decide)⟩
    rw [goesOn]
    simp only [List.append_assoc]
  unfold attribute? at found
  split at found
  case h_1 | h_2 | h_3 => cases found
  case h_4 isName => exact named (.inl isName) (Option.some.inj found ▸ clean)
  case h_5 isWord => exact named (.inr isWord) (Option.some.inj found ▸ clean)
  case h_6 =>
    obtain rfl := Option.some.inj found
    unfold bracedAttribute at clean
    split at clean
    case h_1 => cases clean.1
    case h_2 isBraced => exact braced isBraced clean.2
  case h_7 =>
    obtain rfl := Option.some.inj found
    unfold attachAttribute at clean
    split at clean
    case h_1 => cases clean.1
    case h_2 isBraced =>
      simp only at clean
      split at clean
      case isTrue => exact braced isBraced clean.2
      case isFalse => cases clean.1
  case h_8 =>
    obtain rfl := Option.some.inj found
    cases clean.1

/-- Attributes without faults do not end with a slash, unless a token takes it in. -/
theorem attributes_endsOpen {cursor : Cursor} (clean : (attributes cursor).Clean rest) :
    ∃ taken, cursor.rest = taken ++ rest ∧ EndsOpen taken rest := by
  fun_induction attributes cursor with
  | case1 cursor => exact ⟨[], clean.2, endsOpen_nil rest⟩
  | case2 cursor reading found less more ih =>
    obtain ⟨noFaults, noMore⟩ := List.append_eq_nil_iff.mp clean.1
    obtain ⟨first, split, ends⟩ := attribute?_endsOpen found ⟨noFaults, rfl⟩
    obtain ⟨others, split', ends'⟩ := ih ⟨noMore, clean.2⟩
    refine ⟨first ++ others, by rw [split, split', List.append_assoc], ?_⟩
    by_cases none : others = []
    · subst none
      rw [split', List.nil_append] at ends
      rwa [List.append_nil]
    · exact ends'.append first none

/-- **How an opening tag ends.** One that does not close itself ends with a slash and a bracket only
if a token has taken the slash in. -/
theorem openTag_ends {more : Text} {tag : OpenTag} (begins : Begins .tagOpen [] ['<'] more)
    (read : (openTag ⟨offset, '<' :: more⟩).value = some tag)
    (clean : (openTag ⟨offset, '<' :: more⟩).Clean rest) :
    ∃ opening, '<' :: more = opening ++ '>' :: rest ∧
      if tag.selfClosing then ['/'] <:+ opening else ['/'] <:+ opening → TakesSlash opening := by
  obtain ⟨name, entries, blanks, rfl, blank, named, attrs, -⟩ := openTag_text begins read clean
  cases closes : tag.selfClosing with
  | true =>
    refine ⟨'<' :: (name ++ (entries ++ (blanks ++ ['/']))), ?_, ?_⟩
    · simp [tagEnd]
    · rw [if_pos rfl]
      exact ⟨'<' :: (name ++ (entries ++ blanks)), by simp⟩
  | false =>
    rw [closes] at named attrs
    simp only [tagEnd, Bool.false_eq_true, ↓reduceIte] at named attrs
    obtain ⟨entries', split, ends⟩ := attributes_endsOpen attrs
    obtain rfl := List.append_cancel_right split
    refine ⟨'<' :: name ++ (entries ++ blanks), by simp [tagEnd], ?_⟩
    simp only [Bool.false_eq_true, ↓reduceIte]
    intro slash
    have isLast : ('<' :: name ++ (entries ++ blanks)).getLast? = some '/' := by
      obtain ⟨before, same⟩ := slash
      rw [← same]
      exact List.getLast?_concat
    -- A slash in front of the bracket can only be the end of the last attribute.
    by_cases noBlanks : blanks = []
    · subst noBlanks
      rw [List.append_nil] at isLast ⊢
      by_cases noEntries : entries = []
      · subst noEntries
        have isWord := isWord_of_isName (leadingName?_append.mp named).1
        rw [List.append_nil, ← List.singleton_append, List.getLast?_append_of_ne_nil _ isWord.1] at isLast
        exact absurd (isWord.2 '/' (List.mem_of_getLast? isLast)) (by decide)
      · exact (ends.append ('<' :: name) noEntries) isLast rfl
    · rw [List.getLast?_append_of_ne_nil _ (List.append_ne_nil_of_right_ne_nil _ noBlanks),
        List.getLast?_append_of_ne_nil _ noBlanks] at isLast
      exact absurd (blank '/' (List.mem_of_getLast? isLast)) (by decide)

/-- The text of an opening tag, up to the bracket that ends it. -/
theorem OpenTagAt.exists_opening {source : Text} {start stop : Nat} {tag : OpenTag}
    (opens : OpenTagAt source start tag stop) :
    ∃ opening, opening ≠ [] ∧ Text.Stands source start stop (opening ++ ['>']) ∧
      if tag.selfClosing then ['/'] <:+ opening else ['/'] <:+ opening → TakesSlash opening := by
  obtain ⟨before, more, rest, rfl, rfl, named, read⟩ := opens
  have clean : (openTag ⟨Text.bytes before, '<' :: more⟩).Clean rest := ⟨by rw [read], by rw [read]⟩
  obtain ⟨opening, split, ends⟩ := openTag_ends (begins_of_leadingName? named) (by rw [read]) clean
  obtain ⟨taken, reached, counted⟩ := openTag_reaches ⟨Text.bytes before, '<' :: more⟩
  rw [read] at reached counted
  have joined : '<' :: more = (opening ++ ['>']) ++ rest := by
    rw [split, List.append_assoc]
    rfl
  have same : taken = opening ++ ['>'] := List.append_cancel_right (reached.symm.trans joined)
  refine ⟨opening, ?_, ⟨before, rest, ?_, rfl, same ▸ counted⟩, ends⟩
  · rintro rfl
    cases split
  · rw [joined, List.append_assoc]

/-- The opening tag of a style stands in a source, and usages lie in front of it or behind it. -/
def Style.Opens (style : Style) (source : Text) (usages : List Usage) : Prop :=
  (∃ tag, tag.name = "style" ∧ OpenTagAt source style.span.start tag style.contentSpan.start) ∧
    ∀ usage ∈ usages,
      usage.span.stop ≤ style.span.start ∨ style.contentSpan.start ≤ usage.span.start

namespace Draft

variable {source : Text} {draft next : Draft}

/-- A step that reads a style reads it where its opening tag stands. -/
theorem exists_style_of_step (stepped : draft.step = some next) (clean : next.faults = [])
    (first : draft.style = none) {style : Style} (isStyle : next.style = some style) :
    StartsConstruct draft.cursor.rest ∧ draft.cursor.token.kind = .tagOpen ∧
      draft.cursor.tagName? = some "style" ∧ ∃ raw, (rawElement draft.cursor).value = some raw ∧
        (rawElement draft.cursor).faults = [] ∧ style = .ofRaw raw := by
  have changed : next.style ≠ draft.style := by
    rw [isStyle, first]
    exact Option.some_ne_none style
  rcases slots_of_step stepped with same | ⟨starts, -, rfl⟩
  · exact absurd (congrArg (·.2.2) same) changed
  · by_cases opens : draft.cursor.token.kind = .tagOpen
    · by_cases named : draft.cursor.tagName? = some "style"
      · rw [readTop_of_style opens named, readStyle_eq] at clean isStyle
        obtain ⟨raw, read, noFaults, whole⟩ := exists_of_readRaw_clean keepStyle_faults clean
        obtain ⟨-, kept⟩ := style_of_keepStyle_clean (whole ▸ clean)
        rw [whole, kept] at isStyle
        exact ⟨starts, opens, named, raw, read, noFaults, (Option.some.inj isStyle).symm⟩
      · by_cases script : draft.cursor.tagName? = some "script"
        · rw [readTop_of_script opens script] at changed
          exact absurd (readScript_passes draft).style changed
        · rw [readTop_of_other fun _ => ⟨script, named⟩] at changed
          exact absurd (congrArg (·.2.2) (slots_readNode draft)) changed
    · rw [readTop_of_other fun isTag => absurd isTag opens] at changed
      exact absurd (congrArg (·.2.2) (slots_readNode draft)) changed

/-- A step keeps the opening tag of the style apart from usages. -/
theorem step_opens (stepped : draft.step = some next) (clean : next.faults = [])
    (sound : draft.Sound source) (opens : ∀ style ∈ draft.style, style.Opens source draft.usages) :
    ∀ style ∈ next.style, style.Opens source next.usages := by
  intro style found
  have follows := step_follows stepped clean sound.kept
  rcases follows.added with ⟨sameStyle, new, added, stands⟩ | ⟨first, sameUsages, -⟩
  · rw [sameStyle] at found
    obtain ⟨place, startIs, -, reach, -⟩ := sound.style style found
    obtain ⟨tagged, apart⟩ := opens style found
    refine ⟨tagged, fun usage member => ?_⟩
    rw [added] at member
    rcases List.mem_append.mp member with earlier | isNew
    · exact apart usage earlier
    · have later := (stands usage (Option.mem_toList.mp isNew)).2.start_le
      exact .inr (startIs ▸ Nat.le_trans reach.offset_le later)
  · obtain ⟨starts, isTag, named, raw, read, noFaults, rfl⟩ :=
      exists_style_of_step stepped clean first found
    obtain ⟨⟨tag, isOpening⟩, contentStart⟩ := contentSpan_start_of_rawElement read
    have start : raw.span.start = draft.cursor.offset := by
      rw [span_of_rawElement read,
        ← Cursor.token_start_of_no_text (startsConstruct_iff.mp starts)]
    refine ⟨⟨tag, ?_, ?_⟩, fun usage member => .inl ?_⟩
    · exact Option.some.inj ((openTag_name isOpening).symm.trans named)
    · show OpenTagAt source raw.span.start tag raw.contentSpan.start
      rw [start, contentStart]
      exact openTagAt_of_clean sound.reach starts isTag isOpening
        (openTag_of_rawElement_clean noFaults)
    · rw [sameUsages] at member
      show usage.span.stop ≤ raw.span.start
      exact start ▸ (sound.holds usage member).2.le_stop

/-- **A whole run** keeps the opening tag of the style apart from usages. -/
theorem run_opens (sound : draft.Sound source) (clean : draft.run.faults = [])
    (opens : ∀ style ∈ draft.style, style.Opens source draft.usages) :
    ∀ style ∈ draft.run.style, style.Opens source draft.run.usages := by
  fun_induction run draft with
  | case1 draft => exact opens
  | case2 draft next stepped ih =>
    have nextClean : next.faults = [] := List.suffix_nil.mp (clean ▸ run_faults next)
    exact ih ((step_follows stepped nextClean sound.kept).sound sound) clean
      (step_opens stepped nextClean sound opens)

end Draft

/-- The style of a document that is read without faults has an opening tag. -/
theorem opens_of_read? {source : Text} {document : Document} (done : read? source = .ok document) :
    ∀ style ∈ document.style, style.Opens source document.usages := by
  obtain ⟨clean, isUsages, isStyle⟩ := run_of_read? done
  rw [isUsages, isStyle]
  exact Draft.run_opens (Draft.start_sound source) clean fun style found => nomatch found

end ClassHoist.Markup

namespace ClassHoist

open Markup SourceMap

namespace Stripped

/-- The end of a character is restored right behind its start. -/
theorem restore_lt_succ (cuts : List Hit) (offset : Nat) :
    restore (fun cut place => cut < place) cuts (offset + 1) =
      restore (fun cut place => cut ≤ place) cuts offset + 1 := by
  induction cuts generalizing offset with
  | nil => rfl
  | cons cut cuts ih =>
    simp only [restore, Nat.lt_succ_iff, decide_eq_true_eq]
    split
    case isTrue upTo =>
      rw [Nat.succ_sub upTo, ih]
      rfl
    case isFalse => rfl

/-- Nothing is cut out of a single byte. -/
theorem mapEnd_succ (stripped : Stripped) (offset : Nat) :
    stripped.mapEnd (offset + 1) = stripped.mapStart offset + 1 :=
  congrArg (stripped.base + ·) (restore_lt_succ stripped.cuts offset)

/-- A closing bracket that is left stands in the content, behind the same character. -/
theorem IsFrom.exists_bracket {content : Text} {stripped : Stripped}
    (isFrom : stripped.IsFrom content) (cut : AtDirectives stripped.cuts stripped.tail)
    {lead later : Text} (split : stripped.text = lead ++ '>' :: later) (nonempty : lead ≠ []) :
    ∃ front back, content = front ++ '>' :: back ∧
      Text.bytes front = stripped.mapStart (Text.bytes lead) ∧
        front.getLast? = lead.getLast? := by
  obtain ⟨start, isContent, base⟩ := isFrom
  have whole : stripped.text = (lead ++ ['>']) ++ later :=
    split.trans (List.append_cons lead '>' later)
  obtain ⟨text, cuts, tail, parts, -⟩ := cut.exists_front whole
  have place : stripped.mapEnd (Text.bytes lead + 1) = Text.bytes start + Text.bytes text := by
    have here := parts.restore_lt
    rw [Text.bytes_append] at here
    rw [base]
    exact congrArg (stripped.base + ·) here
  rcases parts.settled with ⟨-, none⟩ | ⟨text, left, c, rfl, isLead, settles, -⟩
  · exact absurd none (List.append_ne_nil_of_right_ne_nil _ (List.cons_ne_nil _ _))
  obtain ⟨rfl, isBracket⟩ := List.append_inj' isLead rfl
  obtain rfl := (List.cons.inj isBracket).1
  obtain ⟨d, isLast⟩ := Option.isSome_iff_exists.mp (List.getLast?_isSome.mpr nonempty)
  have last := settles.getLast?_eq (by decide) isLast
  have someText : text ≠ [] := by
    rintro rfl
    cases last
  refine ⟨start ++ text, joined cuts tail, ?_, ?_, ?_⟩
  · rw [isContent, parts.joins]
    simp only [List.append_assoc, List.singleton_append]
  · rw [mapEnd_succ, Text.bytes_append] at place
    rw [Text.bytes_append]
    exact (Nat.succ.inj (place.trans (Nat.add_assoc _ _ _).symm)).symm
  · rw [List.getLast?_append_of_ne_nil _ someText, last, isLast]

end Stripped

/-- A front that ends with a closing bracket ends with an opening tag exactly if no slash is in
front. -/
theorem endsWithOpenTag_iff {front : Text} :
    endsWithOpenTag (front ++ ['>']) = true ↔ front.getLast? ≠ some '/' := by
  rcases List.eq_nil_or_concat' front with rfl | ⟨before, c, rfl⟩
  · exact iff_of_true rfl nofun
  · rw [List.getLast?_concat, endsWithOpenTag]
    simp only [List.reverse_append, List.reverse_cons, List.reverse_nil, List.nil_append,
      List.cons_append]
    by_cases slash : c = '/'
    · subst slash
      simp
    · simp [slash]

variable {content : Text} {stripped : Stripped} {document : Document} {style : Style}

/-- Rules go behind the bracket of the opening tag of the style, unless a slash stands in front of
the bracket. -/
theorem Readable.exists_styleOffset? (readable : Readable content stripped document)
    (cut : Stripped.AtDirectives stripped.cuts stripped.tail) {opening : Text}
    (nonempty : opening ≠ [])
    (stands : Text.Stands stripped.text style.span.start style.contentSpan.start (opening ++ ['>'])) :
    ∃ front back, content = front ++ '>' :: back ∧
      Text.bytes front = stripped.mapStart (style.contentSpan.start - 1) ∧
      Text.bytes front + 1 = stripped.mapEnd style.contentSpan.start ∧
      styleOffset? content stripped style.contentSpan.start =
        if ['/'] <:+ opening then none else some (Text.bytes front + 1) := by
  obtain ⟨before, after, whole, start, stop⟩ := stands
  have split : stripped.text = (before ++ opening) ++ '>' :: after := by
    rw [whole]
    simp only [List.append_assoc, List.singleton_append]
  have place : style.contentSpan.start = Text.bytes (before ++ opening) + 1 := by
    rw [stop, ← start, Text.bytes_append, Text.bytes_append, ← Nat.add_assoc]
    rfl
  obtain ⟨front, back, rfl, counted, last⟩ := readable.isFrom.exists_bracket cut split
    (List.append_ne_nil_of_right_ne_nil _ nonempty)
  have ends : Text.bytes front + 1 = stripped.mapEnd style.contentSpan.start := by
    rw [place, Stripped.mapEnd_succ, counted]
  refine ⟨front, back, rfl, ?_, ends, ?_⟩
  · rw [place, Nat.add_sub_cancel, counted]
  · rw [List.getLast?_append_of_ne_nil _ nonempty] at last
    have inside : style.contentSpan.start ≤ stripped.text.bytes := by
      rw [split, place, Text.bytes_append (before ++ opening), Text.bytes_cons]
      exact Nat.add_le_add_left (Nat.le_trans (by decide) (Nat.le_add_right _ _)) _
    have isParts : Text.splitAt? (Text.bytes front + 1) (front ++ '>' :: back) =
        some (front ++ ['>'], back) := by
      refine Text.splitAt?_eq_some_iff.mpr ⟨List.append_cons front '>' back, ?_⟩
      rw [Text.bytes_append]
      rfl
    have slash : ['/'] <:+ opening ↔ front.getLast? = some '/' := by
      rw [last, List.getLast?_eq_some_iff]
      exact exists_congr fun _ => eq_comm
    unfold styleOffset?
    simp only [inside, ends ▸ isParts, guard, ↓reduceIte, bind, Option.bind, pure]
    by_cases isSlash : front.getLast? = some '/'
    · rw [if_pos (slash.mpr isSlash), if_neg fun opens => endsWithOpenTag_iff.mp opens isSlash]
      rfl
    · rw [if_neg (mt slash.mp isSlash), if_pos (endsWithOpenTag_iff.mpr isSlash), ends]

/-- Behind the text of the opening tag of a style, rules go where no class is overwritten. -/
theorem Readable.overwritten_front (readable : Readable content stripped document)
    (opens : style.Opens stripped.text document.usages) {opening front : Text}
    (nonempty : opening ≠ [])
    (stands : Text.Stands stripped.text style.span.start style.contentSpan.start (opening ++ ['>']))
    (counted : Text.bytes front = stripped.mapStart (style.contentSpan.start - 1))
    (ends : Text.bytes front + 1 = stripped.mapEnd style.contentSpan.start) :
    Patch.overwritten (document.usages.map stripped.edit) 0 (front ++ ['>']) =
      Patch.overwritten (document.usages.map stripped.edit) 0 front ++ ['>'] := by
  rw [Patch.overwritten_append, Nat.zero_add]
  refine congrArg (_ ++ ·) (Patch.overwritten_of_outside fun edit member => ?_)
  obtain ⟨usage, isUsage, rfl⟩ := List.mem_map.mp member
  rw [(readable.edit_stands isUsage).1]
  have positive := Text.bytes_pos nonempty
  have stop : style.contentSpan.start = style.span.start + Text.bytes (opening ++ ['>']) :=
    stands.choose_spec.choose_spec.2.2
  rw [Text.bytes_append] at stop
  rcases opens.2 usage isUsage with before | after
  · refine .inl ?_
    rw [counted]
    exact Stripped.mapEnd_le_mapStart (by omega)
  · refine .inr ?_
    show Text.bytes front + 1 ≤ stripped.mapStart usage.span.start
    rw [ends]
    exact Stripped.mapEnd_le_mapStart after

/-- The rules that are put in are those of the usages, in their order. -/
theorem renderedRules_eq (readable : Readable content stripped document) (options : Options) :
    renderedRules options content stripped document = GlobalRule.renderAll
      (documentRules options document.usages
        (Patch.overwritten (document.usages.map stripped.edit) 0 content)) := by
  rw [renderedRules, Patch.output_of_overwrites readable.edits_sound]

/-- Without a place of their own, rules go into a new style at the end. -/
theorem Readable.output_newStyle (readable : Readable content stripped document) {options : Options}
    (someRules : renderedRules options content stripped document ≠ [])
    (noSite : ownSite? content stripped document = none) :
    (documentPatch options content stripped document).output =
      Patch.overwritten (document.usages.map stripped.edit) 0 content ++
        ("<style>".toList ++ renderedRules options content stripped document ++
          "</style>".toList) := by
  have appended := (Patch.append_sound readable.edits_sound ("<style>".toList ++
    renderedRules options content stripped document ++ "</style>".toList)).output_eq_splice
  unfold documentPatch
  simp only [if_neg someRules, noSite]
  refine appended.trans (congrArg₂ (· ++ ·) (List.append_nil _) (List.nil_append _))

/-- In a place of their own, rules cut the content in two. -/
theorem Readable.output_ownStyle (readable : Readable content stripped document)
    {options : Options} (someRules : renderedRules options content stripped document ≠ [])
    {first second : Text} (split : content = first ++ second)
    (site : ownSite? content stripped document = some (Text.bytes first)) :
    (documentPatch options content stripped document).output =
      Patch.overwritten (document.usages.map stripped.edit) 0 first ++
        (renderedRules options content stripped document ++
          Patch.overwritten (document.usages.map stripped.edit) (Text.bytes first) second) := by
  have sound := readable.documentPatch_sound options
  unfold documentPatch at sound ⊢
  simp only [if_neg someRules, site] at sound ⊢
  subst split
  exact Patch.output_of_insertion sound

/-- **Where rules are put.** Rules go directly behind the bracket of the opening tag of the style,
in front of all that stands there, if the document has a style whose tag does not close itself, and
otherwise into a new style at the end. The exception is a tag with a value without quotes that ends
with `<` or an opening brace, directly in front of a slash and the bracket: it does not close
itself, but the rules go into a new style. -/
theorem hoist_places_rules {content : Text} (small : content.bytes ≤ Offset.limit)
    {options : Options} {file : Option String} {code : Text} {map : Encoding}
    (done : hoist options content file = .ok ⟨code, some map⟩) :
    ∃ start document, (ReadableRange.ofContent content).start? = some start ∧
      read? (Stripped.ofDocument content start).text = .ok document ∧
      let stripped := Stripped.ofDocument content start
      let edits := document.usages.map stripped.edit
      let rules := GlobalRule.renderAll
        (documentRules options document.usages (Patch.overwritten edits 0 content))
      let appended := renameMarkers options
        (Patch.overwritten edits 0 content ++ ("<style>".toList ++ rules ++ "</style>".toList))
      rules ≠ [] →
        (document.style = none → code = appended) ∧
        ∀ style ∈ document.style, ∃ tag opening, tag.name = "style" ∧
          OpenTagAt stripped.text style.span.start tag style.contentSpan.start ∧
          Text.Stands stripped.text style.span.start style.contentSpan.start (opening ++ ['>']) ∧
          (tag.selfClosing = true ∨ TakesSlash opening → code = appended) ∧
          (tag.selfClosing = false → ¬ TakesSlash opening → ∃ before after,
            content = before ++ '>' :: after ∧
            -- The bracket is that of the opening tag, and what is cut out behind it is in `after`.
            Text.bytes before = stripped.mapStart (style.contentSpan.start - 1) ∧
            Text.bytes before + 1 = stripped.mapEnd style.contentSpan.start ∧
            code = renameMarkers options (Patch.overwritten edits 0 before ++
              '>' :: (rules ++ Patch.overwritten edits (Text.bytes before + 1) after))) := by
  obtain ⟨start, document, begins, read, readable, rfl, -⟩ := exists_of_hoist small done
  refine ⟨start, document, begins, read, ?_⟩
  intro stripped edits rules appended someRules
  have isRules : renderedRules options content stripped document = rules :=
    renderedRules_eq readable options
  rw [← isRules] at someRules
  have newStyle (noSite : ownSite? content stripped document = none) :
      renameMarkers options (documentPatch options content stripped document).output = appended := by
    rw [readable.output_newStyle someRules noSite, isRules]
  refine ⟨fun noStyle => newStyle ?_, fun style isStyle => ?_⟩
  · rw [ownSite?, noStyle]
    rfl
  have opens := opens_of_read? read style isStyle
  obtain ⟨tag, named, isTag⟩ := opens.1
  obtain ⟨opening, nonempty, stands, ends⟩ := isTag.exists_opening
  obtain ⟨front, back, isContent, counted, place, site⟩ := readable.exists_styleOffset?
    (Stripped.atDirectives_ofDocument content start) nonempty stands
  have isSite : ownSite? content stripped document =
      styleOffset? content stripped style.contentSpan.start := by
    rw [ownSite?, isStyle]
    rfl
  rw [site] at isSite
  refine ⟨tag, opening, named, isTag, stands, fun closes => newStyle ?_, fun notClosed noSlash => ?_⟩
  · rw [isSite, if_pos]
    rcases closes with closesItself | taken | taken
    · rwa [if_pos closesItself] at ends
    · exact List.IsSuffix.trans ⟨['<'], rfl⟩ taken
    · exact List.IsSuffix.trans ⟨['\x7b'], rfl⟩ taken
  · rw [notClosed] at ends
    rw [if_neg (mt ends noSlash)] at isSite
    have joined : content = (front ++ ['>']) ++ back :=
      isContent.trans (List.append_cons front '>' back)
    have whole := readable.output_ownStyle someRules joined
      (isSite.trans (by rw [Text.bytes_append]; rfl))
    rw [readable.overwritten_front opens nonempty stands counted place, isRules] at whole
    refine ⟨front, back, isContent, counted, place, ?_⟩
    rw [whole, Text.bytes_append]
    simp only [List.append_assoc, List.singleton_append]
    rfl

/-- What has been read of a text that goes on with a component, once a style at its start has been
read. -/
def Markup.Draft.beforeCard (style : Style) : Draft :=
  ⟨⟨style.span.stop, card⟩, [], [], none, none, some style, []⟩

/-- What is read of a style and a component. -/
def styledDocument (style : Style) : Document :=
  let stop := style.span.stop
  ⟨none, none, some style, ⟨[.element ⟨stop, stop + 12⟩ (.component "A" true)
    [.named ⟨stop + 3, stop + 10⟩ "class" (.text ⟨⟨stop + 9, stop + 10⟩, "b"⟩)] []],
      ⟨0, stop + 12⟩⟩⟩

/-- The component has its name. -/
theorem tagName?_card (offset : Nat) : Cursor.tagName? ⟨offset, card⟩ = some "A" := by
  rw [tagName?_offset _ offset 0]
  rfl

/-- The tag of the component is read wherever it stands. -/
theorem openTag_cardAt (offset : Nat) : openTag ⟨offset, card⟩ =
    ⟨some ⟨offset, "A", [.named ⟨offset + 3, offset + 10⟩ "class"
      (.text ⟨⟨offset + 9, offset + 10⟩, "b"⟩)], true⟩, [], ⟨offset + 12, []⟩⟩ := by
  have first : attribute? (Cursor.bump (Cursor.bump ⟨offset, card⟩)) = some ⟨some
      (.named ⟨offset + 3, offset + 10⟩ "class" (.text ⟨⟨offset + 9, offset + 10⟩, "b"⟩)), [],
        ⟨offset + 10, ['/', '>']⟩⟩ := by rfl
  have last : attribute? ⟨offset + 10, ['/', '>']⟩ = none := by rfl
  exact openTag_of_attribute? (tagName?_card offset) first last rfl

/-- A text that reads as a style and then as a component is a document of these. -/
theorem read?_of_beforeCard {source : Text} {style : Style}
    (stepped : (Draft.start source).step = some (Draft.beforeCard style))
    (length : Text.bytes source = style.span.stop + 12) :
    read? source = .ok (styledDocument style) := by
  have named : (Draft.beforeCard style).cursor.tagName? = some "A" := tagName?_card _
  have stepped' : (Draft.beforeCard style).step = some (Draft.beforeCard style).readElement := by
    rw [Draft.step_of_top (startsConstruct_cons rfl _) rfl (by exact nofun),
      Draft.readTop_of_other fun _ => by rw [named]; decide]
    rfl
  have element : (Draft.beforeCard style).readElement = ⟨⟨style.span.stop + 12, []⟩, [],
      (styledDocument style).template.nodes, none, none, some style, []⟩ := by
    have known : isUnknownSpecial "A" = false := by rfl
    unfold Draft.readElement
    rw [show (Draft.beforeCard style).cursor = ⟨style.span.stop, card⟩ from rfl, openTag_cardAt]
    simp only [known]
    rfl
  unfold read? Markup.read
  rw [Draft.run_of_step stepped, Draft.run_of_step stepped', element,
    Draft.run_of_step_eq_none (by rfl)]
  simp only [Draft.document, length]
  rfl

/-- A style that starts with a directive, and a component. -/
def directiveCard : Text :=
  styleLead ++ (['@', 'a', 'p', 'p', 'l', 'y', ' ', 'p', ';', '\x7d'] ++ (styleTail ++ card))

/-- What is left of it without the directive. -/
def braceCard : Text := styleLead ++ ('\x7d' :: (styleTail ++ card))

/-- The style in what is left. -/
def braceStyle : Style := ⟨⟨0, 16⟩, ⟨7, 8⟩, "\x7d", []⟩

/-- Without its directive, the text begins with the brace that closed the rule. -/
theorem ofDocument_directiveCard : Stripped.ofDocument directiveCard 0 =
    ⟨0, [⟨styleLead, ['@', 'a', 'p', 'p', 'l', 'y', ' ', 'p', ';']⟩],
      '\x7d' :: (styleTail ++ card)⟩ := by
  cbv

/-- The text without its directive is read as a style and a component. -/
theorem read?_braceCard : read? braceCard = .ok (styledDocument braceStyle) := by
  refine read?_of_beforeCard ?_ (by decide)
  rw [Draft.step_styleLead rfl rfl]
  unfold Draft.readStyle rawElement
  rw [show (Draft.start braceCard).cursor = ⟨0, styleLead ++ ('\x7d' :: (styleTail ++ card))⟩ from rfl,
    openTag_styleLead]
  rfl

/-- The rule goes in front of the directive. -/
theorem hoist_places_rules_directiveCard :
    Text.bytes directiveCard ≤ Offset.limit ∧ ∃ code map edits before after,
      hoist ⟨false, false⟩ directiveCard none = .ok ⟨code, some map⟩ ∧
        directiveCard = before ++ '>' :: after ∧ Text.bytes before = 6 ∧
          code = renameMarkers ⟨false, false⟩ (Patch.overwritten edits 0 before ++
            '>' :: (GlobalRule.renderAll [cardRule] ++
              Patch.overwritten edits (Text.bytes before + 1) after)) := by
  have small : Text.bytes directiveCard ≤ Offset.limit := by decide
  have begins : (ReadableRange.ofContent directiveCard).start? = some 0 := by rfl
  have alone := ofDocument_directiveCard
  have read : read? (Stripped.ofDocument directiveCard 0).text =
      .ok (styledDocument braceStyle) := by
    rw [alone]
    exact read?_braceCard
  obtain ⟨code, map, done⟩ : ∃ code map,
      hoist ⟨false, false⟩ directiveCard none = .ok ⟨code, some map⟩ :=
    ⟨_, exists_hoist small begins read ⟨false, false⟩ none⟩
  obtain ⟨start, document, begun, isRead, sites⟩ := hoist_places_rules small done
  obtain rfl : 0 = start := Option.some.inj (begins.symm.trans begun)
  obtain rfl : styledDocument braceStyle = document := Except.ok.inj (read.symm.trans isRead)
  obtain ⟨tag, opening, -, ⟨lead, more, rest, whole, atStart, -, isTag⟩, stands, -, own⟩ :=
    (sites (GlobalRule.renderAll_eq_nil_iff.not.mpr (List.cons_ne_nil cardRule []))).2 braceStyle rfl
  rw [alone] at whole stands own
  obtain rfl := Text.bytes_eq_zero.mp atStart
  have isStart : '<' :: more = styleLead ++ ('\x7d' :: (styleTail ++ card)) := whole.symm
  rw [isStart, openTag_styleLead] at isTag
  obtain rfl : ⟨0, "style", [], false⟩ = tag := Option.some.inj (congrArg Reading.value isTag)
  obtain rfl : opening = ['<', 's', 't', 'y', 'l', 'e'] := by
    have isLead : Text.slice? braceCard 0 7 = some (['<', 's', 't', 'y', 'l', 'e'] ++ ['>']) := by
      rfl
    exact List.append_cancel_right (Option.some.inj (stands.slice?_eq.symm.trans isLead))
  obtain ⟨before, after, split, counted, -, isCode⟩ := own rfl (by unfold TakesSlash; decide)
  exact ⟨small, code, map, _, before, after, done, split, counted, isCode⟩

/-- A style whose tag has a value that takes in the slash at its end, and a component. -/
def slashCard : Text :=
  ['<', 's', 't', 'y', 'l', 'e', ' ', 'a', '=', 'b', '<', '/', '>', 'p', '\x7b', '\x7d'] ++
    (styleTail ++ card)

/-- The tag of the style. -/
def slashTag : OpenTag := ⟨0, "style", [.named ⟨7, 11⟩ "a" (.text ⟨⟨9, 11⟩, "b<"⟩)], false⟩

/-- The style. -/
def slashStyle : Style := ⟨⟨0, 24⟩, ⟨13, 16⟩, "p\x7b\x7d", slashTag.attributes⟩

/-- The tag of the style takes in the slash at its end. -/
theorem openTag_slashCard : openTag (Cursor.start slashCard) =
    ⟨some slashTag, [], ⟨13, ['p', '\x7b', '\x7d'] ++ (styleTail ++ card)⟩⟩ := by
  let place : Cursor := ⟨12, ['>', 'p', '\x7b', '\x7d'] ++ (styleTail ++ card)⟩
  have named : Cursor.tagName? (Cursor.start slashCard) = some "style" := by rfl
  have first : attribute? (Cursor.start slashCard).bump.bump =
      some ⟨slashTag.attributes.head?, [], place⟩ := by rfl
  have last : attribute? place = none := by rfl
  have all : attributes (Cursor.start slashCard).bump.bump =
      ⟨slashTag.attributes, [], place⟩ := by
    rw [attributes_of_attribute? first, attributes_of_attribute?_eq_none last]
    rfl
  unfold openTag
  simp only [named, all]
  rfl

/-- The text is read as a style with content and a component. -/
theorem read?_slashCard : read? slashCard = .ok (styledDocument slashStyle) := by
  refine read?_of_beforeCard ?_ (by decide)
  have stepped : (Draft.start slashCard).step = some (Draft.start slashCard).readStyle := by rfl
  rw [stepped]
  unfold Draft.readStyle rawElement
  rw [show (Draft.start slashCard).cursor = Cursor.start slashCard from rfl, openTag_slashCard]
  rfl

/-- The style has content, and the rule is put behind all of it. -/
theorem hoist_appends_behind_slash :
    ∃ document style tag map, read? slashCard = .ok document ∧ document.style = some style ∧
      tag.name = "style" ∧ tag.selfClosing = false ∧
      OpenTagAt slashCard style.span.start tag style.contentSpan.start ∧
      hoist ⟨false, false⟩ slashCard none = .ok
        ⟨("<style a=b</>p\x7b\x7d</style><A class=deep_b/>" ++
          "<style> :global(.deep_b) \x7b @apply b; \x7d</style>").toList, some map⟩ := by
  have begins : (ReadableRange.ofContent slashCard).start? = some 0 := by rfl
  obtain ⟨map, done⟩ :=
    exists_hoist_of_read? (by decide) begins rfl read?_slashCard ⟨false, false⟩ none
  have isRules : renderedRules ⟨false, false⟩ slashCard ⟨0, [], slashCard⟩
      (styledDocument slashStyle) = GlobalRule.renderAll [cardRule] := by rfl
  have output : (documentPatch ⟨false, false⟩ slashCard ⟨0, [], slashCard⟩
      (styledDocument slashStyle)).output =
        ("<style a=b</>p\x7b\x7d</style><A class=deep_b/>" ++
          "<style> :global(.deep_b) \x7b @apply b; \x7d</style>").toList := by
    unfold documentPatch
    rw [isRules]
    rfl
  rw [output] at done
  exact ⟨_, slashStyle, slashTag, map, read?_slashCard, rfl, rfl, rfl,
    ⟨[], _, _, rfl, rfl, by rfl, openTag_slashCard⟩, done⟩

end ClassHoist
