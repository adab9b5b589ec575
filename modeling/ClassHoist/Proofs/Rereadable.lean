import ClassHoist.Proofs.Divided

/-! # Documents that can be read again

A document that has been processed can be read again if renaming keeps apart the names of the elements
that are open together, if the rules do not end the style they are put in, and if they do not go into a
second style or into a directive (`Rereadable`). Then the document falls into parts that can be
exchanged (`Rereadable.exists_parted`): what takes the place of classes fits there.
-/

namespace ClassHoist

open Markup Directive

/-- Every character of joined classes is from the group or plain in a selector. -/
theorem isPlainInSelector_of_mem_joinClasses {c : Char} {group : Text}
    (member : c ∈ joinClasses false group) : c ∈ group ∨ isPlainInSelector c = true := by
  rcases mem_of_mem_joinClasses member with inGroup | rfl | rfl
  · exact .inl inGroup
  · exact .inr rfl
  · exact .inr rfl

/-- Joined classes end like the group they are joined from. -/
theorem endsAlike_joinClasses (group : Text) : EndsAlike group (joinClasses false group) := by
  rintro c (rfl | rfl | rfl) <;> exact getLast?_joinClasses (by decide) false group

/-- The name of a group fits in place of its classes. -/
theorem fits_groupName {group : Text} (nonempty : group ≠ []) : Fits group (groupName group) where
  nonempty := List.cons_ne_nil _ _
  chars c member := by
    rcases List.mem_append.mp member with inLead | inName
    · have plain : (['d', 'e', 'e', 'p', '_'] : Text).all isPlainInSelector = true := rfl
      exact .inr (List.all_eq_true.mp plain c inLead)
    · exact isPlainInSelector_of_mem_joinClasses inName
  first c isFirst := .inr (Option.some.inj isFirst ▸ rfl)
  ends c sign := by
    rw [groupName, List.getLast?_append_of_ne_nil _ (joinClasses_ne_nil nonempty)]
    exact endsAlike_joinClasses group c sign

/-- Joined classes fit where the classes start with a closing brace. -/
theorem fits_joinClasses {group more : Text} (brace : group = '\x7d' :: more) :
    Fits group (joinClasses false group) where
  nonempty := joinClasses_ne_nil (brace ▸ List.cons_ne_nil _ _)
  chars c member := isPlainInSelector_of_mem_joinClasses member
  first c isFirst := by
    subst brace
    exact .inl (isFirst : (joinClasses false ('\x7d' :: more)).head? = some c)
  ends := endsAlike_joinClasses group

variable {stripped : Stripped} {content : Text} {document : Document}

/-- Classes that directly follow a directive start with a closing brace. -/
theorem exists_brace_of_cut {cuts : List Hit} {tail before part after : Text}
    (cut : Stripped.AtDirectives cuts tail)
    (whole : Stripped.kept cuts tail = before ++ (part ++ after)) (nonempty : part ≠ [])
    (isCut : Stripped.restore (fun cut place => cut < place) cuts (Text.bytes before) <
      Stripped.restore (fun cut place => cut ≤ place) cuts (Text.bytes before)) :
    ∃ more, part = '\x7d' :: more := by
  obtain ⟨text, cuts', tail', parts, keeps⟩ := cut.exists_front whole
  obtain ⟨front, cuts'', cleared⟩ := parts.cut.exists_cleared
  have someFront : front ≠ [] := by
    have starts := parts.counted Stripped.cutoff_le 0
    rw [cleared.restore_le] at starts
    rintro rfl
    rw [parts.restore_lt, show Text.bytes before = Text.bytes before + 0 from rfl, starts] at isCut
    exact absurd isCut (Nat.lt_irrefl _)
  have closes := (cleared.settles.isDirective_of_nil someFront).2
  have left := cleared.cut.settles
  rw [cleared.keeps, keeps] at left
  cases same : Stripped.joined cuts'' tail' with
  | nil =>
    rw [same] at left
    have short := left.length_le
    rw [List.length_append, List.length_nil] at short
    exact absurd (List.length_eq_zero_iff.mp (by omega)) nonempty
  | cons c rest =>
    rw [same] at closes left
    obtain ⟨more, split⟩ := left.exists_brace (congrArg some (closes c rfl))
    cases part with
    | nil => exact absurd rfl nonempty
    | cons d part => exact ⟨part, by rw [(List.cons.inj split).1]⟩

/-- What is shown in place of classes fits there. -/
theorem fits_shownName (cut : Stripped.AtDirectives stripped.cuts stripped.tail)
    (placed : document.Placed stripped.text) {usage : Usage} (member : usage ∈ document.usages) :
    Fits usage.group (stripped.shownName usage) := by
  obtain ⟨nonempty, before, after, whole, start, -⟩ := placed.holds usage member
  unfold Stripped.shownName
  split
  case isTrue isCut =>
    rw [← start] at isCut
    obtain ⟨more, brace⟩ :=
      exists_brace_of_cut cut whole nonempty (Nat.lt_of_add_lt_add_left isCut)
    exact fits_joinClasses brace
  case isFalse => exact fits_groupName nonempty

/-- The end of a rule is left of it, wherever the rule stands. -/
theorem GlobalRule.exists_settles_render (rule : GlobalRule) :
    ∃ left, ∀ behind, Settles behind rule.render (left ++ ['\x7d']) := by
  obtain ⟨text, isRule⟩ : ∃ text, rule.render = text ++ ruleEnd := ⟨_, rfl⟩
  rw [isRule]
  exact exists_settles_ruleEnd text

/-- What is left of rules, wherever they stand, ends with a brace. -/
theorem GlobalRule.settles_renderAll (rules : List GlobalRule) :
    (∀ behind, Settles behind (renderAll rules) (strip (renderAll rules))) ∧
      (rules = [] ∨ (strip (renderAll rules)).getLast? = some '\x7d') := by
  obtain ⟨left, settles, last⟩ : ∃ left, (∀ behind, Settles behind (renderAll rules) left) ∧
      (rules = [] ∨ left.getLast? = some '\x7d') := by
    induction rules with
    | nil => exact ⟨[], fun _ => .nil, .inl rfl⟩
    | cons rule rules ih =>
      obtain ⟨first, here⟩ := rule.exists_settles_render
      obtain ⟨left, later, last⟩ := ih
      refine ⟨first ++ ['\x7d'] ++ left, fun behind => .append (here _) (later behind), .inr ?_⟩
      rcases last with rfl | isLast
      · rw [List.length_eq_zero_iff.mp (Nat.le_zero.mp (later []).length_le), List.append_nil,
          List.getLast?_concat]
      · rw [List.getLast?_append, isLast]
        rfl
  have isLeft : strip (renderAll rules) = left := by
    have cut := (settles []).strip_append
    rwa [List.append_nil, strip, strip, Pattern.replaceAll_nil, List.append_nil] at cut
  exact isLeft ▸ ⟨settles, last⟩

/-- A content without the lead of a closing tag is quiet. -/
theorem Markup.quiet_of_absent {lead content : Text} (absent : ¬ lead <:+: content) :
    Quiet (Text.startsWith lead) content [] := by
  induction content with
  | nil => trivial
  | cons c content ih =>
    refine ⟨?_, ih fun inRest => absent (inRest.trans (List.suffix_cons c content).isInfix)⟩
    rw [List.append_nil]
    refine Bool.eq_false_iff.mpr fun starts => absent ?_
    obtain ⟨rest, split⟩ := Option.isSome_iff_exists.mp starts
    exact ⟨[], rest, (Text.dropLead?_eq_some.mp split).symm⟩

/-- Renaming keeps apart the names of elements that are open together while a text is read. -/
def Markup.KeepsApart (options : Options) (text : Text) : Prop :=
  ∀ draft, Relation.ReflTransGen (fun draft next : Draft => draft.step = some next)
    (Draft.start text) draft → Apart options (· ∈ draft.openNames)

/-- Where no marks are enabled, all names are kept apart. -/
theorem Markup.keepsApart_of_names_eq_nil {options : Options} (none : options.names = [])
    (text : Text) : KeepsApart options text := by
  intro draft _ first second _ _ same
  have alone (name : String) : renamedName options name = name := by
    rw [renamedName, renameMarkers_eq, none, underscored_nil_names, String.ofList_toList]
  rwa [alone, alone] at same

/-- What is asked of a document read from an offset of a content on, for it to be read again once it
has been processed: elements that are open together do not get equal names, the rules do not end the
style they are put in, they go into the style of the document if it has one, and no directive takes in
a new style at the end if they need one. Without any of these the output can be refused. -/
structure Rereadable (options : Options) (content : Text) (start : Nat) (document : Document) :
    Prop where
  names : KeepsApart options (Stripped.ofDocument content start).text
  rules : ¬ closingLead "style" <:+:
    strip (renderedRules options content (Stripped.ofDocument content start) document)
  own : renderedRules options content (Stripped.ofDocument content start) document ≠ [] →
    document.style ≠ none → ownSite? content (Stripped.ofDocument content start) document ≠ none
  appended : renderedRules options content (Stripped.ofDocument content start) document ≠ [] →
    document.style = none → (Stripped.ofDocument (content ++ emptyStyle) start).text =
      (Stripped.ofDocument content start).text ++ emptyStyle

/-- In front of a sign that ends no directive, nothing is cut out. -/
theorem Directive.Settles.getLast?_eq {c d : Char} {behind text left : Text}
    (settles : Settles (c :: behind) text left) (other : c ≠ '\x7d')
    (isLast : left.getLast? = some d) : text.getLast? = some d := by
  have someText {text left : Text} (settles : Settles (c :: behind) text left)
      (nonempty : left ≠ []) : text ≠ [] := by
    rintro rfl
    exact nonempty (List.length_eq_zero_iff.mp (Nat.le_zero.mp settles.length_le))
  induction settles with
  | nil => exact isLast
  | @keep e text left unmatched settles ih =>
    by_cases none : left = []
    · subst none
      by_cases empty : text = []
      · rwa [empty]
      · exact absurd ((settles.isDirective_of_nil empty).2 c rfl) other
    · have getLast (text : Text) (nonempty : text ≠ []) :
          (e :: text).getLast? = text.getLast? := by
        obtain ⟨f, more, rfl⟩ := List.exists_cons_of_ne_nil nonempty
        exact List.getLast?_cons_cons
      rw [getLast left none] at isLast
      rw [getLast text (someText settles none)]
      exact ih isLast
  | @cut found text left isDirective closes settles ih =>
    have nonempty : left ≠ [] := by
      rintro rfl
      cases isLast
    rw [List.getLast?_append_of_ne_nil _ (someText settles nonempty)]
    exact ih isLast

/-- Rules go into a style only if its tag does not close itself. -/
theorem followsOpenTag_of_styleOffset? {style : Style} {offset : Nat}
    (isFrom : stripped.IsFrom content) (cut : Stripped.AtDirectives stripped.cuts stripped.tail)
    (found : styleOffset? content stripped style.contentSpan.start = some offset) :
    style.FollowsOpenTag 0 stripped.text := by
  intro before after whole start closesItself
  obtain ⟨lead, isContent, base⟩ := isFrom
  obtain ⟨text, cuts, tail, parts, -⟩ :=
    cut.exists_front (show Stripped.kept stripped.cuts stripped.tail = before ++ after from whole)
  have place : stripped.mapEnd style.contentSpan.start = Text.bytes (lead ++ text) := by
    rw [Text.bytes_append, base, start, Nat.zero_add]
    exact congrArg (stripped.base + ·) parts.restore_lt
  have opens : endsWithOpenTag (lead ++ text) = true := by
    obtain ⟨rfl, front, back, isParts, opens⟩ := eq_mapEnd_of_styleOffset? found
    rw [place, isContent, parts.joins, ← List.append_assoc, Text.splitAt?_append] at isParts
    exact (Prod.mk.inj (Option.some.inj isParts)).1 ▸ opens
  obtain ⟨front, rfl⟩ := closesItself
  rcases parts.settled with ⟨-, none⟩ | ⟨text, left, c, rfl, split, settles, -⟩
  · exact absurd none (List.append_ne_nil_of_right_ne_nil _ (List.cons_ne_nil _ _))
  · have splits : front ++ ['/'] ++ ['>'] = left ++ [c] := by
      rw [List.append_assoc]
      exact split
    obtain ⟨rfl, isLast⟩ := List.append_inj' splits rfl
    obtain rfl := (List.cons.inj isLast).1
    have slash := settles.getLast?_eq (by decide) (List.getLast?_concat ..)
    obtain ⟨more, rfl⟩ := List.getLast?_eq_some_iff.mp slash
    rw [endsWithOpenTag] at opens
    simp only [List.reverse_append, List.reverse_cons, List.reverse_nil, List.nil_append,
      List.cons_append] at opens
    cases opens

/-- The cuts of a document are where its directives are. -/
theorem Stripped.atDirectives_ofDocument (content : Text) (start : Nat) :
    AtDirectives (ofDocument content start).cuts (ofDocument content start).tail :=
  atDirectives_hits _

/-- What takes the place of classes, and the rules, once directives have been cut out. -/
def rewriting (options : Options) (content : Text) (stripped : Stripped) (document : Document) :
    Exchange :=
  ⟨stripped.shownName, strip (renderedRules options content stripped document)⟩

section Rewriting

variable {options : Options} {start : Nat}

/-- What is left of rules without directives ends with a brace. -/
theorem renderedRules_ends :
    (rewriting options content stripped document).rules = [] ∨
      (rewriting options content stripped document).rules.getLast? = some '\x7d' := by
  refine (GlobalRule.settles_renderAll _).2.imp_left fun none => ?_
  rw [rewriting, renderedRules, none]
  exact Pattern.replaceAll_nil _ _

/-- Nothing is written into the style exactly if no rule is rendered. -/
theorem rewriting_rules_eq_nil_iff :
    (rewriting options content stripped document).rules = [] ↔
      renderedRules options content stripped document = [] := by
  constructor
  · intro noneLeft
    refine GlobalRule.renderAll_eq_nil_iff.mpr
      ((GlobalRule.settles_renderAll _).2.resolve_right fun isLast => ?_)
    have someLeft : (rewriting options content stripped document).rules.getLast? = some '\x7d' :=
      isLast
    rw [noneLeft] at someLeft
    cases someLeft
  · intro none
    rw [rewriting, none]
    exact Pattern.replaceAll_nil _ _

/-- What takes the place of classes and the rules can stand there. -/
theorem Rereadable.sound (asked : Rereadable options content start document)
    (readable : Readable content (Stripped.ofDocument content start) document) :
    (rewriting options content (Stripped.ofDocument content start) document).Sound
      document.usages where
  fits _ member :=
    fits_shownName (Stripped.atDirectives_ofDocument content start) readable.placed member
  quiet := quiet_of_absent asked.rules
  ends := renderedRules_ends

/-- The parts of a document that can be read again. -/
theorem Rereadable.exists_parted (asked : Rereadable options content start document)
    (readable : Readable content (Stripped.ofDocument content start) document)
    (done : read? (Stripped.ofDocument content start).text = .ok document) :
    ∃ parts, Draft.Parted options
      (rewriting options content (Stripped.ofDocument content start) document)
      (Draft.start (Stripped.ofDocument content start).text) parts := by
  obtain ⟨clean, isUsages, isStyle⟩ := run_of_read? done
  refine Draft.run_replays (fun opened member => nomatch member) clean asked.names
    (isUsages ▸ asked.sound readable) fun someRules style found => ?_
  rw [← isStyle] at found
  obtain ⟨offset, isPlace⟩ := Option.ne_none_iff_exists'.mp
    (asked.own (mt rewriting_rules_eq_nil_iff.mpr someRules) (found ▸ Option.some_ne_none style))
  rw [ownSite?, found] at isPlace
  exact followsOpenTag_of_styleOffset? readable.isFrom
    (Stripped.atDirectives_ofDocument content start) isPlace

end Rewriting

end ClassHoist
