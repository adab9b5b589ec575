import ClassHoist.Directive
import ClassHoist.Proofs.ClassValueSlots
import ClassHoist.Proofs.Matches
import ClassHoist.Proofs.Names
import Mathlib.Data.List.TakeWhile

/-! # Directives in a text that is edited

Whether a directive starts somewhere is settled by the text up to the closing brace behind it, so
cutting out directives is described together with the text that follows (`Settles`): a prefix of a
text settles if no directive in it goes on behind it. What is left of a prefix stays the same where
other text follows that starts alike (`Settles.congr`), and cutting goes with renaming
(`renamed_strip`).
-/

namespace ClassHoist.Directive

open Markup

variable {text rest found left behind : Text} {c : Char}

/-- The text of a directive. -/
def IsDirective (found : Text) : Prop :=
  ∃ first braces run, found = lead ++ first :: (braces ++ run) ∧ (∀ c ∈ braces, c = '\x7d') ∧
    run ≠ [] ∧ ∀ c ∈ run, c ≠ '\x7d'

/-- The text ends, or a closing brace comes next. -/
def Closes (text : Text) : Prop := ∀ c ∈ text.head?, c = '\x7d'

/-- A directive is read as far as the next closing brace that does not follow its start. -/
theorem read_eq_some_iff : pattern.read text = some (found, rest) ↔
    IsDirective found ∧ text = found ++ rest ∧ Closes rest := by
  constructor
  · intro matched
    have split := pattern.read_append matched
    unfold pattern at matched
    simp only at matched
    split at matched
    case h_1 first body same =>
      split at matched
      case isTrue => cases matched
      case isFalse someRun =>
        obtain ⟨rfl, rfl⟩ := Prod.mk.inj (Option.some.inj matched)
        refine ⟨⟨first, _, _, rfl, fun c member => ?_, ?_, fun c member => ?_⟩, split.symm,
          fun c isFirst => ?_⟩
        · exact beq_iff_eq.mp (List.mem_takeWhile_imp (p := (· == '\x7d')) member)
        · have stops : ∀ d ∈ (body.dropWhile (· == '\x7d')).head?, (d == '\x7d') = false :=
            head?_dropWhile body
          cases same : body.dropWhile (· == '\x7d') with
          | nil => exact absurd (List.isEmpty_iff.mpr same) someRun
          | cons c more =>
            rw [same] at stops
            have other := stops c rfl
            rw [List.takeWhile_cons_of_pos (by simpa using other)]
            exact List.cons_ne_nil _ _
        · exact bne_iff_ne.mp (List.mem_takeWhile_imp (p := (· != '\x7d')) member)
        · have closes : (c != '\x7d') = false := head?_dropWhile _ c isFirst
          simpa using closes
    case h_2 => cases matched
  · rintro ⟨⟨first, braces, run, rfl, isBrace, nonempty, isRun⟩, rfl, closes⟩
    have body : Text.dropLead? lead (lead ++ first :: (braces ++ run) ++ rest) =
        some (first :: (braces ++ (run ++ rest))) := by
      rw [Text.dropLead?_eq_some]
      simp only [List.append_assoc, List.cons_append]
    have someRun : run ++ rest ≠ [] := fun none => nonempty (List.append_eq_nil_iff.mp none).1
    have braces' : ∀ c ∈ braces, (c == '\x7d') = true := fun c member =>
      beq_iff_eq.mpr (isBrace c member)
    have starts : ∀ c ∈ (run ++ rest).head?, (c == '\x7d') = false := by
      rw [List.head?_append_of_ne_nil _ nonempty]
      exact fun c isFirst => beq_eq_false_iff_ne.mpr (isRun c (List.mem_of_mem_head? isFirst))
    have run' : ∀ c ∈ run, (c != '\x7d') = true := fun c member => bne_iff_ne.mpr (isRun c member)
    have stops : ∀ c ∈ rest.head?, (c != '\x7d') = false := fun c isFirst => by
      rw [closes c isFirst]
      rfl
    unfold pattern
    simp only [body, takeWhile_blanks braces' starts, dropWhile_blanks braces' starts,
      takeWhile_blanks run' stops, dropWhile_blanks run' stops,
      List.isEmpty_eq_false_iff.mpr someRun, Bool.false_eq_true, ↓reduceIte]

/-- Where a directive starts but none is read, the text ends too early. -/
theorem eq_of_read_eq_none (unmatched : pattern.read (lead ++ text) = none) :
    text = [] ∨ ∃ first braces, text = first :: braces ∧ ∀ c ∈ braces, c = '\x7d' := by
  cases text with
  | nil => exact .inl rfl
  | cons first body =>
    refine .inr ⟨first, body, rfl, ?_⟩
    have split : Text.dropLead? lead (lead ++ first :: body) = some (first :: body) :=
      Text.dropLead?_eq_some.mpr rfl
    unfold pattern at unmatched
    simp only [split] at unmatched
    split at unmatched
    case isTrue none =>
      intro c member
      exact beq_iff_eq.mp (List.dropWhile_eq_nil_iff.mp (List.isEmpty_iff.mp none) c member)
    case isFalse => cases unmatched

/-- No directive is read where the text does not begin with the lead. -/
theorem read_eq_none_of_not_starts (other : ¬ lead <+: text) : pattern.read text = none := by
  cases matched : pattern.read text with
  | none => rfl
  | some parts =>
    obtain ⟨found, rest⟩ := parts
    obtain ⟨⟨first, braces, run, rfl, -⟩, rfl, -⟩ := read_eq_some_iff.mp matched
    exact absurd ⟨_, (List.append_assoc _ _ _).symm⟩ other

/-- A directive starts with the sign that starts no other part of it. -/
theorem IsDirective.exists_cons (isDirective : IsDirective found) :
    ∃ more, found = '@' :: 'a' :: 'p' :: 'p' :: 'l' :: 'y' :: ' ' :: more := by
  obtain ⟨first, braces, run, rfl, -⟩ := isDirective
  exact ⟨_, rfl⟩

/-- A directive in front of its closing brace is read as a whole. -/
theorem read_append_of_isDirective (isDirective : IsDirective found) (closes : Closes rest) :
    pattern.read (found ++ rest) = some (found, rest) :=
  read_eq_some_iff.mpr ⟨isDirective, rfl, closes⟩

/-- A directive goes on up to a closing brace. -/
theorem IsDirective.append (isDirective : IsDirective found) {more : Text}
    (noBrace : '\x7d' ∉ more) : IsDirective (found ++ more) := by
  obtain ⟨first, braces, run, rfl, isBrace, nonempty, isRun⟩ := isDirective
  refine ⟨first, braces, run ++ more, ?_, isBrace,
    fun none => nonempty (List.append_eq_nil_iff.mp none).1, fun c member => ?_⟩
  · simp only [List.append_assoc, List.cons_append]
  · rcases List.mem_append.mp member with inRun | inMore
    · exact isRun c inRun
    · rintro rfl
      exact noBrace inMore

/-- Marks behind a text end every directive that starts in it. -/
theorem not_prefix_of_busy (text : Text) (busy : Busy behind)
    (unmatched : pattern.read (text ++ behind) = none) : ¬ lead <+: text ++ behind := by
  rintro ⟨more, split⟩
  obtain ⟨c, d, inBehind, inBehind', mark, mark', other⟩ := busy
  rw [← split] at unmatched
  have inMore {c : Char} (inBehind : c ∈ behind) (mark : isMark c = true) : c ∈ more := by
    have member : c ∈ lead ++ more := split ▸ List.mem_append_right text inBehind
    refine (List.mem_append.mp member).resolve_left fun inLead => ?_
    have noMark : lead.all (fun c => !isMark c) = true := rfl
    have none := List.all_eq_true.mp noMark c inLead
    rw [mark] at none
    cases none
  rcases eq_of_read_eq_none unmatched with rfl | ⟨first, braces, rfl, isBrace⟩
  · cases inMore inBehind mark
  · have isFirst {c : Char} (inBehind : c ∈ behind) (mark : isMark c = true) : c = first := by
      refine (List.mem_cons.mp (inMore inBehind mark)).resolve_right fun inBraces => ?_
      rw [isBrace c inBraces] at mark
      cases mark
    exact other ((isFirst inBehind mark).trans (isFirst inBehind' mark').symm)

/-- Cutting out directives passes the first text, in front of the text behind, and leaves the
second. -/
inductive Settles (behind : Text) : Text → Text → Prop where
  | nil : Settles behind [] []
  | keep {c : Char} {text left : Text} (unmatched : pattern.read (c :: (text ++ behind)) = none)
      (more : Settles behind text left) : Settles behind (c :: text) (c :: left)
  | cut {found text left : Text} (isDirective : IsDirective found) (closes : Closes (text ++ behind))
      (more : Settles behind text left) : Settles behind (found ++ text) left

namespace Settles

/-- Text that settles is stripped apart from what stands behind it. -/
theorem strip_append (settles : Settles behind text left) :
    strip (text ++ behind) = left ++ strip behind := by
  induction settles with
  | nil => rfl
  | keep unmatched more ih =>
    rw [strip, List.cons_append, Pattern.replaceAll_of_read_eq_none unmatched]
    exact congrArg _ ih
  | @cut found text left isDirective closes more ih =>
    have matched := read_append_of_isDirective isDirective closes
    obtain ⟨more, rfl⟩ := isDirective.exists_cons
    rw [List.append_assoc, strip]
    exact (Pattern.replaceAll_of_read matched).trans ih

/-- Texts that settle may stand one behind the other. -/
theorem append {second left' : Text} (first : Settles (second ++ behind) text left)
    (settles : Settles behind second left') : Settles behind (text ++ second) (left ++ left') := by
  induction first with
  | nil => exact settles
  | keep unmatched more ih =>
    refine .keep ?_ ih
    rwa [← List.append_assoc] at unmatched
  | cut isDirective closes more ih =>
    rw [List.append_assoc]
    refine .cut isDirective ?_ ih
    rwa [List.append_assoc]

/-- A closing brace is always left. -/
theorem exists_brace (settles : Settles behind text left) (first : text.head? = some '\x7d') :
    ∃ more, left = '\x7d' :: more := by
  cases settles with
  | nil => cases first
  | keep unmatched more => exact ⟨_, by rw [Option.some.inj first]⟩
  | cut isDirective closes more =>
    obtain ⟨more, rfl⟩ := isDirective.exists_cons
    cases first

/-- A text without closing braces that is left at the front stands at the front. -/
theorem starts_of_starts {part : Text} (settles : Settles behind text left) (more : behind ≠ [])
    (open_ : behind.head? ≠ some '\x7d') (noBrace : '\x7d' ∉ part)
    (starts : part <+: left ++ behind) : part <+: text ++ behind := by
  induction settles generalizing part with
  | nil => exact starts
  | @keep c text left unmatched settles ih =>
    cases part with
    | nil => exact List.nil_prefix
    | cons d part =>
      obtain ⟨same, starts⟩ := List.cons_prefix_cons.mp starts
      exact List.cons_prefix_cons.mpr
        ⟨same, ih (fun member => noBrace (List.mem_cons_of_mem _ member)) starts⟩
  | @cut found text left isDirective closes settles ih =>
    have first : text.head? = some '\x7d' := by
      cases text with
      | nil =>
        cases behind with
        | nil => exact absurd rfl more
        | cons c behind => exact absurd (congrArg some (closes c rfl)) open_
      | cons c text => exact congrArg some (closes c rfl)
    obtain ⟨left, rfl⟩ := settles.exists_brace first
    cases part with
    | nil => exact List.nil_prefix
    | cons d part =>
      obtain ⟨rfl, -⟩ := List.cons_prefix_cons.mp starts
      exact absurd List.mem_cons_self noBrace

/-- What stands behind the character that follows a text can be exchanged. -/
theorem congr {behind' : Text} (settles : Settles (c :: behind) text left)
    (settled : c ∉ lead.dropLast) (busy : Busy behind) : Settles (c :: behind') text left := by
  induction settles with
  | nil => exact .nil
  | @keep d text left unmatched settles ih =>
    refine .keep (read_eq_none_of_not_starts fun starts => ?_) ih
    refine not_prefix_of_busy (d :: text ++ [c]) busy ?_ ?_
    · simpa only [List.cons_append, List.append_assoc, List.nil_append] using unmatched
    · obtain ⟨more, split⟩ := starts
      have split : lead ++ more = (d :: text) ++ (c :: behind') := split
      rcases List.append_eq_append_iff.mp split with
        ⟨inner, isText, -⟩ | ⟨inner, isLead, isMore⟩
      · rw [isText, List.append_assoc, List.append_assoc]
        exact List.prefix_append _ _
      · cases inner with
        | nil =>
          rw [List.append_nil] at isLead
          rw [isLead, List.append_assoc]
          exact List.prefix_append _ _
        | cons e inner =>
          obtain rfl := (List.cons.inj isMore).1
          cases inner with
          | nil =>
            rw [isLead]
            exact List.prefix_append _ _
          | cons f inner =>
            refine absurd ?_ settled
            rw [isLead, List.dropLast_append_of_ne_nil (List.cons_ne_nil _ _)]
            exact List.mem_append_right _ List.mem_cons_self
  | @cut found text left isDirective closes settles ih =>
    refine .cut isDirective ?_ ih
    cases text with
    | nil => exact closes
    | cons d text => exact closes

/-- No directive starts at the end of what is left. -/
theorem not_prefix {part : Text} (settles : Settles behind text left) (busy : Busy behind)
    (open_ : behind.head? ≠ some '\x7d') (isSuffix : part <:+ left) (nonempty : part ≠ []) :
    ¬ lead <+: part ++ behind := by
  induction settles with
  | nil => exact absurd (List.suffix_nil.mp isSuffix) nonempty
  | @keep c text left unmatched settles ih =>
    rcases List.suffix_cons_iff.mp isSuffix with rfl | later
    · intro starts
      refine not_prefix_of_busy (c :: text) busy unmatched ?_
      refine (Settles.keep unmatched settles).starts_of_starts ?_ open_ (by decide) starts
      rintro rfl
      obtain ⟨c, d, inBehind, -⟩ := busy
      cases inBehind
    · exact ih later
  | cut isDirective closes settles ih => exact ih isSuffix

/-- A text without blanks is left as it is, if no directive starts at its end. -/
theorem self {name : Text} (noBlank : ' ' ∉ name) (first : ∀ c ∈ behind.head?, c ∉ lead.dropLast)
    (ends : behind.head? = some ' ' → ¬ lead.dropLast <:+ name) : Settles behind name name := by
  induction name with
  | nil => exact .nil
  | cons c name ih =>
    refine .keep (read_eq_none_of_not_starts fun starts => ?_)
      (ih (fun member => noBlank (List.mem_cons_of_mem _ member))
        fun blank isSuffix => ends blank (isSuffix.trans (List.suffix_cons _ _)))
    obtain ⟨more, split⟩ := starts
    have split : lead ++ more = (c :: name) ++ behind := split
    rcases List.append_eq_append_iff.mp split with ⟨inner, isName, -⟩ | ⟨inner, isLead, isBehind⟩
    · exact noBlank (isName ▸ List.mem_append_left _ (by decide))
    · have last : lead.getLast? = some ' ' := rfl
      cases inner with
      | nil =>
        rw [isLead, List.append_nil] at last
        exact noBlank (List.mem_of_getLast? last)
      | cons d inner =>
        cases inner with
        | nil =>
          rw [isLead, List.getLast?_append_of_ne_nil _ (List.cons_ne_nil _ _)] at last
          refine ends (by rw [isBehind]; exact last) ?_
          rw [isLead, List.dropLast_append_of_ne_nil (List.cons_ne_nil _ _)]
          exact (List.append_nil (c :: name)).symm ▸ List.suffix_rfl
        | cons e inner =>
          refine first d (by rw [isBehind]; rfl) ?_
          rw [isLead, List.dropLast_append_of_ne_nil (List.cons_ne_nil _ _)]
          exact List.mem_append_right _ List.mem_cons_self

/-- The name of a group is left as it is where the group is, also without its start. -/
theorem name {group value name behind' : Text} (settles : Settles behind value group)
    (busy : Busy behind) (first : ∀ c ∈ behind.head?, c ≠ '\x7d' ∧ c ∉ lead.dropLast)
    (same : behind'.head? = behind.head?) (isName : name <:+ groupName group) :
    Settles behind' name name := by
  have noBlank : ' ' ∉ groupName group := not_mem_groupName (.inr rfl)
  refine self (fun member => noBlank (isName.subset member))
    (fun c isFirst => (first c (same ▸ isFirst)).2) fun blank isSuffix => ?_
  have plain (c : Char) (member : c ∈ lead.dropLast) : c ≠ '_' ∧ c ≠ '-' := by
    have all : lead.dropLast.all (fun c => c != '_' && c != '-') = true := rfl
    simpa using List.all_eq_true.mp all c member
  have inName : lead.dropLast <:+ ['d', 'e', 'e', 'p'] ++ '_' :: joinClasses false group :=
    isSuffix.trans isName
  have ends : lead.dropLast <:+ group :=
    suffix_of_suffix_joinClasses plain
      (suffix_of_suffix_append_cons (fun member => (plain '_' member).1 rfl) inName)
  rw [same] at blank
  refine settles.not_prefix busy (fun brace => (first '\x7d' brace).1 rfl) ends (by decide) ?_
  cases behind with
  | nil => cases blank
  | cons c behind =>
    obtain rfl := Option.some.inj blank
    exact ⟨behind, rfl⟩

/-- Where nothing is left, there is one directive. -/
theorem isDirective_of_nil (settles : Settles behind text []) (nonempty : text ≠ []) :
    IsDirective text ∧ Closes behind := by
  generalize none : ([] : Text) = left at settles
  cases settles with
  | nil => exact absurd rfl nonempty
  | keep => cases none
  | @cut found text left isDirective closes settles =>
    subst none
    cases text with
    | nil => exact ⟨(List.append_nil found).symm ▸ isDirective, closes⟩
    | cons c text =>
      obtain ⟨more, none⟩ := settles.exists_brace (congrArg some (closes c rfl))
      cases none

end Settles

/-- A directive begins with its sign. -/
theorem read_eq_none_of_ne (other : c ≠ '@') : pattern.read (c :: text) = none :=
  read_eq_none_of_not_starts fun starts => other (List.cons_prefix_cons.mp starts).1.symm

/-- The end of a rule. -/
def ruleEnd : Text := [';', ' ', '\x7d']

/-- The end of a rule settles to itself. -/
theorem settles_ruleEnd : Settles behind ruleEnd ruleEnd :=
  .keep (read_eq_none_of_ne (by decide)) <| .keep (read_eq_none_of_ne (by decide)) <|
    .keep (read_eq_none_of_ne (by decide)) .nil

/-- A closing brace settles to itself. -/
theorem settles_brace : Settles behind ['\x7d'] ['\x7d'] :=
  .keep (read_eq_none_of_ne (by decide)) .nil

/-- A directive in front of the end of a rule ends before the last brace. -/
theorem exists_directive (text : Text) :
    ∃ found rest, lead ++ (text ++ ruleEnd) = found ++ rest ∧ IsDirective found ∧
      ∃ more, rest = '\x7d' :: more ∧
        (more = [] ∨ ∃ text', rest = text' ++ ruleEnd ∧ text'.length ≤ text.length) := by
  -- A directive takes one character whatever it is, closing braces, and then all up to the next
  -- one.
  cases text with
  | nil =>
    refine ⟨lead ++ [';', ' '], ['\x7d'], rfl, ⟨';', [], [' '], rfl, nofun, nofun, ?_⟩, [], rfl,
      .inl rfl⟩
    intro c member
    rw [List.mem_singleton.mp member]
    decide
  | cons first body =>
    have isBrace : ∀ c ∈ body.takeWhile (· == '\x7d'), c = '\x7d' := fun c member =>
      beq_iff_eq.mp (List.mem_takeWhile_imp (p := (· == '\x7d')) member)
    have stops : ∀ c ∈ (body.dropWhile (· == '\x7d')).head?, (c == '\x7d') = false :=
      head?_dropWhile body
    have split : body.takeWhile (· == '\x7d') ++ body.dropWhile (· == '\x7d') = body :=
      List.takeWhile_append_dropWhile
    generalize body.takeWhile (· == '\x7d') = braces at isBrace split
    generalize body.dropWhile (· == '\x7d') = after at stops split
    subst split
    have isRun : ∀ c ∈ after.takeWhile (· != '\x7d'), c ≠ '\x7d' := fun c member =>
      bne_iff_ne.mp (List.mem_takeWhile_imp (p := (· != '\x7d')) member)
    have closes : ∀ c ∈ (after.dropWhile (· != '\x7d')).head?, (c != '\x7d') = false :=
      head?_dropWhile after
    have split' : after.takeWhile (· != '\x7d') ++ after.dropWhile (· != '\x7d') = after :=
      List.takeWhile_append_dropWhile
    generalize after.takeWhile (· != '\x7d') = run at isRun split'
    generalize after.dropWhile (· != '\x7d') = rest at closes split'
    subst split'
    -- Without a closing brace in the run, the directive goes on to the end of the rule.
    cases rest with
    | nil =>
      refine ⟨lead ++ first :: (braces ++ (run ++ [';', ' '])), ['\x7d'], ?_,
        ⟨first, braces, run ++ [';', ' '], rfl, isBrace, by simp, ?_⟩, [], rfl, .inl rfl⟩
      · simp only [ruleEnd, List.append_nil, List.append_assoc, List.cons_append, List.nil_append]
      · intro c member
        rcases List.mem_append.mp member with inRun | isLast
        · exact isRun c inRun
        · rintro rfl
          exact absurd isLast (by decide)
    | cons c rest =>
      have isBrace' : c = '\x7d' := by simpa using closes c rfl
      subst isBrace'
      refine ⟨lead ++ first :: (braces ++ run), '\x7d' :: rest ++ ruleEnd, ?_,
        ⟨first, braces, run, rfl, isBrace, ?_, isRun⟩, _, rfl, .inr ⟨_, rfl, ?_⟩⟩
      · simp only [List.append_assoc, List.cons_append]
      · rintro rfl
        exact absurd (stops '\x7d' rfl) (by decide)
      · simp only [List.length_cons, List.length_append]
        omega

/-- A text that ends like a rule settles whatever follows it, and its last brace is left. -/
theorem exists_settles_ruleEnd (text : Text) :
    ∃ left, ∀ behind, Settles behind (text ++ ruleEnd) (left ++ ['\x7d']) := by
  induction count : text.length using Nat.strong_induction_on generalizing text with
  | _ n ih =>
    subst count
    by_cases starts : lead <+: text
    · obtain ⟨text, rfl⟩ := starts
      obtain ⟨found, rest, split, isDirective, more, isRest, short⟩ := exists_directive text
      rw [List.append_assoc, split]
      have closes (behind : Text) : Closes (rest ++ behind) := by
        rw [isRest]
        rintro c isFirst
        exact (Option.some.inj isFirst).symm
      rcases short with rfl | ⟨text', rfl, short⟩
      · rw [isRest] at closes ⊢
        exact ⟨[], fun behind => .cut isDirective (closes behind) settles_brace⟩
      · have shorter : text'.length < (lead ++ text).length := by
          rw [List.length_append]
          exact Nat.lt_of_le_of_lt short (Nat.lt_add_of_pos_left (by decide))
        obtain ⟨left, settles⟩ := ih _ shorter text' rfl
        exact ⟨left, fun behind => .cut isDirective (closes behind) (settles behind)⟩
    · cases text with
      | nil => exact ⟨[';', ' '], fun behind => settles_ruleEnd⟩
      | cons c text =>
        obtain ⟨left, settles⟩ := ih text.length (Nat.lt_succ_self _) text rfl
        refine ⟨c :: left, fun behind => .keep (read_eq_none_of_not_starts ?_) (settles behind)⟩
        intro starts'
        refine starts ?_
        have starts' : lead <+: (c :: text) ++ (ruleEnd ++ behind) := by
          rw [← List.append_assoc]
          exact starts'
        obtain ⟨more, split⟩ := starts'
        rcases List.append_eq_append_iff.mp split with ⟨inner, isText, -⟩ | ⟨inner, isLead, isEnd⟩
        · exact ⟨inner, isText.symm⟩
        · cases inner with
          | nil => exact ⟨[], by rw [isLead, List.append_nil, List.append_nil]⟩
          | cons d inner =>
            obtain rfl := (List.cons.inj isEnd).1
            have inLead : ';' ∈ lead := isLead ▸ List.mem_append_right _ List.mem_cons_self
            exact absurd inLead (by decide)

/-- Every text settles at the end. -/
theorem settles_strip (text : Text) : Settles [] text (strip text) := by
  induction count : text.length using Nat.strong_induction_on generalizing text with
  | _ n ih =>
    subst count
    cases text with
    | nil =>
      rw [strip, Pattern.replaceAll_nil]
      exact .nil
    | cons c text =>
      cases matched : pattern.read (c :: text) with
      | none =>
        rw [strip, Pattern.replaceAll_of_read_eq_none matched]
        exact .keep (by rwa [List.append_nil]) (ih text.length (Nat.lt_succ_self _) text rfl)
      | some parts =>
        obtain ⟨found, rest⟩ := parts
        obtain ⟨isDirective, split, closes⟩ := read_eq_some_iff.mp matched
        have shorter : rest.length < (c :: text).length := by
          rw [split, List.length_append]
          exact Nat.lt_add_of_pos_left (List.length_pos_iff.mpr (pattern.read_ne_nil matched))
        rw [strip, Pattern.replaceAll_of_read matched, split]
        exact .cut isDirective (by rwa [List.append_nil]) (ih _ shorter rest rfl)

/-- A directive is read where what it is renamed to stands, and nowhere else. -/
theorem isSome_read_twins {out : Text} (twins : Twins text out) :
    (pattern.read out).isSome = (pattern.read text).isSome := by
  have leads := twins.dropLead? (show ':' ∉ lead by decide) (by decide)
  unfold pattern
  simp only
  cases same : Text.dropLead? lead text with
  | none =>
    cases same' : Text.dropLead? lead out with
    | none => rfl
    | some body' =>
      rw [same, same'] at leads
      cases leads
  | some body =>
    cases same' : Text.dropLead? lead out with
    | none =>
      rw [same, same'] at leads
      cases leads
    | some body' =>
      rw [same, same'] at leads
      cases leads with
      | some bodies =>
        cases bodies with
        | nil => rfl
        | @cons c d body body' twin bodies =>
          have steady : Steady (· == '\x7d') := rfl
          have none := (Twins.dropWhile steady bodies).eq_nil_iff
          simp only [List.isEmpty_iff, none]
          split <;> rfl

/-- A directive is one after renaming. -/
theorem IsDirective.twins {out : Text} (isDirective : IsDirective found) (twins : Twins found out) :
    IsDirective out := by
  obtain ⟨first, braces, run, rfl, isBrace, nonempty, isRun⟩ := isDirective
  obtain ⟨body', rfl, body⟩ := twins.append_left (by decide)
  cases body with
  | @cons _ first' _ body' twin body =>
    obtain ⟨run', rfl, runs⟩ :=
      Twins.append_left (fun colon => absurd (isBrace ':' colon) (by decide)) body
    exact ⟨first', braces, run', rfl, isBrace, mt runs.eq_nil_iff.mp nonempty,
      runs.forall_mem fun c inRun d twin =>
        mt (twin.eq_iff (by decide) (by decide)).mp (isRun c inRun)⟩

variable {options : Options}

/-- Cutting out directives goes with renaming, as far as characters behind a cut are renamed as they
are without what was cut out. -/
theorem Settles.strip_underscored (settles : Settles [] text left) {seen seen' : Text}
    (same : (∀ text, underscored options.names seen text = underscored options.names seen' text) ∨
      Closes text) :
    strip (underscored options.names seen text) = underscored options.names seen' left := by
  have brace (seen text : Text) :
      underscored options.names ('\x7d' :: seen) text = underscored options.names [] text :=
    underscored_append_cons (options.not_mem_names (by decide)) [] seen text
  induction settles generalizing seen seen' with
  | nil => exact Pattern.replaceAll_nil _ _
  | @keep c text left unmatched settles ih =>
    have twins : Twins (c :: text) (underscored options.names seen (c :: text)) :=
      Renamed.twins ⟨seen, rfl⟩
    have unmatched' : pattern.read (underscored options.names seen (c :: text)) = none := by
      rw [← Option.not_isSome_iff_eq_none, isSome_read_twins twins, ← List.append_nil (c :: text)]
      rw [List.cons_append, unmatched]
      exact Bool.false_ne_true
    rw [underscored] at unmatched' ⊢
    rw [strip, Pattern.replaceAll_of_read_eq_none unmatched', underscored]
    rcases same with same | closes
    · have here (text : Text) := List.cons.inj (same (c :: text))
      rw [(here []).1]
      exact congrArg _ (ih (.inl fun text => (here text).2))
    · obtain rfl := closes c rfl
      exact congrArg _ (ih (.inl fun text => (brace seen text).trans (brace seen' text).symm))
  | @cut found text left isDirective closes settles ih =>
    rw [List.append_nil] at closes
    have twins : Twins found (underscored options.names seen found) := Renamed.twins ⟨seen, rfl⟩
    -- Behind a directive stands a closing brace, which renaming leaves alone.
    have closes' : Closes (underscored options.names (found.reverse ++ seen) text) := by
      cases text with
      | nil => exact closes
      | cons c text =>
        obtain rfl := closes c rfl
        rintro d isFirst
        exact (Option.some.inj isFirst).symm
    have isDirective' := isDirective.twins twins
    have matched := read_append_of_isDirective isDirective' closes'
    rw [underscored_append]
    obtain ⟨more, isFound⟩ := isDirective'.exists_cons
    rw [isFound] at matched ⊢
    exact (Pattern.replaceAll_of_read matched).trans (ih (.inr closes))

/-- **Cutting out directives goes with renaming.** -/
theorem renamed_strip {out : Text} (renamed : Renamed options text out) :
    Renamed options (strip text) (strip out) := by
  obtain ⟨seen, rfl⟩ := renamed
  exact ⟨seen, ((settles_strip text).strip_underscored (.inl fun _ => rfl)).symm⟩

end ClassHoist.Directive
