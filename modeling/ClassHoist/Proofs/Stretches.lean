import ClassHoist.Proofs.DirectiveOffsets
import ClassHoist.Proofs.Directives
import ClassHoist.Proofs.Parts

/-! # The stretches of a document with its directives

The parts of what is left of a document without its directives correspond to stretches of the whole
document, which lie where the parts do once what was cut out is counted (`exists_stretches`).
-/

namespace ClassHoist

open Markup Directive

namespace Directive

variable {behind text left : Text} {c : Char}

/-- What is left is no longer than the text. -/
theorem Settles.length_le (settles : Settles behind text left) : left.length ≤ text.length := by
  induction settles with
  | nil => exact Nat.le_refl _
  | keep unmatched more ih => exact Nat.succ_le_succ ih
  | cut isDirective closes more ih =>
    rw [List.length_append]
    omega

/-- No directive starts at the front of a text that is left as it is. -/
theorem Settles.unmatched_of_cons {source : Text} (settles : Settles behind source left)
    (isSource : source = c :: text) (isLeft : left = c :: text) :
    pattern.read (c :: (text ++ behind)) = none ∧ Settles behind text text := by
  cases settles with
  | nil => cases isSource
  | keep unmatched settles =>
    obtain ⟨rfl, rfl⟩ := List.cons.inj isSource
    obtain ⟨-, rfl⟩ := List.cons.inj isLeft
    exact ⟨unmatched, settles⟩
  | cut isDirective closes settles =>
    obtain ⟨more, rfl⟩ := isDirective.exists_cons
    have short := settles.length_le
    have counted := congrArg List.length isSource
    rw [isLeft] at short
    rw [List.length_append] at counted
    simp only [List.length_cons] at short counted
    omega

/-- No directive starts in a part of a text that is left as it is. -/
theorem Settles.of_append {first second : Text}
    (settles : Settles behind (first ++ second) (first ++ second)) :
    Settles (second ++ behind) first first ∧ Settles behind second second := by
  induction first with
  | nil => exact ⟨.nil, settles⟩
  | cons c first ih =>
    obtain ⟨unmatched, settles⟩ := settles.unmatched_of_cons rfl rfl
    obtain ⟨here, later⟩ := ih settles
    exact ⟨.keep (List.append_assoc first second behind ▸ unmatched) here, later⟩

/-- A directive in front of its closing brace is cut out. -/
theorem strip_directive {found rest : Text} (isDirective : IsDirective found)
    (closes : Closes rest) : strip (found ++ rest) = strip rest := by
  have settles : Settles rest (found ++ []) [] := .cut isDirective closes .nil
  have cut := settles.strip_append
  rwa [List.append_nil] at cut

/-- A directive that follows a text can be exchanged, with all that stands behind it, for a text
that does not go on with the start of a directive. -/
theorem Settles.of_stops {found before rest rest' : Text} (isDirective : IsDirective found)
    (settles : Settles (found ++ rest) before before) (stops : ∀ c ∈ rest'.head?, c ∉ lead.tail) :
    Settles rest' before before := by
  induction before with
  | nil => exact .nil
  | cons c before ih =>
    obtain ⟨unmatched, settles⟩ := settles.unmatched_of_cons rfl rfl
    refine .keep (read_eq_none_of_not_starts ?_) (ih settles)
    -- A directive that starts here goes on in the one that follows.
    have notWithin (inner : Text) : c :: before ≠ lead ++ inner := by
      obtain ⟨more, rfl⟩ := isDirective.exists_cons
      intro isLead
      rw [← List.cons_append, isLead, List.append_assoc] at unmatched
      rcases eq_of_read_eq_none unmatched with none | ⟨first, braces, split, isBrace⟩
      · exact absurd (List.append_eq_nil_iff.mp none).2 (List.cons_ne_nil _ _)
      · have inBraces : 'a' ∈ braces := by
          cases inner with
          | nil => exact (List.cons.inj split).2 ▸ List.mem_cons_self
          | cons d inner =>
            rw [← (List.cons.inj split).2]
            exact List.mem_append_right _ (List.mem_cons_of_mem _ List.mem_cons_self)
        exact absurd (isBrace 'a' inBraces) (by decide)
    rintro ⟨after, split⟩
    rcases List.append_eq_append_iff.mp (show lead ++ after = c :: before ++ _ from split) with
      ⟨inner, isBefore, -⟩ | ⟨inner, isLead, isRest⟩
    · exact notWithin inner isBefore
    · cases inner with
      | nil => exact notWithin [] (by rw [isLead, List.append_nil, List.append_nil])
      | cons d inner =>
        have inLead : d ∈ lead.tail := isLead ▸ List.mem_append_right _ List.mem_cons_self
        exact stops d (by rw [isRest]; rfl) inLead

/-- What stands behind the directive that follows a text can be exchanged. -/
theorem Settles.of_directive {found before rest : Text} (isDirective : IsDirective found)
    (settles : Settles (found ++ rest) before before) (rest' : Text) :
    Settles (found ++ rest') before before := by
  refine settles.of_stops isDirective fun c isFirst => ?_
  obtain ⟨more, rfl⟩ := isDirective.exists_cons
  obtain rfl := Option.some.inj isFirst
  decide

/-- A text in front of a directive settles in front of what closes it. -/
theorem Settles.of_closes {found before rest rest' : Text} (isDirective : IsDirective found)
    (settles : Settles (found ++ rest) before before) (closes : Closes rest') :
    Settles rest' before before := by
  refine settles.of_stops isDirective fun c isFirst => ?_
  rw [closes c isFirst]
  decide

/-- Cutting out directives passes the first text and leaves the second, and the last character of the
first is the last one that is left. -/
def Settled (behind text left : Text) : Prop :=
  (text = [] ∧ left = []) ∨ ∃ text' left' c, text = text' ++ [c] ∧ left = left' ++ [c] ∧
    Settles (c :: behind) text' left' ∧ pattern.read (c :: behind) = none

namespace Settled

/-- Settled text settles. -/
theorem settles (settled : Settled behind text left) : Settles behind text left := by
  rcases settled with ⟨rfl, rfl⟩ | ⟨text, left, c, rfl, rfl, settles, unmatched⟩
  · exact .nil
  · exact .append settles (.keep unmatched .nil)

/-- Text that settles may stand in front of settled text, of which something is left. -/
theorem prepend {second left' : Text} (settled : Settled behind second left')
    (first : Settles (second ++ behind) text left) (nonempty : left' ≠ []) :
    Settled behind (text ++ second) (left ++ left') := by
  rcases settled with ⟨-, rfl⟩ | ⟨second, left', c, rfl, rfl, settles, unmatched⟩
  · exact absurd rfl nonempty
  · refine .inr ⟨text ++ second, left ++ left', c, (List.append_assoc _ _ _).symm,
      (List.append_assoc _ _ _).symm, ?_, unmatched⟩
    rw [List.append_assoc] at first
    exact .append first settles

/-- Settled texts may stand one behind the other. -/
theorem append {second left' : Text} (first : Settled (second ++ behind) text left)
    (settled : Settled behind second left') :
    Settled behind (text ++ second) (left ++ left') := by
  by_cases nonempty : left' = []
  · subst nonempty
    rcases settled with ⟨rfl, -⟩ | ⟨_, left', c, -, none, -⟩
    · rw [List.append_nil, List.append_nil]
      exact first
    · exact absurd none.symm (List.append_ne_nil_of_right_ne_nil left' (List.cons_ne_nil c []))
  · exact settled.prepend first.settles nonempty

/-- A text that is left as it is has settled. -/
theorem of_self (settles : Settles behind text text) : Settled behind text text := by
  rcases List.eq_nil_or_concat text with rfl | ⟨text, c, rfl⟩
  · exact .inl ⟨rfl, rfl⟩
  · rw [List.concat_eq_append] at settles ⊢
    obtain ⟨first, last⟩ := settles.of_append
    exact .inr ⟨text, text, c, rfl, rfl, first, (last.unmatched_of_cons rfl rfl).1⟩

/-- What stands behind a text that ends like the start of no directive can be exchanged. -/
theorem congr {behind' : Text} (settled : Settled behind text left) (nonempty : left ≠ [])
    (last : ∀ c ∈ left.getLast?, c ∉ lead.dropLast) (busy : Busy behind) :
    Settles behind' text left := by
  rcases settled with ⟨-, rfl⟩ | ⟨text, left, c, rfl, rfl, settles, unmatched⟩
  · exact absurd rfl nonempty
  · have notLead : c ∉ lead.dropLast := last c (by rw [List.getLast?_concat]; rfl)
    refine .append (settles.congr notLead busy) (.keep (read_eq_none_of_ne ?_) .nil)
    rintro rfl
    exact notLead (by decide)

end Settled

end Directive

namespace Stripped

/-- The cuts are where the directives of the whole text are. -/
def AtDirectives : List Hit → Text → Prop
  | [], tail => Settles [] tail tail
  | cut :: cuts, tail =>
    Settles (cut.found ++ joined cuts tail) cut.before cut.before ∧ IsDirective cut.found ∧
      Closes (joined cuts tail) ∧ AtDirectives cuts tail

variable {cuts : List Hit} {tail : Text}

/-- What is in front of a directive is left, and what is found is one. -/
theorem settles_of_find? {text before found after : Text}
    (located : pattern.find? text = some (before, found, after)) :
    Settles (found ++ after) before before ∧ IsDirective found ∧ Closes after := by
  induction text generalizing before with
  | nil => cases located
  | cons c text ih =>
    cases matched : pattern.read (c :: text) with
    | some parts =>
      obtain ⟨found', after'⟩ := parts
      rw [Pattern.find?_of_read matched] at located
      simp only [Option.some.injEq, Prod.mk.injEq] at located
      obtain ⟨rfl, rfl, rfl⟩ := located
      obtain ⟨isDirective, -, closes⟩ := read_eq_some_iff.mp matched
      exact ⟨.nil, isDirective, closes⟩
    | none =>
      rw [Pattern.find?_of_read_eq_none matched] at located
      obtain ⟨⟨before', found', after'⟩, located', same⟩ := Option.map_eq_some_iff.mp located
      simp only [Prod.mk.injEq] at same
      obtain ⟨rfl, rfl, rfl⟩ := same
      obtain ⟨settles, isDirective⟩ := ih located'
      refine ⟨.keep ?_ settles, isDirective⟩
      rw [← List.append_assoc, (Pattern.find?_eq_some located').1]
      exact matched

/-- A text without a directive is left as it is. -/
theorem settles_of_find?_eq_none {text : Text} (none : pattern.find? text = none) :
    Settles [] text text := by
  induction text with
  | nil => exact .nil
  | cons c text ih =>
    cases matched : pattern.read (c :: text) with
    | some parts =>
      rw [Pattern.find?_of_read matched] at none
      cases none
    | none =>
      rw [Pattern.find?_of_read_eq_none matched, Option.map_eq_none_iff] at none
      exact .keep (by rwa [List.append_nil]) (ih none)

/-- The places where a pattern is found are where the directives are. -/
theorem atDirectives_hits (text : Text) :
    AtDirectives (pattern.hits text).1 (pattern.hits text).2 := by
  fun_induction pattern.hits text with
  | case1 text none => exact settles_of_find?_eq_none none
  | case2 text before found after located _ more tail same ih =>
    obtain ⟨settles, isDirective, closes⟩ := settles_of_find? located
    have whole : joined more tail = after := by
      have joins := Pattern.hits_join pattern after
      rw [same] at joins
      exact joins
    rw [same] at ih
    exact ⟨whole ▸ settles, isDirective, whole ▸ closes, ih⟩

/-- Nothing is cut out at the end. -/
def KeepsEnd (cuts : List Hit) (tail : Text) : Prop := tail = [] → cuts = []

/-- The whole settles to what is kept. -/
theorem AtDirectives.settles (cut : AtDirectives cuts tail) :
    Settles [] (joined cuts tail) (kept cuts tail) := by
  induction cuts with
  | nil => exact cut
  | cons first cuts ih =>
    obtain ⟨settles, isDirective, closes, later⟩ := cut
    rw [joined_cons, kept_cons]
    refine .append ?_ (.cut isDirective ?_ (ih later))
    · rwa [List.append_nil]
    · rwa [List.append_nil]

/-- A text put behind another changes no directive of that, if it is left. -/
theorem AtDirectives.append {more : Text} (cut : AtDirectives cuts tail) (nonempty : more ≠ [])
    (noBrace : '\x7d' ∉ more) (stays : strip (joined cuts tail ++ more) = kept cuts tail ++ more) :
    AtDirectives cuts (tail ++ more) := by
  induction cuts with
  | nil =>
    have settles := settles_strip (tail ++ more)
    rwa [show strip (tail ++ more) = tail ++ more from stays] at settles
  | cons first cuts ih =>
    obtain ⟨before, found⟩ := first
    obtain ⟨settles, isDirective, closes, later⟩ := cut
    have whole : joined cuts (tail ++ more) = joined cuts tail ++ more :=
      (List.append_assoc _ _ _).symm
    have front := settles.of_directive isDirective (joined cuts (tail ++ more))
    have all := front.strip_append
    rw [whole] at all
    rw [joined_cons, kept_cons] at stays
    simp only [List.append_assoc] at stays
    have rest := List.append_cancel_left (all.symm.trans stays)
    have someRest : joined cuts tail ≠ [] := by
      intro none
      rw [none] at rest
      have takesIn := @strip_directive _ [] (isDirective.append noBrace) nofun
      rw [List.append_nil, strip, strip, Pattern.replaceAll_nil] at takesIn
      rw [List.nil_append, strip, takesIn] at rest
      exact nonempty (List.append_eq_nil_iff.mp rest.symm).2
    have closes' : Closes (joined cuts (tail ++ more)) := by
      rw [whole]
      intro c isFirst
      exact closes c (by rwa [List.head?_append_of_ne_nil _ someRest] at isFirst)
    refine ⟨front, isDirective, closes', ih later ?_⟩
    rw [whole] at closes'
    exact (strip_directive isDirective closes').symm.trans rest

/-- A way of counting cuts that depends only on how they lie to a place. -/
structure Cutoff (counts : Nat → Nat → Bool) : Prop where
  shift : ∀ lead place offset, counts (lead + place) (lead + offset) = counts place offset
  before : ∀ {place offset}, place < offset → counts place offset = true
  behind : ∀ {place offset}, offset < place → counts place offset = false

/-- Counting the cuts in front of a place and at it is a way to count them. -/
theorem cutoff_le : Cutoff fun cut place => cut ≤ place where
  shift lead place offset := by simp only [Nat.add_le_add_iff_left]
  before less := decide_eq_true (Nat.le_of_lt less)
  behind less := decide_eq_false (Nat.not_le.mpr less)

/-- Counting the cuts in front of a place only is a way to count them. -/
theorem cutoff_lt : Cutoff fun cut place => cut < place where
  shift lead place offset := by simp only [Nat.add_lt_add_iff_left]
  before less := decide_eq_true less
  behind less := decide_eq_false (Nat.not_lt.mpr (Nat.le_of_lt less))

/-- A text that starts with a part of which a front is kept, and the cuts behind that part. -/
structure Front (cuts : List Hit) (tail text front : Text) (cuts' : List Hit) (tail' : Text) :
    Prop where
  joins : joined cuts tail = text ++ joined cuts' tail'
  cut : AtDirectives cuts' tail'
  keepsEnd : KeepsEnd cuts tail → KeepsEnd cuts' tail'
  settled : Settled (joined cuts' tail') text front
  counted : ∀ {counts}, Cutoff counts → ∀ offset,
    restore counts cuts (Text.bytes front + offset) = Text.bytes text + restore counts cuts' offset

section Front

variable {before found text front inner : Text} {cuts' : List Hit} {tail' : Text}

/-- A front that ends in the text in front of the first cut, or directly behind that text. -/
theorem Front.of_before (cut : AtDirectives (⟨front ++ inner, found⟩ :: cuts) tail) :
    Front (⟨front ++ inner, found⟩ :: cuts) tail front front (⟨inner, found⟩ :: cuts) tail := by
  obtain ⟨settles, isDirective, closes, atLater⟩ := cut
  obtain ⟨here, behind⟩ := settles.of_append
  refine ⟨?_, ⟨behind, isDirective, closes, atLater⟩, fun ends isEnd => (nomatch ends isEnd), ?_,
    fun cutoff offset => ?_⟩
  · rw [joined_cons, joined_cons, List.append_assoc]
  · rw [joined_cons]
    exact .of_self here
  · simp only [restore, Text.bytes_append, cutoff.shift, Nat.add_sub_add_left, Nat.add_assoc]
    split <;> rfl

/-- A front that ends behind the first cut. -/
theorem Front.cons (parts : Front cuts tail text front cuts' tail')
    (cut : AtDirectives (⟨before, found⟩ :: cuts) tail) (nonempty : front ≠ []) :
    Front (⟨before, found⟩ :: cuts) tail (before ++ (found ++ text)) (before ++ front)
      cuts' tail' := by
  obtain ⟨settles, isDirective, closes, -⟩ := cut
  refine ⟨?_, parts.cut, fun whole => parts.keepsEnd fun isEnd => (nomatch whole isEnd), ?_,
    fun cutoff offset => ?_⟩
  · rw [joined_cons, parts.joins]
    simp only [List.append_assoc]
  · rw [parts.joins] at settles closes
    have cutFound : Settles (text ++ joined cuts' tail') found [] :=
      List.append_nil found ▸ .cut isDirective closes .nil
    have settled := parts.settled.prepend (settles.append cutFound) nonempty
    simpa only [List.append_assoc, List.nil_append] using settled
  · have positive := Text.bytes_pos nonempty
    have behind : Text.bytes before < Text.bytes (before ++ front) + offset := by
      rw [Text.bytes_append]
      omega
    have counted := parts.counted cutoff offset
    rw [restore, if_pos (cutoff.before behind)]
    simp only [Text.bytes_append, Nat.add_assoc, Nat.add_sub_cancel_left, counted]

/-- The text up to a place in what is kept ends before everything that is cut out there. -/
theorem AtDirectives.exists_front (cut : AtDirectives cuts tail) {later : Text}
    (split : kept cuts tail = front ++ later) :
    ∃ text cuts' tail', Front cuts tail text front cuts' tail' ∧ kept cuts' tail' = later := by
  induction cuts generalizing front with
  | nil =>
    have whole : tail = front ++ later := split
    subst whole
    obtain ⟨here, behind⟩ := Settles.of_append (show Settles [] _ _ from cut)
    refine ⟨front, [], later, ⟨rfl, behind, fun _ _ => rfl, .of_self ?_, fun _ _ => rfl⟩, rfl⟩
    rwa [List.append_nil] at here
  | cons first cuts ih =>
    obtain ⟨before, found⟩ := first
    rw [kept_cons] at split
    rcases List.append_eq_append_iff.mp split with ⟨inner, rfl, rest⟩ | ⟨inner, rfl, rest⟩
    · by_cases none : inner = []
      · subst none
        rw [List.append_nil]
        refine ⟨before, ⟨[], found⟩ :: cuts, tail, ?_, rest⟩
        have parts := @Front.of_before cuts tail found before []
        rw [List.append_nil] at parts
        exact parts cut
      · obtain ⟨text, cuts', tail', parts, keeps⟩ := ih cut.2.2.2 rest
        exact ⟨_, cuts', tail', parts.cons cut none, keeps⟩
    · refine ⟨front, ⟨inner, found⟩ :: cuts, tail, .of_before cut, ?_⟩
      rw [kept_cons, rest]

/-- Nothing is cut out in front of the start. -/
theorem restore_lt_zero (cuts : List Hit) : restore (fun cut place => cut < place) cuts 0 = 0 := by
  cases cuts with
  | nil => rfl
  | cons cut cuts => rw [restore, if_neg (by simp)]

/-- What is kept ends where the part ends that it is kept of. -/
theorem Front.restore_lt (parts : Front cuts tail text front cuts' tail') :
    restore (fun cut place => cut < place) cuts (Text.bytes front) = Text.bytes text := by
  have counted := parts.counted cutoff_lt 0
  rwa [restore_lt_zero] at counted

end Front

/-- A text that starts with directives, and the cuts behind them. -/
structure Cleared (cuts : List Hit) (tail text : Text) (cuts' : List Hit) : Prop where
  joins : joined cuts tail = text ++ joined cuts' tail
  keeps : kept cuts' tail = kept cuts tail
  cut : AtDirectives cuts' tail
  keepsEnd : KeepsEnd cuts tail → KeepsEnd cuts' tail
  settles : Settles (joined cuts' tail) text []
  atStart : restore (fun cut place => cut ≤ place) cuts' 0 = 0
  counted : ∀ {counts}, Cutoff counts → ∀ offset, 0 < offset ∨ counts 0 0 = true →
    restore counts cuts offset = Text.bytes text + restore counts cuts' offset

/-- What is cut out at the front. -/
theorem AtDirectives.exists_cleared (cut : AtDirectives cuts tail) :
    ∃ text cuts', Cleared cuts tail text cuts' := by
  induction cuts with
  | nil => exact ⟨[], [], rfl, rfl, cut, id, .nil, rfl, fun _ _ _ => (Nat.zero_add _).symm⟩
  | cons first cuts ih =>
    obtain ⟨before, found⟩ := first
    cases before with
    | cons c before =>
      refine ⟨[], _, rfl, rfl, cut, id, .nil, ?_, fun _ _ _ => (Nat.zero_add _).symm⟩
      have positive := Text.bytes_pos (List.cons_ne_nil c before)
      rw [restore, if_neg (by simpa using Nat.ne_of_gt positive)]
    | nil =>
      obtain ⟨-, isDirective, closes, atLater⟩ := cut
      obtain ⟨text, cuts', more⟩ := ih atLater
      refine ⟨found ++ text, cuts', ?_, more.keeps, more.cut,
        fun whole => more.keepsEnd fun isEnd => (nomatch whole isEnd),
        .cut isDirective (more.joins ▸ closes) more.settles, more.atStart,
        @fun counts cutoff offset later => ?_⟩
      · rw [joined_cons, more.joins, List.append_assoc]
        rfl
      · have counts' : counts 0 offset = true := by
          rcases Nat.eq_zero_or_pos offset with rfl | positive
          · exact later.resolve_left (Nat.lt_irrefl 0)
          · exact cutoff.before positive
        have counted := more.counted cutoff offset later
        simp only [restore, Text.bytes_nil, counts', ↓reduceIte, Text.bytes_append, Nat.sub_zero,
          counted]
        omega

/-- What starts directly behind directives starts where they end. -/
theorem Cleared.restore_le {text : Text} {cuts' : List Hit} (cleared : Cleared cuts tail text cuts') :
    restore (fun cut place => cut ≤ place) cuts 0 = Text.bytes text := by
  have counted := cleared.counted cutoff_le 0 (.inr rfl)
  rwa [cleared.atStart] at counted

/-- The places of what is left from a start on are those of the whole from an offset on, as cuts
count them. -/
structure Lies (stripped : Stripped) (cuts : List Hit) (start offset : Nat) : Prop where
  starts : ∀ place, stripped.mapStart (start + place) =
    offset + restore (fun cut place => cut ≤ place) cuts place
  ends : ∀ place, stripped.mapEnd (start + place) =
    offset + restore (fun cut place => cut < place) cuts place

namespace Lies

variable {stripped : Stripped} {start offset : Nat} {text front : Text} {cuts' cuts'' : List Hit}
  {tail' : Text}

/-- In the beginning, what is left starts where the document is read from. -/
theorem base (stripped : Stripped) : Lies stripped stripped.cuts 0 stripped.base where
  starts place := by
    rw [Nat.zero_add]
    rfl
  ends place := by
    rw [Nat.zero_add]
    rfl

/-- Something that ends at the start of what is left ends at its offset in the document. -/
theorem mapEnd_start (lies : Lies stripped cuts start offset) : stripped.mapEnd start = offset := by
  have here := lies.ends 0
  rw [restore_lt_zero] at here
  exact here

/-- Behind a front. -/
theorem behind (lies : Lies stripped cuts start offset)
    (parts : Front cuts tail text front cuts' tail') :
    Lies stripped cuts' (start + Text.bytes front) (offset + Text.bytes text) where
  starts place := by rw [Nat.add_assoc, lies.starts, parts.counted cutoff_le, Nat.add_assoc]
  ends place := by rw [Nat.add_assoc, lies.ends, parts.counted cutoff_lt, Nat.add_assoc]

/-- Something that starts there starts behind the directives at the offset. -/
theorem mapStart_start (lies : Lies stripped cuts start offset)
    (cleared : Cleared cuts tail text cuts') : stripped.mapStart start = offset + Text.bytes text := by
  have here := lies.starts 0
  rw [cleared.restore_le] at here
  exact here

/-- Behind a front that directives stand in front of. -/
theorem behind_cleared {lead : Text} (lies : Lies stripped cuts start offset)
    (cleared : Cleared cuts tail lead cuts') (parts : Front cuts' tail text front cuts'' tail')
    (nonempty : front ≠ []) :
    Lies stripped cuts'' (start + Text.bytes front)
      (offset + Text.bytes lead + Text.bytes text) := by
  have later (place : Nat) : 0 < Text.bytes front + place :=
    Nat.add_pos_left (Text.bytes_pos nonempty) _
  refine ⟨fun place => ?_, fun place => ?_⟩
  · rw [Nat.add_assoc, lies.starts, cleared.counted cutoff_le _ (.inl (later place)),
      parts.counted cutoff_le]
    simp only [Nat.add_assoc]
  · rw [Nat.add_assoc, lies.ends, cleared.counted cutoff_lt _ (.inl (later place)),
      parts.counted cutoff_lt]
    simp only [Nat.add_assoc]

end Lies

end Stripped

/-- A stretch of a document with its directives: text that stays as it is, with what is left of it
without directives; classes handed to a component, with what is cut out directly in front of them
and with the directives among them; or the place for rules. -/
inductive Stretch where
  | kept (text left : Text)
  | classes (usage : Usage) (cut value : Text)
  | rules

namespace Stretch

/-- The text of a stretch. -/
def text : Stretch → Text
  | kept text _ => text
  | classes _ cut value => cut ++ value
  | rules => []

/-- The text of a stretch after the edits, given the rules. -/
def edited (added : Text) : Stretch → Text
  | kept text _ => text
  | classes usage cut _ => cut ++ groupName usage.group
  | rules => added

/-- The part of what is left that corresponds to a stretch. -/
def part : Stretch → Markup.Part
  | kept _ left => .kept left
  | classes usage _ _ => .classes usage
  | rules => .rules

end Stretch

/-- The text of several stretches. -/
def stretchText (stretches : List Stretch) : Text := stretches.flatMap Stretch.text

/-- The text of several stretches after the edits, given the rules. -/
def stretchEdited (added : Text) (stretches : List Stretch) : Text :=
  stretches.flatMap (Stretch.edited added)

/-- What is left of the name of a group when directives are cut out of the edited document: a
directive directly in front of the classes goes on up to the first closing brace, with which the
classes start. -/
def shownName (usage : Usage) (cut : Text) : Text :=
  if cut = [] then groupName usage.group else joinClasses false usage.group

/-- The stretches, with the text behind them, settle to the parts. -/
def Segmented (behind : Text) (exchange : Exchange) : List Stretch → Prop
  | [] => True
  | .kept text left :: rest =>
    Settled (stretchText rest ++ behind) text left ∧ Segmented behind exchange rest
  | .classes usage cut value :: rest =>
    Settles (value ++ (stretchText rest ++ behind)) cut [] ∧
      Settles (stretchText rest ++ behind) value usage.group ∧
        exchange.name usage = shownName usage cut ∧ Segmented behind exchange rest
  | .rules :: rest => Segmented behind exchange rest

/-- The stretches stand in the document from an offset on. -/
def StretchesAt (stripped : Stripped) (site : Option Nat) : (offset : Nat) → List Stretch → Prop
  | _, [] => True
  | offset, .kept text _ :: rest => StretchesAt stripped site (offset + Text.bytes text) rest
  | offset, .classes usage cut value :: rest =>
    stripped.mapStart usage.span.start = offset + Text.bytes cut ∧
      stripped.mapEnd usage.span.stop = offset + Text.bytes cut + Text.bytes value ∧
        StretchesAt stripped site (offset + Text.bytes cut + Text.bytes value) rest
  | offset, .rules :: rest =>
    site.map stripped.mapEnd = some offset ∧ StretchesAt stripped site offset rest

/-- The text in place of the classes of a usage, once directives have been cut out. -/
def Stripped.shownName (stripped : Stripped) (usage : Usage) : Text :=
  if stripped.mapEnd usage.span.start < stripped.mapStart usage.span.start then
    joinClasses false usage.group
  else groupName usage.group

/-- The name shown in place of classes depends on whether directives stand directly in front of
them. -/
theorem Stripped.shownName_eq {stripped : Stripped} {usage : Usage} {cut : Text}
    (starts : stripped.mapStart usage.span.start =
      stripped.mapEnd usage.span.start + Text.bytes cut) :
    stripped.shownName usage = ClassHoist.shownName usage cut := by
  unfold Stripped.shownName ClassHoist.shownName
  by_cases none : cut = []
  · rw [if_pos none, starts, none, Text.bytes_nil, Nat.add_zero, if_neg (Nat.lt_irrefl _)]
  · have some := Text.bytes_pos none
    rw [if_neg none, if_pos (by omega)]

/-- **The stretches of a document.** They correspond to the parts of what is left of it. -/
theorem exists_stretches {stripped : Stripped} {exchange : Exchange} {site : Option Nat}
    (named : ∀ usage, exchange.name usage = stripped.shownName usage) {parts : List Markup.Part}
    {cuts : List Hit} {tail before : Text} {start offset : Nat}
    (cut : Stripped.AtDirectives cuts tail) (whole : Stripped.kept cuts tail = oldText parts)
    (laid : Laid site start before parts)
    (spans : ∀ usage ∈ parts.filterMap Markup.Part.usage?, usage.group ≠ [] ∧
      usage.span.stop = usage.span.start + Text.bytes usage.group)
    (lies : Stripped.Lies stripped cuts start offset) :
    ∃ stretches behind, stretches.map Stretch.part = parts ∧
      Stripped.joined cuts tail = stretchText stretches ++ behind ∧ Settles [] behind [] ∧
        (Stripped.KeepsEnd cuts tail → behind = []) ∧
          Segmented behind exchange stretches ∧ StretchesAt stripped site offset stretches := by
  induction parts generalizing cuts tail before start offset with
  | nil =>
    refine ⟨[], Stripped.joined cuts tail, rfl, rfl, ?_, fun keepsEnd => ?_, trivial, trivial⟩
    · have settles := cut.settles
      rwa [whole] at settles
    · obtain rfl : tail = [] := (List.append_eq_nil_iff.mp whole).2
      rw [keepsEnd rfl]
      rfl
  | cons part parts ih =>
    cases part with
    | kept left =>
      obtain ⟨text, cuts', tail', front, keeps⟩ :=
        cut.exists_front (show Stripped.kept cuts tail = left ++ oldText parts from whole)
      obtain ⟨stretches, behind, isParts, isText, closes, isEnd, segmented, placed⟩ :=
        ih front.cut keeps laid spans (lies.behind front)
      refine ⟨.kept text left :: stretches, behind, congrArg _ isParts, ?_, closes,
        isEnd ∘ front.keepsEnd, ⟨isText ▸ front.settled, segmented⟩, placed⟩
      rw [front.joins, isText]
      exact (List.append_assoc _ _ _).symm
    | classes usage =>
      obtain ⟨isStart, -, -, laid⟩ := laid
      obtain ⟨⟨nonempty, isStop⟩, spans⟩ := List.forall_mem_cons.mp spans
      -- What is cut out directly in front of the classes is overwritten with them.
      obtain ⟨lead, cuts', cleared⟩ := cut.exists_cleared
      obtain ⟨value, cuts'', tail', front, keeps⟩ :=
        cleared.cut.exists_front (show Stripped.kept cuts' tail = usage.group ++ oldText parts from
          cleared.keeps.trans whole)
      have lies' := lies.behind_cleared cleared front nonempty
      have startIs : stripped.mapStart usage.span.start = offset + Text.bytes lead :=
        isStart ▸ lies.mapStart_start cleared
      have stopIs : stripped.mapEnd usage.span.stop =
          offset + Text.bytes lead + Text.bytes value := by
        rw [isStop, isStart]
        exact lies'.mapEnd_start
      obtain ⟨stretches, behind, isParts, isText, closes, isEnd, segmented, placed⟩ :=
        ih front.cut keeps laid spans lies'
      have joins := front.joins
      rw [isText] at joins
      refine ⟨.classes usage lead value :: stretches, behind, congrArg _ isParts, ?_, closes,
        isEnd ∘ front.keepsEnd ∘ cleared.keepsEnd,
        ⟨joins ▸ cleared.settles, isText ▸ front.settled.settles, ?_, segmented⟩,
        startIs, stopIs, placed⟩
      · rw [cleared.joins, joins]
        simp only [stretchText, List.flatMap_cons, Stretch.text, List.append_assoc]
      · rw [named]
        refine Stripped.shownName_eq ?_
        rw [startIs, isStart, lies.mapEnd_start]
    | rules =>
      obtain ⟨isSite, -, -, laid⟩ := laid
      obtain ⟨stretches, behind, isParts, isText, closes, isEnd, segmented, placed⟩ :=
        ih cut whole laid spans lies
      refine ⟨.rules :: stretches, behind, congrArg _ isParts, isText, closes, isEnd, segmented, ?_,
        placed⟩
      rw [isSite, Option.map_some, lies.mapEnd_start]

end ClassHoist
