import ClassHoist.Proofs.Quoting

/-! # Values without quotes in other surroundings

A value without quotes ends before a separator or the end of the tag. Which of these comes next,
and the last character of the value, settle where the tag goes on (`Unquoted.replace`).
-/

namespace ClassHoist.Markup

variable {run run' after rest rest' : Text}

/-- A value without quotes is read as `run`, and the tag goes on with `rest`, after the slash if
`after` holds one. -/
structure Unquoted (run after rest : Text) : Prop where
  slash : after = [] ∨ after = ['/']
  read : unquotedRun (run ++ (after ++ rest)) = (run, after ++ rest)
  goesOn : ∀ stop, (afterUnquoted run (after ++ rest) stop).rest = rest

/-- The last character opens a token that takes in a slash. -/
def OpensToken (run : Text) : Prop := run.getLast? = some '<' ∨ run.getLast? = some '\x7b'

theorem afterUnquoted_rest_of_opens (opens : OpensToken run) (rest : Text) (stop : Nat) :
    (afterUnquoted run ('/' :: rest) stop).rest = rest := by
  rcases opens with last | last <;> simp only [afterUnquoted, last]

theorem afterUnquoted_rest_eq (other : ¬ (OpensToken run ∧ rest.head? = some '/')) (stop : Nat) :
    (afterUnquoted run rest stop).rest = rest := by
  unfold afterUnquoted
  split
  case h_1 last => exact absurd ⟨.inl last, rfl⟩ other
  case h_2 last => exact absurd ⟨.inr last, rfl⟩ other
  case h_3 => rfl

/-- Some tag goes on behind a value without quotes. -/
theorem exists_unquoted {input : Text} (same : unquotedRun input = (run, rest)) (stop : Nat) :
    ∃ after, rest = after ++ (afterUnquoted run rest stop).rest ∧
      Unquoted run after (afterUnquoted run rest stop).rest := by
  have joined := unquotedRun_append input
  rw [same] at joined
  have read : unquotedRun (run ++ rest) = (run, rest) := joined ▸ same
  by_cases slash : OpensToken run ∧ rest.head? = some '/'
  · obtain ⟨opens, isHead⟩ := slash
    obtain ⟨more, rfl⟩ := List.head?_eq_some_iff.mp isHead
    rw [afterUnquoted_rest_of_opens opens]
    exact ⟨['/'], rfl, .inr rfl, read, afterUnquoted_rest_of_opens opens more⟩
  · rw [afterUnquoted_rest_eq slash]
    exact ⟨[], rfl, .inl rfl, read, afterUnquoted_rest_eq slash⟩

/-- A value without quotes ends before a separator, a closing bracket or a self-closing end. -/
theorem unquotedRun_cons (c : Char) (rest : Text) :
    unquotedRun (c :: rest) =
      if isUnquotedChar c = false ∨ (c = '/' ∧ rest.head? = some '>') then ([], c :: rest)
      else (c :: (unquotedRun rest).1, (unquotedRun rest).2) := by
  rw [unquotedRun.eq_def]
  split
  case h_1 none => cases none
  case h_2 more same =>
    obtain ⟨rfl, rfl⟩ := List.cons.inj same
    rw [if_pos (.inr ⟨rfl, rfl⟩)]
  case h_3 d more notClose same =>
    obtain ⟨rfl, rfl⟩ := List.cons.inj same
    have notSlash : ¬ (c = '/' ∧ rest.head? = some '>') := by
      rintro ⟨rfl, isHead⟩
      obtain ⟨more, rfl⟩ := List.head?_eq_some_iff.mp isHead
      exact notClose more rfl rfl
    have separates : (Text.isSeparator c || c == '>') = true ↔ isUnquotedChar c = false := by
      simp only [isUnquotedChar, Bool.and_eq_false_iff, Bool.not_eq_false', bne_eq_false_iff_eq,
        Bool.or_eq_true, beq_iff_eq]
    by_cases stops : isUnquotedChar c = false
    · rw [if_pos (separates.mpr stops), if_pos (.inl stops)]
    · rw [if_neg fun separator => stops (separates.mp separator),
        if_neg fun both => both.elim stops notSlash]

/-- What a value without quotes is, and where it stops. -/
theorem unquotedRun_eq_iff :
    unquotedRun (run ++ rest) = (run, rest) ↔
      (∀ c ∈ run, isUnquotedChar c = true) ∧
        ¬ (run.getLast? = some '/' ∧ rest.head? = some '>') ∧
          (rest = [] ∨ (∃ c ∈ rest.head?, isUnquotedChar c = false) ∨
            ∃ more, rest = '/' :: '>' :: more) := by
  induction run with
  | nil =>
    cases rest with
    | nil => simp [unquotedRun]
    | cons c rest =>
      rw [List.nil_append, unquotedRun_cons]
      split
      case isTrue stops =>
        simp only [List.not_mem_nil, false_implies, implies_true, List.getLast?_nil, reduceCtorEq,
          false_and, not_false_eq_true, true_and, false_or, true_iff]
        rcases stops with plain | ⟨rfl, isHead⟩
        · exact .inl ⟨c, rfl, plain⟩
        · obtain ⟨more, rfl⟩ := List.head?_eq_some_iff.mp isHead
          exact .inr ⟨more, rfl⟩
      case isFalse goes =>
        refine iff_of_false (fun same => by cases congrArg Prod.fst same) ?_
        rintro ⟨-, -, none | ⟨d, isHead, stops⟩ | ⟨more, same⟩⟩
        · cases none
        · exact goes (.inl (Option.some.inj isHead ▸ stops))
        · obtain ⟨rfl, rfl⟩ := List.cons.inj same
          exact goes (.inr ⟨rfl, rfl⟩)
  | cons c run ih =>
    have last : (c :: run).getLast? = some '/' ∧ rest.head? = some '>' ↔
        (run = [] ∧ c = '/' ∧ rest.head? = some '>') ∨
          (run.getLast? = some '/' ∧ rest.head? = some '>') := by
      cases run <;> simp
    -- A closing bracket is in no run, so a slash in front of one is the last character.
    have next : c = '/' ∧ (run ++ rest).head? = some '>' → isUnquotedChar c = true →
        (∀ d ∈ run, isUnquotedChar d = true) → run = [] ∧ c = '/' ∧ rest.head? = some '>' := by
      rintro ⟨slash, isHead⟩ - plain
      cases run with
      | nil => exact ⟨rfl, slash, isHead⟩
      | cons d run =>
        obtain rfl := Option.some.inj isHead
        cases plain _ List.mem_cons_self
    rw [List.cons_append, unquotedRun_cons, List.forall_mem_cons, last]
    constructor
    · intro read
      split at read
      case isTrue => cases congrArg Prod.fst read
      case isFalse goes =>
        obtain ⟨sameRun, sameRest⟩ := Prod.mk.inj read
        obtain ⟨-, sameRun⟩ := List.cons.inj sameRun
        obtain ⟨plain, noClose, stops⟩ := ih.mp (Prod.ext sameRun sameRest)
        have here : isUnquotedChar c = true := by
          by_contra other
          exact goes (.inl (Bool.not_eq_true _ ▸ other))
        refine ⟨⟨here, plain⟩, ?_, stops⟩
        rintro (⟨rfl, slash, isHead⟩ | close)
        · exact goes (.inr ⟨slash, isHead⟩)
        · exact noClose close
    · rintro ⟨⟨here, plain⟩, noClose, stops⟩
      have read := ih.mpr ⟨plain, fun close => noClose (.inr close), stops⟩
      rw [if_neg, read]
      rintro (other | close)
      · rw [here] at other
        cases other
      · exact noClose (.inl (next close here plain))

/-- A value that ends with the same sign, if it ends with one that matters there. -/
def EndsAlike (run run' : Text) : Prop :=
  ∀ c, c = '/' ∨ c = '<' ∨ c = '\x7b' → (run'.getLast? = some c ↔ run.getLast? = some c)

theorem EndsAlike.of_twins (twins : Twins run run') : EndsAlike run run' := by
  rintro c (rfl | rfl | rfl) <;> exact twins.getLast?_eq_iff (by decide) (by decide)

/-- A value without quotes can be exchanged for one that ends alike. -/
theorem Unquoted.replace (unquoted : Unquoted run after rest)
    (plain : ∀ c ∈ run', isUnquotedChar c = true) (ends : EndsAlike run run')
    (front : Front rest rest') : Unquoted run' after rest' := by
  obtain ⟨slash, read, goesOn⟩ := unquoted
  obtain ⟨-, noClose, stops⟩ := unquotedRun_eq_iff.mp read
  obtain ⟨c, more, d, more', rfl, rfl, twin, later⟩ := front.cons
  have sameClose : d = '>' ↔ c = '>' := twin.eq_iff (by decide) (by decide)
  have sameSlash : d = '/' ↔ c = '/' := twin.eq_iff (by decide) (by decide)
  refine ⟨slash, unquotedRun_eq_iff.mpr ⟨plain, ?_, ?_⟩, ?_⟩
  · rintro ⟨last, isHead⟩
    refine noClose ⟨(ends '/' (.inl rfl)).mp last, ?_⟩
    rcases slash with rfl | rfl
    · exact congrArg some (sameClose.mp (Option.some.inj isHead))
    · exact isHead
  · rcases slash with rfl | rfl
    · rcases stops with none | ⟨e, isHead, stops⟩ | ⟨tail, same⟩
      · cases none
      · obtain rfl := Option.some.inj isHead
        exact .inr (.inl ⟨d, rfl, (twin.test_eq (show Steady isUnquotedChar from rfl)).trans stops⟩)
      · obtain ⟨rfl, rfl⟩ := List.cons.inj same
        obtain ⟨e, more, e', more', same, rfl, twin', -⟩ := (later rfl).cons
        obtain ⟨rfl, rfl⟩ := List.cons.inj same
        obtain rfl := twin.eq_of_ne_colon (by decide)
        obtain rfl := twin'.eq_of_ne_colon (by decide)
        exact .inr (.inr ⟨more', rfl⟩)
    · rcases stops with none | ⟨e, isHead, stops⟩ | ⟨tail, same⟩
      · cases none
      · obtain rfl := Option.some.inj isHead
        cases stops
      · obtain ⟨rfl, -⟩ := List.cons.inj (List.cons.inj same).2
        exact .inr (.inr ⟨more', congrArg ('/' :: · :: more') (sameClose.mpr rfl)⟩)
  · intro stop
    have goes := goesOn stop
    have sameOpens : OpensToken run' ↔ OpensToken run :=
      or_congr (ends '<' (.inr (.inl rfl))) (ends '\x7b' (.inr (.inr rfl)))
    rcases slash with rfl | rfl
    · refine afterUnquoted_rest_eq ?_ stop
      rintro ⟨opens, isHead⟩
      obtain rfl := sameSlash.mp (Option.some.inj isHead)
      rw [List.nil_append, afterUnquoted_rest_of_opens (sameOpens.mp opens)] at goes
      exact List.cons_ne_self _ _ goes.symm
    · refine afterUnquoted_rest_of_opens (sameOpens.mpr ?_) _ stop
      by_contra closed
      rw [afterUnquoted_rest_eq fun both => closed both.1] at goes
      exact List.cons_ne_self _ _ goes

end ClassHoist.Markup
