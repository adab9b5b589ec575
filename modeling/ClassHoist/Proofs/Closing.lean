import ClassHoist.Markup.Expression

/-! # What the end of an expression depends on

The scanner stops only with no expression around the innermost one, so the character at which an
expression ends is the closing bracket that was asked for (`Expression.closing?_eq_some`).
-/

namespace ClassHoist.Markup.Expression

namespace Scanner

/-- The closing bracket of the outermost expression. -/
def finalClose (scanner : Scanner) : Char :=
  (scanner.outer.getLast?.getD scanner.level).close

theorem finalClose_stepCode {scanner next : Scanner} {c : Char}
    (stepped : scanner.stepCode c = some next) : next.finalClose = scanner.finalClose := by
  have deepened (mode : Mode) (depth : Nat) :
      finalClose ⟨mode, ⟨scanner.level.close, depth⟩, scanner.outer⟩ = scanner.finalClose := by
    unfold finalClose
    cases scanner.outer.getLast? <;> rfl
  unfold stepCode at stepped
  simp only at stepped
  split at stepped
  · exact Option.some.inj stepped ▸ rfl
  · split at stepped
    · exact Option.some.inj stepped ▸ rfl
    · split at stepped
      · exact Option.some.inj stepped ▸ deepened _ _
      · split at stepped
        · split at stepped
          · split at stepped
            case h_1 => cases stepped
            case h_2 enclosing outer same =>
              obtain rfl := Option.some.inj stepped
              unfold finalClose
              rw [same, List.getLast?_cons]
              rfl
          · exact Option.some.inj stepped ▸ deepened _ _
        · exact Option.some.inj stepped ▸ rfl

theorem finalClose_stepLiteral (scanner : Scanner) (quote c : Char) :
    (scanner.stepLiteral quote c).finalClose = scanner.finalClose := by
  unfold stepLiteral
  repeat' split
  all_goals rfl

/-- A step enters expressions inside templates and leaves them, and keeps the outermost one. -/
theorem finalClose_step {scanner next : Scanner} {c : Char}
    (stepped : scanner.step c = some next) : next.finalClose = scanner.finalClose := by
  unfold step at stepped
  split at stepped
  case h_1 => exact finalClose_stepCode stepped
  case h_2 =>
    split at stepped
    · exact Option.some.inj stepped ▸ rfl
    · split at stepped
      · exact Option.some.inj stepped ▸ rfl
      · exact finalClose_stepCode stepped
  case h_3 => exact Option.some.inj stepped ▸ finalClose_stepLiteral _ _ _
  case h_5 =>
    split at stepped
    · obtain rfl := Option.some.inj stepped
      simp only [finalClose, List.getLast?_cons, Option.getD_some]
    · exact Option.some.inj stepped ▸ finalClose_stepLiteral _ _ _
  all_goals
    repeat' split at stepped
    all_goals
      obtain rfl := Option.some.inj stepped
      rfl

theorem eq_finalClose_of_stepCode {scanner : Scanner} {c : Char}
    (ended : scanner.stepCode c = none) : c = scanner.finalClose := by
  unfold stepCode at ended
  simp only at ended
  split at ended
  · cases ended
  · split at ended
    · cases ended
    · split at ended
      · cases ended
      · split at ended
        · split at ended
          case isTrue closes =>
            split at ended
            case h_1 same =>
              unfold finalClose
              rw [same]
              exact closes.2
            case h_2 => cases ended
          case isFalse => cases ended
        · cases ended

/-- The scanner stops only where no expression is around the innermost one. -/
theorem eq_finalClose_of_step {scanner : Scanner} {c : Char} (ended : scanner.step c = none) :
    c = scanner.finalClose := by
  unfold step at ended
  split at ended
  case h_1 => exact eq_finalClose_of_stepCode ended
  case h_2 =>
    split at ended
    · cases ended
    · split at ended
      · cases ended
      · exact eq_finalClose_of_stepCode ended
  all_goals
    repeat' split at ended
    all_goals cases ended

theorem run_eq_some_finalClose {scanner : Scanner} {input inner after : Text}
    (ended : scanner.run input = some (inner, after)) :
    input = inner ++ scanner.finalClose :: after := by
  induction input generalizing scanner inner with
  | nil => simp only [run, reduceCtorEq] at ended
  | cons c rest ih =>
    simp only [run] at ended
    split at ended
    case h_1 stopped =>
      simp only [Option.some.injEq, Prod.mk.injEq] at ended
      obtain ⟨rfl, rfl⟩ := ended
      rw [eq_finalClose_of_step stopped]
      rfl
    case h_2 next stepped =>
      obtain ⟨⟨lead, tail⟩, deeper, same⟩ := Option.map_eq_some_iff.mp ended
      simp only [Prod.mk.injEq] at same
      obtain ⟨rfl, rfl⟩ := same
      rw [ih deeper, finalClose_step stepped]
      rfl

end Scanner

/-- An expression ends at the bracket that was asked for. -/
theorem closing?_eq_some {close : Char} {input inner after : Text}
    (ended : closing? close input = some (inner, after)) : input = inner ++ close :: after :=
  Scanner.run_eq_some_finalClose ended

end ClassHoist.Markup.Expression
