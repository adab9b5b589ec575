import ClassHoist.Proofs.Lexing
import ClassHoist.Proofs.Usages

/-! # Expressions and quoted values in other surroundings

Where an expression in braces ends depends only on the expression, and stays the same if that is
renamed (`Expression.closing?_twins`). The text of a quoted value is literal text and expressions
up to the closing quote (`Quoted`), and such a text is read in the same way whatever follows it.
-/

namespace ClassHoist.Markup

namespace Expression

/-- The scanner is not in a literal that renaming could end. -/
def Scanner.Sane (scanner : Scanner) : Prop :=
  match scanner.mode with
  | .literal quote | .escape quote => quote ≠ ':' ∧ quote ≠ '_'
  | _ => True

theorem Scanner.sane_of_stepCode {scanner next : Scanner} {c : Char}
    (stepped : scanner.stepCode c = some next) : next.Sane := by
  unfold stepCode at stepped
  simp only at stepped
  split at stepped
  case isTrue isQuote =>
    obtain rfl := Option.some.inj stepped
    rcases isQuote with rfl | rfl | rfl <;> exact ⟨by decide, by decide⟩
  case isFalse =>
    repeat' split at stepped
    all_goals
      first
      | exact Option.some.inj stepped ▸ trivial
      | exact Option.some.inj stepped ▸ ⟨by decide, by decide⟩
      | cases stepped

theorem Scanner.sane_of_step {scanner next : Scanner} {c : Char} (sane : scanner.Sane)
    (stepped : scanner.step c = some next) : next.Sane := by
  have literal {quote : Char} (plain : quote ≠ ':' ∧ quote ≠ '_') :
      (scanner.stepLiteral quote c).Sane := by
    unfold stepLiteral
    repeat' split
    all_goals
      first
      | exact trivial
      | exact plain
  unfold Sane at sane
  unfold step at stepped
  split at stepped
  case h_1 => exact sane_of_stepCode stepped
  case h_2 =>
    repeat' split at stepped
    all_goals
      first
      | exact sane_of_stepCode stepped
      | exact Option.some.inj stepped ▸ trivial
  case h_3 quote inLiteral =>
    rw [inLiteral] at sane
    exact Option.some.inj stepped ▸ literal sane
  case h_4 quote inEscape =>
    rw [inEscape] at sane
    exact Option.some.inj stepped ▸ sane
  case h_5 =>
    split at stepped
    · exact Option.some.inj stepped ▸ trivial
    · exact Option.some.inj stepped ▸ literal ⟨by decide, by decide⟩
  case h_6 inComment | h_7 inComment =>
    obtain rfl := Option.some.inj stepped
    split
    · exact trivial
    · simp only [Sane, inComment]
  case h_8 inStar =>
    repeat' split at stepped
    all_goals
      obtain rfl := Option.some.inj stepped
      first
      | exact trivial
      | simp only [Sane, inStar]

/-- The scanner treats a colon and an underscore alike. -/
theorem Scanner.step_twin {scanner : Scanner} {c d : Char} (sane : scanner.Sane) (twin : Twin c d) :
    scanner.step d = scanner.step c := by
  rcases twin with rfl | ⟨rfl, rfl⟩
  · rfl
  · have literal {quote : Char} (plain : quote ≠ ':' ∧ quote ≠ '_') :
        scanner.stepLiteral quote '_' = scanner.stepLiteral quote ':' := by
      simp only [stepLiteral, Ne.symm plain.1, Ne.symm plain.2, Char.reduceEq, and_false, ↓reduceIte]
    unfold Sane at sane
    unfold step
    split
    case h_3 quote inLiteral =>
      rw [inLiteral] at sane
      exact congrArg some (literal sane)
    case h_5 => exact congrArg some (literal ⟨by decide, by decide⟩)
    all_goals rfl

theorem Scanner.run_twins {scanner : Scanner} {inner out after other : Text} {close : Char}
    (sane : scanner.Sane) (ended : scanner.run (inner ++ close :: after) = some (inner, after))
    (twins : Twins inner out) : scanner.run (out ++ close :: other) = some (out, other) := by
  induction inner generalizing scanner out with
  | nil =>
    cases twins
    rw [List.nil_append, run] at ended ⊢
    split at ended
    case h_1 => rfl
    case h_2 =>
      obtain ⟨⟨lead, tail⟩, -, same⟩ := Option.map_eq_some_iff.mp ended
      cases same
  | cons c inner ih =>
    cases twins with
    | cons twin twins =>
      rw [List.cons_append, run] at ended ⊢
      rw [step_twin sane twin]
      split at ended
      case h_1 =>
        cases ended
      case h_2 next stepped =>
        obtain ⟨⟨lead, tail⟩, deeper, same⟩ := Option.map_eq_some_iff.mp ended
        obtain ⟨sameLead, rfl⟩ := Prod.mk.inj same
        obtain ⟨-, rfl⟩ := List.cons.inj sameLead
        rw [ih (sane_of_step sane stepped) deeper twins, Option.map_some]

/-- Where an expression ends is settled by the expression, whatever follows it. -/
theorem closing?_twins {input inner out after : Text}
    (closed : closing? '\x7d' input = some (inner, after)) (twins : Twins inner out)
    (other : Text) : closing? '\x7d' (out ++ '\x7d' :: other) = some (out, other) := by
  have ended := closed
  rw [closing?_eq_some closed] at ended
  exact Scanner.run_twins (show Scanner.Sane (.start '\x7d') from trivial) ended twins

end Expression

/-- The text of a quoted value with its closing quote. -/
inductive Quoted (quote : Char) : Text → Prop where
  | close {literal : Text} (plain : ∀ c ∈ literal, isLiteralChar quote c = true) :
      Quoted quote (literal ++ [quote])
  | expression {literal inner more : Text} (plain : ∀ c ∈ literal, isLiteralChar quote c = true)
      (closed : Expression.closing? '\x7d' (inner ++ ['\x7d']) = some (inner, []))
      (others : Quoted quote more) :
      Quoted quote (literal ++ '\x7b' :: (inner ++ '\x7d' :: more))

variable {quote : Char} {text out rest literal : Text} {offset : Nat} {parts : List ValuePart}
  {next : Cursor}

theorem isLiteralChar_quote (quote : Char) : isLiteralChar quote quote = false := by
  simp only [isLiteralChar, bne_self_eq_false, Bool.false_and]

theorem isLiteralChar_brace (quote : Char) : isLiteralChar quote '\x7b' = false := by
  simp only [isLiteralChar, bne_self_eq_false, Bool.and_false]

theorem quotedParts_quoted (done : quotedParts quote offset text = .ok (parts, next)) :
    ∃ taken, Quoted quote taken ∧ text = taken ++ next.rest := by
  have plain (text : Text) : ∀ c ∈ text.takeWhile (isLiteralChar quote),
      isLiteralChar quote c = true := List.all_eq_true.mp List.all_takeWhile
  have joined (text : Text) : text = text.takeWhile (isLiteralChar quote) ++
      text.dropWhile (isLiteralChar quote) := List.takeWhile_append_dropWhile.symm
  fun_induction quotedParts quote offset text generalizing parts next with
  | case1 => cases done
  | case2 offset text literal stop =>
    rename_i rest left
    simp only [Except.ok.injEq, Prod.mk.injEq] at done
    obtain ⟨-, rfl⟩ := done
    refine ⟨_, .close (plain text), ?_⟩
    rw [List.append_assoc, List.singleton_append, ← left]
    exact joined text
  | case3 => cases done
  | case4 => cases done
  | case5 offset text literal stop c rest left other =>
    rename_i inner after closed codeStart codeStop _ more next' same ih
    simp only [Except.ok.injEq, Prod.mk.injEq] at done
    obtain ⟨-, rfl⟩ := done
    obtain ⟨taken, quoted, split⟩ := ih same
    obtain rfl := eq_brace_of_dropWhile left other
    have alone := Expression.closing?_twins closed (.refl inner) []
    refine ⟨_, .expression (plain text) alone quoted, ?_⟩
    rw [Expression.closing?_eq_some closed, split] at left
    rw [List.append_assoc, List.cons_append, List.append_assoc, List.cons_append, ← left]
    exact joined text

/-- The text of a quoted value is read as far as its closing quote, whatever follows it. -/
theorem Quoted.read (quoted : Quoted quote text) (notBrace : quote ≠ '\x7b') (offset : Nat)
    (rest : Text) : ∃ parts next, quotedParts quote offset (text ++ rest) = .ok (parts, next) ∧
      next.rest = rest := by
  induction quoted generalizing offset with
  | @close literal plain =>
    have stops : ∀ c ∈ (quote :: rest).head?, isLiteralChar quote c = false := by
      intro c isHead
      obtain rfl := Option.some.inj isHead
      exact isLiteralChar_quote quote
    have kept := dropWhile_blanks plain stops
    rw [List.append_assoc, List.singleton_append, quotedParts]
    split
    case h_1 none =>
      rw [kept] at none
      cases none
    case h_2 c more left =>
      rw [kept] at left
      obtain ⟨rfl, rfl⟩ := List.cons.inj left
      simp only [↓reduceIte]
      exact ⟨_, _, rfl, rfl⟩
  | @expression literal inner more plain closed others ih =>
    have stops : ∀ c ∈ ('\x7b' :: (inner ++ '\x7d' :: (more ++ rest))).head?,
        isLiteralChar quote c = false := by
      intro c isHead
      obtain rfl := Option.some.inj isHead
      exact isLiteralChar_brace quote
    have kept := dropWhile_blanks plain stops
    have ends := Expression.closing?_twins closed (.refl _)
      (more ++ rest)
    rw [List.append_assoc, List.cons_append, List.append_assoc, List.cons_append, quotedParts]
    split
    case h_1 none =>
      rw [kept] at none
      cases none
    case h_2 c tail left =>
      rw [kept] at left
      obtain ⟨rfl, rfl⟩ := List.cons.inj left
      rw [if_neg (Ne.symm notBrace)]
      split
      case h_1 open' =>
        rw [ends] at open'
        cases open'
      case h_2 inner' after closed' =>
        rw [ends] at closed'
        obtain ⟨rfl, rfl⟩ := Prod.mk.inj (Option.some.inj closed')
        simp only
        obtain ⟨parts, next, done, isRest⟩ := ih (offset + Text.bytes (List.takeWhile
          (isLiteralChar quote) (literal ++ '\x7b' :: (inner ++ '\x7d' :: (more ++ rest)))) + 1 +
            Text.bytes inner + 1)
        simp only [done]
        exact ⟨_, _, rfl, isRest⟩

/-- Literal text goes on with a colon if it goes on with an underscore. -/
theorem steady_isLiteralChar (notColon : quote ≠ ':') (notUnderscore : quote ≠ '_') :
    Steady (isLiteralChar quote) := by
  simp only [Steady, isLiteralChar, bne_iff_ne.mpr (Ne.symm notColon),
    bne_iff_ne.mpr (Ne.symm notUnderscore)]
  rfl

/-- The literal text with which a quoted value starts ends inside of it. -/
theorem Quoted.takeWhile_append (quoted : Quoted quote text) (rest : Text) :
    (text ++ rest).takeWhile (isLiteralChar quote) = text.takeWhile (isLiteralChar quote) := by
  have stops (c : Char) (ends : isLiteralChar quote c = false) (more : Text) :
      ∀ d ∈ (c :: more).head?, isLiteralChar quote d = false := fun d isHead =>
    Option.some.inj isHead ▸ ends
  cases quoted with
  | close plain =>
    rw [List.append_assoc, List.singleton_append,
      takeWhile_blanks plain (stops quote (isLiteralChar_quote quote) _),
      takeWhile_blanks plain (stops quote (isLiteralChar_quote quote) _)]
  | expression plain closed others =>
    rw [List.append_assoc, List.cons_append,
      takeWhile_blanks plain (stops '\x7b' (isLiteralChar_brace quote) _),
      takeWhile_blanks plain (stops '\x7b' (isLiteralChar_brace quote) _)]

theorem Quoted.twins (quoted : Quoted quote text) (notColon : quote ≠ ':')
    (notUnderscore : quote ≠ '_') (twins : Twins text out) : Quoted quote out := by
  have steady := steady_isLiteralChar notColon notUnderscore
  have plainOut {literal literal' : Text} (plain : ∀ c ∈ literal, isLiteralChar quote c = true)
      (twins : Twins literal literal') : ∀ c ∈ literal', isLiteralChar quote c = true :=
    twins.forall_mem fun c member d twin => (twin.test_eq steady).trans (plain c member)
  induction quoted generalizing out with
  | close plain =>
    obtain ⟨literal', last, rfl, lead, ends⟩ := twins.append
    cases ends with
    | cons twin none =>
      cases none
      obtain rfl := twin.eq_of_ne_colon notColon
      exact .close (plainOut plain lead)
  | expression plain closed others ih =>
    obtain ⟨literal', tail, rfl, lead, ends⟩ := twins.append
    cases ends with
    | cons twin ends =>
      obtain ⟨inner', tail', rfl, inners, ends⟩ := Twins.append ends
      cases ends with
      | cons twin' others =>
        obtain rfl := twin.eq_of_ne_colon (by decide)
        obtain rfl := twin'.eq_of_ne_colon (by decide)
        exact .expression (plainOut plain lead) (Expression.closing?_twins closed inners [])
          (ih others)

/-- The literal text with which a quoted value starts can be exchanged. -/
theorem Quoted.replace {taken : Text} (quoted : Quoted quote taken) {other : Text}
    (plain : ∀ c ∈ other, isLiteralChar quote c = true) :
    Quoted quote (other ++ taken.dropWhile (isLiteralChar quote)) := by
  cases quoted with
  | close lead =>
    rw [dropWhile_blanks lead (show ∀ c ∈ [quote].head?, isLiteralChar quote c = false from
      fun c isHead => Option.some.inj isHead ▸ isLiteralChar_quote quote)]
    exact .close plain
  | expression lead closed others =>
    rw [dropWhile_blanks lead (show ∀ c ∈ List.head? ('\x7b' :: _), isLiteralChar quote c = false from
      fun c isHead => Option.some.inj isHead ▸ isLiteralChar_brace quote)]
    exact .expression plain closed others

/-- Behind the literal text with which a quoted value starts comes the closing quote or an
expression. -/
theorem Quoted.head?_dropWhile (quoted : Quoted quote text) :
    (text.dropWhile (isLiteralChar quote)).head? = some quote ∨
      (text.dropWhile (isLiteralChar quote)).head? = some '\x7b' := by
  cases quoted with
  | close plain =>
    rw [dropWhile_blanks plain (show ∀ c ∈ [quote].head?, isLiteralChar quote c = false from
      fun c isHead => Option.some.inj isHead ▸ isLiteralChar_quote quote)]
    exact .inl rfl
  | expression plain closed others =>
    rw [dropWhile_blanks plain (show ∀ c ∈ List.head? ('\x7b' :: _), isLiteralChar quote c = false from
      fun c isHead => Option.some.inj isHead ▸ isLiteralChar_brace quote)]
    exact .inr rfl

/-- With which text a quoted value starts, if with any. -/
theorem leadingText?_eq_iff (done : quotedParts quote offset text = .ok (parts, next))
    {word : String} (nonempty : word.toList ≠ []) :
    (Value.ofParts offset parts).leadingText?.map Literal.raw = some word ↔
      text.takeWhile (isLiteralChar quote) = word.toList := by
  obtain ⟨others, rfl, noText, -⟩ := quotedParts_eq_ok done
  unfold literalPart
  cases text.takeWhile (isLiteralChar quote) with
  | nil =>
    simp only [List.isEmpty_nil, ↓reduceIte, List.nil_append, Ne.symm nonempty, iff_false]
    intro leads
    obtain ⟨literal, found, rfl⟩ := Option.map_eq_some_iff.mp leads
    rcases leadingText?_ofParts found with ⟨-, rfl⟩ | first
    · exact nonempty rfl
    · exact noText literal first
  | cons c lead =>
    have starts : (Value.ofParts offset ([.text ⟨⟨offset, offset + Text.bytes (c :: lead)⟩,
        String.ofList (c :: lead)⟩] ++ others)).leadingText? = some ⟨⟨offset, offset +
          Text.bytes (c :: lead)⟩, String.ofList (c :: lead)⟩ := by
      cases others <;> rfl
    simp only [List.isEmpty_cons, Bool.false_eq_true, ↓reduceIte, starts, Option.map_some,
      Option.some.injEq]
    rw [← String.toList_inj, String.toList_ofList]

/-- The literal text with which a quoted value starts, and where it stands. -/
theorem leadingText?_literal (done : quotedParts quote offset text = .ok (parts, next))
    {literal : Literal} (leads : (Value.ofParts offset parts).leadingText? = some literal)
    (nonempty : literal.raw.toList ≠ []) :
    literal.raw.toList = text.takeWhile (isLiteralChar quote) ∧ literal.span.start = offset := by
  obtain ⟨others, rfl, noText, -⟩ := quotedParts_eq_ok done
  rcases leadingText?_ofParts leads with ⟨-, rfl⟩ | first
  · exact absurd rfl nonempty
  · unfold literalPart at first
    split at first
    · exact absurd first (noText literal)
    · obtain rfl := ValuePart.text.inj (Option.some.inj first)
      exact ⟨String.toList_ofList, rfl⟩

end ClassHoist.Markup
