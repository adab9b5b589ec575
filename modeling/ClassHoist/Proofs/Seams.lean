import ClassHoist.Proofs.Lexing
import Mathlib.Data.List.Chain

/-! # Places between tokens

Stretches of text are passed over without regard to the tokens in them. The tokens that are left
behind such a stretch are those of the text behind it, unless a token reaches across its end
(`Cursor.dropWhile_tokens`). Only some characters stand next to each other in a token (`joins`), so
that no token reaches across a place between two others.
-/

namespace ClassHoist.Markup

/-- In some token the first character stands directly before the second. -/
def joins (c d : Char) : Bool :=
  (isWordChar c && isWordChar d) || (c == '<' && (d == '/' || d == '!')) || (c == '/' && d == '>') ||
    (c == '\x7b' && (d == '#' || d == '/' || d == ':' || d == '@'))

/-- No token reaches from the end of one text into the other. -/
def Seam (front back : Text) : Prop := ∀ c ∈ front.getLast?, ∀ d ∈ back.head?, joins c d = false

variable {front back : Text}

theorem isChain_wordLexeme (input : Text) :
    (wordLexeme input).2.1.IsChain (fun c d => joins c d = true) := by
  unfold wordLexeme
  split
  · split
    · exact .nil
    · exact .singleton _
  · next c run same =>
    have all : ∀ d ∈ c :: run, isWordChar d = true := by
      rw [← same]
      exact List.all_eq_true.mp List.all_takeWhile
    apply List.Pairwise.isChain
    apply List.Pairwise.imp_of_mem _ (List.pairwise_of_forall fun _ _ => trivial)
    intro first second inFirst inSecond _
    simp only [joins, all first inFirst, all second inSecond, Bool.and_self, Bool.true_or]

/-- Characters next to each other in a token go together. -/
theorem isChain_lexeme (input : Text) :
    (lexeme input).2.1.IsChain (fun c d => joins c d = true) := by
  unfold lexeme
  split
  case h_16 => exact isChain_wordLexeme _
  all_goals simp [joins]
  decide

namespace Seam

theorem of_nil (front : Text) : Seam front [] := fun _ _ _ isHead => nomatch isHead

/-- No token holds an opening bracket or brace behind another character. -/
theorem of_opening {d : Char} (opening : d = '<' ∨ d = '\x7b') (front back : Text) :
    Seam front (d :: back) := by
  intro c _ d' isHead
  obtain rfl := Option.some.inj isHead
  rcases opening with rfl | rfl <;> simp [joins, isWordChar]

/-- A closing bracket or brace, or a quote, ends its token. -/
theorem of_closing {c : Char} (closing : c = '>' ∨ c = '\x7d' ∨ c = '"' ∨ c = '\'')
    (front back : Text) : Seam (front ++ [c]) back := by
  intro c' isLast d _
  rw [List.getLast?_concat] at isLast
  obtain rfl := Option.some.inj isLast
  rcases closing with rfl | rfl | rfl | rfl <;> simp [joins, isWordChar]

/-- Behind a first part, the seam is the same. -/
theorem of_append {first : Text} (seam : Seam (first ++ front) back) : Seam front back := by
  intro c isLast d isHead
  apply seam c _ d isHead
  rw [List.getLast?_append, Option.mem_def.mp isLast]
  rfl

/-- A token that starts before a seam ends there at the latest. -/
theorem lexeme_split (seam : Seam front back) (nonempty : front ≠ []) :
    ∃ later, front = (lexeme (front ++ back)).2.1 ++ later ∧
      (lexeme (front ++ back)).2.2 = later ++ back := by
  have whole := lexeme_append (front ++ back)
  have chain := isChain_lexeme (front ++ back)
  rcases List.append_eq_append_iff.mp whole with ⟨later, isFront, isRest⟩ | ⟨more, isText, isBack⟩
  · exact ⟨later, isFront, isRest⟩
  · cases more with
    | nil => exact ⟨[], by simpa using isText.symm, by simpa using isBack.symm⟩
    | cons d more =>
      obtain ⟨lead, c, isFront⟩ := (List.eq_nil_or_concat' front).resolve_left nonempty
      rw [isText] at chain
      obtain ⟨-, -, joined⟩ := List.isChain_append.mp chain
      have last : c ∈ front.getLast? := by rw [isFront, List.getLast?_concat]; rfl
      have apart := seam c last d (by rw [isBack]; rfl)
      rw [joined c last d rfl] at apart
      cases apart

/-- There are only separators before a seam, or the first token starts and ends before it and the seam
is behind the token too. -/
theorem cases (seam : Seam front back) :
    (∀ c ∈ front, Text.isSeparator c = true) ∨
      ∃ kind blanks text later, front = blanks ++ (text ++ later) ∧ text ≠ [] ∧ kind ≠ .endOfFile ∧
        Begins kind blanks text (later ++ back) ∧ Seam later back := by
  have parts := List.takeWhile_append_dropWhile (p := Text.isSeparator) (l := front)
  have blank : ∀ c ∈ front.takeWhile Text.isSeparator, Text.isSeparator c = true :=
    List.all_eq_true.mp List.all_takeWhile
  have solid : ∀ c ∈ (front.dropWhile Text.isSeparator).head?, Text.isSeparator c = false :=
    head?_dropWhile front
  generalize front.takeWhile Text.isSeparator = blanks at parts blank
  generalize front.dropWhile Text.isSeparator = body at parts solid
  subst parts
  cases body with
  | nil => exact .inl (by simpa using blank)
  | cons c more =>
    obtain ⟨later, isBody, isRest⟩ := seam.of_append.lexeme_split (List.cons_ne_nil c more)
    have whole : (lexeme (c :: more ++ back)).2.1 ++ (later ++ back) = c :: more ++ back := by
      rw [← isRest, lexeme_append]
    refine .inr ⟨_, blanks, _, later, congrArg (blanks ++ ·) isBody,
      lexeme_ne_nil c (more ++ back), lexeme_kind_ne_endOfFile c (more ++ back),
      ⟨blank, ?_, ?_⟩, ?_⟩
    · intro d isHead
      apply solid d
      rw [isBody]
      exact List.mem_head?_append_of_mem_head? isHead
    · rw [whole, ← isRest]
      rfl
    · have last := seam.of_append
      rw [isBody] at last
      exact last.of_append

end Seam

namespace Cursor

variable {cursor : Cursor}

/-- The tokens of the text after the cursor. -/
def tokens (cursor : Cursor) : List Token := tokensFrom cursor.offset cursor.rest

theorem tokens_of_ended (ended : cursor.token.kind = .endOfFile) :
    cursor.tokens = [cursor.token] := by
  unfold tokens
  rw [tokensFrom]
  split
  · rfl
  · next c tail left =>
    unfold token firstToken at ended
    rw [left] at ended
    exact absurd ended (lexeme_kind_ne_endOfFile c tail)

theorem tokens_of_more (more : cursor.token.kind ≠ .endOfFile) :
    cursor.tokens = cursor.token :: cursor.bump.tokens := by
  unfold tokens
  rw [tokensFrom]
  split
  · next left =>
    unfold token firstToken at more
    rw [left] at more
    exact absurd rfl more
  · rfl

theorem head?_tokens (cursor : Cursor) : cursor.tokens.head? = some cursor.token := by
  by_cases ended : cursor.token.kind = .endOfFile
  · rw [tokens_of_ended ended]
    rfl
  · rw [tokens_of_more ended]
    rfl

/-- The first token of a text is followed by those of the rest. -/
theorem tokens_of_begins {kind : TokenKind} {blanks text rest : Text}
    (begins : Begins kind blanks text rest) (goesOn : kind ≠ .endOfFile) (offset : Nat) :
    tokens ⟨offset, blanks ++ (text ++ rest)⟩ =
      ⟨kind, ⟨offset + blanks.bytes, offset + blanks.bytes + text.bytes⟩, text⟩ ::
        tokens ⟨offset + blanks.bytes + text.bytes, rest⟩ := by
  rw [tokens_of_more (by rw [begins.token]; exact goesOn), begins.token, begins.bump]

/-- Separators before the first token change nothing. -/
theorem tokens_past_separators {blanks rest : Text} (split : cursor.rest = blanks ++ rest)
    (blank : ∀ c ∈ blanks, Text.isSeparator c = true) :
    (cursor.past blanks rest).tokens = cursor.tokens := by
  have first : firstToken (cursor.past blanks rest).offset (cursor.past blanks rest).rest =
      firstToken cursor.offset cursor.rest := by
    simp only [firstToken, past, split, List.dropWhile_append_of_pos blank,
      List.takeWhile_append_of_pos blank, Text.bytes_append, Nat.add_assoc]
  have token : (cursor.past blanks rest).token = cursor.token := congrArg Prod.fst first
  have bump : (cursor.past blanks rest).bump = cursor.bump :=
    congrArg (fun found : Token × Text => (⟨found.1.span.stop, found.2⟩ : Cursor)) first
  by_cases ended : cursor.token.kind = .endOfFile
  · rw [tokens_of_ended ended, tokens_of_ended (by rwa [token]), token]
  · rw [tokens_of_more ended, tokens_of_more (by rwa [token]), token, bump]

/-- **The tokens behind a seam.** Of the tokens of a text, those that start before a seam go and the
others are the tokens of the text behind it. -/
theorem dropWhile_tokens (passes : Token → Bool) (split : cursor.rest = front ++ back)
    (seam : Seam front back)
    (early : ∀ token : Token, token.kind ≠ .endOfFile →
      token.span.start < cursor.offset + Text.bytes front → passes token = true)
    (late : ∀ token : Token, cursor.offset + Text.bytes front ≤ token.span.start →
      passes token = false) :
    cursor.tokens.dropWhile passes = (cursor.past front back).tokens := by
  induction counted : front.length using Nat.strong_induction_on generalizing cursor front with
  | _ count ih =>
    rcases seam.cases with blank | ⟨kind, blanks, text, later, rfl, nonempty, named, begins, seam'⟩
    · -- Nothing but separators: no token starts before the seam.
      rw [← tokens_past_separators split blank]
      have first := head?_tokens (cursor.past front back)
      have starts := late (cursor.past front back).token (Nat.le_add_right _ _)
      obtain ⟨rest, isCons⟩ := List.head?_eq_some_iff.mp first
      rw [isCons, List.dropWhile_cons_of_neg (by rw [starts]; exact Bool.false_ne_true)]
    · obtain ⟨offset, rest⟩ := cursor
      obtain rfl : rest = blanks ++ (text ++ (later ++ back)) := by
        rw [show rest = _ from split, List.append_assoc, List.append_assoc]
      have positive := Text.bytes_pos nonempty
      have shorter : later.length < count := by
        have some_ := List.length_pos_iff.mpr nonempty
        rw [← counted, List.length_append, List.length_append]
        omega
      have offsets : offset + Text.bytes (blanks ++ (text ++ later)) =
          offset + Text.bytes blanks + Text.bytes text + Text.bytes later := by
        rw [Text.bytes_append, Text.bytes_append]
        omega
      rw [tokens_of_begins begins named,
        List.dropWhile_cons_of_pos (early _ named (by simp only [offsets]; omega))]
      rw [ih later.length shorter rfl seam' (by simpa only [offsets] using early)
        (by simpa only [offsets] using late) rfl]
      simp only [past, offsets]

end Cursor

end ClassHoist.Markup
