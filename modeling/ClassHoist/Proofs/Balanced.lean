import ClassHoist.Markup.Expression

/-! # Balanced expressions

An expression is complete if every string, template, comment and bracket in it is closed
(`Complete`), and balanced if no comment goes on to the end of a line (`Balanced`). The scanner goes
over a complete expression and is where it was (`Scanner.reads_complete`), so it finds the closing
bracket directly behind it (`closing?_complete`).
-/

namespace ClassHoist.Markup.Expression

/-- The code of an expression, or the text of a template in it. -/
inductive Region where
  | code
  | template

/-- A character of code that opens and closes nothing. -/
def isPlainCode (c : Char) : Bool :=
  !(c == '"' || c == '\'' || c == '\x60' || c == '/' || c == '(' || c == '[' || c == '\x7b' ||
    c == ')' || c == ']' || c == '\x7d')

/-- The text between the quotes of a string: the quote stands in it behind a backslash only. -/
inductive StringText (quote : Char) : Text → Prop
  | nil : StringText quote []
  | char {c : Char} {rest : Text} : c ≠ quote → c ≠ '\\' → StringText quote rest →
      StringText quote (c :: rest)
  | escape {c : Char} {rest : Text} : StringText quote rest → StringText quote ('\\' :: c :: rest)

/-- The brackets that belong together. -/
def bracketPairs : List (Char × Char) := [('(', ')'), ('[', ']'), ('\x7b', '\x7d')]

/-- Code or the text of a template in which all that is opened is closed, and each comment by a star
and a slash. -/
inductive Balanced : Region → Text → Prop
  | nil {region : Region} : Balanced region []
  | plain {c : Char} {rest : Text} : isPlainCode c = true → Balanced .code rest →
      Balanced .code (c :: rest)
  | slash {rest : Text} : (∀ c ∈ rest.head?, c ≠ '/' ∧ c ≠ '*') → Balanced .code rest →
      Balanced .code ('/' :: rest)
  | string {quote : Char} {text rest : Text} : quote = '"' ∨ quote = '\'' →
      StringText quote text → Balanced .code rest →
      Balanced .code (quote :: (text ++ quote :: rest))
  | template {text rest : Text} : Balanced .template text → Balanced .code rest →
      Balanced .code ('\x60' :: (text ++ '\x60' :: rest))
  | comment {text rest : Text} : ¬ ['*', '/'] <:+: text → Balanced .code rest →
      Balanced .code ('/' :: '*' :: (text ++ '*' :: '/' :: rest))
  | brackets {left right : Char} {inner rest : Text} : (left, right) ∈ bracketPairs →
      Balanced .code inner → Balanced .code rest → Balanced .code (left :: (inner ++ right :: rest))
  | char {c : Char} {rest : Text} : c ≠ '\x60' → c ≠ '\\' →
      (c = '$' → ∀ d ∈ rest.head?, d ≠ '\x7b') → Balanced .template rest →
      Balanced .template (c :: rest)
  | escape {c : Char} {rest : Text} : Balanced .template rest →
      Balanced .template ('\\' :: c :: rest)
  | hole {inner rest : Text} : Balanced .code inner → Balanced .template rest →
      Balanced .template ('$' :: '\x7b' :: (inner ++ '\x7d' :: rest))

/-- A comment with its end: up to a star and a slash, or up to the end of the line. -/
inductive Comment : Text → Prop
  | block {text : Text} : ¬ ['*', '/'] <:+: text → Comment ('/' :: '*' :: (text ++ ['*', '/']))
  | line {text : Text} : '\n' ∉ text → Comment ('/' :: '/' :: (text ++ ['\n']))

/-- Code or the text of a template in which all that is opened is closed, with comments of either
kind. In code stand characters that open nothing, slashes that start no comment, strings, templates,
comments, and code in brackets; in a template stand characters, any of them behind a backslash, and
expressions in braces behind a dollar sign. -/
inductive Complete : Region → Text → Prop
  | nil {region : Region} : Complete region []
  | plain {c : Char} {rest : Text} : isPlainCode c = true → Complete .code rest →
      Complete .code (c :: rest)
  | slash {rest : Text} : (∀ c ∈ rest.head?, c ≠ '/' ∧ c ≠ '*') → Complete .code rest →
      Complete .code ('/' :: rest)
  | string {quote : Char} {text rest : Text} : quote = '"' ∨ quote = '\'' →
      StringText quote text → Complete .code rest →
      Complete .code (quote :: (text ++ quote :: rest))
  | template {text rest : Text} : Complete .template text → Complete .code rest →
      Complete .code ('\x60' :: (text ++ '\x60' :: rest))
  | comment {text rest : Text} : Comment text → Complete .code rest → Complete .code (text ++ rest)
  | brackets {left right : Char} {inner rest : Text} : (left, right) ∈ bracketPairs →
      Complete .code inner → Complete .code rest → Complete .code (left :: (inner ++ right :: rest))
  | char {c : Char} {rest : Text} : c ≠ '\x60' → c ≠ '\\' →
      (c = '$' → ∀ d ∈ rest.head?, d ≠ '\x7b') → Complete .template rest →
      Complete .template (c :: rest)
  | escape {c : Char} {rest : Text} : Complete .template rest →
      Complete .template ('\\' :: c :: rest)
  | hole {inner rest : Text} : Complete .code inner → Complete .template rest →
      Complete .template ('$' :: '\x7b' :: (inner ++ '\x7d' :: rest))

/-- Balanced code is complete. -/
theorem Balanced.complete {region : Region} {text : Text} (balanced : Balanced region text) :
    Complete region text := by
  induction balanced with
  | nil => exact .nil
  | plain isPlain _ ih => exact .plain isPlain ih
  | slash operator _ ih => exact .slash operator ih
  | string isQuote isString _ ih => exact .string isQuote isString ih
  | template _ _ ihText ih => exact .template ihText ih
  | @comment text rest noEnd _ ih =>
    have whole : '/' :: '*' :: (text ++ '*' :: '/' :: rest) =
        '/' :: '*' :: (text ++ ['*', '/']) ++ rest := by
      simp only [List.cons_append, List.append_assoc, List.nil_append]
    exact whole ▸ .comment (.block noEnd) ih
  | brackets isPair _ _ ihInner ih => exact .brackets isPair ihInner ih
  | char noTick noEscape noHole _ ih => exact .char noTick noEscape noHole ih
  | escape _ ih => exact .escape ih
  | hole _ _ ihInner ih => exact .hole ihInner ih

/-- What the scanner is in the middle of. -/
def Region.mode : Region → Mode
  | .code => .code
  | .template => .literal '\x60'

/-- What may follow in the region: nothing that makes one token of the last character. -/
def Region.Allows : Region → Text → Prop
  | .code, rest => ∀ c ∈ rest.head?, c ≠ '/' ∧ c ≠ '*'
  | .template, rest => ∀ c ∈ rest.head?, c ≠ '\x7b'

namespace Scanner

/-- In front of the rest, the scanner goes over the text and is the other one then. -/
def Reads (scanner : Scanner) (text : Text) (next : Scanner) (rest : Text) : Prop :=
  scanner.run (text ++ rest) = (next.run rest).map fun cut => (text ++ cut.1, cut.2)

variable {scanner middle next : Scanner} {text more rest : Text} {c : Char}

theorem Reads.refl (scanner : Scanner) (rest : Text) : scanner.Reads [] scanner rest := by
  unfold Reads
  rw [List.nil_append]
  cases scanner.run rest <;> rfl

theorem Reads.trans (first : scanner.Reads text middle (more ++ rest))
    (second : middle.Reads more next rest) : scanner.Reads (text ++ more) next rest := by
  unfold Reads at *
  rw [List.append_assoc, first, second, Option.map_map]
  simp only [Function.comp_def, List.append_assoc]

/-- A step of the scanner reads its character. -/
theorem Reads.of_step (stepped : scanner.step c = some next) : scanner.Reads [c] next rest := by
  unfold Reads
  rw [List.singleton_append, run, stepped]
  rfl

/-- A step and what is read behind it are read one after the other. -/
theorem Reads.cons (stepped : scanner.step c = some middle) (reads : middle.Reads text next rest) :
    scanner.Reads (c :: text) next rest :=
  Reads.trans (.of_step stepped) reads

variable {level : Level} {outer : List Level}

/-- A plain character leaves the scanner where it was. -/
theorem step_plain (plain : isPlainCode c = true) :
    step ⟨.code, level, outer⟩ c = some ⟨.code, level, outer⟩ := by
  simp only [isPlainCode, Bool.not_eq_true', Bool.or_eq_false_iff, beq_eq_false_iff_ne, ne_eq]
    at plain
  obtain ⟨⟨⟨⟨⟨⟨⟨⟨⟨double, single⟩, tick⟩, slash⟩, paren⟩, square⟩, brace⟩, parenEnd⟩, squareEnd⟩,
    braceEnd⟩ := plain
  simp only [step, stepCode, double, single, tick, slash, paren, square, brace, parenEnd, squareEnd,
    braceEnd, or_self, ↓reduceIte]

/-- A slash is an operator unless it starts a comment. -/
theorem run_slash (operator : ∀ c ∈ rest.head?, c ≠ '/' ∧ c ≠ '*') :
    run ⟨.slash, level, outer⟩ rest = run ⟨.code, level, outer⟩ rest := by
  cases rest with
  | nil => rfl
  | cons c rest =>
    obtain ⟨noSlash, noStar⟩ := operator c rfl
    have same : step ⟨.slash, level, outer⟩ c = step ⟨.code, level, outer⟩ c := by
      simp only [step, noSlash, noStar, ↓reduceIte]
      rfl
    unfold run
    rw [same]

/-- A dollar sign is one character of the template unless it starts an expression. -/
theorem run_dollar (plain : ∀ c ∈ rest.head?, c ≠ '\x7b') :
    run ⟨.dollar, level, outer⟩ rest = run ⟨.literal '\x60', level, outer⟩ rest := by
  cases rest with
  | nil => rfl
  | cons c rest =>
    have same : step ⟨.dollar, level, outer⟩ c = step ⟨.literal '\x60', level, outer⟩ c := by
      unfold step
      simp only [plain c rfl, ↓reduceIte]
      rfl
    unfold run
    rw [same]

/-- Inside quotes, the text of a string leaves the scanner where it was. -/
theorem reads_stringText {quote : Char} (isQuote : quote = '"' ∨ quote = '\'')
    (string : StringText quote text) (rest : Text) :
    Reads ⟨.literal quote, level, outer⟩ text ⟨.literal quote, level, outer⟩ rest := by
  have noTick : quote ≠ '\x60' := by rcases isQuote with rfl | rfl <;> decide
  induction string with
  | nil => exact .refl _ _
  | char noQuote noEscape _ ih =>
    refine .cons ?_ ih
    simp only [step, stepLiteral, noQuote, noEscape, noTick, false_and, ↓reduceIte]
  | escape _ ih => exact .cons rfl (.cons rfl ih)

/-- A comment up to a star and a slash goes on to the first of them. -/
theorem reads_block (text rest : Text) :
    (¬ ['*', '/'] <:+: text → Reads ⟨.blockComment, level, outer⟩ (text ++ ['*', '/'])
      ⟨.code, level, outer⟩ rest) ∧
    (¬ ['*', '/'] <:+: '*' :: text → Reads ⟨.star, level, outer⟩ (text ++ ['*', '/'])
      ⟨.code, level, outer⟩ rest) := by
  induction text with
  | nil =>
    exact ⟨fun _ => .cons rfl (.cons rfl (.refl _ _)), fun _ => .cons rfl (.cons rfl (.refl _ _))⟩
  | cons c text ih =>
    obtain ⟨inside, afterStar⟩ := ih
    refine ⟨fun open_ => ?_, fun open_ => ?_⟩
    · by_cases star : c = '*'
      · subst star
        exact .cons rfl (afterStar open_)
      · refine .cons ?_ (inside fun closes => open_ (closes.trans ?_))
        · simp only [step, star, ↓reduceIte]
        · exact (List.suffix_cons c text).isInfix
    · have noSlash : c ≠ '/' := by
        rintro rfl
        exact open_ ⟨[], text, rfl⟩
      by_cases star : c = '*'
      · subst star
        refine .cons rfl (afterStar fun closes => open_ (closes.trans ?_))
        exact (List.suffix_cons _ _).isInfix
      · refine .cons ?_ (inside fun closes => open_ (closes.trans ?_))
        · simp only [step, star, noSlash, ↓reduceIte]
        · exact ((List.suffix_cons c text).trans (List.suffix_cons _ _)).isInfix

/-- A line comment goes on up to a line feed. -/
theorem reads_line (noFeed : ∀ c ∈ text, (c != '\n') = true) (level : Level) (outer : List Level) :
    Reads ⟨.lineComment, level, outer⟩ text ⟨.lineComment, level, outer⟩ rest := by
  induction text with
  | nil => exact .refl _ _
  | cons c text ih =>
    have other : c ≠ '\n' := by simpa using noFeed c List.mem_cons_self
    refine .cons ?_ (ih fun d mem => noFeed d (List.mem_cons_of_mem _ mem))
    simp only [step, other, ↓reduceIte]

/-- After a comment, code goes on. -/
theorem reads_comment (comment : Comment text) (rest : Text) :
    Reads ⟨.code, level, outer⟩ text ⟨.code, level, outer⟩ rest := by
  cases comment with
  | block noEnd => exact .cons rfl (.cons rfl ((reads_block _ rest).1 noEnd))
  | @line text noFeed =>
    have noFeed' : ∀ c ∈ text, (c != '\n') = true := fun c member =>
      bne_iff_ne.mpr fun same => noFeed (same ▸ member)
    exact .cons rfl (.cons rfl (.trans (reads_line noFeed' level outer) (.of_step rfl)))

/-- What holds of the first character of a text and of what follows it holds of both together. -/
theorem head?_append {test : Char → Prop} (first : ∀ c ∈ text.head?, test c)
    (second : ∀ c ∈ rest.head?, test c) : ∀ c ∈ (text ++ rest).head?, test c := by
  cases text with
  | nil => exact second
  | cons c text => exact first

/-- **The scanner goes over a complete text.** It is where it was before. -/
theorem reads_complete {region : Region} (complete : Complete region text) :
    ∀ (level : Level) (outer : List Level) (rest : Text), region.Allows rest →
      Reads ⟨region.mode, level, outer⟩ text ⟨region.mode, level, outer⟩ rest := by
  induction complete with
  | nil => exact fun _ _ _ _ => .refl _ _
  | plain isPlain _ ih =>
    intro level outer rest allows
    exact .cons (step_plain isPlain) (ih level outer rest allows)
  | @slash text operator _ ih =>
    intro level outer rest allows
    refine .cons rfl ?_
    unfold Reads
    rw [run_slash (head?_append operator allows)]
    exact ih level outer rest allows
  | @string quote string more isQuote isString _ ih =>
    intro level outer rest allows
    have opens : step ⟨.code, level, outer⟩ quote = some ⟨.literal quote, level, outer⟩ := by
      rcases isQuote with rfl | rfl <;> rfl
    have closes : step ⟨.literal quote, level, outer⟩ quote = some ⟨.code, level, outer⟩ := by
      rcases isQuote with rfl | rfl <;> rfl
    exact .cons opens (.trans (reads_stringText isQuote isString _)
      (.cons closes (ih level outer rest allows)))
  | template _ _ ihText ih =>
    intro level outer rest allows
    refine .cons rfl (.trans (ihText level outer _ ?_) (.cons rfl (ih level outer rest allows)))
    exact fun c isHead => Option.some.inj isHead ▸ by decide
  | comment isComment _ ih =>
    intro level outer rest allows
    exact .trans (reads_comment isComment _) (ih level outer rest allows)
  | @brackets left right inner more isPair _ _ ihInner ih =>
    intro level outer rest allows
    simp only [bracketPairs, List.mem_cons, Prod.mk.injEq, List.not_mem_nil, or_false] at isPair
    have opens : step ⟨.code, level, outer⟩ left =
        some ⟨.code, ⟨level.close, level.depth + 1⟩, outer⟩ := by
      rcases isPair with ⟨rfl, -⟩ | ⟨rfl, -⟩ | ⟨rfl, -⟩ <;> rfl
    have closes : step ⟨.code, ⟨level.close, level.depth + 1⟩, outer⟩ right =
        some ⟨.code, level, outer⟩ := by
      rcases isPair with ⟨-, rfl⟩ | ⟨-, rfl⟩ | ⟨-, rfl⟩ <;> rfl
    have allowsRight : Region.code.Allows (right :: more ++ rest) := by
      intro c isHead
      obtain rfl := Option.some.inj isHead
      rcases isPair with ⟨-, rfl⟩ | ⟨-, rfl⟩ | ⟨-, rfl⟩ <;> decide
    exact .cons opens (.trans (ihInner _ outer _ allowsRight)
      (.cons closes (ih level outer rest allows)))
  | @char c text noTick noEscape noHole _ ih =>
    intro level outer rest allows
    -- Behind a dollar sign the scanner waits for the next character, which might open an
    -- expression.
    by_cases dollar : c = '$'
    · subst dollar
      have starts : step ⟨.literal '\x60', level, outer⟩ '$' = some ⟨.dollar, level, outer⟩ := rfl
      refine .cons starts ?_
      unfold Reads
      rw [run_dollar (head?_append (noHole rfl) allows)]
      exact ih level outer rest allows
    · refine .cons ?_ (ih level outer rest allows)
      simp only [Region.mode, step, stepLiteral, noTick, noEscape, dollar, and_false, ↓reduceIte]
  | escape _ ih =>
    exact fun level outer rest allows => .cons rfl (.cons rfl (ih level outer rest allows))
  | hole _ _ ihInner ih =>
    intro level outer rest allows
    -- Inside, the level of the code around the template is put off until the brace closes.
    refine .cons rfl (.cons rfl (.trans (ihInner ⟨'\x7d', 0⟩ (level :: outer) _ ?_)
      (.cons rfl (ih level outer rest allows))))
    exact fun c isHead => Option.some.inj isHead ▸ by decide

end Scanner

/-- **A complete expression ends at the bracket behind it.** -/
theorem closing?_complete {code : Text} (complete : Complete .code code) (rest : Text) :
    closing? '\x7d' (code ++ '\x7d' :: rest) = some (code, rest) := by
  have allows : Region.code.Allows ('\x7d' :: rest) :=
    fun c isHead => Option.some.inj isHead ▸ by decide
  have reads := Scanner.reads_complete complete ⟨'\x7d', 0⟩ [] ('\x7d' :: rest) allows
  unfold closing? Scanner.start
  have stops : Scanner.run ⟨.code, ⟨'\x7d', 0⟩, []⟩ ('\x7d' :: rest) = some ([], rest) := rfl
  unfold Scanner.Reads at reads
  simp only [Region.mode, stops, Option.map_some, List.append_nil] at reads
  exact reads

/-- Behind balanced code, the closing brace is found. -/
theorem closing?_balanced {code : Text} (balanced : Balanced .code code) (rest : Text) :
    closing? '\x7d' (code ++ '\x7d' :: rest) = some (code, rest) :=
  closing?_complete balanced.complete rest

end ClassHoist.Markup.Expression
