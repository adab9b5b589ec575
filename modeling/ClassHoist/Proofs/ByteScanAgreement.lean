import ClassHoist.Markup.ByteScan
import ClassHoist.Proofs.Balanced
import ClassHoist.Proofs.ByteOffsets
import ClassHoist.Proofs.Origins

/-! # Scanning bytes and scanning characters

The scan over the bytes of a source ends for every source, cuts it only between characters, and finds
the bracket that the scanner of characters stops at (`findClosing_eq`).
-/

namespace ClassHoist.Text

variable {text before rest : Text} {c d : Char}

/-- A character of one byte is encoded by its code. -/
theorem utf8EncodeChar_of_short (short : c.utf8Size = 1) :
    String.utf8EncodeChar c = [UInt8.ofNat c.toNat] := by
  have small := UInt32.le_iff_toNat_le.mp (Char.utf8Size_eq_one_iff.mp short)
  unfold String.utf8EncodeChar
  exact if_pos small

/-- The code of a character of one byte is below 128. -/
theorem toNat_lt_of_short (short : c.utf8Size = 1) : c.toNat < 128 :=
  Nat.lt_succ_of_le (UInt32.le_iff_toNat_le.mp (Char.utf8Size_eq_one_iff.mp short))

/-- No byte of a longer character is one of a shorter one. -/
theorem le_of_mem_utf8EncodeChar (long : c.utf8Size ≠ 1) :
    ∀ byte ∈ String.utf8EncodeChar c, 128 ≤ byte.toNat := by
  have big : ¬ c.val.toNat ≤ 127 := fun small =>
    long (Char.utf8Size_eq_one_iff.mpr (UInt32.le_iff_toNat_le.mpr small))
  unfold String.utf8EncodeChar
  simp only [big, ↓reduceIte]
  split
  · simp only [List.mem_cons, List.not_mem_nil, or_false, forall_eq_or_imp, forall_eq,
      UInt8.toNat_ofNat']
    omega
  · split
    · simp only [List.mem_cons, List.not_mem_nil, or_false, forall_eq_or_imp, forall_eq,
        UInt8.toNat_ofNat']
      omega
    · simp only [List.mem_cons, List.not_mem_nil, or_false, forall_eq_or_imp, forall_eq,
        UInt8.toNat_ofNat']
      omega

/-- A byte seen as a character has its own code. -/
theorem toNat_ofNat_byte (byte : UInt8) : (Char.ofNat byte.toNat).toNat = byte.toNat := by
  have small := byte.toNat_lt
  have valid : byte.toNat.isValidChar := .inl (by omega)
  rw [Char.ofNat, dif_pos valid]
  rfl

/-- The bytes of a character are those of the text at its place. -/
theorem getElem?_utf8 (whole : text = before ++ c :: rest) {place : Nat}
    (inside : place < c.utf8Size) :
    text.utf8[before.bytes + place]? = (String.utf8EncodeChar c)[place]? := by
  rw [whole, getElem?_utf8_append, utf8_cons,
    List.getElem?_append_left (by rwa [String.length_utf8EncodeChar])]

/-- At a character of one byte, that byte is the character. -/
theorem byteAt?_of_short (whole : text = before ++ c :: rest) (short : c.utf8Size = 1) :
    byteAt? text before.bytes = some c := by
  have found := getElem?_utf8 whole c.utf8Size_pos
  rw [Nat.add_zero, utf8EncodeChar_of_short short] at found
  have small := toNat_lt_of_short short
  rw [byteAt?, found]
  simp only [List.getElem?_cons_zero, Option.map_some, UInt8.toNat_ofNat',
    Nat.mod_eq_of_lt (show c.toNat < 2 ^ 8 by omega), Char.ofNat_toNat]

/-- Every byte of a longer character has a code of 128 or more. -/
theorem byteAt?_of_long (whole : text = before ++ c :: rest) (long : c.utf8Size ≠ 1) {place : Nat}
    (inside : place < c.utf8Size) :
    ∃ byte, byteAt? text (before.bytes + place) = some byte ∧ 128 ≤ byte.toNat := by
  have found := getElem?_utf8 whole inside
  rw [← String.length_utf8EncodeChar] at inside
  rw [List.getElem?_eq_getElem (l := String.utf8EncodeChar c) inside] at found
  refine ⟨_, by rw [byteAt?, found]; rfl, ?_⟩
  rw [toNat_ofNat_byte]
  exact le_of_mem_utf8EncodeChar long _ (List.getElem_mem _)

/-- No such byte is a character of one byte. -/
theorem ne_of_long {byte : Char} (long : 128 ≤ byte.toNat) (short : d.toNat < 128) : byte ≠ d := by
  rintro rfl
  exact absurd long (Nat.not_le_of_lt short)

/-- A short character is at an offset if its byte is. -/
theorem byteAt?_eq_some_iff (whole : text = before ++ rest) (short : d.toNat < 128) :
    byteAt? text before.bytes = some d ↔ rest.head? = some d := by
  cases rest with
  | nil =>
    rw [byteAt?_eq_none (by rw [whole, List.append_nil])]
    rfl
  | cons c rest =>
    by_cases isShort : c.utf8Size = 1
    · rw [byteAt?_of_short whole isShort]
      rfl
    · obtain ⟨byte, found, long⟩ := byteAt?_of_long whole isShort c.utf8Size_pos
      rw [Nat.add_zero] at found
      have other : c ≠ d := by
        rintro rfl
        exact isShort (Char.utf8Size_eq_one_iff.mpr
          (UInt32.le_iff_toNat_le.mpr (Nat.le_of_lt_succ short)))
      simp only [found, List.head?_cons, Option.some.injEq, ne_of_long long short, other]

/-- A scan that passes over each byte that is none of a short character passes over the rest of a
character that is behind its first byte, and over a longer character. -/
theorem scan_inside {α : Type} {scan : Nat → α}
    (passes : ∀ offset byte, byteAt? text offset = some byte → 128 ≤ byte.toNat →
      scan offset = scan (offset + 1))
    (whole : text = before ++ c :: rest) {place : Nat} (behind : 0 < place ∨ c.utf8Size ≠ 1)
    (upTo : place ≤ c.utf8Size) :
    scan (before.bytes + place) = scan (before.bytes + c.utf8Size) := by
  induction left : c.utf8Size - place generalizing place with
  | zero => rw [show place = c.utf8Size by omega]
  | succ count ih =>
    obtain ⟨byte, found, isLong⟩ :=
      byteAt?_of_long whole (by omega) (show place < c.utf8Size by omega)
    rw [passes _ byte found isLong, Nat.add_assoc]
    exact ih (.inl (Nat.succ_pos place)) (by omega) (by omega)

/-- A scan goes past a character if it goes past the byte of a short one and past each byte of a
longer one. -/
theorem scan_over {α : Type} {scan : Nat → α}
    (passes : ∀ offset byte, byteAt? text offset = some byte → 128 ≤ byte.toNat →
      scan offset = scan (offset + 1))
    (whole : text = before ++ c :: rest)
    (here : byteAt? text before.bytes = some c → scan before.bytes = scan (before.bytes + 1)) :
    scan before.bytes = scan (before.bytes + c.utf8Size) := by
  by_cases short : c.utf8Size = 1
  · rw [here (byteAt?_of_short whole short), short]
  · exact scan_inside passes whole (.inr short) (Nat.zero_le _)

/-- Going past a backslash and the first byte behind it leads to the end of the character there. -/
theorem scan_escaped {α : Type} {scan : Nat → α}
    (passes : ∀ offset byte, byteAt? text offset = some byte → 128 ≤ byte.toNat →
      scan offset = scan (offset + 1))
    (whole : text = before ++ c :: rest) :
    scan (before.bytes + 1) = scan (before.bytes + c.utf8Size) :=
  scan_inside passes whole (.inl Nat.one_pos) c.utf8Size_pos

end ClassHoist.Text

namespace ClassHoist.Markup.Expression

open Text

/-- What a scan for the end of a literal finds is where the scanner leaves the literal. -/
def Skips (quote : Char) (found : Option (Option Nat)) (offset : Nat) (rest : Text) : Prop :=
  (found = some none ∧ ∀ level outer, Scanner.run ⟨.literal quote, level, outer⟩ rest = none) ∨
    ∃ inner after, rest = inner ++ quote :: after ∧ found = some (some (offset + bytes inner)) ∧
      ∀ level outer, Scanner.Reads ⟨.literal quote, level, outer⟩ (inner ++ [quote])
        ⟨.code, level, outer⟩ after

/-- What a scan for the end of an expression finds is where the scanner stops, or leaves the
expression for the template around it. -/
def Closes (close : Char) (depth : Nat) (found : Option (Option Nat)) (offset : Nat)
    (rest : Text) : Prop :=
  (found = some none ∧ ∀ outer, Scanner.run ⟨.code, ⟨close, depth⟩, outer⟩ rest = none) ∨
    ∃ inner after, rest = inner ++ close :: after ∧ found = some (some (offset + bytes inner)) ∧
      Scanner.run ⟨.code, ⟨close, depth⟩, []⟩ rest = some (inner, after) ∧
      ∀ enclosing outer, Scanner.Reads ⟨.code, ⟨close, depth⟩, enclosing :: outer⟩
        (inner ++ [close]) ⟨.literal '\x60', enclosing, outer⟩ after

variable {quote close c : Char} {depth offset : Nat} {found : Option (Option Nat)}
  {source before taken rest : Text}

/-- A scanner that finds nothing behind some text finds nothing in front of it either. -/
theorem Scanner.Reads.run_eq_none {scanner next : Scanner} (reads : scanner.Reads taken next rest)
    (none : next.run rest = none) : scanner.run (taken ++ rest) = Option.none := by
  rw [reads, none]
  rfl

/-- A scan that agrees behind some text of a literal agrees in front of it. -/
theorem Skips.of_reads
    (reads : ∀ level outer, Scanner.Reads ⟨.literal quote, level, outer⟩ taken
      ⟨.literal quote, level, outer⟩ rest)
    (skips : Skips quote found (bytes (before ++ taken)) rest) :
    Skips quote found (bytes before) (taken ++ rest) := by
  rcases skips with ⟨isNone, none⟩ | ⟨inner, after, rfl, isFound, leaves⟩
  · exact .inl ⟨isNone, fun level outer => (reads level outer).run_eq_none (none level outer)⟩
  · refine .inr ⟨taken ++ inner, after, (List.append_assoc _ _ _).symm, ?_, ?_⟩
    · rw [isFound, bytes_append, bytes_append, Nat.add_assoc]
    · intro level outer
      have both := reads level outer
      rw [List.append_cons] at both
      rw [List.append_assoc]
      exact both.trans (leaves level outer)

/-- A scan that agrees behind some code agrees in front of it. -/
theorem Closes.of_reads {depth' : Nat}
    (reads : ∀ outer, Scanner.Reads ⟨.code, ⟨close, depth⟩, outer⟩ taken
      ⟨.code, ⟨close, depth'⟩, outer⟩ rest)
    (closes : Closes close depth' found (bytes (before ++ taken)) rest) :
    Closes close depth found (bytes before) (taken ++ rest) := by
  rcases closes with ⟨isNone, none⟩ | ⟨inner, after, same, isFound, stops, leaves⟩
  · exact .inl ⟨isNone, fun outer => (reads outer).run_eq_none (none outer)⟩
  · refine .inr ⟨taken ++ inner, after, ?_, ?_, ?_, ?_⟩
    · rw [same, List.append_assoc]
    · rw [isFound, bytes_append, bytes_append, Nat.add_assoc]
    · rw [reads [], stops]
      rfl
    · intro enclosing outer
      have both := reads (enclosing :: outer)
      rw [same, List.append_cons] at both
      rw [List.append_assoc]
      exact both.trans (leaves enclosing outer)

/-- A backslash in a literal is passed over together with the character behind it. -/
theorem skips_escaped {scan : Nat → Option (Option Nat)}
    (passes : ∀ offset byte, byteAt? source offset = some byte → 128 ≤ byte.toNat →
      scan offset = scan (offset + 1))
    (ends : ∀ offset, byteAt? source offset = none → scan offset = some none)
    (whole : source = before ++ '\\' :: rest)
    (later : ∀ d more, rest = d :: more →
      Skips quote (scan (bytes (before ++ ['\\', d]))) (bytes (before ++ ['\\', d])) more) :
    Skips quote (scan (bytes before + 2)) (bytes before) ('\\' :: rest) := by
  have whole' : source = (before ++ ['\\']) ++ rest := by rw [whole, List.append_cons]
  have counts : bytes (before ++ ['\\']) = bytes before + 1 := bytes_append _ _
  cases rest with
  | nil =>
    have past : byteAt? source (bytes before + 2) = none :=
      byteAt?_eq_none (by rw [whole', List.append_nil, counts]; exact Nat.le_succ _)
    exact .inl ⟨ends _ past, fun _ _ => rfl⟩
  | cons d more =>
    have escaped := scan_escaped passes whole'
    have place : bytes (before ++ ['\\', d]) = bytes before + 1 + d.utf8Size := by
      rw [bytes_append, Nat.add_assoc]
      rfl
    rw [counts, ← place] at escaped
    rw [show bytes before + 2 = bytes before + 1 + 1 from rfl, escaped]
    exact (later d more rfl).of_reads fun _ _ => .cons rfl (.cons rfl (.refl _ _))

/-- A byte of a longer character is passed over in a string. -/
theorem skipString_passes (isQuote : quote = '"' ∨ quote = '\'') (offset : Nat) (byte : Char)
    (found : byteAt? source offset = some byte) (long : 128 ≤ byte.toNat) :
    skipString source quote offset = skipString source quote (offset + 1) := by
  have noEscape : byte ≠ '\\' := by
    rintro rfl
    contradiction
  have noQuote : byte ≠ quote := by
    rintro rfl
    rcases isQuote with rfl | rfl <;> contradiction
  rw [skipString, found]
  simp only [noEscape, noQuote, ↓reduceIte]

/-- From a place between characters, the scan of a string finds its end where the scanner does. -/
theorem skipString_skips (isQuote : quote = '"' ∨ quote = '\'') (whole : source = before ++ rest) :
    Skips quote (skipString source quote (bytes before)) (bytes before) rest := by
  have short : quote.utf8Size = 1 := by rcases isQuote with rfl | rfl <;> rfl
  have noTick : quote ≠ '\x60' := by rcases isQuote with rfl | rfl <;> decide
  have noEscape : quote ≠ '\\' := by rcases isQuote with rfl | rfl <;> decide
  induction counted : rest.length using Nat.strong_induction_on generalizing before rest with
  | _ count ih =>
    cases rest with
    | nil =>
      have past : byteAt? source (bytes before) = none :=
        byteAt?_eq_none (by rw [whole, List.append_nil])
      rw [skipString, past]
      exact .inl ⟨rfl, fun _ _ => rfl⟩
    | cons c rest =>
      by_cases escape : c = '\\'
      · subst escape
        rw [skipString, byteAt?_of_short whole rfl]
        simp only [↓reduceIte]
        apply skips_escaped (skipString_passes isQuote) _ whole
        · rintro d more rfl
          exact ih more.length (by simp only [List.length_cons] at counted; omega)
            (by rw [whole, List.append_assoc]; rfl) rfl
        · intro offset none
          rw [skipString, none]
      · by_cases ends : c = quote
        · subst ends
          rw [skipString, byteAt?_of_short whole short]
          simp only [noEscape, ↓reduceIte]
          refine .inr ⟨[], rest, rfl, rfl, fun level outer => .of_step ?_⟩
          simp only [Scanner.step, Scanner.stepLiteral, noEscape, ↓reduceIte]
        · have goes := scan_over (skipString_passes isQuote) whole fun here => by
            rw [skipString, here]
            simp only [escape, ends, ↓reduceIte]
          have place : bytes (before ++ [c]) = bytes before + c.utf8Size := bytes_append _ _
          have later := ih rest.length (by simp only [List.length_cons] at counted; omega)
            (show source = (before ++ [c]) ++ rest by rw [whole, List.append_cons]) rfl
          rw [goes, ← place]
          refine later.of_reads fun _ _ => .of_step ?_
          simp only [Scanner.step, Scanner.stepLiteral, escape, ends, noTick, false_and, ↓reduceIte]

/-- A line comment ends in front of the next line feed or at the end. -/
theorem skipLine_eq (whole : source = before ++ rest) :
    skipLine source (bytes before) = some (bytes (before ++ rest.takeWhile (· != '\n'))) := by
  subst whole
  simp only [skipLine, splitAt?_append, Option.bind_eq_bind, Option.bind_some, Option.pure_def,
    bytes_append]

/-- A comment ends behind its closing mark, if there is one. -/
theorem skipComment_eq (whole : source = before ++ rest) :
    skipComment source (bytes before) =
      some (if (spanUntil (startsWith ['*', '/']) rest).2.isEmpty then none
        else some (bytes before + bytes (spanUntil (startsWith ['*', '/']) rest).1 + 2)) := by
  subst whole
  simp only [skipComment, splitAt?_append, Option.bind_eq_bind, Option.bind_some, Option.pure_def]

/-- A star that is not in front of a slash does not matter. -/
theorem run_star {level : Level} {outer : List Level} (noSlash : rest.head? ≠ some '/') :
    Scanner.run ⟨.star, level, outer⟩ rest = Scanner.run ⟨.blockComment, level, outer⟩ rest := by
  cases rest with
  | nil => rfl
  | cons c rest =>
    have other : c ≠ '/' := fun slash => noSlash (congrArg some slash)
    have same : Scanner.step ⟨.star, level, outer⟩ c = Scanner.step ⟨.blockComment, level, outer⟩ c := by
      simp only [Scanner.step, other, ↓reduceIte]
      split <;> rfl
    unfold Scanner.run
    rw [same]

/-- The scanner goes over a comment up to the first star with a slash. -/
theorem comment_cases (rest : Text) :
    ((spanUntil (startsWith ['*', '/']) rest).2 = [] ∧
        ∀ level outer, Scanner.run ⟨.blockComment, level, outer⟩ rest = none) ∨
      ∃ comment tail, spanUntil (startsWith ['*', '/']) rest = (comment, '*' :: '/' :: tail) ∧
        ∀ level outer, Scanner.Reads ⟨.blockComment, level, outer⟩ (comment ++ ['*', '/'])
          ⟨.code, level, outer⟩ tail := by
  induction rest with
  | nil => exact .inl ⟨rfl, fun _ _ => rfl⟩
  | cons c rest ih =>
    by_cases ends : startsWith ['*', '/'] (c :: rest) = true
    · obtain ⟨tail, isTail⟩ := Option.isSome_iff_exists.mp ends
      have whole := dropLead?_eq_some.mp isTail
      refine .inr ⟨[], tail, ?_, fun _ _ => .cons rfl (.cons rfl (.refl _ _))⟩
      rw [whole] at ends ⊢
      simp only [List.cons_append, List.nil_append] at ends ⊢
      simp only [spanUntil, ends, ↓reduceIte]
    · have spans : spanUntil (startsWith ['*', '/']) (c :: rest) =
          (c :: (spanUntil (startsWith ['*', '/']) rest).1,
            (spanUntil (startsWith ['*', '/']) rest).2) := by
        simp only [spanUntil, ends, Bool.false_eq_true, ↓reduceIte]
      have goes : ∀ level outer, Scanner.Reads ⟨.blockComment, level, outer⟩ [c]
          ⟨.blockComment, level, outer⟩ rest := by
        intro level outer
        by_cases star : c = '*'
        · subst star
          have noSlash : rest.head? ≠ some '/' := by
            intro slash
            obtain ⟨tail, rfl⟩ := List.head?_eq_some_iff.mp slash
            exact ends rfl
          have reads : Scanner.Reads ⟨.blockComment, level, outer⟩ ['*'] ⟨.star, level, outer⟩
              rest := .of_step rfl
          unfold Scanner.Reads at reads ⊢
          rw [reads, run_star noSlash]
        · apply Scanner.Reads.of_step
          simp only [Scanner.step, star, ↓reduceIte]
      rw [spans]
      rcases ih with ⟨isEnd, none⟩ | ⟨comment, tail, same, reads⟩
      · exact .inl ⟨isEnd, fun level outer => (goes level outer).run_eq_none (none level outer)⟩
      · rw [same]
        refine .inr ⟨c :: comment, tail, rfl, fun level outer => ?_⟩
        have whole : rest = comment ++ ['*', '/'] ++ tail := by
          rw [← spanUntil_append (startsWith ['*', '/']) rest, same, List.append_assoc]
          rfl
        have first := goes level outer
        rw [whole] at first
        exact first.trans (reads level outer)

/-- Both scans agree with the scanner behind a first part of a source. -/
structure Agree (source before rest : Text) : Prop where
  expression : ∀ close depth,
    Closes close depth (findClosing source close depth (bytes before)) (bytes before) rest
  template : Skips '\x60' (skipTemplate source (bytes before)) (bytes before) rest

/-- A byte of a longer character is passed over in code. -/
theorem findClosing_passes (close : Char) (depth offset : Nat) (byte : Char)
    (found : byteAt? source offset = some byte) (long : 128 ≤ byte.toNat) :
    findClosing source close depth offset = findClosing source close depth (offset + 1) := by
  have other (d : Char) (short : d.toNat < 128) : byte ≠ d := ne_of_long long short
  rw [findClosing, found]
  simp only [other _ (show '"'.toNat < 128 by decide), other _ (show '\''.toNat < 128 by decide),
    other _ (show '\x60'.toNat < 128 by decide), other _ (show '/'.toNat < 128 by decide),
    other _ (show '('.toNat < 128 by decide), other _ (show '['.toNat < 128 by decide),
    other _ (show '\x7b'.toNat < 128 by decide), other _ (show ')'.toNat < 128 by decide),
    other _ (show ']'.toNat < 128 by decide), other _ (show '\x7d'.toNat < 128 by decide), or_self,
    false_and, ↓reduceIte]

/-- A byte of a longer character is passed over in a template. -/
theorem skipTemplate_passes (offset : Nat) (byte : Char)
    (found : byteAt? source offset = some byte) (long : 128 ≤ byte.toNat) :
    skipTemplate source offset = skipTemplate source (offset + 1) := by
  have other (d : Char) (short : d.toNat < 128) : byte ≠ d := ne_of_long long short
  rw [skipTemplate, found]
  simp only [other _ (show '\\'.toNat < 128 by decide), other _ (show '\x60'.toNat < 128 by decide),
    other _ (show '$'.toNat < 128 by decide), false_and, ↓reduceIte]

section Step

variable (ih : ∀ before' rest', rest'.length < rest.length + 1 → source = before' ++ rest' →
  Agree source before' rest')

include ih

/-- A literal is passed over as a whole. -/
theorem closes_literal (isQuote : quote = '"' ∨ quote = '\'' ∨ quote = '\x60')
    (whole : source = before ++ quote :: rest)
    (skips : Skips quote found (bytes before + 1) rest) :
    Closes close depth
      (do
        match ← found with
        | none => return none
        | some stop =>
          if bytes before < stop then findClosing source close depth (stop + 1) else none)
      (bytes before) (quote :: rest) := by
  have opens : ∀ level outer, Scanner.step ⟨.code, level, outer⟩ quote =
      some ⟨.literal quote, level, outer⟩ := by
    intro level outer
    rcases isQuote with rfl | rfl | rfl <;> rfl
  have short : quote.utf8Size = 1 := by rcases isQuote with rfl | rfl | rfl <;> rfl
  rcases skips with ⟨rfl, none⟩ | ⟨inner, after, rfl, rfl, leaves⟩
  · refine .inl ⟨rfl, fun outer => ?_⟩
    have first : Scanner.Reads ⟨.code, ⟨close, depth⟩, outer⟩ [quote]
        ⟨.literal quote, ⟨close, depth⟩, outer⟩ rest := .of_step (opens _ _)
    exact first.run_eq_none (none _ _)
  · have place : bytes before + 1 + bytes inner + 1 =
        bytes (before ++ (quote :: inner ++ [quote])) := by
      simp [short, Nat.add_assoc]
    have later := (ih (before ++ (quote :: inner ++ [quote])) after (by simp; omega)
      (by rw [whole]; simp)).expression close depth
    have split : quote :: (inner ++ quote :: after) = quote :: inner ++ [quote] ++ after := by simp
    have behind : bytes before < bytes before + 1 + bytes inner := by omega
    simp only [Option.bind_eq_bind, Option.bind_some, behind, ↓reduceIte, place, split]
    exact later.of_reads fun outer => .cons (opens _ _) (leaves _ _)

/-- A line comment is passed over up to the end of the line. -/
theorem closes_line {text : Text} (shorter : text.length < rest.length)
    (whole : source = before ++ '/' :: '/' :: text) :
    Closes close depth
      (do
        let stop ← skipLine source (bytes before)
        if bytes before < stop then findClosing source close depth stop else none)
      (bytes before) ('/' :: '/' :: text) := by
  have noFeed : ∀ c ∈ text.takeWhile (· != '\n'), (c != '\n') = true :=
    List.all_eq_true.mp List.all_takeWhile
  have stops : ∀ c ∈ (text.dropWhile (· != '\n')).head?, (c != '\n') = false := by
    intro c isHead
    have := List.head?_dropWhile_not (· != '\n') text
    rwa [Option.mem_def.mp isHead] at this
  have lead : ('/' :: '/' :: text).takeWhile (· != '\n') = '/' :: '/' :: text.takeWhile (· != '\n') := by
    simp
  have parts : text = text.takeWhile (· != '\n') ++ text.dropWhile (· != '\n') :=
    List.takeWhile_append_dropWhile.symm
  rw [skipLine_eq whole, lead]
  generalize text.takeWhile (· != '\n') = line at noFeed parts
  generalize text.dropWhile (· != '\n') = tail at stops parts
  subst parts
  have whole' : source = (before ++ '/' :: '/' :: line) ++ tail := by rw [whole]; simp
  have goes : ∀ (outer : List Level) (after : Text),
      Scanner.Reads ⟨.code, ⟨close, depth⟩, outer⟩ ('/' :: '/' :: line)
        ⟨.lineComment, ⟨close, depth⟩, outer⟩ after :=
    fun outer after => .cons rfl (.cons rfl (Scanner.reads_line noFeed _ _))
  have behind : bytes before < bytes (before ++ '/' :: '/' :: line) := by
    rw [bytes_append]
    exact Nat.lt_add_of_pos_right (bytes_pos (List.cons_ne_nil _ _))
  simp only [Option.bind_eq_bind, Option.bind_some, behind, ↓reduceIte]
  cases tail with
  | nil =>
    rw [findClosing, byteAt?_eq_none (by rw [whole', List.append_nil])]
    refine .inl ⟨rfl, fun outer => ?_⟩
    have none := (goes outer []).run_eq_none rfl
    rwa [List.append_nil] at none ⊢
  | cons c more =>
    obtain rfl : c = '\n' := by simpa using stops c rfl
    have later := (ih (before ++ ('/' :: '/' :: line ++ ['\n'])) more
      (by simp only [List.length_append, List.length_cons] at shorter; omega)
      (by rw [whole]; simp)).expression close depth
    have place : bytes (before ++ '/' :: '/' :: line) + 1 =
        bytes (before ++ ('/' :: '/' :: line ++ ['\n'])) := by
      rw [← List.append_assoc, bytes_append _ ['\n']]
      rfl
    rw [findClosing, byteAt?_of_short whole' rfl]
    have split : '/' :: '/' :: (line ++ '\n' :: more) = '/' :: '/' :: line ++ ['\n'] ++ more := by simp
    simp only [split, place, Char.reduceEq, or_self, false_and, ↓reduceIte]
    exact later.of_reads fun outer => (goes outer _).trans (.of_step rfl)

/-- A comment in stars is passed over as a whole. -/
theorem closes_comment {text : Text} (shorter : text.length < rest.length)
    (whole : source = before ++ '/' :: '*' :: text) :
    Closes close depth
      (do
        match ← skipComment source (bytes before + 2) with
        | none => return none
        | some stop => if bytes before < stop then findClosing source close depth stop else none)
      (bytes before) ('/' :: '*' :: text) := by
  have whole' : source = (before ++ ['/', '*']) ++ text := by rw [whole, List.append_assoc]; rfl
  have counts : bytes (before ++ ['/', '*']) = bytes before + 2 := bytes_append _ _
  rw [← counts, skipComment_eq whole']
  rcases comment_cases text with ⟨isEnd, none⟩ | ⟨comment, tail, spans, reads⟩
  · rw [isEnd]
    refine .inl ⟨rfl, fun outer => ?_⟩
    have first : Scanner.Reads ⟨.code, ⟨close, depth⟩, outer⟩ ['/', '*']
        ⟨.blockComment, ⟨close, depth⟩, outer⟩ text := .cons rfl (.of_step rfl)
    exact first.run_eq_none (none _ _)
  · have parts : text = comment ++ ['*', '/'] ++ tail := by
      rw [← spanUntil_append (startsWith ['*', '/']) text, spans, List.append_assoc]
      rfl
    have later := (ih (before ++ ('/' :: '*' :: comment ++ ['*', '/'])) tail
      (by simp only [parts, List.length_append] at shorter; omega)
      (by rw [whole, parts]; simp)).expression close depth
    have place : bytes (before ++ ['/', '*']) + bytes comment + 2 =
        bytes (before ++ ('/' :: '*' :: comment ++ ['*', '/'])) := by
      simp only [bytes_append, bytes_cons, bytes_nil, List.cons_append]
      rw [show Char.utf8Size '/' = 1 from rfl, show Char.utf8Size '*' = 1 from rfl]
      omega
    have split : '/' :: '*' :: text = '/' :: '*' :: comment ++ ['*', '/'] ++ tail := by
      rw [parts]
      simp
    have behind : bytes before < bytes (before ++ ('/' :: '*' :: comment ++ ['*', '/'])) := by
      rw [bytes_append]
      exact Nat.lt_add_of_pos_right (bytes_pos (List.cons_ne_nil _ _))
    rw [spans, split]
    simp only [Option.bind_eq_bind, Option.bind_some, List.isEmpty_cons, Bool.false_eq_true,
      ↓reduceIte, place, behind]
    exact later.of_reads fun outer => .cons rfl (.cons rfl (reads _ _))

/-- A slash opens a comment, or is passed over. -/
theorem findClosing_slash (whole : source = before ++ '/' :: rest) (close : Char) (depth : Nat) :
    Closes close depth (findClosing source close depth (bytes before)) (bytes before)
      ('/' :: rest) := by
  have whole' : source = (before ++ ['/']) ++ rest := by rw [whole, List.append_cons]
  have counts : bytes (before ++ ['/']) = bytes before + 1 := bytes_append _ _
  have after (d : Char) (short : d.toNat < 128) :
      byteAt? source (bytes before + 1) = some d ↔ rest.head? = some d := by
    rw [← byteAt?_eq_some_iff whole' short, counts]
  rw [findClosing, byteAt?_of_short whole rfl]
  simp only [Char.reduceEq, or_self, after _ (show '/'.toNat < 128 by decide),
    after _ (show '*'.toNat < 128 by decide), ↓reduceIte, true_and]
  by_cases line : rest.head? = some '/'
  · obtain ⟨text, rfl⟩ := List.head?_eq_some_iff.mp line
    simp only [line, ↓reduceIte]
    exact closes_line ih (Nat.lt_succ_self _) whole
  by_cases star : rest.head? = some '*'
  · obtain ⟨text, rfl⟩ := List.head?_eq_some_iff.mp star
    simp only [star, ↓reduceIte]
    exact closes_comment ih (Nat.lt_succ_self _) whole
  · simp only [line, star, ↓reduceIte]
    have goes : ∀ outer, Scanner.Reads ⟨.code, ⟨close, depth⟩, outer⟩ ['/']
        ⟨.code, ⟨close, depth⟩, outer⟩ rest := by
      intro outer
      have first : Scanner.Reads ⟨.code, ⟨close, depth⟩, outer⟩ ['/']
          ⟨.slash, ⟨close, depth⟩, outer⟩ rest := .of_step rfl
      unfold Scanner.Reads at first ⊢
      rw [first, Scanner.run_slash]
      intro d isHead
      exact ⟨fun same => line (same ▸ isHead), fun same => star (same ▸ isHead)⟩
    have later := (ih _ rest (Nat.lt_succ_self _) whole').expression close depth
    rw [← counts]
    exact later.of_reads goes

/-- In front of a character, the scan of an expression finds its end where the scanner does. -/
theorem findClosing_closes (whole : source = before ++ c :: rest) (close : Char) (depth : Nat) :
    Closes close depth (findClosing source close depth (bytes before)) (bytes before)
      (c :: rest) := by
  have whole' : source = (before ++ [c]) ++ rest := by rw [whole, List.append_cons]
  have counts : bytes (before ++ [c]) = bytes before + c.utf8Size := by simp
  have next (depth : Nat) := (ih _ rest (Nat.lt_succ_self _) whole').expression close depth
  rw [counts] at next
  by_cases quoted : c = '"' ∨ c = '\''
  · have short : c.utf8Size = 1 := by rcases quoted with rfl | rfl <;> rfl
    have skips := skipString_skips quoted whole'
    rw [findClosing, byteAt?_of_short whole short]
    simp only [quoted, ↓reduceIte]
    rw [counts, short] at skips
    exact closes_literal ih (by tauto) whole skips
  by_cases tick : c = '\x60'
  · subst tick
    have skips := (ih _ rest (Nat.lt_succ_self _) whole').template
    rw [findClosing, byteAt?_of_short whole rfl]
    simp only [quoted, ↓reduceIte]
    rw [counts] at skips
    exact closes_literal ih (.inr (.inr rfl)) whole skips
  by_cases slash : c = '/'
  · subst slash
    exact findClosing_slash ih whole close depth
  by_cases opening : c = '(' ∨ c = '[' ∨ c = '\x7b'
  · have short : c.utf8Size = 1 := by rcases opening with rfl | rfl | rfl <;> rfl
    rw [findClosing, byteAt?_of_short whole short]
    simp only [quoted, tick, slash, opening, false_and, ↓reduceIte]
    have goes : ∀ outer, Scanner.Reads ⟨.code, ⟨close, depth⟩, outer⟩ [c]
        ⟨.code, ⟨close, depth + 1⟩, outer⟩ rest := by
      intro outer
      apply Scanner.Reads.of_step
      rcases opening with rfl | rfl | rfl <;> rfl
    exact Closes.of_reads goes (by rw [counts, short]; exact short ▸ next (depth + 1))
  by_cases closing : c = ')' ∨ c = ']' ∨ c = '\x7d'
  · have short : c.utf8Size = 1 := by rcases closing with rfl | rfl | rfl <;> rfl
    rw [findClosing, byteAt?_of_short whole short]
    simp only [quoted, tick, slash, opening, closing, false_and, ↓reduceIte]
    -- Only the bracket that is looked for ends the scan, and no other one takes the depth below
    -- zero.
    by_cases ends : depth = 0 ∧ c = close
    · obtain ⟨rfl, rfl⟩ := ends
      refine .inr ⟨[], rest, rfl, if_pos ⟨rfl, rfl⟩, ?_, fun enclosing outer => .of_step ?_⟩
      · rcases closing with rfl | rfl | rfl <;> rfl
      · rcases closing with rfl | rfl | rfl <;> rfl
    · simp only [ends, ↓reduceIte]
      have goes : ∀ outer, Scanner.Reads ⟨.code, ⟨close, depth⟩, outer⟩ [c]
          ⟨.code, ⟨close, depth - 1⟩, outer⟩ rest := by
        intro outer
        apply Scanner.Reads.of_step
        simp only [Scanner.step, Scanner.stepCode, quoted, tick, slash, opening, closing, ends,
          ↓reduceIte, or_false]
      exact Closes.of_reads goes (by rw [counts, short]; exact short ▸ next (depth - 1))
  -- Any other character opens and closes nothing, whatever bytes it has.
  · have goes := scan_over (findClosing_passes close depth) whole fun here => by
      rw [findClosing, here]
      simp only [quoted, tick, slash, opening, closing, false_and, ↓reduceIte]
    rw [goes]
    have plain : isPlainCode c = true := by
      simp only [not_or] at quoted opening closing
      simp [isPlainCode, quoted, tick, slash, opening, closing]
    exact Closes.of_reads (fun outer => .of_step (Scanner.step_plain plain))
      (by rw [counts]; exact next depth)

/-- An expression in a template literal is passed over as a whole. -/
theorem skips_hole {text : Text} (shorter : text.length < rest.length)
    (whole : source = before ++ '$' :: '\x7b' :: text) :
    Skips '\x60'
      (do
        match ← findClosing source '\x7d' 0 (bytes before + 2) with
        | none => return none
        | some stop => if bytes before < stop then skipTemplate source (stop + 1) else none)
      (bytes before) ('$' :: '\x7b' :: text) := by
  have whole' : source = (before ++ ['$', '\x7b']) ++ text := by
    rw [whole, List.append_assoc]
    rfl
  have opens : ∀ (level : Level) (outer : List Level) (after : Text),
      Scanner.Reads ⟨.literal '\x60', level, outer⟩ ['$', '\x7b']
        ⟨.code, ⟨'\x7d', 0⟩, level :: outer⟩ after :=
    fun level outer after => .cons rfl (.of_step rfl)
  have inside := (ih _ text (Nat.lt_succ_of_lt shorter) whole').expression '\x7d' 0
  have place : bytes (before ++ ['$', '\x7b']) = bytes before + 2 := bytes_append _ _
  rw [place] at inside
  rcases inside with ⟨isNone, none⟩ | ⟨inner, after, rfl, isFound, -, leaves⟩
  · rw [isNone]
    exact .inl ⟨rfl, fun level outer => (opens level outer text).run_eq_none (none _)⟩
  · have later := (ih (before ++ ('$' :: '\x7b' :: inner ++ ['\x7d'])) after
      (by simp only [List.length_append, List.length_cons] at shorter; omega)
      (by rw [whole]; simp)).template
    have stop : bytes before + 2 + bytes inner + 1 =
        bytes (before ++ ('$' :: '\x7b' :: inner ++ ['\x7d'])) := by
      simp only [bytes_append, bytes_cons, bytes_nil, List.cons_append]
      rw [show Char.utf8Size '$' = 1 from rfl, show Char.utf8Size '\x7b' = 1 from rfl,
        show Char.utf8Size '\x7d' = 1 from rfl]
      omega
    have split : '$' :: '\x7b' :: (inner ++ '\x7d' :: after) =
        '$' :: '\x7b' :: inner ++ ['\x7d'] ++ after := by simp
    have behind : bytes before < bytes before + 2 + bytes inner := by omega
    rw [isFound, split]
    simp only [Option.bind_eq_bind, Option.bind_some, behind, ↓reduceIte, stop]
    refine later.of_reads fun level outer => ?_
    have first := opens level outer (inner ++ '\x7d' :: after)
    rw [List.append_cons] at first
    exact first.trans (leaves level outer)

/-- In front of a character, the scan of a template finds its end where the scanner does. -/
theorem skipTemplate_skips (whole : source = before ++ c :: rest) :
    Skips '\x60' (skipTemplate source (bytes before)) (bytes before) (c :: rest) := by
  have whole' : source = (before ++ [c]) ++ rest := by rw [whole, List.append_cons]
  have counts : bytes (before ++ [c]) = bytes before + c.utf8Size := by simp
  have next := (ih _ rest (Nat.lt_succ_self _) whole').template
  rw [counts] at next
  by_cases escape : c = '\\'
  · subst escape
    rw [skipTemplate, byteAt?_of_short whole rfl]
    simp only [↓reduceIte]
    apply skips_escaped skipTemplate_passes _ whole
    · rintro d more rfl
      exact (ih _ more (Nat.lt_succ_of_lt (Nat.lt_succ_self _))
        (by rw [whole, List.append_assoc]; rfl)).template
    · intro offset none
      rw [skipTemplate, none]
  by_cases ends : c = '\x60'
  · subst ends
    rw [skipTemplate, byteAt?_of_short whole rfl]
    exact .inr ⟨[], rest, rfl, rfl, fun level outer => .of_step rfl⟩
  -- An expression in a template is scanned as code, and the template goes on behind its brace.
  by_cases hole : c = '$' ∧ rest.head? = some '\x7b'
  · obtain ⟨rfl, isHole⟩ := hole
    obtain ⟨text, rfl⟩ := List.head?_eq_some_iff.mp isHole
    have brace : byteAt? source (bytes before + 1) = some '\x7b' := by
      have found := (byteAt?_eq_some_iff whole' (show '\x7b'.toNat < 128 by decide)).mpr rfl
      rwa [counts] at found
    rw [skipTemplate, byteAt?_of_short whole rfl]
    simp only [escape, ends, brace, and_self, ↓reduceIte]
    exact skips_hole ih (Nat.lt_succ_self _) whole
  · have goes := scan_over skipTemplate_passes whole fun here => by
      have noHole : ¬ (c = '$' ∧ byteAt? source (bytes before + 1) = some '\x7b') := by
        rintro ⟨rfl, brace⟩
        rw [show bytes before + 1 = bytes (before ++ ['$']) from counts.symm,
          byteAt?_eq_some_iff whole' (by decide)] at brace
        exact hole ⟨rfl, brace⟩
      rw [skipTemplate, here]
      simp only [escape, ends, noHole, ↓reduceIte]
    rw [goes]
    have reads : ∀ level outer, Scanner.Reads ⟨.literal '\x60', level, outer⟩ [c]
        ⟨.literal '\x60', level, outer⟩ rest := by
      intro level outer
      -- A dollar sign alone puts the scanner in a mode of its own, which the next character ends.
      by_cases dollar : c = '$'
      · subst dollar
        have first : Scanner.Reads ⟨.literal '\x60', level, outer⟩ ['$']
            ⟨.dollar, level, outer⟩ rest := .of_step rfl
        unfold Scanner.Reads at first ⊢
        rw [first, Scanner.run_dollar]
        intro d isHead brace
        exact hole ⟨rfl, brace ▸ isHead⟩
      · apply Scanner.Reads.of_step
        simp only [Scanner.step, Scanner.stepLiteral, escape, ends, dollar, and_false, ↓reduceIte]
    exact Skips.of_reads reads (by rw [counts]; exact next)

end Step

/-- The two scans agree with the scanner everywhere in a source. -/
theorem agree (whole : source = before ++ rest) : Agree source before rest := by
  induction counted : rest.length using Nat.strong_induction_on generalizing before rest with
  | _ count ih =>
    cases rest with
    | nil =>
      have past : byteAt? source (bytes before) = none :=
        byteAt?_eq_none (by rw [whole, List.append_nil])
      refine ⟨fun close depth => ?_, ?_⟩
      · rw [findClosing, past]
        exact .inl ⟨rfl, fun _ => rfl⟩
      · rw [skipTemplate, past]
        exact .inl ⟨rfl, fun _ _ => rfl⟩
    | cons c rest =>
      have shorter : ∀ before' rest', rest'.length < rest.length + 1 → source = before' ++ rest' →
          Agree source before' rest' := by
        intro before' rest' less whole'
        exact ih rest'.length (counted ▸ less) whole' rfl
      exact ⟨findClosing_closes shorter whole, skipTemplate_skips shorter whole⟩

/-- **The scan by bytes finds what the scanner finds.** It ends for every source and every place
between two characters. -/
theorem findClosing_eq (whole : source = before ++ rest) :
    findClosing source close 0 (bytes before) =
      some ((closing? close rest).map fun cut => bytes before + bytes cut.1) := by
  rcases (agree whole).expression close 0 with ⟨isNone, none⟩ | ⟨inner, after, -, isFound, stops, -⟩
  · rw [isNone, closing?, Scanner.start, none []]
    rfl
  · rw [isFound, closing?, Scanner.start, stops]
    rfl

/-- **A complete expression ends at the bracket behind it.** This holds whatever quotes, brackets and
comment signs its strings, templates and comments have, and whatever stands in front of it and behind
that bracket. -/
theorem findClosing_complete {code : Text} (complete : Complete .code code) (before rest : Text) :
    findClosing (before ++ (code ++ '\x7d' :: rest)) '\x7d' 0 (bytes before) =
        some (some (bytes before + bytes code)) ∧
      closing? '\x7d' (code ++ '\x7d' :: rest) = some (code, rest) := by
  have ends := closing?_complete complete rest
  refine ⟨?_, ends⟩
  rw [findClosing_eq rfl, ends]
  rfl

/-- A call with a template that has an expression in it, a comment and an operator. -/
def nestedCode : Text := "f(\x60$\x7b'\x7d'/*\x60*/\x7d\\\x60\x60)//\"\x7d\n/é".toList

/-- The call is complete code. -/
theorem complete_nestedCode : Complete .code nestedCode := by
  have block : Comment ['/', '*', '\x60', '*', '/'] :=
    @Comment.block ['\x60'] fun inside => absurd inside.length_le (by decide)
  have line : Comment ['/', '/', '"', '\x7d', '\n'] := @Comment.line ['"', '\x7d'] (by decide)
  have string : Complete .code ['\'', '\x7d', '\'', '/', '*', '\x60', '*', '/'] :=
    .string (.inr rfl) (.char (by decide) (by decide) .nil) (.comment block .nil)
  have hole : Complete .template ['$', '\x7b', '\'', '\x7d', '\'', '/', '*', '\x60', '*', '/',
      '\x7d', '\\', '\x60'] := .hole string (.escape .nil)
  have template := Complete.template hole .nil
  have operator : Complete .code ['/', 'é'] :=
    .slash (fun c isHead => Option.some.inj isHead ▸ by decide) (.plain (by decide) .nil)
  exact .plain (by decide) (.brackets List.mem_cons_self template (.comment line operator))

/-- The call ends at the first of two closing brackets. -/
theorem findClosing_complete_nestedCode :
    Complete .code nestedCode ∧
      findClosing ('é' :: (nestedCode ++ ['\x7d', '\x7d'])) '\x7d' 0 2 = some (some 28) ∧
      closing? '\x7d' (nestedCode ++ ['\x7d', '\x7d']) = some (nestedCode, ['\x7d']) :=
  ⟨complete_nestedCode, findClosing_complete complete_nestedCode ['é'] ['\x7d']⟩

end ClassHoist.Markup.Expression
