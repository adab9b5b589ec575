import ClassHoist.Proofs.ByteScanAgreement
import ClassHoist.Proofs.LineStarts
import ClassHoist.Proofs.Promotion
import ClassHoist.Proofs.Renamed
import ClassHoist.Proofs.Segments

/-! # Which bytes renaming changes

Renaming changes single bytes: the colons directly behind the name of an enabled mark
(`getElem?_utf8_renameMarkers`). The names hold neither a colon nor an underscore, so a mark that is
renamed takes no other away and makes no new one: the order in which the marks are replaced does not
matter, none of them is left, and every offset keeps its position (`renameMarkers_pointwise`).
-/

namespace ClassHoist

/-- The bytes end with the name of a mark that the options enable. -/
def Options.endsMark (options : Options) (bytes : List UInt8) : Bool :=
  options.rtl && Direction.all.any (fun way => way.name.utf8.isSuffixOf bytes) ||
    options.globalPrefix && Marker.global.name.utf8.isSuffixOf bytes

/-- A colon stands at the offset, directly behind the name of a mark that the options enable. -/
def Options.renames (options : Options) (bytes : List UInt8) (offset : Nat) : Bool :=
  bytes[offset]? == some ':'.toUInt8 && options.endsMark (bytes.take offset)

namespace Text

variable {text name seen : Text} {c d : Char} {offset : Nat}

/-- A short character is a single byte. -/
theorem utf8EncodeChar_eq (short : d.toNat < 128) : String.utf8EncodeChar d = [d.toUInt8] :=
  utf8EncodeChar_of_short
    (Char.utf8Size_eq_one_iff.mpr (UInt32.le_iff_toNat_le.mpr (Nat.le_of_lt_succ short)))

theorem toNat_toUInt8 (short : d.toNat < 128) : d.toUInt8.toNat = d.toNat :=
  Nat.mod_eq_of_lt (Nat.lt_trans short (by decide))

/-- Only a short character has its byte among its own. -/
theorem eq_of_mem_utf8EncodeChar (short : d.toNat < 128)
    (member : d.toUInt8 ∈ String.utf8EncodeChar c) : c = d := by
  by_cases isShort : c.utf8Size = 1
  · rw [utf8EncodeChar_of_short isShort, List.mem_singleton] at member
    have same := congrArg UInt8.toNat member
    have small := toNat_lt_of_short isShort
    rw [toNat_toUInt8 short, UInt8.toNat_ofNat', Nat.mod_eq_of_lt (by omega)] at same
    exact Char.toNat_inj.mp same.symm
  · have long := le_of_mem_utf8EncodeChar isShort _ member
    rw [toNat_toUInt8 short] at long
    omega

/-- The byte of a short character stands only where the character does. -/
theorem getElem?_utf8_eq_some_iff (short : d.toNat < 128) :
    text.utf8[offset]? = some d.toUInt8 ↔
      ∃ before after, text = before ++ d :: after ∧ bytes before = offset := by
  constructor
  · intro found
    induction text generalizing offset with
    | nil => cases found
    | cons c rest ih =>
      rw [utf8_cons] at found
      by_cases inside : offset < (String.utf8EncodeChar c).length
      · rw [List.getElem?_append_left inside] at found
        obtain rfl := eq_of_mem_utf8EncodeChar short (List.mem_of_getElem? found)
        rw [utf8EncodeChar_eq short, List.length_singleton] at inside
        exact ⟨[], rest, rfl, (Nat.lt_one_iff.mp inside).symm⟩
      · rw [List.getElem?_append_right (Nat.le_of_not_lt inside)] at found
        obtain ⟨before, after, rfl, place⟩ := ih found
        rw [String.length_utf8EncodeChar] at inside place
        exact ⟨c :: before, after, rfl, by rw [bytes_cons]; omega⟩
  · rintro ⟨before, after, rfl, rfl⟩
    have found := getElem?_utf8_append before (d :: after) 0
    rw [Nat.add_zero] at found
    rw [found, utf8_cons, utf8EncodeChar_eq short]
    rfl

theorem take_utf8 (before after : Text) :
    (before ++ after).utf8.take (bytes before) = before.utf8 := by
  rw [utf8_append, ← length_utf8, List.take_left]

/-- Bytes of short characters end a text only where the characters do. -/
theorem utf8_suffix_iff (short : ∀ c ∈ name, c.toNat < 128) :
    name.utf8 <:+ seen.utf8 ↔ name <:+ seen := by
  constructor
  · intro ends
    induction name using List.reverseRecOn generalizing seen with
    | nil => exact List.nil_suffix
    | append_singleton front c ih =>
      have shortLast : c.toNat < 128 := short c (List.mem_append_right _ List.mem_cons_self)
      have last : utf8 [c] = [c.toUInt8] := (List.append_nil _).trans (utf8EncodeChar_eq shortLast)
      obtain ⟨lead, split⟩ := ends
      rw [utf8_append, ← List.append_assoc, last] at split
      -- The last byte is that of a short character, so that character is the last one.
      have found : seen.utf8[(lead ++ Text.utf8 front).length]? = some c.toUInt8 := by
        rw [← split, List.getElem?_concat_length]
      obtain ⟨before, after, rfl, place⟩ := (getElem?_utf8_eq_some_iff shortLast).mp found
      have counted := congrArg List.length split
      rw [List.length_append, List.length_singleton, length_utf8, bytes_append, bytes_cons,
        Char.utf8Size_eq_one_iff.mpr (UInt32.le_iff_toNat_le.mpr (Nat.le_of_lt_succ shortLast))]
        at counted
      obtain rfl : after = [] := bytes_eq_zero.mp (by omega)
      rw [utf8_append, last] at split
      obtain ⟨more, rfl⟩ := ih (fun d member => short d (List.mem_append_left _ member))
        ⟨lead, (List.append_inj' split rfl).1⟩
      exact ⟨more, by rw [List.append_assoc]⟩
  · rintro ⟨lead, rfl⟩
    rw [utf8_append]
    exact List.suffix_append _ _

end Text

section Underscored

variable {names names' : List Text} {seen text first second : Text} {offset : Nat}

/-- Only which names there are counts. -/
theorem underscored_perm (perm : names.Perm names') (seen text : Text) :
    underscored names seen text = underscored names' seen text := by
  induction text generalizing seen with
  | nil => rfl
  | cons c rest ih => rw [underscored, underscored, perm.any_eq, ih]

/-- A part of what renaming makes is made of a part. -/
theorem exists_of_underscored_eq_append (same : underscored names seen text = first ++ second) :
    ∃ front back, text = front ++ back ∧ underscored names seen front = first ∧
      underscored names (front.reverse ++ seen) back = second := by
  induction first generalizing seen text with
  | nil => exact ⟨[], text, rfl, rfl, same⟩
  | cons d first ih =>
    cases text with
    | nil => cases same
    | cons c rest =>
      obtain ⟨here, later⟩ := List.cons.inj same
      obtain ⟨front, back, rfl, isFirst, isSecond⟩ := ih later
      refine ⟨c :: front, back, rfl, ?_, ?_⟩
      · rw [underscored, here, isFirst]
      · rw [List.reverse_cons, List.append_assoc]
        exact isSecond

/-- Renaming can be cut where the text can. -/
theorem splitAt?_underscored (names : List Text) (seen text : Text) (offset : Nat) :
    Text.splitAt? offset (underscored names seen text) =
      (Text.splitAt? offset text).map fun cut =>
        (underscored names seen cut.1, underscored names (cut.1.reverse ++ seen) cut.2) := by
  cases cut : Text.splitAt? offset text with
  | some parts =>
    obtain ⟨rfl, rfl⟩ := Text.splitAt?_eq_some_iff.mp cut
    exact Text.splitAt?_eq_some_iff.mpr ⟨underscored_append _ _ _ _, bytes_underscored _ _ _⟩
  | none =>
    refine Option.eq_none_iff_forall_ne_some.mpr fun parts found => ?_
    obtain ⟨whole, place⟩ := Text.splitAt?_eq_some_iff.mp found
    obtain ⟨front, back, rfl, isFirst, -⟩ := exists_of_underscored_eq_append whole
    rw [← isFirst, bytes_underscored] at place
    rw [← place, Text.splitAt?_append] at cut
    cases cut

/-- Every byte that is no colon stays. -/
theorem getElem?_utf8_underscored (noColon : text.utf8[offset]? ≠ some ':'.toUInt8) :
    (underscored names seen text).utf8[offset]? = text.utf8[offset]? := by
  induction text generalizing seen offset with
  | nil => rfl
  | cons c rest ih =>
    rw [Text.utf8_cons] at noColon
    rw [underscored, Text.utf8_cons, Text.utf8_cons]
    by_cases inside : offset < (String.utf8EncodeChar c).length
    · have kept : ¬ (c = ':' ∧ names.any (fun name => name.reverse.isPrefixOf seen)) := by
        rintro ⟨rfl, -⟩
        obtain rfl := Nat.lt_one_iff.mp inside
        exact noColon rfl
      rw [if_neg kept, List.getElem?_append_left inside, List.getElem?_append_left inside]
    · have size : (String.utf8EncodeChar
          (if c = ':' ∧ names.any (fun name => name.reverse.isPrefixOf seen) then '_' else c)).length
            = (String.utf8EncodeChar c).length := by
        split
        case isTrue both => rw [both.1]; rfl
        case isFalse => rfl
      rw [List.getElem?_append_right (Nat.le_of_not_lt inside)] at noColon
      rw [List.getElem?_append_right (by omega), size,
        List.getElem?_append_right (Nat.le_of_not_lt inside), ih noColon]

end Underscored

section Renaming

variable {options : Options} {text : Text} {offset : Nat}

theorem Marker.short_of_mem_name (marker : Marker) : ∀ c ∈ marker.name, c.toNat < 128 := by
  cases marker with
  | direction way => cases way <;> simp [name, Direction.name]
  | global => simp [name]

/-- The bytes of a text end with the name of an enabled mark exactly if the text does. -/
theorem Options.endsMark_utf8 (options : Options) (seen : Text) :
    options.endsMark (Text.utf8 seen.reverse) =
      options.names.any fun name => name.reverse.isPrefixOf seen := by
  have ends (marker : Marker) :
      marker.name.utf8.isSuffixOf (Text.utf8 seen.reverse) = marker.name.reverse.isPrefixOf seen := by
    rw [Bool.eq_iff_iff, List.isSuffixOf_iff_suffix, Text.utf8_suffix_iff marker.short_of_mem_name,
      isPrefixOf_reverse_iff]
  have rtl : (Text.utf8 Direction.rtl.name).isSuffixOf _ = _ := ends (.direction .rtl)
  have ltr : (Text.utf8 Direction.ltr.name).isSuffixOf _ = _ := ends (.direction .ltr)
  have global := ends .global
  obtain ⟨hasRtl, hasGlobal⟩ := options
  cases hasRtl <;> cases hasGlobal <;>
    simp [Options.endsMark, Options.names, Options.markers, Direction.all, rtl, ltr, global,
      Bool.or_comm, Bool.or_left_comm]

/-- **One pass over the bytes.** The byte at an offset is an underscore where a colon stands directly
behind the name of an enabled mark, and the same byte elsewhere. -/
theorem getElem?_utf8_renameMarkers (options : Options) (text : Text) (offset : Nat) :
    (renameMarkers options text).utf8[offset]? =
      if options.renames text.utf8 offset then some '_'.toUInt8 else text.utf8[offset]? := by
  rw [renameMarkers_eq]
  by_cases colon : text.utf8[offset]? = some ':'.toUInt8
  · obtain ⟨before, after, rfl, rfl⟩ := (Text.getElem?_utf8_eq_some_iff (by decide)).mp colon
    have found := Text.getElem?_utf8_append (underscored options.names [] before)
      (underscored options.names before.reverse (':' :: after)) 0
    have ends := options.endsMark_utf8 before.reverse
    rw [List.reverse_reverse] at ends
    rw [bytes_underscored, Nat.add_zero] at found
    rw [underscored_append, List.append_nil, found, Options.renames, colon, Text.take_utf8, ends,
      beq_self_eq_true, Bool.true_and, underscored]
    simp only [true_and]
    split <;> rfl
  · rw [getElem?_utf8_underscored colon, Options.renames, beq_eq_false_iff_ne.mpr colon,
      Bool.false_and, if_neg Bool.false_ne_true]

/-- No enabled mark is left. -/
theorem not_infix_renameMarkers {marker : Marker} (enabled : marker ∈ options.markers)
    (text : Text) : ¬ marker.lead <:+: renameMarkers options text := by
  rintro ⟨lead, tail, whole⟩
  rw [renameMarkers_eq, Marker.lead, ← List.append_assoc, List.append_assoc] at whole
  obtain ⟨longer, back, rfl, isLonger, isBack⟩ := exists_of_underscored_eq_append whole.symm
  obtain ⟨front, name, rfl, -, isName⟩ := exists_of_underscored_eq_append isLonger
  have renamed : Renamed options name marker.name := ⟨_, isName⟩
  obtain rfl :=
    (renamed.twins.eq_iff marker.colon_not_mem_name marker.underscore_not_mem_name).mp rfl
  have ends : options.names.any (fun other => other.reverse.isPrefixOf
      ((front ++ marker.name).reverse ++ [])) = true := by
    refine List.any_eq_true.mpr ⟨marker.name, List.mem_map_of_mem enabled, ?_⟩
    rw [isPrefixOf_reverse_iff, List.append_nil, List.reverse_reverse]
    exact List.suffix_append _ _
  cases back with
  | nil => cases isBack
  | cons c rest =>
    rw [underscored, ends] at isBack
    have isColon := (List.cons.inj isBack).1
    split at isColon
    case isTrue => cases isColon
    case isFalse other => exact other ⟨isColon, rfl⟩

/-- Renaming moves no offset to another line or column. -/
theorem position?_renameMarkers (options : Options) (text : Text) (offset : Nat) :
    (LineTable.ofText (renameMarkers options text)).position? offset =
      (LineTable.ofText text).position? offset := by
  rw [renameMarkers_eq, LineTable.position?_eq, LineTable.position?_eq, splitAt?_underscored,
    Option.map_map]
  exact congrArg (fun f => Option.map f _)
    (funext fun cut => advanceText_underscored _ _ _ _)

end Renaming

/-- **Renaming is a single pass.** Only the colons directly behind the name of an enabled mark are
changed, each into an underscore. So the marks can be replaced in any order, renaming again changes
nothing, no enabled mark is left, and every offset keeps its line and column. -/
theorem renameMarkers_pointwise (options : Options) (text : Text) :
    let renamed := renameMarkers options text
    renamed.utf8.length = text.utf8.length ∧
    (∀ offset, renamed.utf8[offset]? =
      if options.renames text.utf8 offset then some '_'.toUInt8 else text.utf8[offset]?) ∧
    (∀ order : List Marker, order.Perm options.markers →
      order.foldl (fun text marker => marker.pattern.replaceAll marker.renamedLead text) text =
        renamed) ∧
    renameMarkers options renamed = renamed ∧
    (∀ marker ∈ options.markers, ¬ marker.lead <:+: renamed) ∧
    ∀ offset, (LineTable.ofText renamed).position? offset =
      (LineTable.ofText text).position? offset := by
  intro renamed
  refine ⟨?_, getElem?_utf8_renameMarkers options text, fun order perm => ?_,
    renameMarkers_eq_self_iff.mpr fun marker enabled => not_infix_renameMarkers enabled text,
    fun marker enabled => not_infix_renameMarkers enabled text, position?_renameMarkers options text⟩
  · rw [Text.length_utf8, Text.length_utf8, show renamed = _ from renameMarkers_eq options text,
      bytes_underscored]
  · have passes := foldl_replaceAll order [] text
    rw [underscored_nil_names, List.nil_append, underscored_perm (perm.map Marker.name)] at passes
    exact passes.trans (renameMarkers_eq options text).symm

/-- A mark inside of another's class, next to a name that no colon follows. -/
theorem renameMarkers_pointwise_nested :
    let options : Options := ⟨true, true⟩
    let text : Text := ['g', 'l', ':', 'r', 't', 'l', ':', 'é', ' ', 'l', 't', 'r', '_', ':']
    let order : List Marker := [.global, .direction .rtl, .direction .ltr]
    let renamed := renameMarkers options text
    renamed = ['g', 'l', '_', 'r', 't', 'l', '_', 'é', ' ', 'l', 't', 'r', '_', ':'] ∧
      order.Perm options.markers ∧
      order.foldl (fun text marker => marker.pattern.replaceAll marker.renamedLead text) text =
        renamed ∧
      Marker.global ∈ options.markers ∧ ¬ Marker.global.lead <:+: renamed := by
  intro options text order renamed
  obtain ⟨-, -, anyOrder, -, noneLeft, -⟩ := renameMarkers_pointwise options text
  have perm : order.Perm options.markers := by decide
  have enabled : Marker.global ∈ options.markers := by decide
  exact ⟨(renameMarkers_eq options text).trans (by decide), perm, anyOrder order perm, enabled,
    noneLeft .global enabled⟩

end ClassHoist
