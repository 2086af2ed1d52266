import Longest.Text.Blank
import Mathlib.Data.List.DropRight

/-!
# Blanks around a text

`IsPadded text padded` says that `padded` is `text` with blanks put before and
behind it.  Every text is its trimmed form with blanks around it, and trimming
does not see such blanks; a text without a blank at either end is already
trimmed.  Blanks around the pieces of a divided text do not change what the
pieces are trimmed to, as long as the separator itself is no blank.
-/

namespace Longest.Text

/-! ## Blanks -/

theorem isBlank_iff {character : Char} :
    isBlank character = true ↔
      ∃ range ∈ blankRanges,
        range.1 ≤ character.toNat ∧ character.toNat ≤ range.2 := by
  simp only [isBlank, List.any_eq_true, Bool.and_eq_true, decide_eq_true_eq]

/-- There are 25 blanks. -/
example : (blankRanges.map fun (first, last) => last + 1 - first).sum = 25 :=
  rfl

theorem isBlank_eq_false_of_isDigit
    {character : Char} (isDigit : character.isDigit = true) :
    isBlank character = false := by
  have apart : ∀ range ∈ blankRanges, range.2 < 48 ∨ 57 < range.1 := by decide
  rw [Char.isDigit_iff_toNat] at isDigit
  change 48 ≤ character.toNat ∧ character.toNat ≤ 57 at isDigit
  rw [Bool.eq_false_iff, ne_eq, isBlank_iff]
  rintro ⟨range, member, notBelow, notAbove⟩
  rcases apart range member with before | behind <;> omega

/-- The text consists of blanks. -/
def AllBlank (text : List Char) : Prop :=
  ∀ character ∈ text, isBlank character = true

instance (text : List Char) : Decidable (AllBlank text) :=
  List.decidableBAll (fun character => isBlank character = true) text

/-- The second text is the first one with blanks around it. -/
def IsPadded (text padded : List Char) : Prop :=
  ∃ before after, AllBlank before ∧ AllBlank after ∧
    padded = before ++ text ++ after

theorem isPadded_refl (text : List Char) : IsPadded text text :=
  ⟨[], [], List.forall_mem_nil _, List.forall_mem_nil _, by simp⟩

/-! ## Trimming -/

theorem trimRight_eq_rdropWhile (text : List Char) :
    trimRight text = text.rdropWhile isBlank :=
  rfl

theorem trimLeft_append_of_allBlank
    {before : List Char} (blank : AllBlank before) (text : List Char) :
    trimLeft (before ++ text) = trimLeft text :=
  List.dropWhile_append_of_pos blank

theorem trimRight_append_of_allBlank
    {after : List Char} (text : List Char) (blank : AllBlank after) :
    trimRight (text ++ after) = trimRight text := by
  have turned : AllBlank after.reverse := fun character member =>
    blank character (List.mem_reverse.mp member)
  rw [trimRight, List.reverse_append, trimLeft_append_of_allBlank turned]
  rfl

/-- Blanks around a text do not change what it is trimmed to. -/
theorem IsPadded.trim_eq
    {text padded : List Char} (isPadded : IsPadded text padded) :
    trim padded = trim text := by
  rcases isPadded with ⟨before, after, blankBefore, blankAfter, rfl⟩
  rw [trim, List.append_assoc, trimLeft_append_of_allBlank blankBefore,
    trimLeft, List.dropWhile_append]
  split_ifs with nothingLeft
  · rw [List.dropWhile_eq_nil_iff.mpr blankAfter, trim, trimLeft,
      List.isEmpty_iff.mp nothingLeft]
  · exact trimRight_append_of_allBlank _ blankAfter

/-- Trimming only takes blanks away from the two ends. -/
theorem isPadded_trim (text : List Char) : IsPadded (trim text) text := by
  refine ⟨text.takeWhile isBlank, (trimLeft text).rtakeWhile isBlank, ?_, ?_,
    ?_⟩
  · intro character member
    exact List.mem_takeWhile_imp member
  · intro character member
    exact List.mem_rtakeWhile_imp member
  · rw [trim, trimRight_eq_rdropWhile, List.append_assoc,
      List.rdropWhile_append_rtakeWhile, trimLeft,
      List.takeWhile_append_dropWhile]

theorem trim_eq_nil_iff {text : List Char} :
    trim text = [] ↔ AllBlank text := by
  rcases isPadded_trim text with ⟨before, after, blankBefore, blankAfter, whole⟩
  constructor
  · intro nothingLeft
    rw [nothingLeft, List.append_nil] at whole
    rw [whole]
    exact List.forall_mem_append.mpr ⟨blankBefore, blankAfter⟩
  · intro blank
    have padded : IsPadded [] text :=
      ⟨text, [], blank, List.forall_mem_nil _, by simp⟩
    exact padded.trim_eq

/-- A text with no blank at either end is trimmed. -/
theorem trim_eq_self
    {text : List Char}
    (first : ∀ character ∈ text.head?, isBlank character = false)
    (last : ∀ character ∈ text.getLast?, isBlank character = false) :
    trim text = text := by
  have sameLeft : trimLeft text = text := by
    cases text with
    | nil => rfl
    | cons character text =>
        exact List.dropWhile_cons_of_neg (by simp [first character rfl])
  rw [trim, sameLeft, trimRight_eq_rdropWhile, List.rdropWhile_eq_self_iff]
  intro nonempty
  simp [last _ (List.getLast?_eq_some_getLast nonempty)]

/-! ## Pieces of a text -/

section Pieces

variable {separator : Char} (isNoBlank : isBlank separator = false)
include isNoBlank

theorem not_mem_of_allBlank {blanks : List Char} (blank : AllBlank blanks) :
    separator ∉ blanks := by
  intro member
  rw [blank separator member] at isNoBlank
  cases isNoBlank

theorem map_trim_splitOn_append_left
    {before : List Char} (blank : AllBlank before) (text : List Char) :
    ((before ++ text).splitOn separator).map trim =
      (text.splitOn separator).map trim := by
  have notBefore := not_mem_of_allBlank isNoBlank blank
  have sameFirst : ∀ first, trim (before ++ first) = trim first := fun first =>
    IsPadded.trim_eq ⟨before, [], blank, List.forall_mem_nil _, by simp⟩
  by_cases divided : separator ∈ text
  · rcases List.eq_append_cons_of_mem divided with
      ⟨first, others, rfl, notInFirst⟩
    have notInPadded : separator ∉ before ++ first := by
      simp [notBefore, notInFirst]
    rw [← List.append_assoc,
      List.splitOn_append_cons_self_of_not_mem notInPadded,
      List.splitOn_append_cons_self_of_not_mem notInFirst, List.map_cons,
      List.map_cons, sameFirst]
  · have notInPadded : separator ∉ before ++ text := by
      simp [notBefore, divided]
    rw [List.splitOn_eq_singleton notInPadded,
      List.splitOn_eq_singleton divided, List.map_singleton, List.map_singleton,
      sameFirst]

/-- Blanks behind a text lengthen only the piece behind its last separator. -/
theorem map_trim_splitOn_append_right
    (text : List Char) {after : List Char} (blank : AllBlank after) :
    ((text ++ after).splitOn separator).map trim =
      (text.splitOn separator).map trim := by
  have notAfter := not_mem_of_allBlank isNoBlank blank
  have sameLast : ∀ last, trim (last ++ after) = trim last := fun last =>
    IsPadded.trim_eq ⟨[], after, List.forall_mem_nil _, blank, rfl⟩
  by_cases divided : separator ∈ text
  · rcases List.eq_append_cons_of_mem (List.mem_reverse.mpr divided) with
      ⟨last, others, turned, notInLast⟩
    have whole : text = others.reverse ++ separator :: last.reverse := by
      rw [← List.reverse_reverse text, turned]
      simp
    have notInPiece : separator ∉ last.reverse := by simpa using notInLast
    have notInPadded : separator ∉ last.reverse ++ after := by
      simp [notAfter, notInLast]
    rw [whole, List.append_assoc, List.cons_append,
      List.splitOn_append_cons_self, List.splitOn_append_cons_self,
      List.splitOn_eq_singleton notInPadded,
      List.splitOn_eq_singleton notInPiece, List.map_append, List.map_append,
      List.map_singleton, List.map_singleton, sameLast]
  · have notInPadded : separator ∉ text ++ after := by simp [notAfter, divided]
    rw [List.splitOn_eq_singleton notInPadded,
      List.splitOn_eq_singleton divided, List.map_singleton, List.map_singleton,
      sameLast]

/-- Blanks around a text do not change what its pieces are trimmed to. -/
theorem IsPadded.map_trim_splitOn
    {text padded : List Char} (isPadded : IsPadded text padded) :
    (padded.splitOn separator).map trim =
      (text.splitOn separator).map trim := by
  rcases isPadded with ⟨before, after, blankBefore, blankAfter, rfl⟩
  rw [map_trim_splitOn_append_right isNoBlank _ blankAfter,
    map_trim_splitOn_append_left isNoBlank blankBefore]

end Pieces

end Longest.Text
