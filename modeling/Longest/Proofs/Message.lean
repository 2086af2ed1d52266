import Longest.Error
import Mathlib.Logic.Function.Basic

/-!
# Messages tell errors apart

The first letter of a message belongs to one kind of error only.  Within a kind
the message gives back the position, since different numbers have different
numerals, and also the token: this is pasted as it is and may look like any part
of a message, but no backtick follows the one behind it.  So the last backtick
ends the token, whatever it contains.
-/

namespace Longest.Error

/-! ## Cutting at the last mark -/

section Cut

variable {mark : Char} {first second behind behind' : List Char}

theorem eq_nil_of_append_cons_eq
    {more : List Char} (notMem : mark ∉ behind)
    (same : mark :: behind = more ++ mark :: behind') :
    more = [] := by
  cases more with
  | nil => rfl
  | cons character more =>
      rw [List.cons_append, List.cons.injEq] at same
      have member : mark ∈ more ++ mark :: behind' :=
        List.mem_append_right more List.mem_cons_self
      rw [← same.2] at member
      exact absurd member notMem

/-- A text is cut at the last mark in one way only. -/
theorem append_cons_inj_of_last
    (notMem : mark ∉ behind) (notMem' : mark ∉ behind') :
    first ++ mark :: behind = second ++ mark :: behind' ↔
      first = second ∧ behind = behind' := by
  constructor
  · intro same
    rcases List.append_eq_append_iff.mp same with
      ⟨more, rfl, tail⟩ | ⟨more, rfl, tail⟩
    · obtain rfl := eq_nil_of_append_cons_eq notMem tail
      exact ⟨(List.append_nil first).symm, (List.cons.inj tail).2⟩
    · obtain rfl := eq_nil_of_append_cons_eq notMem' tail
      exact ⟨List.append_nil second, (List.cons.inj tail).2.symm⟩
  · rintro ⟨rfl, rfl⟩
    rfl

end Cut

/-! ## Positions and tokens -/

/-- The mark on both sides of a token. -/
def backtick : Char :=
  '\x60'

/-- What follows the backtick behind a token. -/
def placed (position : Nat) : String :=
  " at position " ++ toString position

/-- A number can be read off its numeral. -/
theorem toString_inj {position position' : Nat} :
    toString position = toString position' ↔ position = position' := by
  have inverse :
      Function.LeftInverse (Nat.ofDigitChars 10 · 0) (Nat.toDigits 10) :=
    fun _ => Nat.ofDigitChars_ten_toDigits
  rw [← String.toList_inj, Nat.toString_eq_repr, Nat.toString_eq_repr,
    Nat.toList_repr, Nat.toList_repr]
  exact inverse.injective.eq_iff

/--
The message around its token.  The two texts are opened by `change`, because
equation lemmas for long literals take too long to derive.
-/
theorem toList_message_invalidToken (position : Nat) (token : String) :
    (invalidToken position token).message.toList =
      "invalid token \x60".toList ++
        (token.toList ++ backtick :: (placed position).toList) := by
  have closing :
      "\x60 at position ".toList = backtick :: " at position ".toList := by
    decide
  change ("invalid token \x60" ++ token ++ "\x60 at position " ++
      toString position).toList =
    _ ++ (_ ++ _ :: (" at position " ++ toString position).toList)
  rw [String.toList_append, String.toList_append, String.toList_append,
    String.toList_append, closing, List.append_assoc, List.append_assoc,
    List.cons_append]

theorem backtick_notMem_placed (position : Nat) :
    backtick ∉ (placed position).toList := by
  change backtick ∉ (" at position " ++ toString position).toList
  rw [String.toList_append, List.mem_append, Nat.toString_eq_repr,
    Nat.toList_repr]
  rintro (inWords | inNumeral)
  · exact absurd inWords (by decide)
  · exact absurd (Nat.isDigit_of_mem_toDigits (by decide) (by decide) inNumeral)
      (by decide)

theorem placed_inj {position position' : Nat} :
    placed position = placed position' ↔ position = position' :=
  (String.append_right_inj _).trans toString_inj

theorem message_invalidToken_inj
    {position position' : Nat} {token token' : String} :
    (invalidToken position token).message =
        (invalidToken position' token').message ↔
      position = position' ∧ token = token' := by
  rw [← String.toList_inj, toList_message_invalidToken,
    toList_message_invalidToken, List.append_right_inj,
    append_cons_inj_of_last (backtick_notMem_placed position)
      (backtick_notMem_placed position'),
    String.toList_inj, String.toList_inj, placed_inj, and_comm]

theorem message_detachedNode_inj {position position' : Nat} :
    (detachedNode position).message = (detachedNode position').message ↔
      position = position' :=
  (String.append_left_inj _).trans
    ((String.append_right_inj _).trans toString_inj)

/-! ## Kinds of errors -/

/-- The letter with which the messages of a kind begin. -/
def initial : Error → Char
  | missingBrackets => 'l'
  | invalidToken _ _ => 'i'
  | detachedNode _ => 'v'

theorem head?_toList_message (error : Error) :
    error.message.toList.head? = some error.initial := by
  cases error with
  | missingBrackets =>
      change "level-order input must be enclosed in brackets".toList.head? =
        some 'l'
      simp
  | invalidToken position token =>
      rw [toList_message_invalidToken]
      simp [initial]
  | detachedNode position =>
      change ("value at position " ++ toString position ++
          " has no parent node").toList.head? =
        some 'v'
      simp

theorem initial_eq_of_message_eq
    {first second : Error} (same : first.message = second.message) :
    first.initial = second.initial := by
  rw [← Option.some_inj, ← head?_toList_message, ← head?_toList_message, same]

/--
Two errors have the same message only if they are the same error: if they are of
different kinds, the first letters differ.
-/
theorem message_inj {first second : Error} :
    first.message = second.message ↔ first = second := by
  constructor
  · intro same
    have sameInitial := initial_eq_of_message_eq same
    cases first <;> cases second <;> simp [initial] at sameInitial
    · rfl
    · obtain ⟨rfl, rfl⟩ := message_invalidToken_inj.mp same
      rfl
    · obtain rfl := message_detachedNode_inj.mp same
      rfl
  · rintro rfl
    rfl

/--
A token may end like a message; only the last position is that of the error.
-/
example : (invalidToken 2 "a\x60 at position 1").message =
    "invalid token \x60a\x60 at position 1\x60 at position 2" := by
  decide

end Longest.Error
