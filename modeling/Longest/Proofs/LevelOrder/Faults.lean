import Longest.Proofs.LevelOrder.Detached
import Longest.Proofs.LevelOrder.Written

/-!
# What is wrong with a text

A text is read in three stages, and the first of them that fails decides
the error.  The trimmed text must stand in two brackets; every piece
between the commas must be a token; and no value may be detached.  Each
stage reports its first fault only, and a later stage is never reached
before the earlier ones have succeeded: a faulty token wins over any
detached value, wherever they stand.
-/

namespace Longest.LevelOrder

open Longest.Text

/-! ## Stages of a text -/

/--
The text is the given one in two brackets, up to blanks around the brackets.
-/
def IsEnclosed (inside text : List Char) : Prop :=
  trim text = '[' :: inside ++ [']']

/--
What stands between the commas, without the blanks around it; blanks
alone are no piece.
-/
def pieces (inside : List Char) : List (List Char) :=
  if AllBlank inside then [] else (inside.splitOn ',').map trim

/-- The token is `null` or a numeral of a number that a signed word can hold. -/
def IsValid (token : List Char) : Prop :=
  token = ['n', 'u', 'l', 'l'] ∨
    ∃ number, Numeral.IsNumeral number token ∧
      Int64.minValue.toInt ≤ number ∧ number ≤ Int64.maxValue.toInt

/-- The token at a position is not valid. -/
def IsFaulty (tokens : List (List Char)) (position : Nat) : Prop :=
  ∃ token ∈ tokens[position]?, ¬ IsValid token

/-- The text has brackets, and the tokens between them stand for the entries. -/
def Lists (entries : List (Option Int64)) (text : List Char) : Prop :=
  ∃ inside, IsEnclosed inside text ∧
    List.Forall₂ IsToken entries (pieces inside)

/--
The text has brackets, and the token at the position is the first one
that is not valid.
-/
def HasFault (position : Nat) (token text : List Char) : Prop :=
  ∃ inside, IsEnclosed inside text ∧ (pieces inside)[position]? = some token ∧
    IsLeast {position | IsFaulty (pieces inside) position} position

/-! ## Brackets -/

theorem inside?_eq_some_iff {inside text : List Char} :
    inside? text = some inside ↔ IsEnclosed inside text := by
  rw [inside?, IsEnclosed]
  split
  · next rest trimmed =>
      rw [trimmed, List.cons_append, List.cons.injEq,
        Option.ite_none_right_eq_some, List.getLast?_eq_some_iff]
      constructor
      · rintro ⟨⟨between, rfl⟩, same⟩
        rw [List.dropLast_concat] at same
        exact ⟨rfl, by rw [Option.some.inj same]⟩
      · rintro ⟨-, rfl⟩
        exact ⟨⟨inside, rfl⟩, by rw [List.dropLast_concat]⟩
  · next notOpened =>
      constructor
      · intro found
        cases found
      · intro enclosed
        exact absurd enclosed (notOpened _)

theorem inside?_eq_none_iff {text : List Char} :
    inside? text = none ↔ ∀ inside, ¬ IsEnclosed inside text := by
  simp only [Option.eq_none_iff_forall_ne_some, ne_eq, inside?_eq_some_iff]

theorem IsEnclosed.unique
    {inside inside' text : List Char} (enclosed : IsEnclosed inside text)
    (enclosed' : IsEnclosed inside' text) :
    inside = inside' := by
  have same := inside?_eq_some_iff.mpr enclosed
  rw [inside?_eq_some_iff.mpr enclosed'] at same
  exact (Option.some.inj same).symm

/-! ## Tokens -/

theorem tokens_eq_pieces (inside : List Char) :
    tokens inside = pieces inside := by
  rw [pieces]
  split_ifs with blank
  · exact tokens_of_allBlank blank
  · exact tokens_of_not_allBlank blank

/-- The valid tokens are those that stand for an entry. -/
theorem isValid_iff {token : List Char} :
    IsValid token ↔ ∃ entry, IsToken entry token := by
  constructor
  · rintro (rfl | ⟨number, numeral, notBelow, notAbove⟩)
    · exact ⟨none, .absent⟩
    · have same : (Int64.ofInt number).toInt = number := by
        rw [← Numeral.inWordRange_iff, Numeral.inWordRange, Bool.and_eq_true,
          decide_eq_true_iff, decide_eq_true_iff]
        exact ⟨notBelow, notAbove⟩
      exact ⟨some (Int64.ofInt number), .value (same.symm ▸ numeral)⟩
  · rintro ⟨entry, isToken⟩
    cases isToken with
    | absent => exact Or.inl rfl
    | @value word _ numeral =>
        exact Or.inr
          ⟨word.toInt, numeral, word.minValue_le_toInt, word.toInt_le⟩

theorem readToken_of_not_isValid
    {token : List Char} (notValid : ¬ IsValid token) (position : Nat) :
    readToken token position =
      .error (.invalidToken position (String.ofList token)) := by
  have noEntry : entry? token = none := by
    rw [Option.eq_none_iff_forall_ne_some]
    intro entry found
    exact notValid (isValid_iff.mpr ⟨entry, entry?_eq_some_iff.mp found⟩)
  rw [readToken, noEntry]

section Tokens

variable {token leading : List Char} {tokens : List (List Char)}
  {position : Nat}

theorem isFaulty_cons_zero :
    IsFaulty (leading :: tokens) 0 ↔ ¬ IsValid leading := by
  simp [IsFaulty]

theorem isFaulty_cons_succ :
    IsFaulty (leading :: tokens) (position + 1) ↔ IsFaulty tokens position :=
  Iff.rfl

/--
A fault further behind is the first one only if the leading token is valid.
-/
theorem isLeast_isFaulty_cons_succ_iff :
    IsLeast {position | IsFaulty (leading :: tokens) position} (position + 1) ↔
      IsValid leading ∧
        IsLeast {position | IsFaulty tokens position} position := by
  constructor
  · intro least
    refine ⟨?_, isFaulty_cons_succ.mp least.1, ?_⟩
    · by_contra notValid
      exact absurd (least.2 (isFaulty_cons_zero.mpr notValid))
        (Nat.not_succ_le_zero position)
    · intro other faulty
      exact Nat.le_of_succ_le_succ (least.2 (isFaulty_cons_succ.mpr faulty))
  · rintro ⟨valid, least⟩
    refine ⟨isFaulty_cons_succ.mpr least.1, ?_⟩
    intro other faulty
    cases other with
    | zero => exact absurd valid (isFaulty_cons_zero.mp faulty)
    | succ other =>
        exact Nat.succ_le_succ (least.2 (isFaulty_cons_succ.mp faulty))

/-- Reading stops at the first token that is not valid. -/
theorem mapM_readToken_of_isLeast
    (found : tokens[position]? = some token)
    (least : IsLeast {position | IsFaulty tokens position} position)
    (start : Nat) :
    ((tokens.zipIdx start).mapM
        fun (token, position) => readToken token position) =
      .error (.invalidToken (start + position) (String.ofList token)) := by
  induction tokens generalizing position start with
  | nil => cases found
  | cons leading tokens induction =>
      cases position with
      | zero =>
          cases found
          have notValid := isFaulty_cons_zero.mp least.1
          simp only [List.zipIdx_cons, List.mapM_cons,
            readToken_of_not_isValid notValid]
          rfl
      | succ position =>
          rcases isLeast_isFaulty_cons_succ_iff.mp least with
            ⟨valid, leastLater⟩
          rcases isValid_iff.mp valid with ⟨entry, isToken⟩
          simp only [List.zipIdx_cons, List.mapM_cons,
            readToken_eq_ok_iff.mpr isToken,
            induction found leastLater (start + 1), Nat.succ_add_eq_add_succ]
          rfl

/-- Either all tokens are valid, or one of those that are not comes first. -/
theorem exists_entries_or_isLeast (tokens : List (List Char)) :
    (∃ entries, List.Forall₂ IsToken entries tokens) ∨
      ∃ position token, tokens[position]? = some token ∧
        IsLeast {position | IsFaulty tokens position} position := by
  induction tokens with
  | nil => exact Or.inl ⟨[], .nil⟩
  | cons leading tokens induction =>
      by_cases valid : IsValid leading
      · rcases induction with
          ⟨entries, areTokens⟩ | ⟨position, token, found, least⟩
        · rcases isValid_iff.mp valid with ⟨entry, isToken⟩
          exact Or.inl ⟨entry :: entries, .cons isToken areTokens⟩
        · exact Or.inr ⟨position + 1, token, found,
            isLeast_isFaulty_cons_succ_iff.mpr ⟨valid, least⟩⟩
      · exact Or.inr
          ⟨0, leading, rfl, isFaulty_cons_zero.mpr valid,
            fun _ _ => Nat.zero_le _⟩

end Tokens

/-! ## Reading the entries of a text -/

section Texts

variable {text : List Char} {entries : List (Option Int64)}

theorem readEntries_of_not_isEnclosed
    (notEnclosed : ∀ inside, ¬ IsEnclosed inside text) :
    readEntries text = .error .missingBrackets := by
  rw [readEntries, inside?_eq_none_iff.mpr notEnclosed]

theorem readEntries_of_isEnclosed
    {inside : List Char} (enclosed : IsEnclosed inside text) :
    readEntries text =
      (pieces inside).zipIdx.mapM
        fun (token, position) => readToken token position := by
  rw [readEntries, inside?_eq_some_iff.mpr enclosed, ← tokens_eq_pieces]

theorem readEntries_of_hasFault
    {position : Nat} {token : List Char}
    (fault : HasFault position token text) :
    readEntries text =
      .error (.invalidToken position (String.ofList token)) := by
  rcases fault with ⟨inside, enclosed, found, least⟩
  rw [readEntries_of_isEnclosed enclosed,
    mapM_readToken_of_isLeast found least 0, Nat.zero_add]

theorem readEntries_of_lists (lists : Lists entries text) :
    readEntries text = .ok entries := by
  rcases lists with ⟨inside, enclosed, areTokens⟩
  rw [readEntries_of_isEnclosed enclosed]
  exact mapM_readToken areTokens 0

/-- What the entries of a text are read as, stage by stage. -/
inductive Verdict (text : List Char) :
    Except Error (List (Option Int64)) → Prop where
  | unenclosed (notEnclosed : ∀ inside, ¬ IsEnclosed inside text) :
      Verdict text (.error .missingBrackets)
  | faulty
      {position : Nat} {token : List Char}
      (fault : HasFault position token text) :
      Verdict text (.error (.invalidToken position (String.ofList token)))
  | listed {entries : List (Option Int64)} (lists : Lists entries text) :
      Verdict text (.ok entries)

theorem verdict_readEntries (text : List Char) :
    Verdict text (readEntries text) := by
  by_cases enclosed : ∃ inside, IsEnclosed inside text
  · rcases enclosed with ⟨inside, enclosed⟩
    rcases exists_entries_or_isLeast (pieces inside) with
      ⟨entries, areTokens⟩ | ⟨position, token, found, least⟩
    · have lists : Lists entries text := ⟨inside, enclosed, areTokens⟩
      exact readEntries_of_lists lists ▸ .listed lists
    · have fault : HasFault position token text :=
        ⟨inside, enclosed, found, least⟩
      exact readEntries_of_hasFault fault ▸ .faulty fault
  · have notEnclosed := not_exists.mp enclosed
    exact readEntries_of_not_isEnclosed notEnclosed ▸ .unenclosed notEnclosed

theorem verdict_of_readEntries
    {result : Except Error (List (Option Int64))}
    (read : readEntries text = result) :
    Verdict text result :=
  read ▸ verdict_readEntries text

theorem readEntries_eq_missingBrackets_iff :
    readEntries text = .error .missingBrackets ↔
      ∀ inside, ¬ IsEnclosed inside text := by
  refine ⟨?_, readEntries_of_not_isEnclosed⟩
  intro failed
  cases verdict_of_readEntries failed with
  | unenclosed notEnclosed => exact notEnclosed

theorem readEntries_eq_invalidToken_iff {position : Nat} {token : String} :
    readEntries text = .error (.invalidToken position token) ↔
      HasFault position token.toList text := by
  constructor
  · intro failed
    cases verdict_of_readEntries failed with
    | faulty fault => rwa [String.toList_ofList]
  · intro fault
    rw [readEntries_of_hasFault fault, String.ofList_toList]

theorem readEntries_ne_detachedNode (place : Nat) :
    readEntries text ≠ .error (.detachedNode place) := by
  intro failed
  cases verdict_of_readEntries failed

theorem readEntries_eq_ok_iff :
    readEntries text = .ok entries ↔ Lists entries text := by
  refine ⟨?_, readEntries_of_lists⟩
  intro read
  cases verdict_of_readEntries read with
  | listed lists => exact lists

/-- There is one entry for each piece. -/
theorem Lists.length_eq
    {inside : List Char} (lists : Lists entries text)
    (enclosed : IsEnclosed inside text) :
    entries.length = (pieces inside).length := by
  rcases lists with ⟨inside', enclosed', areTokens⟩
  rw [enclosed.unique enclosed']
  exact areTokens.length_eq

/-- A text lists entries exactly if it can be written from them. -/
theorem lists_iff_isWritten : Lists entries text ↔ IsWritten entries text := by
  constructor
  · rintro ⟨inside, enclosed, areTokens⟩
    refine ⟨inside, ?_, enclosed ▸ isPadded_trim text⟩
    rw [pieces] at areTokens
    split_ifs at areTokens with blank
    · cases areTokens
      exact .nothing blank
    · rw [List.forall₂_map_right_iff] at areTokens
      have written : List.Forall₂ IsPiece entries (inside.splitOn ',') :=
        areTokens.imp
          fun _ piece isToken => ⟨trim piece, isToken, isPadded_trim piece⟩
      have nonempty : entries ≠ [] := by
        rintro rfl
        exact List.splitOn_ne_nil ',' inside
          (List.forall₂_nil_left_iff.mp written)
      have whole : [','].intercalate (inside.splitOn ',') = inside :=
        List.intercalate_splitOn ','
      rw [← whole]
      exact .listed nonempty written
  · intro written
    exact readEntries_eq_ok_iff.mp (readEntries_of_isWritten written)

end Texts

/-! ## Reading the tree of a text -/

theorem ofText?_eq_ok_iff {text : String} {tree : Tree Int64} :
    Tree.ofText? text = .ok tree ↔
      ∃ entries, Lists entries text.toList ∧
        Tree.ofEntries? entries = .ok tree := by
  simp only [← readEntries_eq_ok_iff, Tree.ofText?]
  cases readEntries text.toList with
  | error error => simp [Except.bind]
  | ok entries => simp [Except.bind]

theorem ofText?_eq_error_iff {text : String} {error : Error} :
    Tree.ofText? text = .error error ↔
      readEntries text.toList = .error error ∨
        ∃ entries, Lists entries text.toList ∧
          Tree.ofEntries? entries = .error error := by
  simp only [← readEntries_eq_ok_iff, Tree.ofText?]
  cases readEntries text.toList with
  | error error => simp [Except.bind]
  | ok entries => simp [Except.bind]

theorem ofText?_eq_detachedNode_iff {text : String} {place : Nat} :
    Tree.ofText? text = .error (.detachedNode place) ↔
      ∃ entries, Lists entries text.toList ∧
        IsLeast {place | IsDetached entries place} place := by
  rw [ofText?_eq_error_iff, or_iff_right (readEntries_ne_detachedNode place)]
  apply exists_congr
  intro entries
  rw [ofEntries?_eq_error_iff]
  constructor
  · rintro ⟨lists, place', isLeast, same⟩
    cases same
    exact ⟨lists, isLeast⟩
  · rintro ⟨lists, isLeast⟩
    exact ⟨lists, place, isLeast, rfl⟩

/--
The tree is not reached with a fault of the text, and reports no
such fault itself.
-/
theorem ofText?_eq_error_iff_of_ne_detachedNode
    {text : String} {error : Error}
    (notDetached : ∀ place, error ≠ .detachedNode place) :
    Tree.ofText? text = .error error ↔
      readEntries text.toList = .error error := by
  rw [ofText?_eq_error_iff, or_iff_left]
  rintro ⟨entries, _, failed⟩
  rcases ofEntries?_eq_error_iff.mp failed with ⟨place, _, same⟩
  exact notDetached place same

theorem lists_nil_of_allBlank
    {inside text : List Char} (enclosed : IsEnclosed inside text)
    (blank : AllBlank inside) :
    Lists [] text := by
  refine ⟨inside, enclosed, ?_⟩
  rw [pieces, if_pos blank]
  exact .nil

/--
The outcome of reading a text.  Each of the three errors is reported exactly if
its own stage is the first to fail, with the first fault of that stage; in all
other cases a tree is read, which is the one whose level order the text is
written from, and the empty one if the brackets are empty.
-/
theorem ofText?_outcome (text : String) :
    (Tree.ofText? text = .error .missingBrackets ↔
        ∀ inside, ¬ IsEnclosed inside text.toList) ∧
      (∀ position token,
        Tree.ofText? text = .error (.invalidToken position token) ↔
          HasFault position token.toList text.toList) ∧
      (∀ place,
        Tree.ofText? text = .error (.detachedNode place) ↔
          ∃ entries, Lists entries text.toList ∧
            IsLeast {place | IsDetached entries place} place) ∧
      ((∃ tree, Tree.ofText? text = .ok tree) ↔
        ∃ entries, Lists entries text.toList ∧
          ∀ place, ¬ IsDetached entries place) ∧
      (∀ tree,
        Tree.ofText? text = .ok tree ↔
          ∃ entries, IsWritten entries text.toList ∧
            tree.entries = Tree.dropAbsentEnd entries) ∧
      ∀ inside, IsEnclosed inside text.toList → AllBlank inside →
        Tree.ofText? text = .ok .empty := by
  refine ⟨?_, ?_, fun _ => ofText?_eq_detachedNode_iff, ?_, ?_, ?_⟩
  · rw [ofText?_eq_error_iff_of_ne_detachedNode (by simp),
      readEntries_eq_missingBrackets_iff]
  · intro position token
    rw [ofText?_eq_error_iff_of_ne_detachedNode (by simp),
      readEntries_eq_invalidToken_iff]
  · simp only [ofText?_eq_ok_iff, ← exists_ofEntries?_eq_ok_iff]
    constructor
    · rintro ⟨tree, entries, lists, read⟩
      exact ⟨entries, lists, tree, read⟩
    · rintro ⟨entries, lists, tree, read⟩
      exact ⟨tree, entries, lists, read⟩
  · intro tree
    simp only [ofText?_eq_ok_iff, lists_iff_isWritten, ofEntries?_eq_ok_iff,
      attached_isTreeAt_iff]
  · intro inside enclosed blank
    exact ofText?_eq_ok_iff.mpr ⟨[], lists_nil_of_allBlank enclosed blank, rfl⟩

/-- Blanks of three kinds in brackets and around them. -/
theorem ofText?_of_blank_brackets :
    IsEnclosed [' ', '\u2003'] "\t[ \u2003]\n".toList ∧
      AllBlank [' ', '\u2003'] ∧ Tree.ofText? "\t[ \u2003]\n" = .ok .empty := by
  have enclosed : IsEnclosed [' ', '\u2003'] "\t[ \u2003]\n".toList := by
    unfold IsEnclosed
    decide
  have blank : AllBlank [' ', '\u2003'] := by
    decide
  exact ⟨enclosed, blank,
    (ofText?_outcome "\t[ \u2003]\n").2.2.2.2.2 _ enclosed blank⟩

/-- One bracket does not enclose anything. -/
example : Tree.ofText? " [ " = .error .missingBrackets := by
  decide

/--
The value at position 1 is detached, but the token at position 2 is
looked at before.
-/
example : Tree.ofText? "[null,7, x]" = .error (.invalidToken 2 "x") := by
  decide

end Longest.LevelOrder
