import Longest.LevelOrder.Text
import Longest.Proofs.LevelOrder.RoundTrip
import Longest.Proofs.Text.Blank
import Longest.Proofs.Text.Numeral
import Mathlib.Data.List.Forall2

/-!
# Trees are read back from text

A level order is written in many ways: every value by any numeral of it, every
absent child as `null`, with commas between these tokens and brackets around
them all, and with blanks around the text and around every token.  `IsWritten`
admits exactly these texts, and reading one of them gives the entries back.  So
a tree is read back from every text of its level order.
-/

namespace Longest.LevelOrder

open Longest.Text

/-! ## Texts of a level order -/

/-- The token stands for the entry. -/
inductive IsToken : Option Int64 → List Char → Prop where
  | absent : IsToken none ['n', 'u', 'l', 'l']
  | value
      {word : Int64} {token : List Char}
      (numeral : Numeral.IsNumeral word.toInt token) :
      IsToken (some word) token

/-- The piece is a token of the entry with blanks around it. -/
def IsPiece (entry : Option Int64) (piece : List Char) : Prop :=
  ∃ token, IsToken entry token ∧ IsPadded token piece

/--
What may stand between the brackets: pieces with commas between them, or only
blanks if there are no entries.
-/
inductive IsInside : List (Option Int64) → List Char → Prop where
  | nothing {inside : List Char} (blank : AllBlank inside) : IsInside [] inside
  | listed
      {entries : List (Option Int64)} {pieces : List (List Char)}
      (nonempty : entries ≠ [])
      (written : List.Forall₂ IsPiece entries pieces) :
      IsInside entries ([','].intercalate pieces)

/-- The text lists the entries in brackets. -/
def IsWritten (entries : List (Option Int64)) (text : List Char) : Prop :=
  ∃ inside, IsInside entries inside ∧ IsPadded ('[' :: inside ++ [']']) text

theorem exists_isPiece (entry : Option Int64) :
    ∃ piece, IsPiece entry piece := by
  cases entry with
  | none => exact ⟨_, _, .absent, isPadded_refl _⟩
  | some word =>
      rcases Numeral.exists_isNumeral word.toInt with ⟨token, numeral⟩
      exact ⟨token, token, .value numeral, isPadded_refl token⟩

theorem exists_isWritten (entries : List (Option Int64)) :
    ∃ text, IsWritten entries text := by
  have exists_pieces : ∃ pieces, List.Forall₂ IsPiece entries pieces := by
    induction entries with
    | nil => exact ⟨[], .nil⟩
    | cons entry entries induction =>
        rcases exists_isPiece entry with ⟨piece, isPiece⟩
        rcases induction with ⟨pieces, written⟩
        exact ⟨piece :: pieces, .cons isPiece written⟩
  rcases exists_pieces with ⟨pieces, written⟩
  by_cases nothing : entries = []
  · subst nothing
    exact ⟨_, [], .nothing (List.forall_mem_nil _), isPadded_refl _⟩
  · exact ⟨_, _, .listed nothing written, isPadded_refl _⟩

/-! ## Tokens -/

/-- Tokens contain neither blanks nor commas. -/
theorem IsToken.isBlank_eq_false_and_ne_comma
    {entry : Option Int64} {token : List Char} (isToken : IsToken entry token) :
    ∀ character ∈ token, isBlank character = false ∧ character ≠ ',' := by
  cases isToken with
  | absent =>
      have checked :
          ['n', 'u', 'l', 'l'].all
              (fun character => !isBlank character && character != ',') =
            true :=
        rfl
      simpa only
        [List.all_eq_true, Bool.and_eq_true, Bool.not_eq_true', bne_iff_ne]
        using checked
  | value numeral =>
      intro character member
      rcases numeral.sign_or_isDigit character member with rfl | rfl | isDigit
      · decide
      · decide
      · refine ⟨isBlank_eq_false_of_isDigit isDigit, ?_⟩
        rintro rfl
        cases isDigit

theorem IsToken.ne_nil
    {entry : Option Int64} {token : List Char} (isToken : IsToken entry token) :
    token ≠ [] := by
  cases isToken with
  | absent => exact List.cons_ne_nil _ _
  | value numeral => exact numeral.ne_nil

theorem IsToken.trim_eq
    {entry : Option Int64} {token : List Char} (isToken : IsToken entry token) :
    trim token = token := by
  have noBlank := isToken.isBlank_eq_false_and_ne_comma
  apply trim_eq_self
  · intro character isFirst
    exact (noBlank character (List.mem_of_head? isFirst)).1
  · intro character isLast
    exact (noBlank character (List.mem_of_getLast? isLast)).1

theorem entry?_eq_some_iff {entry : Option Int64} {token : List Char} :
    entry? token = some entry ↔ IsToken entry token := by
  unfold entry?
  split_ifs with isNull
  · subst isNull
    constructor
    · intro found
      cases found
      exact .absent
    · intro isToken
      cases isToken with
      | absent => rfl
      | value numeral =>
          exact absurd (numeral.sign_or_isDigit 'n' List.mem_cons_self)
            (by decide)
  · rw [Option.map_eq_some_iff]
    constructor
    · rintro ⟨word, read, rfl⟩
      exact .value (Numeral.word?_eq_some_iff.mp read)
    · intro isToken
      cases isToken with
      | absent => exact absurd rfl isNull
      | value numeral => exact ⟨_, Numeral.word?_eq_some_iff.mpr numeral, rfl⟩

/-! ## Pieces -/

theorem IsPiece.isToken_trim
    {entry : Option Int64} {piece : List Char} (isPiece : IsPiece entry piece) :
    IsToken entry (trim piece) := by
  rcases isPiece with ⟨token, isToken, isPadded⟩
  rw [isPadded.trim_eq, isToken.trim_eq]
  exact isToken

theorem IsPiece.not_allBlank
    {entry : Option Int64} {piece : List Char} (isPiece : IsPiece entry piece) :
    ¬ AllBlank piece := by
  rw [← trim_eq_nil_iff]
  exact isPiece.isToken_trim.ne_nil

theorem IsPiece.comma_not_mem
    {entry : Option Int64} {piece : List Char} (isPiece : IsPiece entry piece) :
    ',' ∉ piece := by
  rcases isPiece with
    ⟨token, isToken, before, after, blankBefore, blankAfter, rfl⟩
  have notBefore : ',' ∉ before := not_mem_of_allBlank rfl blankBefore
  have notAfter : ',' ∉ after := not_mem_of_allBlank rfl blankAfter
  have notInToken : ',' ∉ token := fun member =>
    (isToken.isBlank_eq_false_and_ne_comma ',' member).2 rfl
  simp [notBefore, notAfter, notInToken]

section Pieces

variable {entries : List (Option Int64)} {pieces : List (List Char)}

theorem comma_not_mem_of_isPiece
    (written : List.Forall₂ IsPiece entries pieces) :
    ∀ piece ∈ pieces, ',' ∉ piece := by
  induction written with
  | nil => exact List.forall_mem_nil _
  | cons isPiece _ induction =>
      exact List.forall_mem_cons.mpr ⟨isPiece.comma_not_mem, induction⟩

theorem not_allBlank_intercalate
    (hasPiece : pieces ≠ []) (written : List.Forall₂ IsPiece entries pieces) :
    ¬ AllBlank ([','].intercalate pieces) := by
  cases written with
  | nil => exact absurd rfl hasPiece
  | @cons entry piece _ others isPiece _ =>
      have starts : piece <+: [','].intercalate (piece :: others) := by
        cases others with
        | nil => exact ⟨[], by rw [List.intercalate_singleton, List.append_nil]⟩
        | cons next others =>
            rw [List.intercalate_cons_cons, List.append_assoc]
            exact List.prefix_append _ _
      intro blank
      exact isPiece.not_allBlank
        fun character member => blank character (starts.subset member)

end Pieces

/-! ## Reading -/

theorem inside?_of_isPadded
    {inside text : List Char}
    (isPadded : IsPadded ('[' :: inside ++ [']']) text) :
    inside? text = some inside := by
  have trimmed : trim ('[' :: inside ++ [']']) = '[' :: inside ++ [']'] := by
    apply trim_eq_self
    · intro character isFirst
      cases isFirst
      rfl
    · intro character isLast
      rw [List.getLast?_concat] at isLast
      cases isLast
      rfl
  rw [inside?, isPadded.trim_eq, trimmed]
  simp

theorem tokens_of_allBlank {inside : List Char} (blank : AllBlank inside) :
    tokens inside = [] := by
  rw [tokens, trim_eq_nil_iff.mpr blank]
  rfl

/--
The tokens are the pieces between the commas, each without the blanks around it.
-/
theorem tokens_of_not_allBlank
    {inside : List Char} (notBlank : ¬ AllBlank inside) :
    tokens inside = (inside.splitOn ',').map trim := by
  have nonempty : ¬ (trim inside).isEmpty = true := by
    rw [List.isEmpty_iff, trim_eq_nil_iff]
    exact notBlank
  rw [tokens, if_neg nonempty]
  exact ((isPadded_trim inside).map_trim_splitOn rfl).symm

theorem IsInside.forall₂_isToken_tokens
    {entries : List (Option Int64)} {inside : List Char}
    (isInside : IsInside entries inside) :
    List.Forall₂ IsToken entries (tokens inside) := by
  cases isInside with
  | nothing blank =>
      rw [tokens_of_allBlank blank]
      exact .nil
  | @listed _ pieces nonempty written =>
      have hasPiece : pieces ≠ [] := by
        rw [← List.length_pos_iff, ← written.length_eq, List.length_pos_iff]
        exact nonempty
      rw [tokens_of_not_allBlank (not_allBlank_intercalate hasPiece written),
        List.splitOn_intercalate ',' (comma_not_mem_of_isPiece written)
          hasPiece,
        List.forall₂_map_right_iff]
      exact written.imp fun _ _ isPiece => isPiece.isToken_trim

theorem readToken_eq_ok_iff
    {entry : Option Int64} {token : List Char} {position : Nat} :
    readToken token position = .ok entry ↔ IsToken entry token := by
  rw [← entry?_eq_some_iff, readToken]
  cases entry? token with
  | none => simp
  | some entry' => simp

theorem mapM_readToken
    {entries : List (Option Int64)} {tokens : List (List Char)}
    (areTokens : List.Forall₂ IsToken entries tokens) (first : Nat) :
    ((tokens.zipIdx first).mapM
        fun (token, position) => readToken token position) =
      .ok entries := by
  induction areTokens generalizing first with
  | nil => rfl
  | cons isToken _ induction =>
      simp only [List.zipIdx_cons, List.mapM_cons,
        readToken_eq_ok_iff.mpr isToken, induction (first + 1)]
      rfl

theorem readEntries_of_isWritten
    {entries : List (Option Int64)} {text : List Char}
    (written : IsWritten entries text) :
    readEntries text = .ok entries := by
  rcases written with ⟨inside, isInside, isPadded⟩
  rw [readEntries, inside?_of_isPadded isPadded]
  exact mapM_readToken isInside.forall₂_isToken_tokens 0

/-- Absent entries behind the level order of a tree do not matter. -/
theorem ofEntries?_entries_append
    {α : Type} (tree : Tree α) {more : List (Option α)}
    (absent : ∀ entry ∈ more, entry = none) :
    Tree.ofEntries? (tree.entries ++ more) = .ok tree :=
  ofEntries?_eq_ok_iff_entryAt.mpr
    fun place => (entryAt_append_of_absent absent place).symm

/--
Trees are read back from text.  There is a text of the level order of a tree
with any number of absent entries added, and whatever text of it is read, the
result is the tree.
-/
theorem ofText?_of_isWritten (tree : Tree Int64) (count : Nat) :
    (∃ text : String,
        IsWritten (tree.entries ++ List.replicate count none) text.toList) ∧
      ∀ text : String,
        IsWritten (tree.entries ++ List.replicate count none) text.toList →
        Tree.ofText? text = .ok tree := by
  constructor
  · rcases exists_isWritten (tree.entries ++ List.replicate count none) with
      ⟨text, written⟩
    exact ⟨String.ofList text, by rwa [String.toList_ofList]⟩
  · intro text written
    rw [Tree.ofText?, readEntries_of_isWritten written]
    exact ofEntries?_entries_append tree
      fun entry member => List.eq_of_mem_replicate member

/--
A text with an absent child in the middle and at the end, and with the
least word in it.
-/
theorem ofText?_of_padded :
    IsWritten
        ((Tree.node (1 : Int64) .empty (.leaf Int64.minValue)).entries ++
          List.replicate 1 none)
        " [ +001,null,\t-9223372036854775808 ,null\n]\u00a0".toList ∧
      Tree.ofText? " [ +001,null,\t-9223372036854775808 ,null\n]\u00a0" =
        .ok (.node 1 .empty (.leaf Int64.minValue)) := by
  have entries :
      (Tree.node (1 : Int64) .empty (.leaf Int64.minValue)).entries =
        [some 1, none, some Int64.minValue] := by
    simp only [Tree.entries, Tree.breadthFirst, Tree.leaf,
      Tree.breadthFirstFrom, List.nil_append]
    rfl
  have one : IsToken (some 1) "+001".toList := entry?_eq_some_iff.mp (by decide)
  have least : IsToken (some Int64.minValue) "-9223372036854775808".toList :=
    entry?_eq_some_iff.mp (by decide)
  have pieces :
      List.Forall₂ IsPiece [some 1, none, some Int64.minValue, none]
        [" +001".toList, "null".toList, "\t-9223372036854775808 ".toList,
          "null\n".toList] :=
    .cons ⟨_, one, [' '], [], by decide, by decide, rfl⟩ <|
      .cons ⟨_, .absent, isPadded_refl _⟩ <|
      .cons ⟨_, least, ['\t'], [' '], by decide, by decide, rfl⟩ <|
      .cons ⟨_, .absent, [], ['\n'], by decide, by decide, rfl⟩ .nil
  have written :
      IsWritten
        ((Tree.node (1 : Int64) .empty (.leaf Int64.minValue)).entries ++
          List.replicate 1 none)
        " [ +001,null,\t-9223372036854775808 ,null\n]\u00a0".toList := by
    rw [entries]
    exact ⟨_, .listed (List.cons_ne_nil _ _) pieces, [' '], ['\u00a0'],
      by decide, by decide, by decide⟩
  exact ⟨written, (ofText?_of_isWritten _ 1).2 _ written⟩

end Longest.LevelOrder
