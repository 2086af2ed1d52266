import Longest.Proofs.Increasing.Recursion

/-!
# Searches from the back are shallow

When the positions are started from the back, a search finds the lengths of all
later positions in the memo and none of its own or an earlier one.  Its nested
searches read their lengths off and leave the memo as it is, so there are never
more than two frames open, however long the list is and whichever elements rise.
-/

namespace Longest.Increasing

/-! ## What is known behind a start -/

section Descending

variable {count start : Nat} {earlier later : List Nat}

theorem lt_of_order
    (order : (List.range count).reverse = earlier ++ start :: later) :
    start < count := by
  have member : start ∈ (List.range count).reverse :=
    order ▸ List.mem_append_right earlier List.mem_cons_self
  rwa [List.mem_reverse, List.mem_range] at member

/-- Going down, the positions before a given one are those above it. -/
theorem mem_earlier_iff
    (order : (List.range count).reverse = earlier ++ start :: later)
    {position : Nat} :
    position ∈ earlier ↔ start < position ∧ position < count := by
  have descending : (List.range count).reverse.Pairwise (· > ·) :=
    List.pairwise_reverse.mpr List.pairwise_lt_range
  have member : position ∈ earlier ++ start :: later ↔ position < count := by
    rw [← order, List.mem_reverse, List.mem_range]
  rw [order, List.pairwise_append] at descending
  rcases descending with ⟨_, descendingFrom, above⟩
  constructor
  · intro isEarlier
    exact ⟨above position isEarlier start List.mem_cons_self,
      member.mp (List.mem_append_left _ isEarlier)⟩
  · rintro ⟨behind, inside⟩
    rcases List.mem_append.mp (member.mpr inside) with isEarlier | notEarlier
    · exact isEarlier
    · rcases List.mem_cons.mp notEarlier with rfl | isLater
      · exact absurd behind (Nat.lt_irrefl position)
      · have before := (List.pairwise_cons.mp descendingFrom).1 position isLater
        exact absurd behind (Nat.lt_asymm before)

end Descending

variable {α : Type} [Ord α] {numbers : List α}

/-- Searches that start behind a position enter nothing in front of it. -/
theorem growsFrom_lengthFromAny
    {memo : Memo} (agrees : memo.Agrees numbers) {first : Nat}
    {starts : List Nat}
    (behind : ∀ start ∈ starts, first ≤ start) :
    memo.GrowsFrom first (lengthFromAny numbers starts memo).2 := by
  induction starts using List.reverseRecOn with
  | nil => exact .refl first memo
  | append_singleton starts start induction =>
      rcases List.forall_mem_append.mp behind with ⟨behindEarlier, behindLast⟩
      have agreesNow := (found_lengthFromAny agrees starts).1.agrees
      have grows := (found_lengthFrom agreesNow start).1.grows
      rw [lengthFromAny_concat]
      exact (induction behindEarlier).trans
        (grows.of_le (behindLast start (List.mem_singleton_self start)))

/--
The memo with which a position is started remembers exactly the positions behind
it: they have been started, and no search enters anything in front of its start.
-/
theorem getElem?_memo_of_order
    {start : Nat} {earlier later : List Nat}
    (order : (List.range numbers.length).reverse = earlier ++ start :: later) :
    (∀ position, start < position → position < numbers.length →
        ∃ length,
          (lengthFromAny numbers earlier
              (Memo.blank numbers.length)).2[position]? =
            some (some length)) ∧
      ∀ position, position ≤ start →
        (lengthFromAny numbers earlier
            (Memo.blank numbers.length)).2[position]? =
          some none := by
  have agrees := Memo.Agrees.blank numbers
  rcases found_lengthFromAny agrees earlier with ⟨found, known⟩
  constructor
  · intro position behind inside
    have knownNow :=
      known position ((mem_earlier_iff order).mpr ⟨behind, inside⟩)
    have inTable : position < (bestLengths numbers).length := by
      rwa [length_bestLengths]
    rw [List.getElem?_eq_getElem inTable] at knownNow
    exact ⟨_, Memo.known?_eq_some_iff.mp knownNow⟩
  · intro position notBehind
    have inside := lt_of_order order
    rw [← found.agrees.size] at inside
    have behind : ∀ position ∈ earlier, start + 1 ≤ position :=
      fun position isEarlier => ((mem_earlier_iff order).mp isEarlier).1
    have grows := growsFrom_lengthFromAny agrees behind
    rw [Memo.getElem?_eq_some_known? (Nat.lt_of_le_of_lt notBehind inside),
      grows.untouched position (Nat.lt_succ_of_le notBehind), Memo.known?_blank]

/-! ## Searches that are answered by the memo -/

/-- A search that takes its length from the memo. -/
def TakesKnown (next : Nat) (memo : Memo) (result : Nat × Memo) : Prop :=
  ∃ length, memo[next]? = some (some length) ∧ result = (length, memo)

theorem TakesKnown.search
    {nested : Nat → Memo → Nat × Memo → Prop} {next : Nat} {memo : Memo}
    {result : Nat × Memo}
    (inside : next < numbers.length) (takes : TakesKnown next memo result) :
    Search numbers nested next memo result := by
  rcases takes with ⟨length, entry, rfl⟩
  exact .known inside entry

/--
If all later positions are known, nested searches only read the
memo and hand it on.
-/
theorem exists_continues_takesKnown
    {memo : Memo} {next : Nat}
    (known :
      ∀ position, next ≤ position → position < numbers.length →
        ∃ length, memo[position]? = some (some length))
    (value : α) (length : Nat) :
    ∃ reached,
      Continues numbers TakesKnown value next length memo (reached, memo) := by
  induction rest : numbers.drop next generalizing next length with
  | nil => exact ⟨length, .finished (List.drop_eq_nil_iff.mp rest)⟩
  | cons candidate later induction =>
      have found := getElem?_of_drop rest
      have inside := (List.getElem?_eq_some_iff.mp found).1
      have knownNext :
          ∀ position, next + 1 ≤ position → position < numbers.length →
            ∃ length, memo[position]? = some (some length) :=
        fun position behind => known position (Nat.le_of_succ_le behind)
      have restNext := drop_succ_of_drop rest
      by_cases rises : Rises value candidate
      · rcases known next (Nat.le_refl next) inside with ⟨above, entry⟩
        rcases induction knownNext (max length (1 + above)) restNext with
          ⟨reached, onward⟩
        exact ⟨reached, .searched found rises ⟨above, entry, rfl⟩ onward⟩
      · rcases induction knownNext length restNext with ⟨reached, onward⟩
        exact ⟨reached, .passed found rises onward⟩

/--
Started from the back, a search begins with a memo that remembers exactly the
positions behind its own.  It continues to later positions with nested searches
that take their lengths from the memo and leave it unchanged, until it enters
its own length; so it never has more than two frames open.
-/
theorem searches_from_back_are_shallow
    (numbers : List α) {start : Nat} {earlier later : List Nat}
    (order : (List.range numbers.length).reverse = earlier ++ start :: later) :
    let memo := (lengthFromAny numbers earlier (Memo.blank numbers.length)).2
    searchFromBack numbers =
        lengthFromAny numbers (earlier ++ start :: later)
          (Memo.blank numbers.length) ∧
      ((∀ position, start < position → position < numbers.length →
          ∃ length, memo[position]? = some (some length)) ∧
        ∀ position, position ≤ start → memo[position]? = some none) ∧
      (∃ value length, numbers[start]? = some value ∧
        Continues numbers TakesKnown value (start + 1) 1 memo (length, memo) ∧
          lengthFrom numbers start memo =
            (length, memo.remember start length)) ∧
      SearchWithin numbers 2 start memo (lengthFrom numbers start memo) := by
  intro memo
  rcases getElem?_memo_of_order order with ⟨known, unknown⟩
  have found := List.getElem?_eq_getElem (lt_of_order order)
  rcases exists_continues_takesKnown known _ 1 with ⟨length, continues⟩
  have search :
      Search numbers TakesKnown start memo
        (length, memo.remember start length) :=
    .unknown found (unknown start (Nat.le_refl start)) continues
  have shallow :
      SearchWithin numbers 2 start memo (length, memo.remember start length) :=
    search.imp fun next memo result inside takes => takes.search inside
  have computed := shallow.eq_lengthFrom
  rw [← computed]
  exact ⟨by rw [searchFromBack, order], ⟨known, unknown⟩,
    ⟨_, length, found, continues, rfl⟩, shallow⟩

/--
In an ascending list every position rises to all those behind it, which
are known by then.
-/
theorem searches_of_ascending :
    let numbers := [5, 6, 7, 8]
    let memo : Memo := #[none, none, some 2, some 1]
    let grown : Memo := #[none, some 3, some 2, some 1]
    (List.range numbers.length).reverse = [3, 2] ++ 1 :: [0] ∧
      lengthFromAny numbers [3, 2] (Memo.blank 4) = (2, memo) ∧
      lengthFrom numbers 1 memo = (3, grown) ∧
      SearchWithin numbers 2 1 memo (3, grown) := by
  intro numbers memo grown
  have order : (List.range numbers.length).reverse = [3, 2] ++ 1 :: [0] := by
    decide
  have before :
      lengthFromAny numbers [3, 2] (Memo.blank numbers.length) = (2, memo) := by
    cbv
  have computed : lengthFrom numbers 1 memo = (3, grown) := by
    cbv
  rcases searches_from_back_are_shallow numbers order with ⟨_, _, _, shallow⟩
  rw [before, computed] at shallow
  exact ⟨order, before, computed, shallow⟩

end Longest.Increasing
