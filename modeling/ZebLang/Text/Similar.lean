/-
  Names that look like a given word.

  The score of two texts is twice the number of characters they share in matching blocks, over their
  total length.  Blocks are found greedily: the longest common block first (the earliest in the
  candidate, then the earliest in the word), then the same to its left and to its right.

  In a word of 200 characters or more, a character that makes up more than a hundredth of it is
  popular: it starts no block, but a block grows over equal neighbours whatever they are.

  A candidate is close when its score is at least three fifths; the best three are suggested, and of
  equal scores the greater text comes first.

  Nothing here depends on what the characters are, so texts are lists of any items.  The places of each
  item in the word are looked up once, and the search for blocks visits only pairs of equal items.
-/

namespace ZebLang.Text

/-! ## Places -/

/-- The places of the items of a text: each item once, its offsets in ascending order. -/
abbrev Places (α : Type) := List (α × List Nat)

namespace Places

variable {α : Type} [DecidableEq α]

/-- One more place of an item, in front of those it has. -/
def note (item : α) (place : Nat) : Places α → Places α
  | [] => [(item, [place])]
  | (other, offsets) :: rest =>
      if item = other then (other, place :: offsets) :: rest
      else (other, offsets) :: note item place rest

/-- Where each item of a text stands. -/
def ofList (items : List α) : Places α :=
  items.zipIdx.foldr (fun (item, place) places => places.note item place) []

/-- Whether an item with these offsets starts no block in a text of `length` items, because a long text
    is full of it. -/
def isPopular (length : Nat) (offsets : List Nat) : Bool :=
  200 ≤ length && length / 100 + 1 < offsets.length

/-- The places of a word at which a block may start. -/
def ofWord (word : List α) : Places α :=
  (ofList word).filter fun (_, offsets) => !isPopular word.length offsets

/-- The places of one item. -/
def of (places : Places α) (item : α) : List Nat := (places.lookup item).getD []

end Places

/-! ## Blocks -/

/-- `size` items that two texts share, from the given offsets on. -/
structure Block where
  left : Nat
  right : Nat
  size : Nat
  deriving DecidableEq, Repr

/-- For each of the given places of an item in the word, the length of the common run that ends there
    and at the item; `before` holds these lengths for the item in front of it. -/
def runsAt : List Nat → List (Nat × Nat) → List (Nat × Nat)
  | [], _ => []
  | place :: places, before =>
      let later := before.dropWhile fun run => run.1 + 1 < place
      let length :=
        match later with
        | (previous, length) :: _ => if previous + 1 = place then length + 1 else 1
        | [] => 1
      (place, length) :: runsAt places later

/-- The better of `best` and the runs that end at offset `i` of the candidate.  Only a longer run
    replaces an earlier one. -/
def bestRun (i : Nat) (best : Block) : List (Nat × Nat) → Block
  | [] => best
  | (place, length) :: rest =>
      bestRun i
        (if best.size < length then ⟨i + 1 - length, place + 1 - length, length⟩ else best) rest

/-- The longest run over all items of the candidate, from offset `i` on, given by their places in the
    word. -/
def longestRun (i : Nat) (best : Block) (before : List (Nat × Nat)) : List (List Nat) → Block
  | [] => best
  | places :: rest =>
      let runs := runsAt places before
      longestRun (i + 1) (bestRun i best runs) runs rest

section

variable {α : Type} [DecidableEq α]

/-- How many items two texts share from their starts. -/
def sharedStart (xs ys : List α) : Nat :=
  ((xs.zip ys).takeWhile fun pair => pair.1 = pair.2).length

/-- The longest common block, grown over equal neighbours on both sides.  The candidate comes with the
    places of its items in the word. -/
def longestBlock (candidate : List (α × List Nat)) (word : List α) : Block :=
  let core := longestRun 0 ⟨0, 0, 0⟩ [] (candidate.map (·.2))
  let items := candidate.map (·.1)
  let before := sharedStart (items.take core.left).reverse (word.take core.right).reverse
  let after := sharedStart (items.drop (core.left + core.size)) (word.drop (core.right + core.size))
  ⟨core.left - before, core.right - before, core.size + before + after⟩

/-- An item with those of its places that lie before `stop`. -/
def placedBefore (stop : Nat) (item : α × List Nat) : α × List Nat :=
  (item.1, item.2.filter (· < stop))

/-- An item with those of its places that lie at or after `start`, counted from there. -/
def placedFrom (start : Nat) (item : α × List Nat) : α × List Nat :=
  (item.1, (item.2.filter (start ≤ ·)).map (· - start))

/-- The number of items in matching blocks.  A block that is not empty splits the candidate into two
    shorter parts, so the search ends. -/
def matchCount (candidate : List (α × List Nat)) (word : List α) : Nat :=
  match longestBlock candidate word with
  | ⟨left, right, size⟩ =>
      if _h : 0 < size ∧ left + size ≤ candidate.length then
        size +
          matchCount ((candidate.take left).map (placedBefore right)) (word.take right) +
          matchCount ((candidate.drop (left + size)).map (placedFrom (right + size)))
            (word.drop (right + size))
      else 0
termination_by candidate.length
decreasing_by
  · rw [List.length_map]
    exact Nat.lt_of_le_of_lt (List.length_take_le left candidate) (by omega)
  · rw [List.length_map, List.length_drop]; omega

end

/-! ## Scores -/

/-- A score as a fraction: items in matching blocks, and the mean length they are compared with, both
    doubled. -/
structure Score where
  shared : Nat
  total : Nat
  deriving DecidableEq, Repr

/-- At least three fifths. -/
def Score.isClose (s : Score) : Bool := 3 * s.total ≤ 5 * s.shared

/-- Fractions compared by cross-multiplication. -/
def Score.lt (s t : Score) : Bool := s.shared * t.total < t.shared * s.total

/-- The score of a candidate against a word with the given places; two empty texts are alike. -/
def score {α : Type} [DecidableEq α] (places : Places α) (candidate word : List α) : Score :=
  if candidate.length + word.length = 0 then ⟨1, 1⟩
  else
    ⟨2 * matchCount (candidate.map fun item => (item, places.of item)) word,
      candidate.length + word.length⟩

/-- Whether the first scored candidate may stand before the second. -/
def ranksBefore (x y : Score × String) : Bool :=
  y.1.lt x.1 || (!x.1.lt y.1 && decide (y.2 ≤ x.2))

/-- The candidates close to a word of any items, best first, at most three.  A candidate is compared by
    the items that `spell` gives for it. -/
def closest {α : Type} [DecidableEq α] (spell : String → List α) (word : List α)
    (candidates : List String) : List String :=
  let places := Places.ofWord word
  let scored := candidates.map fun c => (score places (spell c) word, c)
  ((scored.filter (·.1.isClose)).mergeSort ranksBefore |>.take 3).map (·.2)

/-- The candidates close to `word`, best first, at most three. -/
def closeMatches (word : String) (candidates : List String) : List String :=
  closest String.toList word.toList candidates

end ZebLang.Text
