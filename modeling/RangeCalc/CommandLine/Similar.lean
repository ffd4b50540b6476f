/-!
# Similar words

Two words are as similar as the characters they share in blocks: the longest common block, and then the
blocks on either side of it.

* `sharedChars`: how many characters two words share;
* `closeMatches`: the most similar of some words, in alphabetical order.
-/

namespace RangeCalc.CommandLine

/-- The length of the longest common start of two words. -/
def commonStart : List Char → List Char → Nat
  | a :: as, b :: bs => if a = b then commonStart as bs + 1 else 0
  | _, _ => 0

/-- A block that two words share: where it starts in each, and its length. -/
structure Block where
  left : Nat
  right : Nat
  length : Nat

/-- The longest block that two words share, the first of equal ones. -/
def longestBlock (a b : List Char) : Block :=
  (List.range a.length).foldl (fun best i =>
    (List.range b.length).foldl (fun best j =>
      let length := commonStart (a.drop i) (b.drop j)
      if best.length < length then ⟨i, j, length⟩ else best) best) ⟨0, 0, 0⟩

/-- How many characters two words share in blocks, where `fuel` bounds how often they are divided. -/
def sharedCharsWithin : (fuel : Nat) → List Char → List Char → Nat
  | 0, _, _ => 0
  | fuel + 1, a, b =>
    let block := longestBlock a b
    if block.length = 0 then 0
    else
      block.length + sharedCharsWithin fuel (a.take block.left) (b.take block.right) +
        sharedCharsWithin fuel (a.drop (block.left + block.length))
          (b.drop (block.right + block.length))

/-- How many characters two words share in blocks; each division takes a character away. -/
def sharedChars (a b : List Char) : Nat :=
  sharedCharsWithin a.length a b

/-- Whether three fifths of the characters of two words are shared. -/
def areClose (a b : List Char) : Bool :=
  6 * (a.length + b.length) ≤ 20 * sharedChars a b

/-- At most three words that are close to a word, the most similar ones, in alphabetical order. -/
def closeMatches (word : String) (candidates : List String) : List String :=
  let close := candidates.filter fun c => areClose c.toList word.toList
  let score (c : String) : Nat × Nat :=
    (sharedChars c.toList word.toList, c.length + word.length)
  let better (c d : String) : Bool :=
    let (p, q) := score c
    let (r, s) := score d
    r * q < p * s || (r * q == p * s && d < c)
  ((close.mergeSort fun c d => better c d || c == d).take 3).mergeSort fun c d => c < d || c == d

example : closeMatches "--iteration" ["--iterations", "--bins", "--help"] = ["--iterations"] := by
  decide +kernel

end RangeCalc.CommandLine
