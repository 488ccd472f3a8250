/-!
# Sorting

A stable sort that makes use of what is in order already. A short row is sorted by
insertion. A longer one is cut into stretches. What ascends or descends for long enough is
a stretch as it stands; anything else is cut to a fixed length, and sorted at once or when
a merge needs it. Neighbouring stretches are merged, those first that belong deepest in a
balanced tree over the whole row.

The comparison should be an order, and then there is one result. If it is none, the sort
may notice: `meet` merges two halves from both ends at once, and if the ends miss each
other there is no result.
-/

namespace SeqScript.Sequence

variable {α : Type} (less : α → α → Bool)

-- ---------------------------------------------------------------------------
-- Insertion
-- ---------------------------------------------------------------------------

/-- Puts `x` into a row sorted from the greatest down, behind the elements that
are greater. -/
def insertBelow (x : α) : List α → List α
  | [] => [x]
  | y :: ys => if less x y then y :: insertBelow x ys else x :: y :: ys

/-- A sorted row with others put into it, one after another. -/
def insertAll (sorted rest : List α) : List α :=
  (rest.foldl (fun down x => insertBelow less x down) sorted.reverse).reverse

/-- A row sorted from the least up. Equal elements keep their order. -/
def sortBy (xs : List α) : List α :=
  (xs.foldl (fun sorted x => insertBelow less x sorted) []).reverse

-- ---------------------------------------------------------------------------
-- Merging
-- ---------------------------------------------------------------------------

/-- Two sorted rows merged from the front, or from the back if the second is shorter. -/
def merge (left right : List α) : List α :=
  if left.length ≤ right.length then List.merge left right fun l r => !less r l
  else (List.merge right.reverse left.reverse fun r l => !less r l).reverse

/-- The first `n` elements of a merge, and how many of them are of the first row. -/
def mergeSome (keeps : α → α → Bool) : Nat → List α → List α → List α × Nat
  | n + 1, x :: xs, y :: ys =>
    if keeps x y then
      let (merged, k) := mergeSome keeps n xs (y :: ys)
      (x :: merged, k + 1)
    else
      let (merged, k) := mergeSome keeps n (x :: xs) ys
      (y :: merged, k)
  | _, _, _ => ([], 0)

/-- Two sorted halves merged from both ends at once, each end taking as many elements as
the left half has. Of the left half the front takes `l` and the back leaves `r`; what
neither takes stays between them. There is no result if the ends overlap. -/
def meet (left right : List α) : Option (List α) :=
  let n := left.length
  let (front, l) := mergeSome (fun a b => !less b a) n left right
  let (back, r) := mergeSome (fun b a => !less b a) n right.reverse left.reverse
  if l ≤ r ∧ n - l + r ≤ right.length then
    some (front ++ (left.take r).drop l ++ (right.take (right.length - r)).drop (n - l) ++
      back.reverse)
  else none

-- ---------------------------------------------------------------------------
-- Small rows
-- ---------------------------------------------------------------------------

/-- Two pairs merged, each of them in order. It is known of the two elements that are
neither least nor greatest which one came first. -/
def mergePairs (a b c d : α) : List α :=
  let leastRight := less c a
  let greatestLeft := less d b
  let least := if leastRight then c else a
  let greatest := if greatestLeft then b else d
  let left := if leastRight then a else if greatestLeft then c else b
  let right := if greatestLeft then d else if leastRight then b else c
  if less right left then [least, right, left, greatest] else [least, left, right, greatest]

/-- Two elements in order. -/
def sortPair (a b : α) : α × α := if less b a then (b, a) else (a, b)

/-- Four elements sorted. -/
def sortFour (a b c d : α) : List α :=
  let (a, b) := sortPair less a b
  let (c, d) := sortPair less c d
  mergePairs less a b c d

/-- A half of a small row sorted: the first four elements, then the others one by one. -/
def sortHalf : List α → List α
  | a :: b :: c :: d :: rest => insertAll less (sortFour less a b c d) rest
  | xs => sortBy less xs

/-- The length of rows that count as small. -/
def smallLength : Nat := 32

/-- A small row sorted in halves. -/
def sortSmall (xs : List α) : Option (List α) :=
  if xs.length < 2 then some xs
  else
    let left := xs.take (xs.length / 2)
    let right := xs.drop (xs.length / 2)
    if xs.length < 8 then meet less (sortBy less left) (sortBy less right)
    else meet less (sortHalf less left) (sortHalf less right)

-- ---------------------------------------------------------------------------
-- Stretches
-- ---------------------------------------------------------------------------

/-- Some neighbouring elements of a row, which may be sorted already. -/
structure Stretch (α : Type) where
  items : List α
  sorted : Bool

/-- A stretch sorted, by `finish` if it is not yet. -/
def Stretch.settle (finish : List α → Option (List α)) (s : Stretch α) : Option (List α) :=
  if s.sorted then some s.items else finish s.items

/-- How many elements follow `x` as long as each goes on from the one before it. -/
def chainLength (goesOn : α → α → Bool) : α → List α → Nat
  | _, [] => 0
  | x, y :: ys => if goesOn x y then chainLength goesOn y ys + 1 else 0

/-- How far a row ascends from its first element, or descends without ties, and which. -/
def inOrder : List α → Nat × Bool
  | x :: y :: ys =>
    let down := less y x
    (chainLength (fun a b => less b a == down) y ys + 2, down)
  | xs => (xs.length, false)

/-- About the square root. -/
def roughRoot (n : Nat) : Nat :=
  let shift := ((n ||| 1).log2 + 1) / 2
  ((1 <<< shift) + (n >>> shift)) / 2

/-- How long a stretch in order must be to be taken as it stands. -/
def goodLength (n : Nat) : Nat := if n ≤ 4096 then min (n - n / 2) 64 else roughRoot n

/-- The stretch in front of a row and what follows it. An eager cut sorts what is not in
order. -/
def cutStretch (good : Nat) (eager : Bool) (xs : List α) : Option (Stretch α × List α) :=
  let (n, down) := inOrder less xs
  if good ≤ n then
    some (⟨if down then (xs.take n).reverse else xs.take n, true⟩, xs.drop n)
  else if eager then
    (sortSmall less (xs.take smallLength)).map fun items => (⟨items, true⟩, xs.drop smallLength)
  else some (⟨xs.take good, false⟩, xs.drop good)

/-- A stretch has at least one element. -/
theorem length_rest_cutStretch {good : Nat} (hgood : 0 < good) {eager : Bool} {xs rest : List α}
    {s : Stretch α} (hxs : xs ≠ []) (h : cutStretch less good eager xs = some (s, rest)) :
    rest.length < xs.length := by
  have hpos := List.length_pos_iff.mpr hxs
  have hdrop (n : Nat) (hn : 0 < n) : (xs.drop n).length < xs.length := by
    rw [List.length_drop]
    omega
  unfold cutStretch at h
  simp only at h
  split at h
  · next hlong =>
    cases h
    exact hdrop _ (Nat.lt_of_lt_of_le hgood hlong)
  · split at h
    · obtain ⟨items, -, heq⟩ := Option.map_eq_some_iff.mp h
      cases heq
      exact hdrop _ (by decide)
    · cases h
      exact hdrop _ hgood

/-- A row cut into stretches. -/
def cutStretches (good : Nat) (hgood : 0 < good) (eager : Bool) (xs : List α) :
    Option (List (Stretch α)) :=
  if hxs : xs = [] then some []
  else
    match hcut : cutStretch less good eager xs with
    | none => none
    | some (s, rest) =>
      have : rest.length < xs.length := length_rest_cutStretch less hgood hxs hcut
      (cutStretches good hgood eager rest).map (s :: ·)
termination_by xs.length

-- ---------------------------------------------------------------------------
-- The tree of merges
-- ---------------------------------------------------------------------------

/-- The factor by which places in a row of `n` elements are spread over 62 bits. -/
def spreadFactor (n : Nat) : Nat := (0x4000000000000000 + n - 1) / n

/-- How deep in a balanced tree the merge of two neighbours belongs that go from `start` to
`mid` and from there to `stop`: the number of leading zeros of a word in which the midpoints
differ. -/
def mergeDepth (factor start mid stop : Nat) : Nat :=
  let difference := factor * (start + mid) ^^^ factor * (mid + stop)
  if difference = 0 then 64 else 63 - difference.log2

/-- Two neighbouring stretches made one. They are merged, unless both are unsorted and fit
into the room for sorting them together. -/
def joinStretches (room : Nat) (finish : List α → Option (List α)) (left right : Stretch α) :
    Option (Stretch α) :=
  if left.items.length + right.items.length ≤ room ∧ left.sorted = false ∧ right.sorted = false
  then some ⟨left.items ++ right.items, false⟩
  else do
    let l ← left.settle finish
    let r ← right.settle finish
    return ⟨merge less l r, true⟩

/-- Joins a stretch to those before it that want to be merged at `depth` or deeper. The
nearest one is the first, each with the depth of the merge with what follows it. -/
def collapse (room : Nat) (finish : List α → Option (List α)) (depth : Nat) :
    List (Stretch α × Nat) → Stretch α → Option (List (Stretch α × Nat) × Stretch α)
  | [], last => some ([], last)
  | (left, d) :: stack, last =>
    if depth ≤ d then do
      let joined ← joinStretches less room finish left last
      collapse room finish depth stack joined
    else some ((left, d) :: stack, last)

/-- Joins stretches from the left to the right, the last of those seen so far beginning at
`start`. -/
def joinAll (room factor : Nat) (finish : List α → Option (List α)) :
    Nat → List (Stretch α × Nat) → Stretch α → List (Stretch α) → Option (Stretch α)
  | _, stack, last, [] => do
    let (_, whole) ← collapse less room finish 0 stack last
    return whole
  | start, stack, last, next :: rest => do
    let mid := start + last.items.length
    let depth := mergeDepth factor start mid (mid + next.items.length)
    let (stack, joined) ← collapse less room finish depth stack last
    joinAll room factor finish mid ((joined, depth) :: stack) next rest

theorem goodLength_pos {n : Nat} (hn : 2 ≤ n) : 0 < goodLength n := by
  unfold goodLength
  split
  · omega
  · next hlarge =>
    have hlog : 1 ≤ (n ||| 1).log2 := by
      refine (Nat.le_log2 (by have := Nat.left_le_or (n := n) (m := 1); omega)).mpr ?_
      have := Nat.left_le_or (n := n) (m := 1)
      omega
    have hshift : 2 ≤ 1 <<< (((n ||| 1).log2 + 1) / 2) := by
      rw [Nat.shiftLeft_eq, Nat.one_mul]
      exact Nat.le_self_pow (by omega) 2
    exact Nat.div_pos (Nat.le_trans hshift (Nat.le_add_right _ _)) (by decide)

/-- A row sorted by stretches. `finish` sorts what is left unsorted. -/
def sortStretches (room : Nat) (eager : Bool) (finish : List α → Option (List α))
    (xs : List α) : Option (List α) :=
  if hxs : 2 ≤ xs.length then do
    match ← cutStretches less (goodLength xs.length) (goodLength_pos hxs) eager xs with
    | [] => return []
    | first :: rest =>
      let whole ← joinAll less room (spreadFactor xs.length) finish 0 [] first rest
      whole.settle finish
  else some xs

-- ---------------------------------------------------------------------------
-- Parting
-- ---------------------------------------------------------------------------

/-- Whether the element at one place is less than the one at another. -/
def lessAt (xs : Array α) (i j : Nat) : Bool :=
  match xs[i]?, xs[j]? with
  | some a, some b => less a b
  | _, _ => false

/-- Of three places the one whose element is between the others. -/
def medianOfThree (lt : Nat → Nat → Bool) (a b c : Nat) : Nat :=
  if lt a b == lt a c then
    if lt b c == lt a b then b else c
  else a

/-- A place whose element is about in the middle, from samples behind each of three places;
`n` is how far samples may lie behind them. -/
def middlePlace (lt : Nat → Nat → Bool) (a b c n : Nat) : Nat :=
  if n < 8 then medianOfThree lt a b c
  else
    let m := n / 8
    medianOfThree lt (middlePlace lt a (a + m * 4) (a + m * 7) m)
      (middlePlace lt b (b + m * 4) (b + m * 7) m) (middlePlace lt c (c + m * 4) (c + m * 7) m)
termination_by n
decreasing_by all_goals exact Nat.div_lt_self (by omega) (by decide)

/-- The place of the element by which a row is parted. -/
def pivotPlace (xs : List α) : Nat :=
  let n := xs.length / 8
  middlePlace (lessAt less xs.toArray) 0 (n * 4) (n * 7) n

/-- The elements around `pivot` parted, with `pivot` itself on the side that is told. -/
def part (goesLeft : α → Bool) (pivotLeft : Bool) (before : List α) (pivot : α)
    (after : List α) : List α × List α :=
  (before.filter goesLeft ++ (if pivotLeft then [pivot] else []) ++ after.filter goesLeft,
    before.filter (!goesLeft ·) ++ (if pivotLeft then [] else [pivot]) ++
      after.filter (!goesLeft ·))

/-- Sorts by parting, at most `limit` deep. No element is less than `floor`. Where that makes
the pivot a least element, those equal to it go in front and need no more sorting. -/
def sortByParting (room : Nat) : Nat → Option α → List α → Option (List α)
  | 0, _, xs =>
    if xs.length ≤ smallLength then sortSmall less xs
    else sortStretches less room true (sortSmall less) xs
  | limit + 1, floor, xs =>
    if xs.length ≤ smallLength then sortSmall less xs
    else
      match xs.splitAt (pivotPlace less xs) with
      | (_, []) => some xs
      | (before, pivot :: after) =>
        let parts := part (less · pivot) false before pivot after
        if (floor.any fun f => !less f pivot) || parts.1.isEmpty then do
          let parts := part (fun x => !less pivot x) true before pivot after
          let high ← sortByParting room limit none parts.2
          return parts.1 ++ high
        else do
          let high ← sortByParting room limit (some pivot) parts.2
          let low ← sortByParting room limit floor parts.1
          return low ++ high

-- ---------------------------------------------------------------------------
-- Whole rows
-- ---------------------------------------------------------------------------

/-- The length of rows that are sorted by insertion. -/
def shortLength : Nat := 20

/-- How many elements can be kept aside while `n` are sorted. -/
def sortingRoom (n : Nat) : Nat := max (n - n / 2) (min n 333333)

/-- **A row sorted,** unless the comparison turns out to be no order. -/
def stableSort (xs : List α) : Option (List α) :=
  if xs.length ≤ shortLength then some (sortBy less xs)
  else
    let room := sortingRoom xs.length
    let finish (ys : List α) := sortByParting less room (2 * (ys.length ||| 1).log2) none ys
    sortStretches less room (xs.length ≤ 2 * smallLength) finish xs

/-- The places of a row in the order in which their elements are to stand. -/
def arrange (xs : List α) : Option (List (Fin xs.length)) :=
  let row : Vector α xs.length := ⟨xs.toArray, List.size_toArray⟩
  stableSort (fun i j => less (row.get i) (row.get j)) (List.finRange xs.length)

end SeqScript.Sequence
