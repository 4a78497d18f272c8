import Pintos.Lib.Ops
import Pintos.Lib.HeapOrder

/-! # Heap sort and binary search

`sort` and `binary_search` of `lib/stdlib.c`, on an array of bytes that holds elements of `size` bytes each.
A pointer into the array is its distance from the start, so it does not wrap around; the indices of the
children in `heapify` are no distances and are taken modulo 2³². `compare` is a function of the bytes of
two elements. The loops without a counter take fuel. -/

namespace Pintos.Kernel.SortArray

open Pintos.Lib.Ops Pintos.Lib.HeapOrder

/-- The bytes of an element. -/
abbrev Bytes := List UInt8

/-- The bytes of the array, by their distance from its start. -/
abbrev Array := ℕ → UInt8

/-- The `size` bytes at the pointer `p`. -/
def bytesAt (array : Array) (p size : ℕ) : Bytes := (List.range size).map fun k => array (p + k)

/-- Exchanges the bytes at `p` and at `q`. -/
def swapByte (array : Array) (p q : ℕ) : Array :=
  let t := array p
  Function.update (Function.update array p (array q)) q t

/-- `do_swap`. -/
def doSwap (array : Array) (aIdx bIdx size : ℕ) : Array :=
  let a := (aIdx - 1) * size
  let b := (bIdx - 1) * size
  (List.range size).foldl (fun array i => swapByte array (a + i) (b + i)) array

variable (compare : Bytes → Bytes → ℤ)

/-- `do_compare`. -/
def doCompare (array : Array) (aIdx bIdx size : ℕ) : ℤ :=
  compare (bytesAt array ((aIdx - 1) * size) size) (bytesAt array ((bIdx - 1) * size) size)

/-- The index of the largest element among `i` and its children, `max` in `heapify`. -/
def largest (array : Array) (i cnt size : ℕ) : ℕ :=
  let left := 2 * i % 2 ^ 32
  let right := (2 * i + 1) % 2 ^ 32
  let max := if left ≤ cnt ∧ 0 < doCompare compare array left i size then left else i
  if right ≤ cnt ∧ 0 < doCompare compare array right max size then right else max

/-- `heapify`. -/
def heapify (cnt size : ℕ) : ℕ → ℕ → Op Array Unit
  | 0, _ => halt
  | fuel + 1, i => do
    let array ← get
    let max := largest compare array i cnt size
    if max = i then pure () else do
      set (doSwap array i max size)
      heapify cnt size fuel max

/-- The first loop of `sort`, which builds a heap. -/
def buildHeap (fuel cnt size : ℕ) : ℕ → Op Array Unit
  | 0 => pure ()
  | i + 1 => do
    heapify compare cnt size fuel (i + 1)
    buildHeap fuel cnt size i

/-- The second loop of `sort`, which sorts the heap. -/
def sortHeap (fuel size : ℕ) : ℕ → Op Array Unit
  | i + 2 => do
    modify fun array => doSwap array 1 (i + 2) size
    heapify compare (i + 1) size fuel 1
    sortHeap fuel size (i + 1)
  | _ => pure ()

/-- `sort`. -/
def sort (fuel cnt size : ℕ) : Op Array Unit := do
  assert (0 < size)
  buildHeap compare fuel cnt size (cnt / 2)
  sortHeap compare fuel size cnt

/-- The loop of `binary_search`. -/
def binarySearchLoop (key : Bytes) (size : ℕ) : ℕ → ℕ → ℕ → Op Array (Option ℕ)
  | 0, _, _ => halt
  | fuel + 1, first, last =>
    if first < last then do
      let array ← get
      let range := (last - first) / size
      let middle := first + range / 2 * size
      let cmp := compare key (bytesAt array middle size)
      if cmp < 0 then binarySearchLoop key size fuel first middle
      else if 0 < cmp then binarySearchLoop key size fuel (middle + size) last
      else pure (some middle)
    else pure none

/-- `binary_search`; it returns a pointer into the array or a null pointer. -/
def binarySearch (fuel : ℕ) (key : Bytes) (cnt size : ℕ) : Op Array (Option ℕ) :=
  binarySearchLoop compare key size fuel 0 (size * cnt)

/-! ### Elements -/

/-- The element with the 1-based index. -/
def element (array : Array) (size : ℕ) : ℕ → Bytes
  | 0 => []
  | k + 1 => bytesAt array (k * size) size

/-- The elements of the array, in order. -/
def elements (array : Array) (cnt size : ℕ) : List Bytes := (List.range' 1 cnt).map (element array size)

/-- A result like that of `strcmp`: its sign is that of a total preorder. -/
structure TotalPreorder (compare : Bytes → Bytes → ℤ) : Prop where
  swap : ∀ a b, compare a b < 0 ↔ 0 < compare b a
  trans : ∀ a b c, compare a b ≤ 0 → compare b c ≤ 0 → compare a c ≤ 0

variable {compare} {array array' : Array} {size cnt fuel i c p q k : ℕ}

theorem bytesAt_congr (h : ∀ k < size, array (p + k) = array' (q + k)) :
    bytesAt array p size = bytesAt array' q size :=
  List.map_congr_left fun k hk => h k (List.mem_range.mp hk)

theorem swapByte_eq : swapByte array p q = array ∘ Equiv.swap p q := by
  funext x
  simp only [swapByte, Function.comp_apply, Equiv.swap_apply_def, Function.update_apply]
  split_ifs <;> simp_all

/-- The rounds of `do_swap` between two places that do not overlap. -/
theorem swapBytes_apply {a b : ℕ} (hab : a + size ≤ b ∨ b + size ≤ a) : ∀ {n : ℕ}, n ≤ size → ∀ x,
    (List.range n).foldl (fun array i => swapByte array (a + i) (b + i)) array x =
      if a ≤ x ∧ x < a + n then array (b + (x - a)) else if b ≤ x ∧ x < b + n then array (a + (x - b)) else array x
  | 0, _, x => by
    rw [if_neg (by omega), if_neg (by omega)]
    rfl
  | n + 1, hn, x => by
    rw [List.range_succ, List.foldl_append, List.foldl_cons, List.foldl_nil, swapByte_eq, Function.comp_apply,
      swapBytes_apply hab (Nat.le_of_succ_le hn), Equiv.swap_apply_def]
    split_ifs <;> first | omega | exact congrArg array (by omega)

/-- Two elements lie apart. -/
theorem apart_of_ne {m n : ℕ} (size : ℕ) (h : m ≠ n) :
    m * size + size ≤ n * size ∨ n * size + size ≤ m * size := by
  have hapart : ∀ m n, m < n → m * size + size ≤ n * size := fun m n h => by
    rw [← Nat.succ_mul]
    exact Nat.mul_le_mul_right _ h
  rcases Nat.lt_or_gt_of_ne h with h | h
  · exact Or.inl (hapart _ _ h)
  · exact Or.inr (hapart _ _ h)

/-- **`do_swap`** exchanges two elements. -/
theorem element_doSwap (array : Array) (size : ℕ) (hi : 1 ≤ i) (hc : 1 ≤ c) (hne : i ≠ c) :
    element (doSwap array i c size) size = element array size ∘ Equiv.swap i c := by
  have hab := apart_of_ne size (show i - 1 ≠ c - 1 by omega)
  funext k
  cases k with
  | zero =>
    rw [Function.comp_apply, Equiv.swap_apply_of_ne_of_ne (by omega) (by omega)]
    rfl
  | succ k =>
    rw [Function.comp_apply, Equiv.swap_apply_def]
    split_ifs with hki hkc
    · obtain ⟨j, rfl⟩ : ∃ j, c = j + 1 := ⟨c - 1, by omega⟩
      subst hki
      refine bytesAt_congr fun x hx => ?_
      rw [doSwap, swapBytes_apply hab le_rfl, if_pos (by simp only [Nat.add_sub_cancel]; omega)]
      simp
    · obtain ⟨j, rfl⟩ : ∃ j, i = j + 1 := ⟨i - 1, by omega⟩
      subst hkc
      refine bytesAt_congr fun x hx => ?_
      simp only [Nat.add_sub_cancel] at hab
      rw [doSwap, swapBytes_apply (by simpa using hab) le_rfl]
      simp only [Nat.add_sub_cancel]
      rw [if_neg (by omega), if_pos (by omega)]
      simp
    · refine bytesAt_congr fun x hx => ?_
      have hik := apart_of_ne size (show k ≠ i - 1 by omega)
      have hck := apart_of_ne size (show k ≠ c - 1 by omega)
      rw [doSwap, swapBytes_apply hab le_rfl, if_neg (by omega), if_neg (by omega)]

theorem doCompare_eq (hi : 1 ≤ i) (hc : 1 ≤ c) :
    doCompare compare array i c size = compare (element array size i) (element array size c) := by
  obtain ⟨i, rfl⟩ : ∃ j, i = j + 1 := ⟨i - 1, by omega⟩
  obtain ⟨c, rfl⟩ : ∃ j, c = j + 1 := ⟨c - 1, by omega⟩
  rfl

/-! ### The order -/

/-- Not greater. -/
def le (compare : Bytes → Bytes → ℤ) (a b : Bytes) : Prop := compare a b ≤ 0

namespace TotalPreorder

variable {a b d : Bytes} (h : TotalPreorder compare)

include h

theorem refl (a : Bytes) : le compare a a := by
  by_contra hlt
  have hpos : 0 < compare a a := not_le.mp hlt
  exact lt_asymm hpos ((h.swap a a).mpr hpos)

theorem le_trans (a b d : Bytes) : le compare a b → le compare b d → le compare a d := h.trans a b d

theorem le_of_pos (hpos : 0 < compare a b) : le compare b a := ((h.swap b a).mpr hpos).le

/-- Below a lesser element there is no equal one. -/
theorem neg_of_le (hneg : compare a b < 0) (hle : le compare b d) : compare a d < 0 := by
  rcases lt_trichotomy (compare a d) 0 with hlt | heq | hgt
  · exact hlt
  · have hda : le compare d a := by
      by_contra hnot
      exact absurd ((h.swap a d).mpr (not_le.mp hnot)) (by rw [heq]; exact lt_irrefl 0)
    exact absurd ((h.swap a b).mp hneg) (not_lt.mpr (h.trans b d a hle hda))
  · exact absurd ((h.swap a b).mp hneg) (not_lt.mpr (h.trans b d a hle (h.le_of_pos hgt)))

theorem pos_of_le (hpos : 0 < compare a b) (hle : le compare d b) : 0 < compare a d := by
  by_contra hnot
  exact absurd hpos (not_lt.mpr (h.trans a d b (not_lt.mp hnot) hle))

end TotalPreorder

/-! ### Heap sort -/

/-- **The index of the largest** of an element and its children. -/
theorem largest_spec (array : Array) (size : ℕ) (h : TotalPreorder compare) (hi : 1 ≤ i) (hic : i ≤ cnt)
    (hcnt : cnt < 2 ^ 31) :
    (largest compare array i cnt size = i ∨ largest compare array i cnt size / 2 = i ∧
      i < largest compare array i cnt size ∧ largest compare array i cnt size ≤ cnt) ∧
    ∀ j, j = i ∨ 2 ≤ j ∧ j ≤ cnt ∧ j / 2 = i →
      le compare (element array size j) (element array size (largest compare array i cnt size)) := by
  have hleft : 2 * i % 2 ^ 32 = 2 * i := Nat.mod_eq_of_lt (by omega)
  have hright : (2 * i + 1) % 2 ^ 32 = 2 * i + 1 := Nat.mod_eq_of_lt (by omega)
  unfold largest
  simp only [hleft, hright]
  set m := if 2 * i ≤ cnt ∧ 0 < doCompare compare array (2 * i) i size then 2 * i else i with hm
  have hfirst : (m = i ∨ m = 2 * i ∧ m ≤ cnt) ∧ le compare (element array size i) (element array size m) ∧
      (2 * i ≤ cnt → le compare (element array size (2 * i)) (element array size m)) := by
    rw [doCompare_eq (by omega) hi] at hm
    split_ifs at hm with hc
    · rw [hm]
      exact ⟨Or.inr ⟨rfl, hc.1⟩, h.le_of_pos hc.2, fun _ => h.refl _⟩
    · rw [hm]
      exact ⟨Or.inl rfl, h.refl _, fun hle => not_lt.mp fun hpos => hc ⟨hle, hpos⟩⟩
  obtain ⟨hmi, him, hlm⟩ := hfirst
  rw [doCompare_eq (by omega) (by omega)]
  split_ifs with hc
  · have hmr := h.le_of_pos hc.2
    refine ⟨Or.inr ⟨by omega, by omega, hc.1⟩, fun j hj => ?_⟩
    have hcases : j = i ∨ j = 2 * i ∧ 2 * i ≤ cnt ∨ j = 2 * i + 1 := by omega
    rcases hcases with rfl | ⟨rfl, hle⟩ | rfl
    · exact h.le_trans _ _ _ him hmr
    · exact h.le_trans _ _ _ (hlm hle) hmr
    · exact h.refl _
  · refine ⟨by omega, fun j hj => ?_⟩
    have hcases : j = i ∨ j = 2 * i ∧ 2 * i ≤ cnt ∨ j = 2 * i + 1 ∧ 2 * i + 1 ≤ cnt := by omega
    rcases hcases with rfl | ⟨rfl, hle⟩ | ⟨rfl, hle⟩
    · exact him
    · exact hlm hle
    · exact not_lt.mp fun hpos => hc ⟨hle, hpos⟩

/-- **`heapify`** makes a heap of one but for the children of `i`, by moving the first `cnt` elements. -/
theorem heapify_yields (h : TotalPreorder compare) (hcnt : cnt < 2 ^ 31) {lo : ℕ} (hlo : 1 ≤ lo) :
    ∀ {fuel i : ℕ} {array : Array},
    lo ≤ i → i ≤ cnt → cnt < i + fuel → HeapExcept (le compare) lo cnt i (element array size) →
    Yields (heapify compare cnt size fuel i) array fun _ array' =>
      Heap (le compare) lo cnt (element array' size) ∧ Rearranged cnt (element array size) (element array' size)
  | 0, _, _, _, hic, hfuel, _ => absurd hfuel (by omega)
  | fuel + 1, i, array, hi, hic, hfuel, hex => by
    obtain ⟨hchild, hmax⟩ := largest_spec array size h (hlo.trans hi) hic hcnt
    refine Yields.bind (Yields.get ?_)
    dsimp only
    split_ifs with heq
    · rw [heq] at hmax
      exact Yields.pure ⟨hex.heap fun j hj hjn hji => hmax j (Or.inr ⟨hj, hjn, hji⟩), Rearranged.refl⟩
    · obtain ⟨hc, hic', hcn⟩ := hchild.resolve_left heq
      set c := largest compare array i cnt size
      have hswap := element_doSwap array size (hlo.trans hi) (show 1 ≤ c by omega) (Ne.symm heq)
      have hdown := hex.down hlo hi hc hcn (hmax i (Or.inl rfl)) fun j hj hjn hji => hmax j (Or.inr ⟨hj, hjn, hji⟩)
      rw [← hswap] at hdown
      refine Yields.bind (Yields.set ((heapify_yields h hcnt hlo (by omega) hcn (by omega) hdown).mono ?_))
      rintro _ array' ⟨hheap, hre⟩
      rw [hswap] at hre
      exact ⟨hheap, (Rearranged.swap (hlo.trans hi) hic (by omega) hcn).trans hre⟩

/-- **The first loop** builds a heap. -/
theorem buildHeap_yields (h : TotalPreorder compare) (hcnt : cnt < 2 ^ 31) (hfuel : cnt < fuel) :
    ∀ {i : ℕ} {array : Array},
    i ≤ cnt → Heap (le compare) (i + 1) cnt (element array size) →
    Yields (buildHeap compare fuel cnt size i) array fun _ array' =>
      Heap (le compare) 1 cnt (element array' size) ∧ Rearranged cnt (element array size) (element array' size)
  | 0, _, _, hheap => Yields.pure ⟨hheap, Rearranged.refl⟩
  | i + 1, array, hic, hheap => by
    have hex : HeapExcept (le compare) (i + 1) cnt (i + 1) (element array size) :=
      ⟨fun j hj hjn hlo hne => hheap j hj hjn (by omega), fun j _ _ _ h2 hlo => absurd hlo (by omega)⟩
    refine Yields.bind ((heapify_yields h hcnt (Nat.succ_pos i) le_rfl hic (by omega) hex).mono ?_)
    rintro _ array₁ ⟨hheap₁, hre₁⟩
    refine (buildHeap_yields h hcnt hfuel (Nat.le_of_succ_le hic) hheap₁).mono ?_
    rintro _ array₂ ⟨hheap₂, hre₂⟩
    exact ⟨hheap₂, hre₁.trans hre₂⟩

/-- **The second loop** takes the greatest element of the heap, again and again. -/
theorem sortHeap_yields (h : TotalPreorder compare) (hcnt : cnt < 2 ^ 31) (hfuel : cnt < fuel) :
    ∀ {i : ℕ} {array : Array},
    i ≤ cnt → Taken (le compare) cnt i (element array size) →
    Yields (sortHeap compare fuel size i) array fun _ array' =>
      (∃ j ≤ 1, Taken (le compare) cnt j (element array' size)) ∧
        Rearranged cnt (element array size) (element array' size)
  | 0, _, _, ht => Yields.pure ⟨⟨0, Nat.zero_le 1, ht⟩, Rearranged.refl⟩
  | 1, _, _, ht => Yields.pure ⟨⟨1, le_rfl, ht⟩, Rearranged.refl⟩
  | i + 2, array, hic, ht => by
    have hswap := element_doSwap array size le_rfl (show 1 ≤ i + 2 by omega) (by omega)
    have hex := ht.except
    rw [← hswap] at hex
    refine Yields.bind (Yields.modify (Yields.bind ?_))
    refine (heapify_yields h (by omega) le_rfl le_rfl (by omega) (by omega) hex).mono ?_
    rintro _ array₁ ⟨hheap₁, hre₁⟩
    rw [hswap] at hre₁
    refine (sortHeap_yields h hcnt hfuel (by omega) (ht.next h.refl h.le_trans hre₁ hheap₁)).mono ?_
    rintro _ array₂ ⟨hdone, hre₂⟩
    have hre := (Rearranged.swap le_rfl (by omega) (by omega) hic).trans (hre₁.mono (Nat.le_of_succ_le hic))
    exact ⟨hdone, hre.trans hre₂⟩

/-- **`sort`** leaves the same elements in order, and what follows the array as it was. -/
theorem sort_yields (h : TotalPreorder compare) (hsize : 0 < size) (hcnt : cnt < 2 ^ 31) (hfuel : cnt < fuel) :
    Yields (sort compare fuel cnt size) array fun _ array' =>
      (elements array' cnt size).Perm (elements array cnt size) ∧ (elements array' cnt size).Pairwise (le compare) ∧
        ∀ k, cnt < k → element array' size k = element array size k := by
  have hstart : Heap (le compare) (cnt / 2 + 1) cnt (element array size) := fun j _ hjn hlo => absurd hlo (by omega)
  refine Yields.bind (Yields.assert (decide_eq_true hsize) (Yields.bind ?_))
  refine (buildHeap_yields h hcnt hfuel (Nat.div_le_self cnt 2) hstart).mono ?_
  rintro _ array₁ ⟨hheap, hre₁⟩
  refine (sortHeap_yields h hcnt hfuel le_rfl (Taken.start hheap)).mono ?_
  rintro _ array₂ ⟨⟨j, hj, hdone⟩, hre₂⟩
  have hre := hre₁.trans hre₂
  exact ⟨hre.perm, hdone.done hj, fun k hk => hre.apply_of_out (Or.inr hk)⟩

/-! ### Binary search -/

theorem mem_elements {e : Bytes} : e ∈ elements array cnt size ↔ ∃ k < cnt, e = element array size (k + 1) := by
  simp only [elements, List.mem_map, List.mem_range'_1]
  constructor
  · rintro ⟨k, ⟨hk, hkc⟩, rfl⟩
    exact ⟨k - 1, by omega, by rw [Nat.sub_add_cancel hk]⟩
  · rintro ⟨k, hk, rfl⟩
    exact ⟨k + 1, by omega, rfl⟩

theorem le_of_sorted (hsorted : (elements array cnt size).Pairwise (le compare)) {j : ℕ} (hkj : k < j)
    (hj : j < cnt) :
    le compare (element array size (k + 1)) (element array size (j + 1)) := by
  have hlen : (elements array cnt size).length = cnt := by simp [elements]
  have hle := List.pairwise_iff_getElem.mp hsorted k j (by omega) (by omega) hkj
  simpa [elements, List.getElem_range', Nat.add_comm] using hle

/-- What a search found: a pointer to an equal element, or that there is none. -/
def Found (compare : Bytes → Bytes → ℤ) (key : Bytes) (array : Array) (cnt size : ℕ) : Option ℕ → Prop
  | some p => ∃ k < cnt, p = k * size ∧ compare key (element array size (k + 1)) = 0
  | none => ∀ k < cnt, compare key (element array size (k + 1)) ≠ 0

/-- **The loop of `binary_search`**: the elements before `first` are less than the key, those from `last` on
greater. -/
theorem binarySearchLoop_yields {key : Bytes} (h : TotalPreorder compare) (hsize : 0 < size)
    (hsorted : (elements array cnt size).Pairwise (le compare)) :
      ∀ {fuel first last : ℕ}, last < first + fuel → last ≤ cnt →
    first ≤ last → (∀ k < first, 0 < compare key (element array size (k + 1))) →
    (∀ k < cnt, last ≤ k → compare key (element array size (k + 1)) < 0) →
    Yields (binarySearchLoop compare key size fuel (first * size) (last * size)) array fun r array' =>
      array' = array ∧ Found compare key array cnt size r
  | 0, _, _, hfuel, _, hle, _, _ => absurd hfuel (not_lt_of_ge hle)
  | fuel + 1, first, last, hfuel, hlast, hle, hbefore, hbehind => by
    rw [binarySearchLoop]
    split_ifs with hlt
    · have hlt' : first < last := Nat.lt_of_mul_lt_mul_right hlt
      have hrange : (last * size - first * size) / size = last - first := by
        rw [← Nat.sub_mul, Nat.mul_div_cancel _ hsize]
      set middle := first + (last - first) / 2 with hmiddle
      have hpoint : first * size + (last - first) / 2 * size = middle * size := by rw [hmiddle, Nat.add_mul]
      refine Yields.bind (Yields.get ?_)
      simp only [hrange, hpoint]
      change Yields (if compare key (element array size (middle + 1)) < 0 then _
        else if 0 < compare key (element array size (middle + 1)) then _ else _) array _
      split_ifs with hneg hpos
      · refine binarySearchLoop_yields h hsize hsorted (by omega) (by omega) (by omega) hbefore fun k hk hmk => ?_
        rcases hmk.eq_or_lt with rfl | hmk
        · exact hneg
        · exact h.neg_of_le hneg (le_of_sorted hsorted hmk hk)
      · rw [← Nat.succ_mul]
        refine binarySearchLoop_yields h hsize hsorted (by omega) hlast (by omega) (fun k hk => ?_) hbehind
        rcases (Nat.le_of_lt_succ hk).eq_or_lt with rfl | hkm
        · exact hpos
        · exact h.pos_of_le hpos (le_of_sorted hsorted hkm (by omega))
      · exact Yields.pure ⟨rfl, middle, by omega, rfl, by omega⟩
    · have hge : last ≤ first := Nat.le_of_mul_le_mul_right (not_lt.mp hlt) hsize
      refine Yields.pure ⟨rfl, fun k hk => ?_⟩
      rcases Nat.lt_or_ge k first with hkf | hfk
      · exact (hbefore k hkf).ne'
      · exact (hbehind k hk (by omega)).ne

/-- **`sort` and `binary_search`**, with enough fuel for the loops. -/
theorem sort_binarySearch (h : TotalPreorder compare) (hsize : 0 < size) (hfuel : cnt < fuel) :
    (cnt < 2 ^ 31 → Yields (sort compare fuel cnt size) array fun _ array' =>
      (elements array' cnt size).Perm (elements array cnt size) ∧ (elements array' cnt size).Pairwise (le compare) ∧
        ∀ k, cnt < k → element array' size k = element array size k) ∧
    ((elements array cnt size).Pairwise (le compare) → ∀ key,
      Yields (binarySearch compare fuel key cnt size) array fun r array' => array' = array ∧
        (r.isSome ↔ ∃ e ∈ elements array cnt size, compare key e = 0) ∧
        ∀ p, r = some p → ∃ k < cnt, p = k * size ∧ compare key (bytesAt array p size) = 0) := by
  refine ⟨fun hcnt => sort_yields h hsize hcnt hfuel, fun hsorted key => ?_⟩
  have hloop : Yields (binarySearchLoop compare key size fuel (0 * size) (cnt * size)) array fun r array' =>
      array' = array ∧ Found compare key array cnt size r :=
    binarySearchLoop_yields h hsize hsorted (by omega) le_rfl (Nat.zero_le _)
      (fun k hk => absurd hk (Nat.not_lt_zero k))
      fun k hk hle => absurd hk (not_lt_of_ge hle)
  rw [Nat.zero_mul, Nat.mul_comm] at hloop
  refine hloop.mono ?_
  rintro r _ ⟨rfl, hfound⟩
  cases r with
  | none =>
    refine ⟨rfl, iff_of_false nofun ?_, nofun⟩
    rintro ⟨e, he, hzero⟩
    obtain ⟨k, hk, rfl⟩ := mem_elements.mp he
    exact hfound k hk hzero
  | some p =>
    obtain ⟨k, hk, rfl, hzero⟩ := hfound
    refine ⟨rfl, iff_of_true rfl ⟨_, mem_elements.mpr ⟨k, hk, rfl⟩, hzero⟩, ?_⟩
    rintro _ ⟨⟩
    exact ⟨k, hk, rfl, hzero⟩

/-- Elements of two bytes, compared by the first one. -/
def compareFirst (a b : Bytes) : ℤ := (a.headD 0).toNat - (b.headD 0).toNat

theorem totalPreorder_compareFirst : TotalPreorder compareFirst :=
  ⟨fun a b => by unfold compareFirst; omega, fun a b c => by unfold compareFirst; omega⟩

/-- Three elements of two bytes. -/
def threeWords : Array := fun p => [3, 7, 1, 8, 3, 9].getD p 0

theorem sort_binarySearch_words :
    (3 < 2 ^ 31 → Yields (sort compareFirst 4 3 2) threeWords fun _ array' =>
      (elements array' 3 2).Perm (elements threeWords 3 2) ∧ (elements array' 3 2).Pairwise (le compareFirst) ∧
        ∀ k, 3 < k → element array' 2 k = element threeWords 2 k) ∧
    ((elements threeWords 3 2).Pairwise (le compareFirst) → ∀ key,
      Yields (binarySearch compareFirst 4 key 3 2) threeWords fun r array' => array' = threeWords ∧
        (r.isSome ↔ ∃ e ∈ elements threeWords 3 2, compareFirst key e = 0) ∧
        ∀ p, r = some p → ∃ k < 3, p = k * 2 ∧ compareFirst key (bytesAt threeWords p 2) = 0) :=
  sort_binarySearch totalPreorder_compareFirst (by decide) (by decide)

end Pintos.Kernel.SortArray
