import Mathlib.Tactic

/-! # Bitmaps

`lib/kernel/bitmap.c`: the free maps of the page pool, of the swap device and of the file system are all
bitmaps. A bitmap is its list of bits; a function whose assertion fails returns `none`. -/

namespace Pintos.Kernel.Bitmap

/-- `struct bitmap`. -/
abbrev Bits := List Bool

/-- `bitmap_test`, on an index inside the bitmap. -/
def bitmapTest (b : Bits) (idx : ℕ) : Bool := b[idx]?.getD false

/-- The loop of `bitmap_set_multiple`. -/
def setBits (b : Bits) (start : ℕ) (value : Bool) : ℕ → Bits
  | 0 => b
  | i + 1 => (setBits b start value i).set (start + i) value

/-- `bitmap_set_multiple`. -/
def bitmapSetMultiple (b : Bits) (start cnt : ℕ) (value : Bool) : Option Bits :=
  if start + cnt ≤ b.length then some (setBits b start value cnt) else none

/-- `bitmap_count`. -/
def bitmapCount (b : Bits) (start cnt : ℕ) (value : Bool) : Option ℕ :=
  if start + cnt ≤ b.length then
    some ((List.range cnt).countP fun i => bitmapTest b (start + i) = value)
  else none

/-- `bitmap_contains`, on a group inside the bitmap. -/
def bitmapContains (b : Bits) (start cnt : ℕ) (value : Bool) : Bool :=
  (List.range cnt).any fun i => bitmapTest b (start + i) = value

/-- `bitmap_all`. -/
def bitmapAll (b : Bits) (start cnt : ℕ) : Option Bool :=
  if start + cnt ≤ b.length then some (!bitmapContains b start cnt false) else none

/-- `bitmap_scan`; `none` is `BITMAP_ERROR`. -/
def bitmapScan (b : Bits) (start cnt : ℕ) (value : Bool) : Option ℕ :=
  if cnt ≤ b.length then
    (List.range' start (b.length - cnt + 1 - start)).find? fun i => !bitmapContains b i cnt (!value)
  else none

/-- `bitmap_scan_and_flip`. -/
def bitmapScanAndFlip (b : Bits) (start cnt : ℕ) (value : Bool) : Option (ℕ × Bits) := do
  let idx ← bitmapScan b start cnt value
  let b' ← bitmapSetMultiple b idx cnt !value
  return (idx, b')

variable {b b' : Bits} {start cnt idx i n : ℕ} {value : Bool}

/-! ### What the bits are afterwards -/

@[simp] theorem length_setBits : (setBits b start value n).length = b.length := by
  induction n with
  | zero => rfl
  | succ n ih => simp [setBits, ih]

theorem getElem?_setBits (h : start + n ≤ b.length) (i : ℕ) :
    (setBits b start value n)[i]? = if start ≤ i ∧ i < start + n then some value else b[i]? := by
  induction n with
  | zero => rw [if_neg (by omega), setBits]
  | succ n ih =>
    have hlen : start + n < (setBits b start value n).length := by rw [length_setBits]; omega
    rw [setBits, List.getElem?_set, ih (by omega)]
    by_cases hi : start + n = i
    · rw [if_pos hi, if_pos (by omega : start + n < _), if_pos (by omega)]
    · rw [if_neg hi]
      exact if_congr (by omega) rfl rfl

theorem bitmapSetMultiple_eq_some (h : bitmapSetMultiple b start cnt value = some b') :
    start + cnt ≤ b.length ∧ b' = setBits b start value cnt := by
  unfold bitmapSetMultiple at h
  split_ifs at h with hc
  exact ⟨hc, by simpa using h.symm⟩

theorem bitmapContains_eq_false :
    bitmapContains b start cnt value = false ↔ ∀ i < cnt, bitmapTest b (start + i) = !value := by
  simp [bitmapContains, Bool.eq_not]

theorem bitmapTest_eq (h : idx < b.length) : bitmapTest b idx = value ↔ b[idx]? = some value := by
  simp [bitmapTest, List.getElem?_eq_getElem h]

theorem bitmapTest_eq_true : bitmapTest b idx = true ↔ b[idx]? = some true := by
  cases h : b[idx]? <;> simp [bitmapTest, h]

/-! ### Searching for a group -/

/-- The bits of a group that are all in the map and all have the value. -/
def Group (b : Bits) (idx cnt : ℕ) (value : Bool) : Prop :=
  ∀ i, idx ≤ i → i < idx + cnt → b[i]? = some value

theorem group_of_not_contains (h : idx + cnt ≤ b.length)
    (hc : bitmapContains b idx cnt (!value) = false) : Group b idx cnt value := by
  intro i h1 h2
  have ht := bitmapContains_eq_false.mp hc (i - idx) (by omega)
  rw [Bool.not_not, Nat.add_sub_cancel' h1] at ht
  exact (bitmapTest_eq (by omega)).mp ht

/-- **`bitmap_scan` finds a group inside the map.** -/
theorem bitmapScan_eq_some (h : bitmapScan b start cnt value = some idx) :
    start ≤ idx ∧ idx + cnt ≤ b.length ∧ Group b idx cnt value := by
  unfold bitmapScan at h
  split_ifs at h with hc
  have hm := List.mem_range'_1.mp (List.mem_of_find?_eq_some h)
  have hp := List.find?_some h
  have hle : idx + cnt ≤ b.length := by omega
  exact ⟨hm.1, hle, group_of_not_contains hle (by simpa using hp)⟩

/-- **`bitmap_scan` finds nothing only where there is no group.** -/
theorem bitmapScan_eq_none (h : bitmapScan b start cnt value = none) (hs : start ≤ idx)
    (hi : idx + cnt ≤ b.length) : ¬Group b idx cnt value := by
  intro hg
  unfold bitmapScan at h
  rw [if_pos (by omega), List.find?_eq_none] at h
  have hm : idx ∈ List.range' start (b.length - cnt + 1 - start) :=
    List.mem_range'_1.mpr ⟨hs, by omega⟩
  refine h idx hm ?_
  have hc : bitmapContains b idx cnt (!value) = false := by
    refine bitmapContains_eq_false.mpr fun i hi' => ?_
    rw [Bool.not_not]
    exact (bitmapTest_eq (by omega)).mpr (hg _ (by omega) (by omega))
  simp [hc]

/-- **`bitmap_scan` finds the first group.** -/
theorem bitmapScan_first (h : bitmapScan b start cnt value = some idx) {k : ℕ} (hs : start ≤ k)
    (hk : k < idx) : ¬Group b k cnt value := by
  intro hg
  have hle := (bitmapScan_eq_some h).2.1
  unfold bitmapScan at h
  split_ifs at h with hc
  obtain ⟨-, as, bs, heq, hno⟩ := List.find?_eq_some_iff_append.mp h
  have hkm : k ∈ as := by
    have hm : k ∈ as ++ idx :: bs := heq ▸ List.mem_range'_1.mpr ⟨hs, by omega⟩
    have hsorted : (as ++ idx :: bs).Pairwise (· < ·) := heq ▸ List.pairwise_lt_range'
    rcases List.mem_append.mp hm with hm | hm
    · exact hm
    · rcases List.mem_cons.mp hm with rfl | hm
      · omega
      · have hlt := (List.pairwise_cons.mp (List.pairwise_append.mp hsorted).2.1).1 k hm
        omega
  have hcont : bitmapContains b k cnt (!value) = false := by
    refine bitmapContains_eq_false.mpr fun i hi => ?_
    rw [Bool.not_not]
    exact (bitmapTest_eq (by omega)).mpr (hg _ (by omega) (by omega))
  have := hno k hkm
  simp [hcont] at this

theorem bitmapScanAndFlip_eq_some (h : bitmapScanAndFlip b start cnt value = some (idx, b')) :
    start ≤ idx ∧ idx + cnt ≤ b.length ∧ Group b idx cnt value ∧ b' = setBits b idx (!value) cnt := by
  simp only [bitmapScanAndFlip, Option.bind_eq_bind, Option.bind_eq_some_iff] at h
  obtain ⟨idx', hs, b'', hm, he⟩ := h
  obtain ⟨rfl, rfl⟩ : idx' = idx ∧ b'' = b' := by simpa using he
  obtain ⟨h1, h2, h3⟩ := bitmapScan_eq_some hs
  exact ⟨h1, h2, h3, (bitmapSetMultiple_eq_some hm).2⟩

theorem bitmapScan_of_flip (h : bitmapScanAndFlip b start cnt value = none) :
    bitmapScan b start cnt value = none := by
  rcases hs : bitmapScan b start cnt value with _ | idx
  · rfl
  obtain ⟨-, hle, -⟩ := bitmapScan_eq_some hs
  simp [bitmapScanAndFlip, hs, bitmapSetMultiple, hle] at h

/-- A single bit is set in place. -/
theorem setBits_one (b : Bits) (idx : ℕ) (value : Bool) :
    setBits b idx value 1 = b.set idx value := rfl

end Pintos.Kernel.Bitmap
