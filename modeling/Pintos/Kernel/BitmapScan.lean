import Pintos.Kernel.BitmapWords
import Pintos.Lib.Ops

/-! # Scanning the words of a bitmap

`bitmap_scan_and_flip` on the elements of a bitmap, with `size_t` arithmetic and with its assertions. It does to
the list of bits what `Kernel.Bitmap` says (`bitmapScan_apply`), and to the words nothing else. -/

namespace Pintos.Kernel.BitmapScan

open Pintos.Kernel.BitmapWords Pintos.Lib.Ops

/-- `size_t`. -/
abbrev Size := BitVec 32

/-- `BITMAP_ERROR`, which is `SIZE_MAX`. -/
def bitmapError : Size := BitVec.allOnes 32

/-- `bitmap_size`. -/
def bitmapSize (b : Bitmap) : Size := BitVec.ofNat 32 b.bitCnt

/-- `bitmap_test`. -/
def bitmapTest (idx : Size) : Op Bitmap Bool := do
  let b ← get
  assert (idx < bitmapSize b)
  pure (b.test idx.toNat)

/-- `bitmap_set`. -/
def bitmapSet (idx : Size) (value : Bool) : Op Bitmap PUnit := do
  let b ← get
  assert (idx < bitmapSize b)
  modify fun b => b.set idx.toNat value

/-- What `bitmap_set_multiple` and `bitmap_contains` assert of their group. -/
def assertGroup (start cnt : Size) : Op Bitmap Unit := do
  let b ← get
  assert (start ≤ bitmapSize b)
  assert (start + cnt ≤ bitmapSize b)

/-- `bitmap_set_multiple`. -/
def bitmapSetMultiple (start cnt : Size) (value : Bool) : Op Bitmap PUnit := do
  assertGroup start cnt
  (List.range cnt.toNat).forM fun i => bitmapSet (start + BitVec.ofNat 32 i) value

/-- The loop of `bitmap_contains`, with so many rounds to go. -/
def containsLoop (start : Size) (value : Bool) : ℕ → Size → Op Bitmap Bool
  | 0, _ => pure false
  | rounds + 1, i => do
    let bit ← bitmapTest (start + i)
    if bit = value then pure true else containsLoop start value rounds (i + 1)

/-- `bitmap_contains`. -/
def bitmapContains (start cnt : Size) (value : Bool) : Op Bitmap Bool := do
  assertGroup start cnt
  containsLoop start value cnt.toNat 0

/-- The loop of `bitmap_scan`, with at most `fuel` tests of its condition. -/
def scanLoop (cnt last : Size) (value : Bool) : ℕ → Size → Op Bitmap Size
  | 0, _ => halt
  | fuel + 1, i =>
    if i ≤ last then do
      let contains ← bitmapContains i cnt !value
      if contains then scanLoop cnt last value fuel (i + 1) else pure i
    else pure bitmapError

/-- `bitmap_scan`. -/
def bitmapScan (start cnt : Size) (value : Bool) : Op Bitmap Size := do
  let b ← get
  assert (start ≤ bitmapSize b)
  if cnt ≤ bitmapSize b then scanLoop cnt (bitmapSize b - cnt) value (b.bitCnt + 2) start else pure bitmapError

/-- `bitmap_scan_and_flip`. -/
def bitmapScanAndFlip (start cnt : Size) (value : Bool) : Op Bitmap Size := do
  let idx ← bitmapScan start cnt value
  if idx = bitmapError then pure idx else do
    bitmapSetMultiple idx cnt !value
    pure idx

/-! ### What a bitmap is -/

/-- The elements are as many as `elem_cnt` computes in a `size_t`, where `DIV_ROUND_UP` adds before it divides. -/
def Represented (b : Bitmap) : Prop := b.bits.length = (b.bitCnt + elemBits - 1) % 2 ^ 32 / elemBits

variable {b : Bitmap} {start cnt idx last i : Size} {value : Bool} {n fuel : ℕ}

/-- Such a bitmap has no index that is `BITMAP_ERROR`. -/
theorem Represented.lt (h : Represented b) : b.bitCnt + 31 < 2 ^ 32 := by
  have hsize := b.size
  unfold Represented at h
  unfold elemCnt at hsize
  unfold elemBits at h hsize
  omega

theorem Represented.toNat_bitmapSize (h : Represented b) : (bitmapSize b).toNat = b.bitCnt := by
  have hlt := h.lt
  rw [bitmapSize, BitVec.toNat_ofNat, Nat.mod_eq_of_lt (by omega)]

theorem Represented.le_iff (h : Represented b) : idx ≤ bitmapSize b ↔ idx.toNat ≤ b.bitCnt := by
  rw [BitVec.le_def, h.toNat_bitmapSize]

theorem Represented.lt_iff (h : Represented b) : idx < bitmapSize b ↔ idx.toNat < b.bitCnt := by
  rw [BitVec.lt_def, h.toNat_bitmapSize]

theorem toNat_bitmapError : bitmapError.toNat = 2 ^ 32 - 1 := by decide

theorem toNat_add_of_le (h : Represented b) (idx : Size) (hle : idx.toNat + n ≤ b.bitCnt) :
    (idx + BitVec.ofNat 32 n).toNat = idx.toNat + n := by
  have hlt := h.lt
  rw [BitVec.toNat_add, BitVec.toNat_ofNat, Nat.add_mod_mod, Nat.mod_eq_of_lt (by omega)]

/-! ### The words and the list of bits -/

theorem bitmapTest_toBits {i : ℕ} (hi : i < b.bitCnt) : Bitmap.bitmapTest b.toBits i = b.test i :=
  (Bitmap.bitmapTest_eq (by rwa [length_toBits])).mpr (getElem?_toBits hi)

theorem assert_true {σ α : Type} {c : Bool} {f : Unit → Op σ α} {s : σ} (hc : c = true) :
    (assert c >>= f) s = f () s := by
  subst hc
  rfl

theorem bitmapTest_apply (h : Represented b) (hi : idx.toNat < b.bitCnt) :
    bitmapTest idx b = some (b.test idx.toNat, b) := by
  have hassert : decide (idx < bitmapSize b) = true := decide_eq_true (h.lt_iff.mpr hi)
  show (assert (decide (idx < bitmapSize b)) >>= fun _ => pure (b.test idx.toNat) : Op Bitmap Bool) b = _
  rw [assert_true hassert]
  rfl

theorem bitmapSet_apply (h : Represented b) (hi : idx.toNat < b.bitCnt) :
    bitmapSet idx value b = some (⟨⟩, b.set idx.toNat value) := by
  have hassert : decide (idx < bitmapSize b) = true := decide_eq_true (h.lt_iff.mpr hi)
  show (assert (decide (idx < bitmapSize b)) >>= fun _ => modify fun b => b.set idx.toNat value : Op Bitmap PUnit) b =
    _
  rw [assert_true hassert]
  rfl

theorem assertGroup_apply (h : Represented b) (hle : start.toNat + cnt.toNat ≤ b.bitCnt) :
    assertGroup start cnt b = some ((), b) := by
  have hstart : decide (start ≤ bitmapSize b) = true := decide_eq_true (h.le_iff.mpr (by omega))
  have hadd := toNat_add_of_le h start hle
  rw [BitVec.ofNat_toNat, BitVec.setWidth_eq] at hadd
  have hend : decide (start + cnt ≤ bitmapSize b) = true := decide_eq_true (h.le_iff.mpr (by omega))
  show (assert (decide (start ≤ bitmapSize b)) >>= fun _ =>
    assert (decide (start + cnt ≤ bitmapSize b)) : Op Bitmap Unit) b = _
  rw [assert_true hstart, hend]
  rfl

/-- **The search in a group**, from its bit `i` on. -/
theorem containsLoop_apply (h : Represented b) : ∀ {n i : ℕ}, start.toNat + (i + n) ≤ b.bitCnt →
    containsLoop start value n (BitVec.ofNat 32 i) b =
      some ((List.range' i n).any fun k => Bitmap.bitmapTest b.toBits (start.toNat + k) = value, b)
  | 0, _, _ => rfl
  | n + 1, i, hle => by
    have hat := toNat_add_of_le (n := i) h start (by omega)
    have hnext : BitVec.ofNat 32 i + 1 = BitVec.ofNat 32 (i + 1) := (BitVec.ofNat_add i 1).symm
    rw [containsLoop, bind_apply, bitmapTest_apply h (by omega), List.range'_succ, List.any_cons, Option.bind_some,
      hat, bitmapTest_toBits (by omega)]
    by_cases hbit : b.test (start.toNat + i) = value
    · rw [if_pos hbit, decide_eq_true hbit, Bool.true_or]
      rfl
    · rw [if_neg hbit, decide_eq_false hbit, Bool.false_or, hnext]
      exact containsLoop_apply h (by omega)

theorem bitmapContains_apply (h : Represented b) (hle : start.toNat + cnt.toNat ≤ b.bitCnt) :
    bitmapContains start cnt value b = some (Bitmap.bitmapContains b.toBits start.toNat cnt.toNat value, b) := by
  rw [bitmapContains, bind_apply, assertGroup_apply h hle, Option.bind_some, Bitmap.bitmapContains,
    List.range_eq_range']
  exact containsLoop_apply (i := 0) h (by omega)

theorem represented_setWords {k m : ℕ} (h : Represented b) : Represented (b.setWords k value m) := by
  have hsize := (b.setWords k value m).size
  rw [bitCnt_setWords, ← b.size] at hsize
  unfold Represented
  rw [hsize, bitCnt_setWords]
  exact h

/-- **The loop of `bitmap_set_multiple`.** -/
theorem setLoop_apply (h : Represented b) : ∀ {n : ℕ}, start.toNat + n ≤ b.bitCnt →
    ((List.range n).forM fun i => bitmapSet (start + BitVec.ofNat 32 i) value) b = some
      (⟨⟩, b.setWords start.toNat value n)
  | 0, _ => rfl
  | n + 1, hle => by
    have hat := toNat_add_of_le (n := n) h start (by omega)
    have hin : (start + BitVec.ofNat 32 n).toNat < (b.setWords start.toNat value n).bitCnt := by
      rw [bitCnt_setWords, hat]
      omega
    rw [forM_range_succ, bind_apply, setLoop_apply h (by omega), Option.bind_some,
      bitmapSet_apply (represented_setWords h) hin, hat]
    rfl

theorem bitmapSetMultiple_apply (h : Represented b) (hle : start.toNat + cnt.toNat ≤ b.bitCnt) :
    bitmapSetMultiple start cnt value b = some (⟨⟩, b.setWords start.toNat value cnt.toNat) := by
  rw [bitmapSetMultiple, bind_apply, assertGroup_apply h hle, Option.bind_some]
  exact setLoop_apply h hle

/-- What `bitmap_scan` returns for an index or none. -/
def toSize : Option ℕ → Size
  | some idx => BitVec.ofNat 32 idx
  | none => bitmapError

/-- **The search for a group**, at its start `i` with `n` more to try. -/
theorem scanLoop_apply (h : Represented b) (hlast : last.toNat + cnt.toNat = b.bitCnt) : ∀ {n i fuel : ℕ},
    n = last.toNat + 1 - i → i ≤ b.bitCnt + 1 → n < fuel → scanLoop cnt last value fuel (BitVec.ofNat 32 i) b =
      some (toSize ((List.range' i n).find? fun k => !Bitmap.bitmapContains b.toBits k cnt.toNat !value), b)
  | 0, i, fuel + 1, hn, hi, _ => by
    have hlt := h.lt
    have hle : ¬BitVec.ofNat 32 i ≤ last := by
      rw [BitVec.le_def, BitVec.toNat_ofNat, Nat.mod_eq_of_lt (by omega)]
      omega
    rw [scanLoop, if_neg hle]
    rfl
  | n + 1, i, fuel + 1, hn, hi, hfuel => by
    have hlt := h.lt
    have hnat : (BitVec.ofNat 32 i).toNat = i := by rw [BitVec.toNat_ofNat, Nat.mod_eq_of_lt (by omega)]
    have hle : BitVec.ofNat 32 i ≤ last := by
      rw [BitVec.le_def, hnat]
      omega
    have hnext : BitVec.ofNat 32 i + 1 = BitVec.ofNat 32 (i + 1) := (BitVec.ofNat_add i 1).symm
    rw [scanLoop, if_pos hle, bind_apply, bitmapContains_apply h (by omega), Option.bind_some, hnat, List.range'_succ,
      List.find?_cons]
    cases Bitmap.bitmapContains b.toBits i cnt.toNat !value with
    | false => rfl
    | true =>
      rw [if_pos rfl, hnext]
      exact scanLoop_apply h hlast (by omega) (by omega) (by omega)

/-- **`bitmap_scan` on words is `bitmap_scan` on the list of bits.** -/
theorem bitmapScan_apply (h : Represented b) (hstart : start.toNat ≤ b.bitCnt) :
    bitmapScan start cnt value b = some (toSize (Bitmap.bitmapScan b.toBits start.toNat cnt.toNat value), b) := by
  have hassert : decide (start ≤ bitmapSize b) = true := decide_eq_true (h.le_iff.mpr hstart)
  show (assert (decide (start ≤ bitmapSize b)) >>= fun _ => if cnt ≤ bitmapSize b then _ else _ : Op Bitmap Size) b =
    _
  rw [assert_true hassert, Bitmap.bitmapScan, length_toBits]
  by_cases hcnt : cnt.toNat ≤ b.bitCnt
  · have hlast : (bitmapSize b - cnt).toNat = b.bitCnt - cnt.toNat := by
      rw [BitVec.toNat_sub_of_le (h.le_iff.mpr hcnt), h.toNat_bitmapSize]
    rw [if_pos hcnt, if_pos (h.le_iff.mpr hcnt)]
    have hrun : scanLoop cnt (bitmapSize b - cnt) value (b.bitCnt + 2) (BitVec.ofNat 32 start.toNat) b = _ :=
      scanLoop_apply h (by omega) (by rw [hlast]) (by omega) (by omega)
    rwa [BitVec.ofNat_toNat, BitVec.setWidth_eq] at hrun
  · rw [if_neg hcnt, if_neg (mt h.le_iff.mp hcnt)]
    rfl

/-! ### The first group, and the bits that are flipped -/

/-- The `cnt` bits from `i` on are inside the bitmap and all have the value. -/
def IsGroup (b : Bitmap) (cnt : ℕ) (value : Bool) (i : ℕ) : Prop :=
  i + cnt ≤ b.bitCnt ∧ ∀ k, i ≤ k → k < i + cnt → b.test k = value

theorem isGroup_iff {c i : ℕ} : IsGroup b c value i ↔ i + c ≤ b.bitCnt ∧ Bitmap.Group b.toBits i c value := by
  refine and_congr_right fun hle => forall₃_congr fun k _ hk => ?_
  rw [getElem?_toBits (by omega), Option.some_inj]

/-- The bit `k` of the word `w`. -/
def wordBit (b : Bitmap) (w k : ℕ) : Bool := (b.bits[w]?.getD 0).getLsbD k

theorem wordBit_eq {w k : ℕ} (hk : k < 32) : wordBit b w k = b.test (32 * w + k) := by
  have hdiv : elemIdx (32 * w + k) = w := by
    unfold elemIdx elemBits
    omega
  have hmod : (32 * w + k) % elemBits = k := by
    unfold elemBits
    omega
  rw [test_eq, hdiv, hmod, wordBit]

/-- **`b'` is `b` with the `cnt` bits from `idx` on flipped**, as a list of bits and in its words. -/
structure Flips (b : Bitmap) (idx cnt : ℕ) (b' : Bitmap) : Prop where
  bitCnt : b'.bitCnt = b.bitCnt
  toBits : b'.toBits = b.toBits.mapIdx fun i bit => if idx ≤ i ∧ i < idx + cnt then !bit else bit
  words : ∀ w k, k < 32 → wordBit b' w k =
    if idx ≤ 32 * w + k ∧ 32 * w + k < idx + cnt then !wordBit b w k else wordBit b w k

theorem IsGroup.flips {c i : ℕ} (h : IsGroup b c value i) : Flips b i c (b.setWords i (!value) c) := by
  have htest : ∀ k, (b.setWords i (!value) c).test k = if i ≤ k ∧ k < i + c then !b.test k else b.test k := by
    intro k
    rw [test_setWords h.1]
    split_ifs with hk
    · rw [h.2 k hk.1 hk.2]
    · rfl
  refine ⟨bitCnt_setWords, List.ext_getElem? fun k => ?_, fun w k hk => ?_⟩
  · rw [List.getElem?_mapIdx]
    rcases Nat.lt_or_ge k b.bitCnt with hk | hk
    · rw [getElem?_toBits hk, getElem?_toBits (by rwa [bitCnt_setWords]), htest]
      rfl
    · rw [List.getElem?_eq_none (by rwa [length_toBits, bitCnt_setWords]),
        List.getElem?_eq_none (by rwa [length_toBits])]
      rfl
  · rw [wordBit_eq hk, wordBit_eq hk, htest]

/-- What `bitmap_scan` finds. -/
theorem bitmapScan_isLeast (hscan : Bitmap.bitmapScan b.toBits start.toNat cnt.toNat value = some n) :
    IsLeast {i | start.toNat ≤ i ∧ IsGroup b cnt.toNat value i} n := by
  obtain ⟨hle, hin, hgroup⟩ := Bitmap.bitmapScan_eq_some hscan
  rw [length_toBits] at hin
  refine ⟨⟨hle, isGroup_iff.mpr ⟨hin, hgroup⟩⟩, fun i hi => ?_⟩
  by_contra hlt
  exact Bitmap.bitmapScan_first hscan hi.1 (not_le.mp hlt) (isGroup_iff.mp hi.2).2

/-- **`bitmap_scan_and_flip` flips the first group**, and returns `BITMAP_ERROR` where there is none. -/
theorem bitmapScanAndFlip_yields (start cnt : Size) (value : Bool) (h : Represented b)
    (hstart : start.toNat ≤ b.bitCnt) :
    Yields (bitmapScanAndFlip start cnt value) b fun idx b' =>
      (idx ≠ bitmapError ∧ IsLeast {i | start.toNat ≤ i ∧ IsGroup b cnt.toNat value i} idx.toNat ∧
          Flips b idx.toNat cnt.toNat b') ∨
        (idx = bitmapError ∧ (∀ i, start.toNat ≤ i → ¬IsGroup b cnt.toNat value i) ∧ b' = b) := by
  refine Yields.bind ⟨_, _, bitmapScan_apply h hstart, ?_⟩
  cases hscan : Bitmap.bitmapScan b.toBits start.toNat cnt.toNat value with
  | none =>
    refine Yields.pure (Or.inr ⟨rfl, fun i hi hgroup => ?_, rfl⟩)
    obtain ⟨hin, hgroup⟩ := isGroup_iff.mp hgroup
    exact Bitmap.bitmapScan_eq_none hscan hi (by rwa [length_toBits]) hgroup
  | some n =>
    have hleast := bitmapScan_isLeast hscan
    have hgroup := hleast.1.2
    have hlt := h.lt
    have hnat : (toSize (some n)).toNat = n := by
      rw [toSize, BitVec.toNat_ofNat, Nat.mod_eq_of_lt (by have := hgroup.1; omega)]
    have hne : toSize (some n) ≠ bitmapError := by
      intro heq
      have hmax := congrArg BitVec.toNat heq
      rw [hnat, toNat_bitmapError] at hmax
      have := hgroup.1
      omega
    rw [if_neg hne]
    refine Yields.bind ⟨_, _, bitmapSetMultiple_apply h (by rw [hnat]; exact hgroup.1),
      Yields.pure (Or.inl ⟨hne, ?_, ?_⟩)⟩
    · rwa [hnat]
    · rw [hnat]
      exact hgroup.flips

/-- A bitmap of forty bits, in two words. -/
def forty : Bitmap := bitmapCreate 40 fun _ => 0

theorem bitmapScanAndFlip_yields_forty : Yields (bitmapScanAndFlip 3 35 false) forty fun idx b' =>
    (idx ≠ bitmapError ∧ IsLeast {i | 3 ≤ i ∧ IsGroup forty 35 false i} idx.toNat ∧ Flips forty idx.toNat 35 b') ∨
      (idx = bitmapError ∧ (∀ i, 3 ≤ i → ¬IsGroup forty 35 false i) ∧ b' = forty) :=
  bitmapScanAndFlip_yields 3 35 false (by unfold Represented; decide +kernel) (by decide +kernel)

end Pintos.Kernel.BitmapScan
