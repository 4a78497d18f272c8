import Pintos.Kernel.Bitmap
import Pintos.Lib.Overlay
import Pintos.Lib.Words

/-! # Bitmaps as words

A bitmap is stored in elements of 32 bits, and this is what goes into its file. The bits of the last element
behind the bitmap are whatever `malloc` found. `Bitmap.toBits` is the list of bits that the functions of
bitmap.c are about; setting bits in the words sets them in the list (`toBits_setWords`). -/

namespace Pintos.Kernel.BitmapWords

open Pintos.Kernel.Bitmap Pintos.Lib.Overlay Pintos.Lib.Words

/-- `ELEM_BITS`. -/
def elemBits : ℕ := 32

/-- `elem_type`. -/
abbrev Elem := BitVec 32

/-- `elem_idx`. -/
def elemIdx (bitIdx : ℕ) : ℕ := bitIdx / elemBits

/-- `bit_mask`. -/
def bitMask (bitIdx : ℕ) : Elem := 1#32 <<< (bitIdx % elemBits)

/-- `elem_cnt`. -/
def elemCnt (bitCnt : ℕ) : ℕ := (bitCnt + elemBits - 1) / elemBits

/-- `byte_cnt`. -/
def byteCnt (bitCnt : ℕ) : ℕ := 4 * elemCnt bitCnt

/-- `last_mask`. -/
def lastMask (bitCnt : ℕ) : Elem :=
  if bitCnt % elemBits = 0 then BitVec.allOnes 32 else (1#32 <<< (bitCnt % elemBits)) - 1#32

/-- `struct bitmap`. -/
structure Bitmap where
  bitCnt : ℕ
  bits : List Elem
  size : bits.length = elemCnt bitCnt

/-- The element of the bit `idx` is changed. -/
def Bitmap.modifyElem (b : Bitmap) (idx : ℕ) (f : Elem → Elem) : Bitmap where
  bitCnt := b.bitCnt
  bits := b.bits.modify (elemIdx idx) f
  size := by rw [List.length_modify]; exact b.size

/-- `bitmap_mark`, which does not check its index: past the elements it writes over other memory. -/
def bitmapMark (b : Bitmap) (idx : ℕ) : Option Bitmap :=
  if elemIdx idx < b.bits.length then some (b.modifyElem idx (· ||| bitMask idx)) else none

/-- `bitmap_set`, on an index inside the bitmap. -/
def Bitmap.set (b : Bitmap) (idx : ℕ) (value : Bool) : Bitmap :=
  b.modifyElem idx fun e => if value then e ||| bitMask idx else e &&& ~~~bitMask idx

/-- `bitmap_test`, on an index inside the bitmap. -/
def Bitmap.test (b : Bitmap) (idx : ℕ) : Bool :=
  (b.bits[elemIdx idx]?.getD 0) &&& bitMask idx != 0

/-- The loop of `bitmap_set_multiple`. -/
def Bitmap.setWords (b : Bitmap) (start : ℕ) (value : Bool) : ℕ → Bitmap
  | 0 => b
  | i + 1 => (b.setWords start value i).set (start + i) value

/-- What `bitmap_test` sees. Reading the bitmap goes through it. -/
def Bitmap.toBits (b : Bitmap) : Bits := (List.range b.bitCnt).map b.test

/-- `bitmap_create`, on the memory that `malloc` returns. -/
def bitmapCreate (bitCnt : ℕ) (junk : ℕ → Elem) : Bitmap :=
  Bitmap.setWords ⟨bitCnt, (List.range (elemCnt bitCnt)).map junk, by simp⟩ 0 false bitCnt

/-! ### Files -/

/-- The bytes of the words. -/
def Bitmap.bytes (b : Bitmap) : List UInt8 := b.bits.flatMap wordBytes

/-- `bitmap_write`: `file_write_at` lays as many bytes as it writes over those of the file. -/
def bitmapWrite (b : Bitmap) (file : ℕ → UInt8) (written : ℕ) : (ℕ → UInt8) × Bool :=
  (overlay file 0 (b.bytes.take written), byteCnt b.bitCnt ≤ written)

/-- The words that a file starts with. -/
def fileElems (file : ℕ → UInt8) (cnt : ℕ) : List Elem := (List.range cnt).map fun i => wordOf file (4 * i)

/-- The bits behind the bitmap are cleared. -/
def clearTail (bitCnt : ℕ) (es : List Elem) : List Elem := es.modify (elemCnt bitCnt - 1) (· &&& lastMask bitCnt)

/-- `bitmap_read` from a file that is long enough. -/
def bitmapRead (b : Bitmap) (file : ℕ → UInt8) : Bitmap where
  bitCnt := b.bitCnt
  bits := clearTail b.bitCnt (fileElems file (elemCnt b.bitCnt))
  size := by simp [clearTail, fileElems]

variable {b : Bitmap} {i j n start : ℕ} {value : Bool} {file : ℕ → UInt8}

/-! ### Single bits -/

theorem mod_elemBits_lt (i : ℕ) : i % elemBits < 32 := Nat.mod_lt _ (by decide)

theorem getLsbD_bitMask (i k : ℕ) :
    (bitMask i).getLsbD k = decide (i % elemBits = k) := by
  have h := mod_elemBits_lt i
  rw [bitMask, ← BitVec.twoPow_eq, BitVec.getLsbD_twoPow, decide_eq_true h, Bool.true_and]

/-- `bitmap_test` reads one bit of an element. -/
theorem and_bitMask (e : Elem) (i : ℕ) : (e &&& bitMask i != 0) = e.getLsbD (i % elemBits) := by
  have h := mod_elemBits_lt i
  rcases he : e.getLsbD (i % elemBits) with _ | _
  · have hz : e &&& bitMask i = 0 := by
      refine BitVec.eq_of_getLsbD_eq fun k hk => ?_
      rw [BitVec.getLsbD_and, getLsbD_bitMask]
      by_cases hik : i % elemBits = k
      · rw [← hik, he]
        simp
      · simp [hik]
    simp [hz]
  · have hne : e &&& bitMask i ≠ 0 := by
      intro hz
      have hbit : (e &&& bitMask i).getLsbD (i % elemBits) = true := by
        rw [BitVec.getLsbD_and, he, getLsbD_bitMask]
        simp
      rw [hz] at hbit
      simp at hbit
    simpa using hne

theorem elemIdx_lt (h : i < b.bitCnt) : elemIdx i < b.bits.length := by
  rw [b.size, elemIdx, elemCnt]
  unfold elemBits
  omega

theorem test_eq (b : Bitmap) (i : ℕ) : b.test i = (b.bits[elemIdx i]?.getD 0).getLsbD (i % elemBits) :=
  and_bitMask _ _

/-- **Setting one bit leaves the others alone.** -/
theorem test_set (hlt : elemIdx i < b.bits.length) : (b.set i value).test j = if j = i then value else b.test j := by
  have hj := mod_elemBits_lt j
  rw [test_eq, test_eq]
  show ((b.bits.modify (elemIdx i) _)[elemIdx j]?.getD 0).getLsbD _ = _
  rw [List.getElem?_modify]
  by_cases he : elemIdx i = elemIdx j
  · have hsome : b.bits[elemIdx j]? = some b.bits[elemIdx i] := by
      rw [← he]
      exact List.getElem?_eq_getElem hlt
    simp only [hsome, Option.map_eq_map, Option.map_some, if_pos he, Option.getD_some]
    have hsame : i % elemBits = j % elemBits ↔ j = i := by
      unfold elemIdx elemBits at *
      omega
    have hd : decide (i % elemBits = j % elemBits) = decide (j = i) := decide_eq_decide.mpr hsame
    cases value with
    | false =>
      show (_ &&& ~~~bitMask i : Elem).getLsbD _ = _
      rw [BitVec.getLsbD_and, BitVec.getLsbD_not, getLsbD_bitMask, decide_eq_true hj, hd]
      by_cases hji : j = i <;> simp [hji]
    | true =>
      show (_ ||| bitMask i : Elem).getLsbD _ = _
      rw [BitVec.getLsbD_or, getLsbD_bitMask, hd]
      by_cases hji : j = i <;> simp [hji]
  · have hne : j ≠ i := fun hji => he (hji ▸ rfl)
    rw [if_neg hne]
    rcases b.bits[elemIdx j]? with _ | e <;> simp [he]

/-! ### The list of bits -/

@[simp] theorem length_toBits : b.toBits.length = b.bitCnt := by simp [Bitmap.toBits]

theorem getElem?_toBits (h : i < b.bitCnt) : b.toBits[i]? = some (b.test i) := by
  simp [Bitmap.toBits, h]

@[simp] theorem bitCnt_setWords : (b.setWords start value n).bitCnt = b.bitCnt := by
  induction n with
  | zero => rfl
  | succ n ih => exact ih

/-- **Setting a group leaves the other bits alone.** -/
theorem test_setWords (h : start + n ≤ b.bitCnt) :
    (b.setWords start value n).test j = if start ≤ j ∧ j < start + n then value else b.test j := by
  induction n with
  | zero => rw [if_neg (by omega)]; rfl
  | succ n ih =>
    have hin : start + n < (b.setWords start value n).bitCnt := by rw [bitCnt_setWords]; omega
    rw [Bitmap.setWords, test_set (elemIdx_lt hin)]
    by_cases he : j = start + n
    · rw [if_pos he, if_pos (by omega)]
    · rw [if_neg he, ih (by omega)]
      exact if_congr (by omega) rfl rfl

/-- **The words follow the bits.** -/
theorem toBits_setWords (h : start + n ≤ b.bitCnt) :
    (b.setWords start value n).toBits = setBits b.toBits start value n := by
  refine List.ext_getElem? fun j => ?_
  rw [getElem?_setBits (by rw [length_toBits]; exact h)]
  rcases Nat.lt_or_ge j b.bitCnt with hj | hj
  · rw [getElem?_toBits (by rw [bitCnt_setWords]; exact hj), getElem?_toBits hj, test_setWords h]
    split_ifs <;> rfl
  · rw [List.getElem?_eq_none (by rw [length_toBits, bitCnt_setWords]; exact hj),
      List.getElem?_eq_none (by rw [length_toBits]; exact hj), if_neg (by omega)]

theorem toBits_bitmapCreate (bitCnt : ℕ) (junk : ℕ → Elem) :
    (bitmapCreate bitCnt junk).toBits = List.replicate bitCnt false := by
  have hlen : 0 + bitCnt ≤ (⟨bitCnt, (List.range (elemCnt bitCnt)).map junk, by simp⟩ : Bitmap).bitCnt :=
    (Nat.zero_add bitCnt).le
  refine List.ext_getElem? fun j => ?_
  rw [bitmapCreate, toBits_setWords hlen, getElem?_setBits (by rw [length_toBits]; exact hlen),
    List.getElem?_replicate]
  rcases Nat.lt_or_ge j bitCnt with hj | hj
  · rw [if_pos (by omega), if_pos hj]
  · rw [if_neg (by omega), if_neg (by omega), List.getElem?_eq_none (by rw [length_toBits]; exact hj)]

theorem bitmapMark_eq_some {c : Bitmap} (h : bitmapMark b i = some c) :
    elemIdx i < b.bits.length ∧ c = b.set i true := by
  unfold bitmapMark at h
  split_ifs at h with hlt
  exact ⟨hlt, (Option.some.inj h).symm⟩

/-! ### What is read back -/

@[simp] theorem length_bytes : b.bytes.length = byteCnt b.bitCnt := by
  rw [Bitmap.bytes, List.length_flatMap, byteCnt, ← b.size]
  simp [Nat.mul_comm]

theorem getElem?_flatMap_wordBytes : ∀ (es : List Elem) {i k : ℕ}, k < 4 →
    (es.flatMap wordBytes)[4 * i + k]? = es[i]?.bind fun e => (wordBytes e)[k]?
  | [], i, k, _ => by simp
  | e :: es, 0, k, hk => by
    have hlen := length_wordBytes e
    rw [List.flatMap_cons, List.getElem?_append_left (by omega), Nat.mul_zero, Nat.zero_add]
    rfl
  | e :: es, i + 1, k, hk => by
    have hlen := length_wordBytes e
    rw [List.flatMap_cons, List.getElem?_append_right (by omega), hlen,
      show 4 * (i + 1) + k - 4 = 4 * i + k by omega, getElem?_flatMap_wordBytes es hk,
      List.getElem?_cons_succ]

/-- A file that can be written. -/
theorem bitmapWrite_eq (h : byteCnt b.bitCnt ≤ n) :
    bitmapWrite b file n = (overlay file 0 b.bytes, true) := by
  rw [bitmapWrite, List.take_of_length_le (by rw [length_bytes]; exact h), decide_eq_true h]

/-- The file starts with the words. -/
theorem slice_overlay_bytes (b : Bitmap) (file : ℕ → UInt8) :
    slice (overlay file 0 b.bytes) 0 (byteCnt b.bitCnt) = b.bytes := by
  rw [← length_bytes]
  exact slice_overlay file 0 b.bytes

/-- **The words that are written are the words that are read.** -/
theorem fileElems_of_slice (h : slice file 0 (byteCnt b.bitCnt) = b.bytes) :
    fileElems file (elemCnt b.bitCnt) = b.bits := by
  refine List.ext_getElem (by simp [fileElems, b.size]) fun i h1 h2 => ?_
  simp only [fileElems, List.getElem_map, List.getElem_range]
  refine wordOf_wordBytes fun k hk => ?_
  have hin : 4 * i + k < byteCnt b.bitCnt := by
    rw [byteCnt, ← b.size]
    omega
  have hbyte : b.bytes[4 * i + k]? = _ := getElem?_flatMap_wordBytes b.bits hk
  rw [List.getElem?_eq_getElem h2, Option.bind_some] at hbyte
  have hfile : (slice file 0 (byteCnt b.bitCnt))[4 * i + k]? = some (file (0 + (4 * i + k))) :=
    getElem?_slice hin
  rw [h, hbyte, Nat.zero_add] at hfile
  exact hfile

/-! ### The bits behind the bitmap -/

theorem getLsbD_lastMask {k : ℕ} (hk : k < 32) (h : n % elemBits = 0 ∨ k < n % elemBits) :
    (lastMask n).getLsbD k = true := by
  unfold lastMask
  split_ifs with h0
  · rw [BitVec.getLsbD_allOnes]
    exact decide_eq_true hk
  · have hm := mod_elemBits_lt n
    have hpow : 2 ^ (n % elemBits) < 2 ^ 32 := Nat.pow_lt_pow_right (by omega) hm
    have hpos : 0 < 2 ^ (n % elemBits) := Nat.two_pow_pos _
    have hnat : ((1#32 <<< (n % elemBits)) - 1#32).toNat = 2 ^ (n % elemBits) - 1 := by
      rw [BitVec.toNat_sub, BitVec.toNat_shiftLeft, BitVec.toNat_ofNat, Nat.shiftLeft_eq]
      norm_num
      omega
    rw [← BitVec.testBit_toNat, hnat, Nat.testBit_two_pow_sub_one]
    exact decide_eq_true (h.resolve_left h0)

theorem clearTail_clearTail (bitCnt : ℕ) (es : List Elem) :
    clearTail bitCnt (clearTail bitCnt es) = clearTail bitCnt es := by
  refine List.ext_getElem? fun i => ?_
  simp only [clearTail, List.getElem?_modify]
  rcases es[i]? with _ | e
  · rfl
  · by_cases hi : elemCnt bitCnt - 1 = i <;> simp [hi, BitVec.and_assoc]

/-- **Only the bits behind the bitmap are cleared.** -/
theorem toBits_bitmapRead {c : Bitmap} (hcnt : c.bitCnt = b.bitCnt)
    (h : clearTail b.bitCnt (fileElems file (elemCnt b.bitCnt)) = clearTail b.bitCnt b.bits) :
    (bitmapRead c file).toBits = b.toBits := by
  have hcnt' : (bitmapRead c file).bitCnt = b.bitCnt := hcnt
  refine List.ext_getElem (by rw [length_toBits, length_toBits, hcnt']) fun i h1 h2 => ?_
  rw [length_toBits] at h2
  simp only [Bitmap.toBits, List.getElem_map, List.getElem_range, test_eq]
  have hbits : (bitmapRead c file).bits = clearTail b.bitCnt b.bits := by
    rw [← h, ← hcnt]
    rfl
  have hlt := elemIdx_lt h2
  have hk := mod_elemBits_lt i
  rw [hbits, clearTail, List.getElem?_modify, List.getElem?_eq_getElem hlt]
  simp only [Option.map_eq_map, Option.map_some, Option.getD_some]
  split_ifs with hi
  · have hlast : b.bitCnt % elemBits = 0 ∨ i % elemBits < b.bitCnt % elemBits := by
      unfold elemIdx elemCnt elemBits at *
      omega
    rw [BitVec.getLsbD_and, getLsbD_lastMask hk hlast, Bool.and_true]
  · rfl

end Pintos.Kernel.BitmapWords
