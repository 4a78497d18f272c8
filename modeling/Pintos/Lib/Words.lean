import Mathlib.Tactic

/-! # Words as bytes

A word of 32 bits as four bytes, the lowest first, and back. -/

namespace Pintos.Lib.Words

/-- The bytes of a word. -/
def wordBytes (e : BitVec 32) : List UInt8 :=
  (List.range 4).map fun k => UInt8.ofBitVec (e.extractLsb' (8 * k) 8)

/-- The word whose bytes stand from `ofs` on. -/
def wordOf (f : ℕ → UInt8) (ofs : ℕ) : BitVec 32 :=
  (f (ofs + 3)).toBitVec ++ (f (ofs + 2)).toBitVec ++ (f (ofs + 1)).toBitVec ++ (f ofs).toBitVec

@[simp] theorem length_wordBytes (e : BitVec 32) : (wordBytes e).length = 4 := by simp [wordBytes]

theorem getElem?_wordBytes (e : BitVec 32) {k : ℕ} (hk : k < 4) :
    (wordBytes e)[k]? = some (UInt8.ofBitVec (e.extractLsb' (8 * k) 8)) := by
  simp [wordBytes, hk]

/-- **What is stored of a word is read back.** -/
theorem wordOf_wordBytes {f : ℕ → UInt8} {e : BitVec 32} {ofs : ℕ}
    (h : ∀ k < 4, (wordBytes e)[k]? = some (f (ofs + k))) : wordOf f ofs = e := by
  have hbyte : ∀ k < 4, f (ofs + k) = UInt8.ofBitVec (e.extractLsb' (8 * k) 8) := fun k hk =>
    Option.some.inj ((h k hk).symm.trans (getElem?_wordBytes e hk))
  have h0 := hbyte 0 (by omega)
  simp only [Nat.add_zero] at h0
  rw [wordOf, h0, hbyte 1 (by omega), hbyte 2 (by omega), hbyte 3 (by omega)]
  refine BitVec.eq_of_getLsbD_eq fun k hk => ?_
  simp only [BitVec.getLsbD_append, BitVec.getLsbD_extractLsb']
  split_ifs with h8 h16 h24
  · rw [decide_eq_true h8, Bool.true_and, show 8 * 0 + k = k by omega]
  · rw [decide_eq_true h16, Bool.true_and, show 8 * 1 + (k - 8) = k by omega]
  · rw [decide_eq_true h24, Bool.true_and, show 8 * 2 + (k - 8 - 8) = k by omega]
  · rw [decide_eq_true (by omega : k - 8 - 8 - 8 < 8), Bool.true_and,
      show 8 * 3 + (k - 8 - 8 - 8) = k by omega]

/-- Bytes that agree are the same word. -/
theorem wordOf_congr {f g : ℕ → UInt8} {a b : ℕ} (h : ∀ k < 4, f (a + k) = g (b + k)) :
    wordOf f a = wordOf g b := by
  have h0 := h 0 (by omega)
  simp only [Nat.add_zero] at h0
  rw [wordOf, wordOf, h0, h 1 (by omega), h 2 (by omega), h 3 (by omega)]

end Pintos.Lib.Words
