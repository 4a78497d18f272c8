import Pintos.Lib.Overlay
import Pintos.Lib.Words

/-! # A memory of bytes

A memory by address, with the addresses that have been stored to, and the null-terminated strings in it. A
string or a word that is not stored to stays what it is. -/

namespace Pintos.Lib.ByteMemory

open Pintos.Lib.Overlay Pintos.Lib.Words

/-- The bytes, and the addresses of the stores so far. -/
structure Memory where
  byte : ℕ → UInt8
  written : List ℕ

/-- Stores the bytes from `addr` on. -/
def Memory.store (m : Memory) (addr : ℕ) (bytes : List UInt8) : Memory :=
  ⟨overlay m.byte addr bytes, m.written ++ List.range' addr bytes.length⟩

/-- Stores a word, the lowest byte first. -/
def Memory.storeWord (m : Memory) (addr : ℕ) (word : BitVec 32) : Memory := m.store addr (wordBytes word)

variable {m : Memory} {addr a : ℕ} {bytes : List UInt8} {word : BitVec 32}

theorem byte_store_of_out (h : a < addr ∨ addr + bytes.length ≤ a) : (m.store addr bytes).byte a = m.byte a := by
  show overlay m.byte addr bytes a = m.byte a
  unfold overlay
  split_ifs with hle
  · rw [List.getElem?_eq_none (by omega)]
    rfl
  · rfl

theorem byte_store_of_in {i : ℕ} (h : i < bytes.length) : (m.store addr bytes).byte (addr + i) = bytes[i] := by
  show overlay m.byte addr bytes (addr + i) = bytes[i]
  unfold overlay
  rw [if_pos (by omega), Nat.add_sub_cancel_left, List.getElem?_eq_getElem h]
  rfl

theorem mem_written_store : a ∈ (m.store addr bytes).written ↔
    a ∈ m.written ∨ addr ≤ a ∧ a < addr + bytes.length := by
  show a ∈ m.written ++ List.range' addr bytes.length ↔ _
  rw [List.mem_append, List.mem_range'_1]

theorem byte_storeWord_of_out (h : a < addr ∨ addr + 4 ≤ a) : (m.storeWord addr word).byte a = m.byte a :=
  byte_store_of_out (by rwa [length_wordBytes])

theorem mem_written_storeWord : a ∈ (m.storeWord addr word).written ↔
    a ∈ m.written ∨ addr ≤ a ∧ a < addr + 4 := by
  rw [← length_wordBytes word]
  exact mem_written_store

/-- **What is stored of a word is read back.** -/
theorem wordOf_storeWord : wordOf (m.storeWord addr word).byte addr = word := by
  refine wordOf_wordBytes fun k hk => ?_
  have hlen : k < (wordBytes word).length := by rwa [length_wordBytes]
  rw [List.getElem?_eq_getElem hlen]
  exact congrArg some (byte_store_of_in hlen).symm

theorem wordOf_storeWord_of_out {b : ℕ} (h : b + 4 ≤ addr ∨ addr + 4 ≤ b) :
    wordOf (m.storeWord addr word).byte b = wordOf m.byte b :=
  wordOf_congr fun k hk => byte_storeWord_of_out (by omega)

/-! ### Strings -/

/-- The null-terminated string at `s`. -/
def IsStr (byte : ℕ → UInt8) : (s : ℕ) → List UInt8 → Prop
  | s, [] => byte s = 0
  | s, c :: str => byte s = c ∧ c ≠ 0 ∧ IsStr byte (s + 1) str

variable {byte byte' : ℕ → UInt8}

theorem IsStr.ne_zero : ∀ {s : ℕ} {str : List UInt8}, IsStr byte s str → 0 ∉ str
  | _, [], _ => List.not_mem_nil
  | _, c :: _, h => fun hm => by
    rcases List.mem_cons.mp hm with h0 | h0
    · exact h.2.1 h0.symm
    · exact h.2.2.ne_zero h0

/-- The characters of a string. -/
theorem IsStr.char_ne_zero : ∀ {s : ℕ} {str : List UInt8}, IsStr byte s str → ∀ k, s ≤ k → k < s + str.length →
    byte k ≠ 0
  | s, [], _, k, h1, h2 => absurd h1 (not_le.mpr h2)
  | s, c :: str, h, k, h1, h2 => by
    rw [List.length_cons] at h2
    rcases h1.eq_or_lt with rfl | h1
    · rw [h.1]
      exact h.2.1
    · exact h.2.2.char_ne_zero k h1 (by omega)

/-- **The frame of a string.** -/
theorem IsStr.congr : ∀ {s : ℕ} {str : List UInt8}, IsStr byte s str →
    (∀ a, s ≤ a → a ≤ s + str.length → byte' a = byte a) → IsStr byte' s str
  | s, [], h, hb => (hb s le_rfl (by simp)).trans h
  | s, c :: str, h, hb => by
    rw [List.length_cons] at hb
    exact ⟨(hb s le_rfl (by omega)).trans h.1, h.2.1,
      h.2.2.congr fun a h1 h2 => hb a (by omega) (by omega)⟩

/-- A string is cut by a null byte in it. -/
theorem IsStr.cut : ∀ {s : ℕ} {str rest : List UInt8}, IsStr byte s (str ++ rest) →
    (∀ a, s ≤ a → a < s + str.length → byte' a = byte a) → byte' (s + str.length) = 0 → IsStr byte' s str
  | _, [], _, _, _, h0 => h0
  | s, c :: str, rest, h, hb, h0 => by
    rw [List.length_cons] at hb h0
    have h0' : byte' (s + 1 + str.length) = 0 := by
      rw [← h0]
      congr 1
      omega
    exact ⟨(hb s le_rfl (by omega)).trans h.1, h.2.1,
      h.2.2.cut (fun a h1 h2 => hb a (by omega) (by omega)) h0'⟩

theorem IsStr.drop : ∀ {s : ℕ} {str rest : List UInt8}, IsStr byte s (str ++ rest) → IsStr byte (s + str.length) rest
  | _, [], _, h => h
  | s, c :: str, rest, h => by
    have hr := h.2.2.drop
    rwa [show s + 1 + str.length = s + (c :: str).length by rw [List.length_cons]; omega] at hr

/-- The terminator of a string. -/
theorem IsStr.null {s : ℕ} {str : List UInt8} (h : IsStr byte s str) : byte (s + str.length) = 0 :=
  have h' : IsStr byte s (str ++ []) := by rwa [List.append_nil]
  h'.drop

/-- A string as it is stored. -/
theorem isStr_store : ∀ {str : List UInt8} {s : ℕ}, 0 ∉ str →
    (∀ i, i ≤ str.length → byte (s + i) = (str ++ [0])[i]?.getD 0) →
    IsStr byte s str
  | [], s, _, h => h 0 le_rfl
  | c :: str, s, h0, h => by
    refine ⟨h 0 (Nat.zero_le _), fun hc => h0 (hc ▸ List.mem_cons_self), ?_⟩
    refine isStr_store (fun hm => h0 (List.mem_cons_of_mem c hm)) fun i hi => ?_
    have := h (i + 1) (by rw [List.length_cons]; omega)
    rwa [show s + (i + 1) = s + 1 + i by omega, List.cons_append, List.getElem?_cons_succ] at this

end Pintos.Lib.ByteMemory
