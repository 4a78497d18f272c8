import Pintos.Lib.Overlay

/-! # Files as lists

A file is the list of its bytes. It is read, overwritten inside, and extended; a write past the end extends the
file first. The same in terms of slices and overlays, for files that are kept as functions. -/

namespace Pintos.Lib.ListFile

open Pintos.Lib.Overlay

variable {β : Type*} {f : List β} {g : ℕ → β} {b : List β} {ofs n p : ℕ}

def fileRead (f : List β) (n ofs : ℕ) : List β := (f.drop ofs).take n

/-- `b` is laid over `f` from `ofs` on, as far as `f` goes. -/
def overwrite (f : List β) (ofs : ℕ) (b : List β) : List β :=
  f.take ofs ++ (b.take (f.length - ofs) ++ f.drop (ofs + b.length))

def extendTo (z : β) (f : List β) (n : ℕ) : List β := f ++ List.replicate (n - f.length) z

/-- A write past the end fills the gap with `z`. -/
def fileWrite (z : β) (f : List β) (ofs : ℕ) (b : List β) : List β :=
  overwrite (extendTo z f (ofs + b.length)) ofs b

/-- The function `g` holds the file `f`. -/
def Holds (g : ℕ → β) (f : List β) : Prop := f = slice g 0 f.length

theorem length_extendTo (z : β) (f : List β) (n : ℕ) : (extendTo z f n).length = max f.length n := by
  unfold extendTo
  rw [List.length_append, List.length_replicate]
  omega

theorem length_overwrite (f : List β) (ofs : ℕ) (b : List β) : (overwrite f ofs b).length = f.length := by
  unfold overwrite
  simp only [List.length_append, List.length_take, List.length_drop]
  omega

theorem length_fileWrite (z : β) (f : List β) (ofs : ℕ) (b : List β) :
    (fileWrite z f ofs b).length = max f.length (ofs + b.length) := by
  rw [fileWrite, length_overwrite, length_extendTo]

theorem overwrite_take (f : List β) (ofs : ℕ) (b : List β) :
    overwrite f ofs (b.take (f.length - ofs)) = overwrite f ofs b := by
  unfold overwrite
  rw [List.take_take, Nat.min_self, List.length_take]
  rcases Nat.lt_or_ge (f.length - ofs) b.length with h | h
  · rw [Nat.min_eq_left h.le, List.drop_eq_nil_of_le (by omega), List.drop_eq_nil_of_le (by omega)]
  · rw [Nat.min_eq_right h]

theorem extendTo_of_le (z : β) (h : n ≤ f.length) : extendTo z f n = f := by
  unfold extendTo
  rw [Nat.sub_eq_zero_of_le h, List.replicate_zero, List.append_nil]

namespace Holds

theorem slice (g : ℕ → β) (n : ℕ) : Holds g (slice g 0 n) := by
  unfold Holds
  rw [length_slice]

theorem getElem? (h : Holds g f) (hp : p < f.length) : f[p]? = some (g p) := by
  rw [h, getElem?_slice hp, Nat.zero_add]

/-- A file is held as soon as each of its bytes is. -/
theorem of_getElem? (h : ∀ p < f.length, f[p]? = some (g p)) : Holds g f := by
  refine List.ext_getElem? fun p => ?_
  rcases Nat.lt_or_ge p f.length with hp | hp
  · rw [h p hp, getElem?_slice hp, Nat.zero_add]
  · rw [List.getElem?_eq_none hp, List.getElem?_eq_none (by rw [length_slice]; exact hp)]

theorem read_eq (h : Holds g f) : fileRead f n ofs = Overlay.slice g ofs (min n (f.length - ofs)) := by
  refine List.ext_getElem? fun i => ?_
  unfold fileRead
  rcases Nat.lt_or_ge i (min n (f.length - ofs)) with hi | hi
  · rw [getElem?_slice hi, List.getElem?_take_of_lt (by omega), List.getElem?_drop, h.getElem? (by omega)]
  · have htake : ((f.drop ofs).take n).length = min n (f.length - ofs) := by
      rw [List.length_take, List.length_drop]
    rw [List.getElem?_eq_none (by rw [htake]; exact hi), List.getElem?_eq_none (by rw [length_slice]; exact hi)]

theorem overwrite (h : Holds g f) : Holds (overlay g ofs b) (overwrite f ofs b) := by
  refine of_getElem? fun p hp => ?_
  rw [length_overwrite] at hp
  have htake : (f.take ofs).length = min ofs f.length := List.length_take
  unfold ListFile.overwrite
  rcases Nat.lt_or_ge p ofs with h1 | h1
  · rw [List.getElem?_append_left (by omega), List.getElem?_take_of_lt h1, h.getElem? hp, overlay_of_lt _ h1]
  rw [List.getElem?_append_right (by omega), htake, Nat.min_eq_left (by omega)]
  rcases Nat.lt_or_ge (p - ofs) b.length with h2 | h2
  · rw [List.getElem?_append_left (by rw [List.length_take]; omega), List.getElem?_take_of_lt (by omega),
      overlay_of_mem h1 h2, List.getElem?_eq_getElem h2]
  · have hb : (b.take (f.length - ofs)).length = b.length := by
      rw [List.length_take]
      omega
    rw [List.getElem?_append_right (by omega), hb, List.getElem?_drop,
      overlay_of_le (by omega : ofs + b.length ≤ p)]
    rw [show ofs + b.length + (p - ofs - b.length) = p by omega, h.getElem? hp]

/-- An extended file is held where the old file is and the rest is `z`. -/
theorem extendTo {z : β} (h : Holds g f) (hz : ∀ p, f.length ≤ p → p < n → g p = z) :
    Holds g (extendTo z f n) := by
  refine of_getElem? fun p hp => ?_
  rw [length_extendTo] at hp
  unfold ListFile.extendTo
  rcases Nat.lt_or_ge p f.length with h1 | h1
  · rw [List.getElem?_append_left h1, h.getElem? h1]
  · rw [List.getElem?_append_right h1, List.getElem?_replicate, if_pos (by omega), hz p h1 (by omega)]

theorem congr {g' : ℕ → β} (h : Holds g f) (hg : ∀ p < f.length, g' p = g p) : Holds g' f :=
  of_getElem? fun p hp => by rw [h.getElem? hp, hg p hp]

/-- The file that a function holds, by its length. -/
theorem eq_slice (h : Holds g f) (hn : f.length = n) : f = Overlay.slice g 0 n := hn ▸ h

end Holds

/-- What lies before the end of a write that fits. -/
theorem take_overwrite {f b : List β} {ofs : ℕ} (h : ofs + b.length ≤ f.length) :
    (overwrite f ofs b).take (ofs + b.length) = f.take ofs ++ b := by
  have hlen : (f.take ofs ++ b).length = ofs + b.length := by
    rw [List.length_append, List.length_take]
    omega
  rw [overwrite, List.take_of_length_le (by omega : b.length ≤ f.length - ofs), ← List.append_assoc, ← hlen,
    List.take_left]

/-! ### Reading what was written -/

/-- Where the bytes all fit. -/
theorem read_overwrite (h : ofs + b.length ≤ f.length) : fileRead (overwrite f ofs b) b.length ofs = b := by
  have htake : (f.take ofs).length = ofs := List.length_take_of_le (by omega)
  unfold fileRead overwrite
  rw [List.drop_append_of_le_length htake.ge, List.drop_eq_nil_of_le htake.le, List.nil_append,
    List.take_of_length_le (by omega : b.length ≤ f.length - ofs), List.take_left]

/-- **What was written is read.** -/
theorem read_write (z : β) (f : List β) (ofs : ℕ) (b : List β) :
    fileRead (fileWrite z f ofs b) b.length ofs = b :=
  read_overwrite (by rw [length_extendTo]; exact Nat.le_max_right _ _)

end Pintos.Lib.ListFile
