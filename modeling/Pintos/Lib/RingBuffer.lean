import Mathlib.Tactic

/-! # Circular buffers

A queue in `N` cells: the elements lie from `tail` up to `head`, around the end of the buffer, and one cell always
stays free, so that a full queue is not taken for an empty one. This file names nothing of the kernel. -/

namespace Pintos.Lib.RingBuffer

/-- The position after `pos`. -/
def next (N pos : ℕ) : ℕ := (pos + 1) % N

theorem next_lt {N pos : ℕ} (h : pos < N) : next N pos < N := Nat.mod_lt _ (Nat.zero_lt_of_lt h)

theorem next_eq {N pos : ℕ} (h : pos < N) : next N pos = if pos + 1 = N then 0 else pos + 1 := by
  unfold next
  split_ifs with hlast
  · rw [hlast, Nat.mod_self]
  · exact Nat.mod_eq_of_lt (by omega)

structure Ring (N : ℕ) (α : Type*) where
  buf : ℕ → α
  head : ℕ
  tail : ℕ
  head_lt : head < N
  tail_lt : tail < N

namespace Ring

variable {N : ℕ} {α : Type*}

/-- The positions are the same: there is nothing in it. -/
def isEmpty (r : Ring N α) : Bool := r.head == r.tail

/-- There is room for no more. -/
def isFull (r : Ring N α) : Bool := next N r.head == r.tail

/-- A new element at the head. -/
def push (r : Ring N α) (a : α) : Ring N α :=
  { r with buf := Function.update r.buf r.head a, head := next N r.head, head_lt := next_lt r.head_lt }

/-- The element at the tail. -/
def front (r : Ring N α) : α := r.buf r.tail

/-- The element at the tail is taken away. -/
def pop (r : Ring N α) : Ring N α := { r with tail := next N r.tail, tail_lt := next_lt r.tail_lt }

def count (r : Ring N α) : ℕ := if r.tail ≤ r.head then r.head - r.tail else r.head + N - r.tail

/-- The elements, the oldest first. -/
def contents (r : Ring N α) : List α := (List.range r.count).map fun i => r.buf ((r.tail + i) % N)

variable (r : Ring N α)

theorem length_contents : r.contents.length = r.count := by rw [contents, List.length_map, List.length_range]

theorem isEmpty_iff : r.isEmpty ↔ r.head = r.tail := beq_iff_eq

theorem isFull_iff : r.isFull ↔ next N r.head = r.tail := beq_iff_eq

theorem count_lt : r.count < N := by
  have hhead := r.head_lt
  have htail := r.tail_lt
  unfold count
  split_ifs <;> omega

theorem isEmpty_iff_count : r.isEmpty ↔ r.count = 0 := by
  have hhead := r.head_lt
  have htail := r.tail_lt
  rw [isEmpty_iff, count]
  split_ifs <;> omega

theorem isFull_iff_count : r.isFull ↔ r.count + 1 = N := by
  have hhead := r.head_lt
  have htail := r.tail_lt
  rw [isFull_iff, next_eq hhead, count]
  split_ifs <;> omega

theorem contents_of_isEmpty (h : r.isEmpty) : r.contents = [] := by
  rw [contents, r.isEmpty_iff_count.mp h, List.range_zero, List.map_nil]

/-! ### Elements come and go -/

theorem count_push (a : α) (h : ¬r.isFull) : (r.push a).count = r.count + 1 := by
  have hhead := r.head_lt
  have htail := r.tail_lt
  rw [isFull_iff, next_eq hhead] at h
  simp only [count, push, next_eq hhead]
  split_ifs at h ⊢ <;> omega

theorem count_pop (h : ¬r.isEmpty) : r.pop.count + 1 = r.count := by
  have hhead := r.head_lt
  have htail := r.tail_lt
  rw [isEmpty_iff] at h
  simp only [count, pop, next_eq htail]
  split_ifs <;> omega

theorem not_isEmpty_push (a : α) (h : ¬r.isFull) : ¬(r.push a).isEmpty := by
  rw [isEmpty_iff_count, count_push r a h]
  exact Nat.succ_ne_zero r.count

theorem not_isFull_pop (h : ¬r.isEmpty) : ¬r.pop.isFull := by
  have hlt := r.count_lt
  have hpop := r.count_pop h
  rw [isFull_iff_count]
  omega

/-- The cell behind the last element. -/
theorem head_eq : r.head = (r.tail + r.count) % N := by
  have hhead := r.head_lt
  have htail := r.tail_lt
  unfold count
  split_ifs with hle
  · rw [Nat.add_sub_cancel' hle, Nat.mod_eq_of_lt hhead]
  · rw [show r.tail + (r.head + N - r.tail) = r.head + N by omega, Nat.add_mod_right, Nat.mod_eq_of_lt hhead]

/-- The cell behind the last element holds no element. -/
theorem index_ne {i : ℕ} (hi : i < r.count) : (r.tail + i) % N ≠ r.head := by
  have hlt := r.count_lt
  have htail := r.tail_lt
  have hhead := r.head_lt
  unfold count at hi hlt
  rcases Nat.lt_or_ge (r.tail + i) N with hin | hout
  · rw [Nat.mod_eq_of_lt hin]
    split_ifs at hi <;> omega
  · rw [Nat.mod_eq_sub_mod hout, Nat.mod_eq_of_lt (by omega)]
    split_ifs at hi <;> omega

/-- **A new element is the last one.** -/
theorem contents_push (a : α) (h : ¬r.isFull) : (r.push a).contents = r.contents ++ [a] := by
  rw [contents, count_push r a h, List.range_succ, List.map_append, List.map_singleton]
  have hlast : (r.push a).buf ((r.tail + r.count) % N) = a := by
    rw [← head_eq]
    exact Function.update_self ..
  have hold : (List.range r.count).map (fun i => (r.push a).buf ((r.tail + i) % N)) = r.contents :=
    List.map_congr_left fun i hi => Function.update_of_ne (r.index_ne (List.mem_range.mp hi)) ..
  exact congrArg₂ (fun l b => l ++ [b]) hold hlast

/-- **The oldest element goes first.** -/
theorem contents_pop (h : ¬r.isEmpty) : r.contents = r.front :: r.pop.contents := by
  rw [contents, ← r.count_pop h, List.range_succ_eq_map, List.map_cons, List.map_map, Nat.add_zero,
    Nat.mod_eq_of_lt r.tail_lt, contents]
  refine congrArg _ (List.map_congr_left fun i _ => congrArg r.buf ?_)
  show (r.tail + (i + 1)) % N = ((r.tail + 1) % N + i) % N
  rw [Nat.mod_add_mod, Nat.add_assoc, Nat.add_comm 1 i]

end Ring

end Pintos.Lib.RingBuffer
