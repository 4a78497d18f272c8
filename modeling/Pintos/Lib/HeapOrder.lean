import Mathlib.Tactic
import Mathlib.Logic.Equiv.Basic

/-! # Heaps

An array read as a binary tree: the elements have the indices `1`, `2`, and so on, and the parent of `j`
is `j / 2`. `Heap lo n v` says that among the first `n` elements none is above its parent, for the parents
from `lo` on; `HeapExcept` leaves out the children of one element, which is what an element that floats
down keeps. The second half is about the array as it is sorted: a heap, then the greatest elements in
order. -/

namespace Pintos.Lib.HeapOrder

variable {α : Type} (le : α → α → Prop)

/-- No child is above its parent. -/
def Heap (lo n : ℕ) (v : ℕ → α) : Prop := ∀ j, 2 ≤ j → j ≤ n → lo ≤ j / 2 → le (v j) (v (j / 2))

/-- A heap but for the children of `i`, which are not above the parent of `i`. -/
structure HeapExcept (lo n i : ℕ) (v : ℕ → α) : Prop where
  edges : ∀ j, 2 ≤ j → j ≤ n → lo ≤ j / 2 → j / 2 ≠ i → le (v j) (v (j / 2))
  around : ∀ j, 2 ≤ j → j ≤ n → j / 2 = i → 2 ≤ i → lo ≤ i / 2 → le (v j) (v (i / 2))

variable {le} {lo n i c : ℕ} {v w u : ℕ → α}

theorem HeapExcept.heap (h : HeapExcept le lo n i v) (hmax : ∀ j, 2 ≤ j → j ≤ n → j / 2 = i → le (v j) (v i)) :
    Heap le lo n v := by
  intro j hj hjn hlo
  by_cases hji : j / 2 = i
  · rw [hji]
    exact hmax j hj hjn hji
  · exact h.edges j hj hjn hlo hji

/-- **The element floats down** to the place of its greatest child `c`. -/
theorem HeapExcept.down (h : HeapExcept le lo n i v) (hlo : 1 ≤ lo) (hi : lo ≤ i) (hc : c / 2 = i) (hcn : c ≤ n)
    (hic : le (v i) (v c)) (hmax : ∀ j, 2 ≤ j → j ≤ n → j / 2 = i → le (v j) (v c)) :
    HeapExcept le lo n c (v ∘ Equiv.swap i c) := by
  have hic' : i < c := by omega
  have hold : ∀ k, k ≠ i → k ≠ c → (v ∘ Equiv.swap i c) k = v k := fun k h1 h2 => by
    rw [Function.comp_apply, Equiv.swap_apply_of_ne_of_ne h1 h2]
  have hati : (v ∘ Equiv.swap i c) i = v c := by rw [Function.comp_apply, Equiv.swap_apply_left]
  have hatc : (v ∘ Equiv.swap i c) c = v i := by rw [Function.comp_apply, Equiv.swap_apply_right]
  refine ⟨fun j hj hjn hlj hjc => ?_, fun j hj hjn hjc _ _ => ?_⟩
  · by_cases hji : j / 2 = i
    · rw [hji, hati]
      by_cases hj' : j = c
      · rwa [hj', hatc]
      · rw [hold j (by omega) hj']
        exact hmax j hj hjn hji
    · rw [hold (j / 2) hji hjc]
      by_cases hj' : j = i
      · rw [hj', hati]
        exact h.around c (by omega) hcn hc (by omega) (by omega)
      · rw [hold j hj' (by omega)]
        exact h.edges j hj hjn hlj hji
  · rw [hold j (by omega) (by omega), hc, hati, ← hjc]
    exact h.edges j hj hjn (by omega) (by omega)

/-- The first element of a heap is not below another one. -/
theorem Heap.le_first (h : Heap le 1 n v) (hrefl : ∀ a, le a a) (htrans : ∀ a b c, le a b → le b c → le a c) :
    ∀ j, 1 ≤ j → j ≤ n → le (v j) (v 1) := by
  intro j
  induction j using Nat.strong_induction_on with
  | _ j ih =>
    intro hj hjn
    rcases hj.eq_or_lt with rfl | hj
    · exact hrefl _
    · exact htrans _ _ _ (h j hj hjn (by omega)) (ih (j / 2) (by omega) (by omega) (by omega))

/-! ### Rearrangements -/

/-- The first `n` elements in another order, and the rest as it was. -/
def Rearranged (n : ℕ) (v w : ℕ → α) : Prop := ∃ f : Equiv.Perm ℕ, (∀ k, k = 0 ∨ n < k → f k = k) ∧ w = v ∘ f

namespace Rearranged

theorem refl : Rearranged n v v := ⟨Equiv.refl _, fun _ _ => rfl, rfl⟩

theorem trans (h : Rearranged n v w) (h' : Rearranged n w u) : Rearranged n v u := by
  obtain ⟨f, hf, rfl⟩ := h
  obtain ⟨g, hg, rfl⟩ := h'
  exact ⟨g.trans f, fun k hk => by rw [Equiv.trans_apply, hg k hk, hf k hk], rfl⟩

theorem mono {n' : ℕ} (h : Rearranged n v w) (hn : n ≤ n') : Rearranged n' v w := by
  obtain ⟨f, hf, rfl⟩ := h
  exact ⟨f, fun k hk => hf k (by omega), rfl⟩

theorem swap (hi : 1 ≤ i) (hin : i ≤ n) (hc : 1 ≤ c) (hcn : c ≤ n) : Rearranged n v (v ∘ Equiv.swap i c) :=
  ⟨Equiv.swap i c, fun k hk => Equiv.swap_apply_of_ne_of_ne (by omega) (by omega), rfl⟩

theorem apply_of_out (h : Rearranged n v w) {k : ℕ} (hk : k = 0 ∨ n < k) : w k = v k := by
  obtain ⟨f, hf, rfl⟩ := h
  rw [Function.comp_apply, hf k hk]

/-- What holds of the first `n` elements. -/
theorem all {p : α → Prop} (h : Rearranged n v w) (hp : ∀ k, 1 ≤ k → k ≤ n → p (v k)) :
    ∀ k, 1 ≤ k → k ≤ n → p (w k) := by
  obtain ⟨f, hf, rfl⟩ := h
  intro k hk hkn
  have hin : ¬(f k = 0 ∨ n < f k) := fun hout => by
    have hfix := f.injective (hf _ hout)
    omega
  exact hp (f k) (by omega) (by omega)

/-- The elements are the same. -/
theorem perm (h : Rearranged n v w) : ((List.range' 1 n).map w).Perm ((List.range' 1 n).map v) := by
  obtain ⟨f, hf, rfl⟩ := h
  rw [← List.map_map]
  refine List.Perm.map v ((List.perm_ext_iff_of_nodup ((List.nodup_range').map f.injective)
    List.nodup_range').mpr fun k => ?_)
  rw [List.mem_map]
  constructor
  · rintro ⟨a, ha, rfl⟩
    rw [List.mem_range'_1] at ha ⊢
    by_contra hout
    have hfix := f.injective (hf (f a) (by omega))
    omega
  · intro hk
    refine ⟨f.symm k, ?_, f.apply_symm_apply k⟩
    rw [List.mem_range'_1] at hk ⊢
    by_contra hout
    have hfix := hf (f.symm k) (by omega)
    rw [f.apply_symm_apply] at hfix
    omega

end Rearranged

/-! ### Taking the greatest -/

/-- The first `i` elements are a heap, the others are in order and none is below one of the heap. -/
structure Taken (le : α → α → Prop) (n i : ℕ) (v : ℕ → α) : Prop where
  heap : Heap le 1 i v
  below : ∀ a b, 1 ≤ a → a ≤ i → i < b → b ≤ n → le (v a) (v b)
  sorted : ∀ a b, i < a → a ≤ b → b ≤ n → le (v a) (v b)

namespace Taken

theorem start (h : Heap le 1 n v) : Taken le n n v :=
  ⟨h, fun _ _ _ _ h1 h2 => absurd h1 (not_lt_of_ge h2), fun _ _ h1 h2 h3 => absurd h1 (not_lt_of_ge (h2.trans h3))⟩

/-- The first element is put behind the heap. -/
theorem except (h : Taken le n (i + 2) v) : HeapExcept le 1 (i + 1) 1 (v ∘ Equiv.swap 1 (i + 2)) := by
  refine ⟨fun j hj hjn hlo hne => ?_, fun j _ _ _ h2 => absurd h2 (by omega)⟩
  rw [Function.comp_apply, Function.comp_apply, Equiv.swap_apply_of_ne_of_ne (by omega) (by omega),
    Equiv.swap_apply_of_ne_of_ne hne (by omega)]
  exact h.heap j hj (by omega) hlo

/-- **One more element is in its place**, once the others are a heap again. -/
theorem next (h : Taken le n (i + 2) v) (hrefl : ∀ a, le a a) (htrans : ∀ a b c, le a b → le b c → le a c)
    (hw : Rearranged (i + 1) (v ∘ Equiv.swap 1 (i + 2)) w) (hheap : Heap le 1 (i + 1) w) : Taken le n (i + 1) w := by
  have hlast : w (i + 2) = v 1 := by
    rw [hw.apply_of_out (Or.inr (Nat.lt_succ_self _)), Function.comp_apply, Equiv.swap_apply_right]
  have hbehind : ∀ b, i + 2 < b → w b = v b := fun b hb => by
    rw [hw.apply_of_out (Or.inr (by omega)), Function.comp_apply, Equiv.swap_apply_of_ne_of_ne (by omega) (by omega)]
  have hmax := h.heap.le_first hrefl htrans
  refine ⟨hheap, fun a b ha hai hb hbn => ?_, fun a b ha hab hbn => ?_⟩
  · refine hw.all (p := fun x => le x (w b)) (fun k hk hki => ?_) a ha hai
    have hk' : ∃ k', 1 ≤ k' ∧ k' ≤ i + 2 ∧ (v ∘ Equiv.swap 1 (i + 2)) k = v k' := by
      rcases hk.eq_or_lt with rfl | hk
      · exact ⟨i + 2, by omega, le_rfl, by rw [Function.comp_apply, Equiv.swap_apply_left]⟩
      · exact ⟨k, by omega, by omega, by rw [Function.comp_apply, Equiv.swap_apply_of_ne_of_ne (by omega) (by omega)]⟩
    obtain ⟨k', h1, h2, hkk⟩ := hk'
    rw [hkk]
    rcases (Nat.succ_le_of_lt hb).eq_or_lt with rfl | hb'
    · rw [hlast]
      exact hmax k' h1 h2
    · rw [hbehind b hb']
      exact h.below k' b h1 h2 hb' hbn
  · rcases (Nat.succ_le_of_lt ha).eq_or_lt with rfl | ha'
    · rw [hlast]
      rcases hab.eq_or_lt with rfl | hab
      · rw [hlast]
        exact hrefl _
      · rw [hbehind b hab]
        exact h.below 1 b le_rfl (by omega) hab hbn
    · rw [hbehind a ha', hbehind b (by omega)]
      exact h.sorted a b ha' hab hbn

/-- When at most one element is left, all are in order. -/
theorem done (h : Taken le n i v) (hi : i ≤ 1) : ((List.range' 1 n).map v).Pairwise le := by
  rw [List.pairwise_map]
  refine List.Pairwise.imp_of_mem (fun {a b} ha hb hab => ?_) List.pairwise_lt_range'
  rw [List.mem_range'_1] at ha hb
  by_cases hai : a ≤ i
  · exact h.below a b ha.1 hai (by omega) (by omega)
  · exact h.sorted a b (by omega) hab.le (by omega)

end Taken

end Pintos.Lib.HeapOrder
