import Mathlib.Tactic

/-! # Pages without an end

A terminal that writes on a page of `cols` columns and of as many lines as it takes, of which `rows` are in view
from the line `top` on. It never erases a line that has gone out of view. Where plain text ends up on it is said
by position. -/

namespace Pintos.Lib.Scrolling

variable {α : Type*}

structure Page (α : Type*) where
  cell : ℕ → ℕ → α
  /-- The first line in view. -/
  top : ℕ
  row : ℕ
  col : ℕ

/-- The next line; the view follows. -/
def Page.newline (rows : ℕ) (p : Page α) : Page α :=
  { p with col := 0, row := p.row + 1, top := max p.top (p.row + 2 - rows) }

/-- The lines from `top` on are blank again. -/
def Page.clear (blank : α) (p : Page α) : Page α :=
  { p with cell := fun y x => if p.top ≤ y then blank else p.cell y x, row := p.top, col := 0 }

theorem Page.clear_cell (blank : α) (p : Page α) (y x : ℕ) :
    (p.clear blank).cell y x = if p.top ≤ y then blank else p.cell y x := rfl

/-- The cursor moves to the column `x`, or to the next line if there is no such column. -/
def Page.moveTo (cols rows : ℕ) (p : Page α) (x : ℕ) : Page α :=
  if x < cols then { p with col := x } else p.newline rows

def Page.write (p : Page α) (a : α) : Page α :=
  { p with cell := Function.update p.cell p.row (Function.update (p.cell p.row) p.col a) }

/-- A character is written, and the cursor moves on. -/
def Page.put (cols rows : ℕ) (p : Page α) (a : α) : Page α := (p.write a).moveTo cols rows (p.col + 1)

theorem Page.write_cell (p : Page α) (a : α) (y x : ℕ) :
    (p.write a).cell y x = if y = p.row ∧ x = p.col then a else p.cell y x := by
  unfold Page.write
  by_cases hy : y = p.row
  · subst hy
    by_cases hx : x = p.col
    · simp [hx]
    · simp [hx]
  · simp [hy]

/-- The cursor is where the text of `n` characters from the start of line `r` ends. -/
structure Page.At (cols : ℕ) (p : Page α) (r n : ℕ) : Prop where
  row : p.row = r + n / cols
  col : p.col = n % cols

variable {cols rows : ℕ} {p : Page α} {r n : ℕ}

theorem Page.At.put (h : p.At cols r n) (hcols : 0 < cols) (a : α) :
    (p.put cols rows a).At cols r (n + 1) := by
  have hmod := Nat.mod_lt n hcols
  have hdiv := Nat.div_add_mod n cols
  have hcol := h.col
  unfold Page.put Page.moveTo
  split_ifs with hlt
  · rw [hcol] at hlt
    have hq : (n + 1) / cols = n / cols ∧ (n + 1) % cols = n % cols + 1 := by
      have he : n + 1 = n % cols + 1 + cols * (n / cols) := by omega
      rw [he, Nat.add_mul_div_left _ _ hcols, Nat.add_mul_mod_self_left, Nat.div_eq_of_lt hlt, Nat.mod_eq_of_lt hlt]
      omega
    exact ⟨by rw [hq.1]; exact h.row, by rw [hq.2]; exact congrArg (· + 1) hcol⟩
  · rw [hcol] at hlt
    have he : n + 1 = cols * (n / cols + 1) := by
      rw [Nat.mul_add, Nat.mul_one]
      omega
    refine ⟨?_, ?_⟩
    · rw [he, Nat.mul_div_cancel_left _ hcols]
      show p.row + 1 = _
      rw [h.row]
      omega
    · rw [he, Nat.mul_mod_right]
      rfl

theorem Page.put_cell (p : Page α) (a : α) (y x : ℕ) :
    (p.put cols rows a).cell y x = if y = p.row ∧ x = p.col then a else p.cell y x := by
  unfold Page.put Page.moveTo Page.newline
  split_ifs <;> simp_all [Page.write_cell]

/-- The position of character `i`. -/
theorem position_iff (hcols : 0 < cols) {y x i : ℕ} (hx : x < cols) :
    (y = i / cols ∧ x = i % cols) ↔ y * cols + x = i := by
  constructor
  · rintro ⟨rfl, rfl⟩
    rw [Nat.mul_comm]
    exact Nat.div_add_mod i cols
  · rintro rfl
    rw [Nat.mul_comm, Nat.mul_add_div hcols, Nat.mul_add_mod, Nat.div_eq_of_lt hx, Nat.mod_eq_of_lt hx]
    exact ⟨rfl, rfl⟩

/-- **Plain text**: written from the start of a line on, the character `i` is `i / cols` lines below and in column
`i % cols`, everything else is as it was, and the view follows the last line. -/
theorem Page.foldl_put (hcols : 0 < cols) (p : Page α) (hp : p.col = 0) (hview : p.row < p.top + rows)
    (text : List α) : (text.foldl (Page.put cols rows) p).At cols p.row text.length ∧
      (∀ y x, x < cols → (text.foldl (Page.put cols rows) p).cell (p.row + y) x =
        (text[y * cols + x]?).getD (p.cell (p.row + y) x)) ∧
      (text.foldl (Page.put cols rows) p).top = max p.top (p.row + text.length / cols + 1 - rows) := by
  induction text using List.reverseRecOn with
  | nil =>
    refine ⟨⟨by simp, by simp [hp]⟩, fun y x _ => by simp, ?_⟩
    show p.top = max p.top (p.row + 0 / cols + 1 - rows)
    rw [Nat.zero_div]
    omega
  | append_singleton text a ih =>
    obtain ⟨hat, hcell, htop⟩ := ih
    set q := text.foldl (Page.put cols rows) p
    have hfold : (text ++ [a]).foldl (Page.put cols rows) p = q.put cols rows a := by
      rw [List.foldl_append]
      rfl
    rw [hfold, List.length_append, List.length_singleton]
    have hput : (q.put cols rows a).At cols p.row (text.length + 1) := hat.put hcols a
    refine ⟨hput, fun y x hx => ?_, ?_⟩
    · rw [Page.put_cell, hcell y x hx, hat.row, hat.col]
      have hpos : (y = text.length / cols ∧ x = text.length % cols) ↔ y * cols + x = text.length := position_iff hcols hx
      by_cases hi : y * cols + x = text.length
      · have hyx := hpos.mpr hi
        rw [if_pos ⟨by omega, hyx.2⟩, hi, List.getElem?_append_right le_rfl, Nat.sub_self]
        rfl
      · rw [if_neg fun hyx => hi (hpos.mp ⟨by omega, hyx.2⟩)]
        rcases Nat.lt_or_ge (y * cols + x) text.length with hlt | hge
        · rw [List.getElem?_append_left hlt]
        · rw [List.getElem?_eq_none hge, List.getElem?_eq_none (by rw [List.length_append, List.length_singleton]; omega)]
    · have hrow : (q.put cols rows a).row = p.row + (text.length + 1) / cols := hput.row
      have hq := hat.row
      unfold Page.put Page.moveTo at hrow ⊢
      split_ifs at hrow ⊢ with hlt
      · have hsame : q.row = p.row + (text.length + 1) / cols := hrow
        show q.top = _
        rw [htop]
        omega
      · have hnext : q.row + 1 = p.row + (text.length + 1) / cols := hrow
        show max q.top (q.row + 2 - rows) = _
        rw [htop]
        omega

end Pintos.Lib.Scrolling
