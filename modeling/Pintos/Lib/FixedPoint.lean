import Mathlib.Tactic

/-! # Truncating fixed-point arithmetic

Fixed-point numbers are integers that stand for multiples of `1 / f`. Products and quotients are truncated
towards zero. This file names nothing of the kernel: it bounds a weighted average, the factor
`2 L / (2 L + 1)` and an accumulator that decays by this factor, where truncation only helps. -/

namespace Pintos.Lib.FixedPoint

def mul (f x y : ℤ) : ℤ := (x * y).tdiv f

def div (f x y : ℤ) : ℤ := (x * f).tdiv y

variable {f x y z : ℤ}

/-! ### Truncation -/

theorem tdiv_mul_le (hx : 0 ≤ x) (hy : 0 < y) : x.tdiv y * y ≤ x := by
  rw [Int.tdiv_eq_ediv_of_nonneg hx]
  exact Int.ediv_mul_le x hy.ne'

/-- Truncation makes no number larger. -/
theorem abs_tdiv_mul_le (hy : 0 < y) : |x.tdiv y| * y ≤ |x| := by
  rcases le_total 0 x with hx | hx
  · have hq : 0 ≤ x.tdiv y := Int.tdiv_nonneg hx hy.le
    rw [abs_of_nonneg hq, abs_of_nonneg hx]
    exact tdiv_mul_le hx hy
  · have hneg : 0 ≤ -x := by omega
    have hq : 0 ≤ (-x).tdiv y := Int.tdiv_nonneg hneg hy.le
    have hle := tdiv_mul_le hneg hy
    rw [Int.neg_tdiv] at hq hle
    rw [abs_of_nonpos (by omega), abs_of_nonpos hx]
    exact hle

theorem abs_mul_mul_le (hf : 0 < f) : |mul f x y| * f ≤ |x| * |y| := by
  rw [← abs_mul]
  exact abs_tdiv_mul_le hf

theorem mul_nonneg (hf : 0 < f) (hx : 0 ≤ x) (hy : 0 ≤ y) : 0 ≤ mul f x y :=
  Int.tdiv_nonneg (Int.mul_nonneg hx hy) hf.le

theorem div_nonneg (hf : 0 < f) (hx : 0 ≤ x) (hy : 0 < y) : 0 ≤ div f x y :=
  Int.tdiv_nonneg (Int.mul_nonneg hx hf.le) hy.le

/-! ### Averages -/

/-- **An average does not leave its range**: with weights whose sum is at most one it stays between zero and
`n`. -/
theorem average_bounds {p q n k : ℤ} (hf : 0 < f) (hp : 0 ≤ p) (hq : 0 ≤ q) (hpq : p + q ≤ f)
    (hx : 0 ≤ x) (hxn : x ≤ n * f) (hk : 0 ≤ k) (hkn : k ≤ n) :
    0 ≤ mul f p x + q * k ∧ mul f p x + q * k ≤ n * f := by
  have hqk : 0 ≤ q * k := by positivity
  have hmul : mul f p x * f ≤ p * n * f := by
    calc mul f p x * f ≤ p * x := tdiv_mul_le (by positivity) hf
      _ ≤ p * (n * f) := by gcongr
      _ = p * n * f := by ring
  have hle : mul f p x ≤ p * n := le_of_mul_le_mul_right hmul hf
  refine ⟨add_nonneg (mul_nonneg hf hp hx) hqk, ?_⟩
  calc mul f p x + q * k ≤ p * n + q * n := by gcongr
    _ = (p + q) * n := by ring
    _ ≤ f * n := by gcongr; omega
    _ = n * f := by ring

/-! ### Decay -/

/-- The factor `2 L / (2 L + 1)`. -/
def decay (f l : ℤ) : ℤ := div f (2 * l) (2 * l + f)

theorem decay_nonneg {l : ℤ} (hf : 0 < f) (hl : 0 ≤ l) : 0 ≤ decay f l :=
  div_nonneg hf (by omega) (by omega)

/-- The factor grows with `L`. -/
theorem decay_mul_le {l n : ℤ} (hf : 0 < f) (hn : 0 ≤ n) (hl : 0 ≤ l) (hln : l ≤ n * f) :
    decay f l * (2 * n + 1) ≤ 2 * n * f := by
  have hpos : 0 < 2 * l + f := by omega
  have hdiv : decay f l * (2 * l + f) ≤ 2 * l * f := tdiv_mul_le (by positivity) hpos
  refine le_of_mul_le_mul_right ?_ hpos
  calc decay f l * (2 * n + 1) * (2 * l + f) = decay f l * (2 * l + f) * (2 * n + 1) := by ring
    _ ≤ 2 * l * f * (2 * n + 1) := by gcongr
    _ = 4 * n * l * f + 2 * f * l := by ring
    _ ≤ 4 * n * l * f + 2 * f * (n * f) := by gcongr
    _ = 2 * n * f * (2 * l + f) := by ring

theorem decay_le {l : ℤ} (hf : 0 < f) (hl : 0 ≤ l) : decay f l ≤ f := by
  have hpos : 0 < 2 * l + f := by omega
  refine le_of_mul_le_mul_right ?_ hpos
  calc decay f l * (2 * l + f) ≤ 2 * l * f := tdiv_mul_le (by positivity) hpos
    _ ≤ f * (2 * l + f) := by nlinarith

/-- **An accumulator that decays stays bounded**: what has come in since the last decay, `a`, and what comes
in with it, `m`, are made up for. -/
theorem decay_bound {l n a m r : ℤ} (hf : 0 < f) (hn : 0 ≤ n) (hl : 0 ≤ l) (hln : l ≤ n * f)
    (hz : |z| ≤ m * f) (hr : |r| ≤ (a + m) * (2 * n + 1) * f) :
    |mul f (decay f l) r + z| ≤ (2 * n * a + m * (2 * n + 1)) * f := by
  have hc := decay_nonneg hf hl
  have h1 : |mul f (decay f l) r| * f ≤ decay f l * |r| := by
    have h := abs_mul_mul_le (x := decay f l) (y := r) hf
    rwa [abs_of_nonneg hc] at h
  have ham : 0 ≤ (a + m) * f := by
    have h0 : 0 ≤ (a + m) * f * (2 * n + 1) := by
      have := (abs_nonneg r).trans hr
      linarith
    exact nonneg_of_mul_nonneg_left h0 (by omega)
  have hmul : |mul f (decay f l) r| ≤ 2 * n * (a + m) * f := by
    refine le_of_mul_le_mul_right ?_ hf
    calc |mul f (decay f l) r| * f ≤ decay f l * |r| := h1
      _ ≤ decay f l * ((a + m) * (2 * n + 1) * f) := by gcongr
      _ = decay f l * (2 * n + 1) * ((a + m) * f) := by ring
      _ ≤ 2 * n * f * ((a + m) * f) :=
        mul_le_mul_of_nonneg_right (decay_mul_le hf hn hl hln) ham
      _ = 2 * n * (a + m) * f * f := by ring
  calc |mul f (decay f l) r + z| ≤ |mul f (decay f l) r| + |z| := abs_add_le ..
    _ ≤ 2 * n * (a + m) * f + m * f := by gcongr
    _ = (2 * n * a + m * (2 * n + 1)) * f := by ring

end Pintos.Lib.FixedPoint
