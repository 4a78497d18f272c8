import Mathlib.Tactic

/-! # Quotients from an estimate

A quotient that is estimated with the leading part of the divisor only is right or one too large, if the divisor
is long enough, and one look at the remainder tells which. -/

namespace Pintos.Lib.Quotient

variable {n d m q : ℕ}

/-- The divisor without its last part. -/
theorem truncated_le (d m : ℕ) : d / m * m ≤ d := Nat.div_mul_le_self d m

theorem lt_truncated (hm : 0 < m) : d < d / m * m + m := Nat.lt_div_mul_add hm

/-- **The estimate is never too small.** -/
theorem div_le_estimate (h : 0 < d / m * m) : n / d ≤ n / (d / m * m) :=
  Nat.div_le_div_left (truncated_le d m) h

/-- **The estimate is at most one too large.** -/
theorem estimate_le (hm : 0 < m) (hd : 0 < d) (h : (n / d + 1) * (m - 1) ≤ d / m * m) :
    n / (d / m * m) ≤ n / d + 1 := by
  set e := d / m * m with he
  have hlt : d < e + m := lt_truncated hm
  have hn : n < (n / d + 1) * d := by
    have := Nat.lt_div_mul_add hd (a := n)
    rwa [Nat.succ_mul]
  refine Nat.lt_succ_iff.mp (Nat.div_lt_of_lt_mul ?_)
  calc n < (n / d + 1) * d := hn
    _ ≤ (n / d + 1) * (e + (m - 1)) := Nat.mul_le_mul_left _ (by omega)
    _ = (n / d + 1) * e + (n / d + 1) * (m - 1) := Nat.mul_add ..
    _ ≤ (n / d + 1) * e + e := Nat.add_le_add_left h _
    _ = e * (n / d + 1).succ := by rw [Nat.mul_succ, Nat.mul_comm]

/-- **The look at the remainder**, for an estimate that is right or one too large. -/
theorem corrected (hd : 0 < d) (hdn : d ≤ n) (hq : n / d ≤ q) (hq' : q ≤ n / d + 1) :
    (q - 1) * d ≤ n ∧ (if n - (q - 1) * d < d then q - 1 else q) = n / d := by
  have hpos : 0 < n / d := Nat.div_pos hdn hd
  have hdiv : n / d * d + n % d = n := Nat.div_add_mod' n d
  have hmod : n % d < d := Nat.mod_lt n hd
  obtain rfl | rfl : q = n / d ∨ q = n / d + 1 := by omega
  · have hback : (n / d - 1) * d + d = n / d * d := by
      rw [← Nat.succ_mul, Nat.succ_eq_add_one, Nat.sub_add_cancel hpos]
    exact ⟨by omega, if_neg (by omega)⟩
  · rw [Nat.add_sub_cancel]
    exact ⟨by omega, if_pos (by omega)⟩

end Pintos.Lib.Quotient
