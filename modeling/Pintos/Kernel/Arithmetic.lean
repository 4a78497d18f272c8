import Pintos.Lib.Quotient

/-! # 64-bit division

`lib/arithmetic.c`: division and remainder of 64-bit integers with an instruction that divides by 32 bits. A division
that traps has no result. -/

namespace Pintos.Kernel.Arithmetic

open Pintos.Lib.Quotient

/-! ### The code -/

/-- The `DIVL` instruction. It traps where the quotient does not fit in 32 bits. -/
def divl (n : BitVec 64) (d : BitVec 32) : Option (BitVec 32) :=
  if d ≠ 0 ∧ n.toNat / d.toNat < 2 ^ 32 then some (BitVec.ofNat 32 (n.toNat / d.toNat)) else none

/-- One step of `nlz`: the value moves up by `k` bits if it is at most `bound`. -/
def nlzStep (bound : BitVec 32) (k : ℕ) (s : ℕ × BitVec 32) : ℕ × BitVec 32 :=
  if s.2 ≤ bound then (s.1 + k, s.2 <<< k) else s

/-- `nlz`: the number of leading zero bits. -/
def nlz (x : BitVec 32) : ℕ :=
  let s := nlzStep 0x3FFFFFFF#32 2 (nlzStep 0x0FFFFFFF#32 4 (nlzStep 0x00FFFFFF#32 8
    (nlzStep 0x0000FFFF#32 16 (0, x))))
  if s.2 ≤ 0x7FFFFFFF#32 then s.1 + 1 else s.1

/-- `udiv64`. -/
def udiv64 (n d : BitVec 64) : Option (BitVec 64) :=
  if d >>> 32 = 0 then do
    let b := 1#64 <<< 32
    let n1 := (n >>> 32).setWidth 32
    let n0 := n.setWidth 32
    let d0 := d.setWidth 32
    let q ← divl (b * (n1 % d0).setWidth 64 + n0.setWidth 64) d0
    return q.setWidth 64 + b * (n1 / d0).setWidth 64
  else if n < d then return 0#64
  else do
    let d1 := (d >>> 32).setWidth 32
    let s := nlz d1
    let e ← divl (n >>> 1) (((d <<< s) >>> 32).setWidth 32)
    let q := (e >>> (31 - s)).setWidth 64
    return if n - (q - 1#64) * d < d then q - 1#64 else q

/-- `umod64`, an `uint32_t`. -/
def umod64 (n d : BitVec 64) : Option (BitVec 32) := do
  let q ← udiv64 n d
  return (n - d * q).setWidth 32

/-- The conversion to `uint64_t`, and its negation for a negative number. -/
def abs64 (n : BitVec 64) : BitVec 64 := if 0 ≤ n.toInt then n else -n

/-- `sdiv64`. -/
def sdiv64 (n d : BitVec 64) : Option (BitVec 64) := do
  let q ← udiv64 (abs64 n) (abs64 d)
  return if (n.toInt < 0) = (d.toInt < 0) then q else -q

/-- `smod64`, an `int32_t`. -/
def smod64 (n d : BitVec 64) : Option (BitVec 32) := do
  let q ← sdiv64 n d
  return (n - d * q).setWidth 32

/-- `__moddi3`. -/
def moddi3 (n d : BitVec 64) : Option (BitVec 64) := (smod64 n d).map (·.signExtend 64)

/-- `__umoddi3`. -/
def umoddi3 (n d : BitVec 64) : Option (BitVec 64) := (umod64 n d).map (·.setWidth 64)

/-! ### Leading zeros -/

variable {n d : BitVec 64} {x : BitVec 32}

/-- The value `x`, moved up, without the loss of a bit. -/
def Shifted (x : BitVec 32) (lo : ℕ) (s : ℕ × BitVec 32) : Prop := s.2.toNat = x.toNat * 2 ^ s.1 ∧ 2 ^ lo ≤ s.2.toNat

/-- **A step looks at half of the bits that are left.** -/
theorem shifted_nlzStep {lo k : ℕ} {s : ℕ × BitVec 32} {b : BitVec 32} (h : Shifted x lo s) (hk : lo + 2 * k = 32)
    (hbound : b.toNat + 1 = 2 ^ (lo + k)) : Shifted x (lo + k) (nlzStep b k s) := by
  obtain ⟨hs, hlo⟩ := h
  unfold nlzStep Shifted
  have hpow : (2 : ℕ) ^ (lo + k) * 2 ^ k = 2 ^ 32 := by
    rw [← pow_add]
    congr 1
    omega
  split_ifs with hle
  · have hle' : s.2.toNat < 2 ^ (lo + k) := by
      have : s.2.toNat ≤ b.toNat := hle
      omega
    have hfit : s.2.toNat * 2 ^ k < 2 ^ 32 := by
      rw [← hpow]
      exact Nat.mul_lt_mul_of_pos_right hle' (Nat.two_pow_pos k)
    have hshift : (s.2 <<< k).toNat = s.2.toNat * 2 ^ k := by
      rw [BitVec.toNat_shiftLeft, Nat.shiftLeft_eq, Nat.mod_eq_of_lt hfit]
    refine ⟨?_, ?_⟩
    · rw [hshift, hs, pow_add, mul_assoc]
    · rw [hshift, pow_add]
      exact Nat.mul_le_mul_right _ hlo
  · have hgt : b.toNat < s.2.toNat := not_le.mp hle
    exact ⟨hs, by omega⟩

/-- **`nlz`**: moved up by so many bits, the number has its top bit set. -/
theorem nlz_spec (hx : x ≠ 0) : 2 ^ 31 ≤ x.toNat * 2 ^ nlz x ∧ x.toNat * 2 ^ nlz x < 2 ^ 32 := by
  have hpos : 0 < x.toNat := Nat.pos_of_ne_zero fun h => hx (BitVec.eq_of_toNat_eq h)
  have h0 : Shifted x 0 (0, x) := ⟨by rw [pow_zero, mul_one], hpos⟩
  have h4 := shifted_nlzStep (k := 16) (b := 0x0000FFFF#32) h0 rfl rfl
  have h3 := shifted_nlzStep (k := 8) (b := 0x00FFFFFF#32) h4 rfl rfl
  have h2 := shifted_nlzStep (k := 4) (b := 0x0FFFFFFF#32) h3 rfl rfl
  have h1 := shifted_nlzStep (k := 2) (b := 0x3FFFFFFF#32) h2 rfl rfl
  unfold nlz
  dsimp only
  obtain ⟨hs, hlo⟩ := h1
  set s := nlzStep 0x3FFFFFFF#32 2 _
  have hlt := s.2.isLt
  rw [hs] at hlo hlt
  split_ifs with hle
  · have hle' : s.2.toNat ≤ 0x7FFFFFFF := hle
    rw [hs] at hle'
    rw [pow_succ 2 s.1, ← mul_assoc]
    omega
  · have hgt : 0x7FFFFFFF < s.2.toNat := not_le.mp hle
    rw [hs] at hgt
    omega

/-! ### udiv64 -/

theorem divl_eq {m : ℕ} {e : BitVec 32} {k : BitVec 64} (hk : k.toNat = m) (he : e ≠ 0) (hq : m / e.toNat < 2 ^ 32) :
    ∃ q, divl k e = some q ∧ q.toNat = m / e.toNat := by
  refine ⟨BitVec.ofNat 32 (m / e.toNat), ?_, ?_⟩
  · unfold divl
    rw [hk, if_pos ⟨he, hq⟩]
  · rw [BitVec.toNat_ofNat, Nat.mod_eq_of_lt hq]

theorem toNat_ne_zero {w : ℕ} {y : BitVec w} (h : y ≠ 0) : 0 < y.toNat :=
  Nat.pos_of_ne_zero fun h0 => h (BitVec.eq_of_toNat_eq h0)

/-- **A divisor of 32 bits**: the upper half first, and the remainder with the lower half. -/
theorem udiv64_short (hd : d ≠ 0) (hshort : d >>> 32 = 0) :
    ∃ q, udiv64 n d = some q ∧ q.toNat = n.toNat / d.toNat := by
  have hn := n.isLt
  have hpos := toNat_ne_zero hd
  have hsmall : d.toNat < 2 ^ 32 := by
    have h0 : d.toNat >>> 32 = 0 := by rw [← BitVec.toNat_ushiftRight, hshort]; rfl
    rw [Nat.shiftRight_eq_div_pow] at h0
    omega
  have hd0 : (d.setWidth 32).toNat = d.toNat := by rw [BitVec.toNat_setWidth, Nat.mod_eq_of_lt hsmall]
  have hd0ne : d.setWidth 32 ≠ 0 := fun h => by
    rw [h] at hd0
    exact absurd hd0.symm hpos.ne'
  have hn1 : ((n >>> 32).setWidth 32).toNat = n.toNat / 2 ^ 32 := by
    rw [BitVec.toNat_setWidth, BitVec.toNat_ushiftRight, Nat.shiftRight_eq_div_pow, Nat.mod_eq_of_lt (by omega)]
  have hn0 : (n.setWidth 32).toNat = n.toNat % 2 ^ 32 := BitVec.toNat_setWidth ..
  have hb : (1#64 <<< 32).toNat = 2 ^ 32 := by decide
  have hmod : n.toNat / 2 ^ 32 % d.toNat < d.toNat := Nat.mod_lt _ hpos
  have hquot : n.toNat / 2 ^ 32 / d.toNat ≤ n.toNat / 2 ^ 32 := Nat.div_le_self ..
  set r := n.toNat / 2 ^ 32 % d.toNat with hr
  set h := n.toNat / 2 ^ 32 / d.toNat with hh
  have hsplit : d.toNat * h + r = n.toNat / 2 ^ 32 := Nat.div_add_mod ..
  have hlow : (1#64 <<< 32 * ((n >>> 32).setWidth 32 % d.setWidth 32).setWidth 64 +
    (n.setWidth 32).setWidth 64).toNat =
      2 ^ 32 * r + n.toNat % 2 ^ 32 := by
    rw [BitVec.toNat_add, BitVec.toNat_mul, hb, BitVec.toNat_setWidth, BitVec.toNat_setWidth, BitVec.toNat_umod, hn1,
      hd0, hn0, ← hr]
    omega
  have hfit : (2 ^ 32 * r + n.toNat % 2 ^ 32) / (d.setWidth 32).toNat < 2 ^ 32 := by
    rw [hd0]
    refine Nat.div_lt_of_lt_mul ?_
    have hle : 2 ^ 32 * (r + 1) ≤ 2 ^ 32 * d.toNat := Nat.mul_le_mul_left _ hmod
    rw [Nat.mul_comm d.toNat]
    omega
  obtain ⟨q, hq, hqv⟩ := divl_eq hlow hd0ne hfit
  unfold udiv64
  rw [if_pos hshort]
  refine ⟨q.setWidth 64 + 1#64 <<< 32 * ((n >>> 32).setWidth 32 / d.setWidth 32).setWidth 64, ?_, ?_⟩
  · simp only [hq]
    rfl
  · have hdiv : n.toNat / d.toNat = (2 ^ 32 * r + n.toNat % 2 ^ 32) / d.toNat + 2 ^ 32 * h := by
      rw [← Nat.add_mul_div_left _ _ hpos]
      congr 1
      rw [Nat.mul_left_comm]
      omega
    rw [hd0] at hqv hfit
    rw [BitVec.toNat_add, BitVec.toNat_mul, hb, BitVec.toNat_setWidth, BitVec.toNat_setWidth, BitVec.toNat_udiv, hn1,
      hd0, ← hh, hqv, hdiv]
    omega

/-- **The divisor moved up**, so that its upper half is as long as it can be. -/
theorem leading_divisor {s : ℕ} (hlo : 2 ^ 31 ≤ d.toNat / 2 ^ 32 * 2 ^ s) (hhi : d.toNat / 2 ^ 32 * 2 ^ s < 2 ^ 32) :
    s ≤ 31 ∧ (((d <<< s) >>> 32).setWidth 32).toNat = d.toNat / 2 ^ (32 - s) ∧
      2 ^ 31 ≤ d.toNat / 2 ^ (32 - s) ∧ d.toNat / 2 ^ (32 - s) < 2 ^ 32 := by
  have hs : s ≤ 31 := by
    by_contra hlt
    have hpow : (2 : ℕ) ^ 32 ≤ 2 ^ s := Nat.pow_le_pow_right (by decide) (by omega)
    rcases Nat.eq_zero_or_pos (d.toNat / 2 ^ 32) with h0 | hpos
    · rw [h0] at hlo
      omega
    · have := Nat.mul_le_mul hpos hpow
      omega
  have hm : (2 : ℕ) ^ (32 - s) * 2 ^ s = 2 ^ 32 := by
    rw [← pow_add]
    congr 1
    omega
  -- the upper half is a multiple of a power of two below another one
  have hroom : (d.toNat / 2 ^ 32 + 1) * 2 ^ s ≤ 2 ^ 32 := by
    rw [← hm] at hhi ⊢
    exact Nat.mul_le_mul_right _ (Nat.lt_of_mul_lt_mul_right hhi)
  have hlt : d.toNat * 2 ^ s < 2 ^ 64 := by
    have hd : d.toNat < (d.toNat / 2 ^ 32 + 1) * 2 ^ 32 := by omega
    calc d.toNat * 2 ^ s < (d.toNat / 2 ^ 32 + 1) * 2 ^ 32 * 2 ^ s :=
      Nat.mul_lt_mul_of_pos_right hd (Nat.two_pow_pos s)
      _ = (d.toNat / 2 ^ 32 + 1) * 2 ^ s * 2 ^ 32 := Nat.mul_right_comm ..
      _ ≤ 2 ^ 32 * 2 ^ 32 := Nat.mul_le_mul_right _ hroom
  have hdiv : d.toNat * 2 ^ s / 2 ^ 32 = d.toNat / 2 ^ (32 - s) := by
    rw [← hm, Nat.mul_div_mul_right _ _ (Nat.two_pow_pos s)]
  have hle : d.toNat / 2 ^ 32 * 2 ^ s ≤ d.toNat * 2 ^ s / 2 ^ 32 := by
    rw [Nat.le_div_iff_mul_le (by decide), Nat.mul_right_comm]
    exact Nat.mul_le_mul_right _ (Nat.div_mul_le_self ..)
  have hlt32 : d.toNat * 2 ^ s / 2 ^ 32 < 2 ^ 32 := Nat.div_lt_of_lt_mul hlt
  rw [hdiv] at hle hlt32
  refine ⟨hs, ?_, hlo.trans hle, hlt32⟩
  rw [BitVec.toNat_setWidth, BitVec.toNat_ushiftRight, BitVec.toNat_shiftLeft, Nat.shiftLeft_eq,
    Nat.shiftRight_eq_div_pow, Nat.mod_eq_of_lt hlt, hdiv, Nat.mod_eq_of_lt hlt32]

/-- **The estimate** with the 32 leading bits of the divisor. -/
theorem estimate_bounds {n d s : ℕ} (hn : n < 2 ^ 64) (hs : s ≤ 31) (hlead : 2 ^ 31 ≤ d / 2 ^ (32 - s)) :
    n / d ≤ n / (d / 2 ^ (32 - s) * 2 ^ (32 - s)) ∧ n / (d / 2 ^ (32 - s) * 2 ^ (32 - s)) ≤ n / d + 1 := by
  set m := 2 ^ (32 - s) with hm
  have hmpos : 0 < m := Nat.two_pow_pos _
  have hbig : 2 ^ 31 * m ≤ d / m * m := Nat.mul_le_mul_right _ hlead
  have htrunc : 0 < d / m * m := Nat.mul_pos (by omega) hmpos
  have hms : m * 2 ^ (s + 1) = 2 ^ 33 := by
    rw [hm, ← pow_add]
    congr 1
    omega
  have hquot : n / d < 2 ^ (s + 1) := by
    refine Nat.div_lt_of_lt_mul ?_
    have h1 := Nat.mul_le_mul_right (2 ^ (s + 1)) (hbig.trans (truncated_le d m))
    rw [Nat.mul_assoc, hms] at h1
    omega
  have hsize : 2 ^ (s + 1) * (m - 1) ≤ 2 ^ 31 * m := by
    rw [Nat.mul_sub_one, Nat.mul_comm _ m, hms]
    rcases Nat.lt_or_ge s 31 with hlt | hge
    · have hm4 : 2 ^ 2 ≤ m := Nat.pow_le_pow_right (by decide) (by omega)
      exact (Nat.sub_le ..).trans (Nat.mul_le_mul_left (2 ^ 31) hm4)
    · obtain rfl : s = 31 := by omega
      have hm2 : m = 2 := hm
      rw [hm2]
      decide
  have hbound : (n / d + 1) * (m - 1) ≤ d / m * m := (Nat.mul_le_mul_right _ hquot).trans (hsize.trans hbig)
  exact ⟨div_le_estimate htrunc, estimate_le hmpos (htrunc.trans_le (truncated_le d m)) hbound⟩

/-- **The correction**, with 64-bit words: nothing wraps around. -/
theorem correction {q : BitVec 64} (hd : 0 < d.toNat) (hdn : d.toNat ≤ n.toNat) (hge : n.toNat / d.toNat ≤ q.toNat)
    (hle : q.toNat ≤ n.toNat / d.toNat + 1) :
    (if n - (q - 1#64) * d < d then q - 1#64 else q).toNat = n.toNat / d.toNat := by
  have hn := n.isLt
  obtain ⟨hfits, hcorrected⟩ := corrected hd hdn hge hle
  have hq1 : (q - 1#64).toNat = q.toNat - 1 := by
    have hpos : 0 < n.toNat / d.toNat := Nat.div_pos hdn hd
    have hlt := q.isLt
    rw [BitVec.toNat_sub, BitVec.toNat_ofNat]
    omega
  have hmul : ((q - 1#64) * d).toNat = (q.toNat - 1) * d.toNat := by
    rw [BitVec.toNat_mul, hq1, Nat.mod_eq_of_lt (lt_of_le_of_lt hfits hn)]
  have hrem : (n - (q - 1#64) * d).toNat = n.toNat - (q.toNat - 1) * d.toNat := by
    rw [BitVec.toNat_sub, hmul]
    omega
  have hiff : n - (q - 1#64) * d < d ↔ n.toNat - (q.toNat - 1) * d.toNat < d.toNat := by rw [BitVec.lt_def, hrem]
  rw [← hcorrected]
  by_cases hlt : n - (q - 1#64) * d < d
  · rw [if_pos hlt, if_pos (hiff.mp hlt), hq1]
  · rw [if_neg hlt, if_neg (hiff.not.mp hlt)]

/-- The estimate that the code computes. -/
theorem estimated {e q : BitVec 32} {s : ℕ} (hs : s ≤ 31) (he : e.toNat = d.toNat / 2 ^ (32 - s))
    (hq : q.toNat = n.toNat / 2 / e.toNat) :
    ((q >>> (31 - s)).setWidth 64).toNat = n.toNat / (d.toNat / 2 ^ (32 - s) * 2 ^ (32 - s)) := by
  have hpow : 2 * 2 ^ (31 - s) = 2 ^ (32 - s) := by
    rw [← pow_succ']
    congr 1
    omega
  have hlt : n.toNat / 2 / e.toNat / 2 ^ (31 - s) < 2 ^ 64 :=
    lt_of_le_of_lt ((Nat.div_le_self ..).trans ((Nat.div_le_self ..).trans (Nat.div_le_self ..))) n.isLt
  rw [BitVec.toNat_setWidth, BitVec.toNat_ushiftRight, Nat.shiftRight_eq_div_pow, hq, Nat.mod_eq_of_lt hlt,
    Nat.div_div_eq_div_mul, Nat.div_div_eq_div_mul, Nat.mul_left_comm, hpow, he]

/-- **A long divisor**: the quotient is estimated with its 32 leading bits. -/
theorem udiv64_long (hlong : d >>> 32 ≠ 0) : ∃ q, udiv64 n d = some q ∧ q.toNat = n.toNat / d.toNat := by
  unfold udiv64
  rw [if_neg hlong]
  by_cases hnd : n < d
  · rw [if_pos hnd]
    exact ⟨0#64, rfl, (Nat.div_eq_of_lt hnd).symm⟩
  rw [if_neg hnd]
  have hdn : d.toNat ≤ n.toNat := not_lt.mp hnd
  -- the upper half of the divisor
  have hd := d.isLt
  have hd1 : ((d >>> 32).setWidth 32).toNat = d.toNat / 2 ^ 32 := by
    rw [BitVec.toNat_setWidth, BitVec.toNat_ushiftRight, Nat.shiftRight_eq_div_pow, Nat.mod_eq_of_lt (by omega)]
  have hhigh : 0 < d.toNat / 2 ^ 32 := by
    have := toNat_ne_zero hlong
    rwa [BitVec.toNat_ushiftRight, Nat.shiftRight_eq_div_pow] at this
  have hd1ne : (d >>> 32).setWidth 32 ≠ 0 := fun h => by
    rw [h] at hd1
    exact absurd hd1.symm hhigh.ne'
  obtain ⟨hlo, hhi⟩ := nlz_spec hd1ne
  rw [hd1] at hlo hhi
  obtain ⟨hs31, he, hlead, -⟩ := leading_divisor hlo hhi
  have hne : ((d <<< nlz ((d >>> 32).setWidth 32)) >>> 32).setWidth 32 ≠ 0 := fun h => by
    rw [h] at he
    rw [← he] at hlead
    exact absurd hlead (by decide)
  -- the division does not trap
  have hhalf : (n >>> 1).toNat = n.toNat / 2 := by rw [BitVec.toNat_ushiftRight, Nat.shiftRight_eq_div_pow, pow_one]
  obtain ⟨q, hq, hqv⟩ := divl_eq hhalf hne <| by
    have hn := n.isLt
    refine Nat.div_lt_of_lt_mul (lt_of_lt_of_le (?_ : _ < 2 ^ 31 * 2 ^ 32) (Nat.mul_le_mul_right _ (he ▸ hlead)))
    omega
  have hest := estimated hs31 he hqv
  obtain ⟨hge, hle⟩ := estimate_bounds n.isLt hs31 hlead
  rw [← hest] at hge hle
  have hdpos : 0 < d.toNat := hhigh.trans_le (Nat.div_le_self ..)
  refine ⟨_, ?_, correction hdpos hdn hge hle⟩
  simp only [hq]
  rfl

/-- **`udiv64`**: no division traps, and the result is the quotient. -/
theorem udiv64_spec (n : BitVec 64) (hd : d ≠ 0) : ∃ q, udiv64 n d = some q ∧ q.toNat = n.toNat / d.toNat := by
  by_cases hshort : d >>> 32 = 0
  · exact udiv64_short hd hshort
  · exact udiv64_long hshort

/-! ### sdiv64 -/

theorem toInt_of_lt {y : BitVec 64} (h : y.toNat < 2 ^ 63) : y.toInt = y.toNat :=
  BitVec.toInt_eq_toNat_of_lt (by omega)

theorem toInt_neg_of_le {y : BitVec 64} (h : y.toNat ≤ 2 ^ 63) : (-y).toInt = -(y.toNat : ℤ) := by
  rw [BitVec.toInt_eq_toNat_cond, BitVec.toNat_neg]
  split_ifs with h2 <;> omega

theorem toNat_abs64 (n : BitVec 64) : (abs64 n).toNat = n.toInt.natAbs := by
  have hn := n.isLt
  have hint := BitVec.toInt_eq_toNat_cond n
  unfold abs64
  split_ifs with hneg
  · split_ifs at hint <;> omega
  · rw [BitVec.toNat_neg]
    split_ifs at hint <;> omega

/-- The quotient of integers by their absolute values. -/
theorem tdiv_eq (a b : ℤ) : a.tdiv b =
    if (a < 0) = (b < 0) then ((a.natAbs / b.natAbs : ℕ) : ℤ) else -((a.natAbs / b.natAbs : ℕ) : ℤ) := by
  have hnat : ∀ m k : ℕ, (m : ℤ).tdiv k = ((m / k : ℕ) : ℤ) := fun _ _ => rfl
  rcases lt_or_ge a 0 with ha | ha <;> rcases lt_or_ge b 0 with hb | hb
  · rw [if_pos (propext (iff_of_true ha hb))]
    obtain ⟨m, rfl⟩ := Int.exists_eq_neg_ofNat ha.le
    obtain ⟨k, rfl⟩ := Int.exists_eq_neg_ofNat hb.le
    rw [Int.neg_tdiv_neg, Int.natAbs_neg, Int.natAbs_neg, hnat]
    rfl
  · rw [if_neg fun h => not_lt.mpr hb (h.mp ha)]
    obtain ⟨m, rfl⟩ := Int.exists_eq_neg_ofNat ha.le
    lift b to ℕ using hb
    rw [Int.neg_tdiv, Int.natAbs_neg, hnat]
    rfl
  · rw [if_neg fun h => not_lt.mpr ha (h.mpr hb)]
    obtain ⟨k, rfl⟩ := Int.exists_eq_neg_ofNat hb.le
    lift a to ℕ using ha
    rw [Int.tdiv_neg, Int.natAbs_neg, hnat]
    rfl
  · rw [if_pos (propext (iff_of_false (not_lt.mpr ha) (not_lt.mpr hb)))]
    lift a to ℕ using ha
    lift b to ℕ using hb
    rw [hnat]
    rfl

/-- The one quotient that is too large: `-2^63 / -1`. -/
def Overflows (n d : BitVec 64) : Prop := n.toInt = -2 ^ 63 ∧ d.toInt = -1

theorem toInt_natAbs_le (n : BitVec 64) : n.toInt.natAbs ≤ 2 ^ 63 := by
  have hlo := BitVec.le_toInt n
  have hhi := BitVec.toInt_lt (x := n)
  omega

theorem sdiv64_spec (n : BitVec 64) (hd : d ≠ 0) (hover : ¬Overflows n d) :
    ∃ q, sdiv64 n d = some q ∧ q.toInt = n.toInt.tdiv d.toInt := by
  have hd0 : d.toInt ≠ 0 := fun h => hd (BitVec.eq_of_toInt_eq h)
  have habs : abs64 d ≠ 0 := fun h => by
    have := toNat_abs64 d
    rw [h] at this
    exact hd0 (Int.natAbs_eq_zero.mp this.symm)
  obtain ⟨q, hq, hqv⟩ := udiv64_spec (abs64 n) habs
  rw [toNat_abs64, toNat_abs64] at hqv
  have hn := toInt_natAbs_le n
  have hle : n.toInt.natAbs / d.toInt.natAbs ≤ n.toInt.natAbs := Nat.div_le_self ..
  refine ⟨if (n.toInt < 0) = (d.toInt < 0) then q else -q, ?_, ?_⟩
  · unfold sdiv64
    rw [hq]
    rfl
  rw [tdiv_eq, ← hqv]
  split_ifs with hsign
  · refine toInt_of_lt (hqv ▸ ?_)
    rcases Nat.lt_or_ge 1 d.toInt.natAbs with h1 | h1
    · have h2 : n.toInt.natAbs / d.toInt.natAbs ≤ n.toInt.natAbs / 2 := Nat.div_le_div_left h1 (by decide)
      omega
    · have hhi := BitVec.toInt_lt (x := n)
      have hne : ¬(n.toInt = -2 ^ 63 ∧ d.toInt = -1) := hover
      have : n.toInt.natAbs < 2 ^ 63 := by
        by_contra hge
        have hmin : n.toInt = -2 ^ 63 := by omega
        have hneg : d.toInt < 0 := hsign ▸ (by omega : n.toInt < 0)
        omega
      omega
  · exact toInt_neg_of_le (by omega)

/-- **64-bit division is exact**, and no division traps. -/
theorem div64_exact (n : BitVec 64) (hd : d ≠ 0) :
    (∃ q, udiv64 n d = some q ∧ q.toNat = n.toNat / d.toNat) ∧
      (¬Overflows n d → ∃ q, sdiv64 n d = some q ∧ q.toInt = n.toInt.tdiv d.toInt) :=
  ⟨udiv64_spec n hd, sdiv64_spec n hd⟩

/-- The largest dividend, by a divisor of 33 bits. -/
theorem div64_exact_max : (∃ q, udiv64 (-1#64) 0x100000001#64 = some q ∧ q.toNat = 2 ^ 32 - 1) ∧
    (∃ q, sdiv64 (-1#64) 0x100000001#64 = some q ∧ q.toInt = 0) := by
  obtain ⟨hu, hs⟩ := div64_exact (-1#64) (d := 0x100000001#64) (by decide)
  exact ⟨hu, hs fun h => absurd h.2 (by decide)⟩

/-! ### Remainders -/

/-- **The law of the remainder**, for `__umoddi3`. -/
def UmodLaw (n d : BitVec 64) : Prop :=
  ∃ r, umoddi3 n d = some r ∧ r.toNat = n.toNat - d.toNat * (n.toNat / d.toNat) ∧ r.toNat < d.toNat

/-- **The law of the remainder**, for `__moddi3`. -/
def ModLaw (n d : BitVec 64) : Prop :=
  ∃ r, moddi3 n d = some r ∧ r.toInt = n.toInt - d.toInt * n.toInt.tdiv d.toInt ∧ |r.toInt| < |d.toInt|

/-- What `__umoddi3` returns: the remainder, cut to 32 bits. -/
theorem umoddi3_eq (n : BitVec 64) (hd : d ≠ 0) :
    ∃ r, umoddi3 n d = some r ∧ r.toNat = n.toNat % d.toNat % 2 ^ 32 := by
  obtain ⟨q, hq, hqv⟩ := udiv64_spec n hd
  refine ⟨((n - d * q).setWidth 32).setWidth 64, ?_, ?_⟩
  · unfold umoddi3 umod64
    rw [hq]
    rfl
  have hn := n.isLt
  have hsplit := Nat.div_add_mod n.toNat d.toNat
  have hmul : (d * q).toNat = d.toNat * (n.toNat / d.toNat) := by
    rw [BitVec.toNat_mul, hqv, Nat.mod_eq_of_lt (by omega)]
  have hrem : (n - d * q).toNat = n.toNat % d.toNat := by
    rw [BitVec.toNat_sub, hmul]
    omega
  rw [BitVec.toNat_setWidth, BitVec.toNat_setWidth, hrem]
  omega

theorem umodLaw_iff (n : BitVec 64) (hd : d ≠ 0) : UmodLaw n d ↔ n.toNat % d.toNat < 2 ^ 32 := by
  obtain ⟨r, hr, hrv⟩ := umoddi3_eq n hd
  have hsplit := Nat.div_add_mod n.toNat d.toNat
  have hlt := Nat.mod_lt n.toNat (toNat_ne_zero hd)
  constructor
  · rintro ⟨r', hr', hlaw, -⟩
    obtain rfl := Option.some.inj (hr.symm.trans hr')
    omega
  · intro hshort
    exact ⟨r, hr, by omega, by omega⟩

/-- What `__moddi3` returns: the remainder, cut to 32 bits. -/
theorem moddi3_eq (n : BitVec 64) (hd : d ≠ 0) (hover : ¬Overflows n d) :
    ∃ r, moddi3 n d = some r ∧ r.toInt = (n.toInt.tmod d.toInt).bmod (2 ^ 32) := by
  obtain ⟨q, hq, hqv⟩ := sdiv64_spec n hd hover
  refine ⟨((n - d * q).setWidth 32).signExtend 64, ?_, ?_⟩
  · unfold moddi3 smod64
    rw [hq]
    rfl
  have hcut : (n - d * q).toInt = (n.toInt.tmod d.toInt).bmod (2 ^ 64) := by
    rw [BitVec.toInt_sub, BitVec.toInt_mul, Int.sub_bmod_bmod, hqv, ← Int.tmod_def]
  rw [BitVec.toInt_signExtend_of_le (by decide), BitVec.toInt_setWidth,
    ← Int.bmod_bmod_of_dvd (m := 2 ^ 64) (by decide), ← BitVec.toInt_eq_toNat_bmod, hcut,
      Int.bmod_bmod_of_dvd (by decide)]

theorem modLaw_iff (n : BitVec 64) (hd : d ≠ 0) (hover : ¬Overflows n d) :
    ModLaw n d ↔ -2 ^ 31 ≤ n.toInt.tmod d.toInt ∧ n.toInt.tmod d.toInt < 2 ^ 31 := by
  have hd0 : d.toInt ≠ 0 := fun h => hd (BitVec.eq_of_toInt_eq h)
  obtain ⟨r, hr, hrv⟩ := moddi3_eq n hd hover
  unfold ModLaw
  rw [← Int.tmod_def]
  constructor
  · rintro ⟨r', hr', hlaw, -⟩
    obtain rfl := Option.some.inj (hr.symm.trans hr')
    have hlo := Int.le_bmod (x := n.toInt.tmod d.toInt) (m := 2 ^ 32) (by decide)
    have hhi := Int.bmod_lt (x := n.toInt.tmod d.toInt) (m := 2 ^ 32) (by decide)
    rw [← hrv, hlaw] at hlo hhi
    omega
  · rintro ⟨hlo, hhi⟩
    have hsame : r.toInt = n.toInt.tmod d.toInt := by
      rw [hrv, Int.bmod_eq_of_le (by omega) (by omega)]
    refine ⟨r, hr, hsame, ?_⟩
    rw [hsame, Int.abs_eq_natAbs, Int.abs_eq_natAbs, Int.natAbs_tmod]
    exact_mod_cast Nat.mod_lt _ (Int.natAbs_pos.mpr hd0)

/-- **The law holds exactly where the remainder fits in 32 bits**: the functions that compute it return 32 bits. -/
theorem mod64_iff (n : BitVec 64) (hd : d ≠ 0) : (UmodLaw n d ↔ n.toNat % d.toNat < 2 ^ 32) ∧
    (¬Overflows n d → (ModLaw n d ↔ -2 ^ 31 ≤ n.toInt.tmod d.toInt ∧ n.toInt.tmod d.toInt < 2 ^ 31)) :=
  ⟨umodLaw_iff n hd, modLaw_iff n hd⟩

/-- **The remainder `2^32` is lost**, and the remainder `2^31` changes its sign. -/
theorem not_mod64 : ¬(UmodLaw 0x100000000#64 0x200000000#64 ∧ ModLaw 0x80000000#64 0x100000000#64) := by
  rintro ⟨⟨r, hr, hlaw, -⟩, -⟩
  have hzero : umoddi3 0x100000000#64 0x200000000#64 = some 0#64 := by decide +kernel
  obtain rfl := Option.some.inj (hzero.symm.trans hr)
  exact absurd hlaw (by decide)

/-- The remainders of 7 and -7 by 3. -/
theorem mod64_small : UmodLaw 7#64 3#64 ∧ ModLaw (-7#64) 3#64 := by
  obtain ⟨hu, -⟩ := mod64_iff 7#64 (d := 3#64) (by decide)
  obtain ⟨-, hs⟩ := mod64_iff (-7#64) (d := 3#64) (by decide)
  refine ⟨hu.mpr (by decide), (hs fun h => absurd h.2 (by decide)).mpr ?_⟩
  decide

end Pintos.Kernel.Arithmetic
