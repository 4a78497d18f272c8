import Mathlib.Tactic

/-! # Raising values along a functional graph

Every vertex has at most one successor and carries a value. `raise` walks from a vertex along the
successors and lifts each to the value of the vertex it came from, as long as that is a real increase. This
file says which vertices a walk lifts, that the walk ends, and that it repairs the values: if they were
monotone along all edges but the one out of the start, they are monotone along all edges afterwards. -/

namespace Pintos.Lib.Raising

variable {V α : Type*} [LinearOrder α]

def raise [DecidableEq V] (next : V → Option V) : ℕ → (V → α) → V → V → α
  | 0, val, _ => val
  | n + 1, val, cur =>
    match next cur with
    | none => val
    | some nx =>
      if val cur > val nx then raise next n (Function.update val nx (val cur)) nx else val

/-- The vertices that a walk from `r` lifts to `p`, and `r` itself: those reached from `r` through vertices
below `p`. -/
inductive Raised (next : V → Option V) (val : V → α) (p : α) (r : V) : V → Prop
  | here : Raised next val p r r
  | next {x y : V} (hx : Raised next val p r x) (he : next x = some y) (hy : val y < p) :
      Raised next val p r y

variable {next : V → Option V} {val : V → α} {p : α} {r x y : V}

theorem Raised.eq_or_lt (h : Raised next val p r x) : x = r ∨ val x < p := by
  cases h with
  | here => exact .inl rfl
  | next _ _ hy => exact .inr hy

/-- A walk that stops at once. -/
theorem raised_of_stop (h : ∀ y, next r = some y → ¬ val y < p) (hx : Raised next val p r x) :
    x = r := by
  induction hx with
  | here => rfl
  | next _ he hy ih => subst ih; exact absurd hy (h _ he)

/-- The first step of a walk. -/
theorem raised_iff_of_step [DecidableEq V] (he : next r = some y) (hy : val y < p) :
    Raised next val p r x ↔ x = r ∨ Raised next (Function.update val y p) p y x := by
  constructor
  · intro hx
    induction hx with
    | here => exact .inl rfl
    | @next x z hx hz hzp ih =>
      right
      by_cases hzy : z = y
      · subst hzy; exact .here
      have hz' : Function.update val y p z < p := by rwa [Function.update_of_ne hzy]
      rcases ih with rfl | ih
      · rw [he] at hz
        exact absurd (Option.some.inj hz).symm hzy
      · exact .next ih hz hz'
  · rintro (rfl | hx)
    · exact .here
    induction hx with
    | here => exact .next .here he hy
    | @next x z _ hz hzp ih =>
      have hzy : z ≠ y := by rintro rfl; simp at hzp
      rw [Function.update_of_ne hzy] at hzp
      exact .next ih hz hzp

/-- The vertex `n` successors behind `r`. -/
def chain (next : V → Option V) (r : V) : ℕ → Option V
  | 0 => some r
  | n + 1 => (chain next r n).bind next

/-- **A walk lifts the longest prefix** of the successors that are below `p`. -/
theorem raised_iff_chain : Raised next val p r x ↔
    ∃ n, chain next r n = some x ∧ ∀ m y, 0 < m → m ≤ n → chain next r m = some y → val y < p := by
  constructor
  · intro hx
    induction hx with
    | here => exact ⟨0, rfl, fun m y hpos hle => absurd hpos (by omega)⟩
    | @next x z _ he hz ih =>
      obtain ⟨n, hn, hbelow⟩ := ih
      have hlast : chain next r (n + 1) = some z := by rw [chain, hn, Option.bind_some, he]
      refine ⟨n + 1, hlast, fun m y hpos hle hy => ?_⟩
      rcases Nat.le_succ_iff.mp hle with hle | rfl
      · exact hbelow m y hpos hle hy
      · rw [hlast] at hy
        exact Option.some.inj hy ▸ hz
  · rintro ⟨n, hn, hbelow⟩
    induction n generalizing x with
    | zero => exact Option.some.inj hn ▸ .here
    | succ n ih =>
      obtain ⟨z, hz, he⟩ := Option.bind_eq_some_iff.mp hn
      exact .next (ih hz fun m y hpos hle => hbelow m y hpos (by omega)) he (hbelow (n + 1) x (by omega) le_rfl hn)

variable [Fintype V]

/-- How many vertices are below `p`: each step of a walk takes one away. -/
def below (val : V → α) (p : α) : ℕ := (Finset.univ.filter fun v => val v < p).card

theorem below_le_card : below val p ≤ Fintype.card V := by
  unfold below
  exact Finset.card_le_univ _

theorem below_pos (hy : val y < p) : 0 < below val p := by
  unfold below
  exact Finset.card_pos.mpr ⟨y, by simpa using hy⟩

theorem below_update [DecidableEq V] (hy : val y < p) : below (Function.update val y p) p < below val p := by
  unfold below
  apply Finset.card_lt_card
  rw [Finset.ssubset_iff_of_subset]
  · exact ⟨y, by simpa using hy, by simp⟩
  · intro v hv
    rw [Finset.mem_filter] at hv ⊢
    by_cases h : v = y
    · subst h; exact ⟨Finset.mem_univ _, hy⟩
    · rw [Function.update_of_ne h] at hv
      exact hv

variable [DecidableEq V]

omit [Fintype V] in
theorem raise_stop (h : ∀ y, next r = some y → ¬ val y < val r) :
    ∀ n, raise next n val r = val
  | 0 => rfl
  | n + 1 => by
    unfold raise
    cases he : next r with
    | none => rfl
    | some y => exact if_neg (h y he)

omit [Fintype V] in
theorem raise_go (n : ℕ) (he : next r = some y) (hy : val y < val r) :
    raise next (n + 1) val r = raise next n (Function.update val y (val r)) y := by
  simp only [raise, he, gt_iff_lt, hy, if_true]

/-- **What a walk does**, if it is given as many steps as there are vertices below the value it carries. -/
theorem raise_spec (n : ℕ) : ∀ (val : V → α) (r : V), below val (val r) ≤ n → ∀ x,
    (Raised next val (val r) r x → raise next n val r x = val r) ∧
    (¬ Raised next val (val r) r x → raise next n val r x = val x) := by
  have stop : ∀ (n : ℕ) (val : V → α) (r x : V), (∀ y, next r = some y → ¬ val y < val r) →
      (Raised next val (val r) r x → raise next n val r x = val r) ∧
      (¬ Raised next val (val r) r x → raise next n val r x = val x) := by
    intro n val r x hstop
    rw [raise_stop hstop]
    exact ⟨fun hx => by rw [raised_of_stop hstop hx], fun _ => rfl⟩
  induction n with
  | zero =>
    intro val r hn x
    apply stop
    intro y _ hy
    have := below_pos hy
    omega
  | succ n ih =>
    intro val r hn x
    by_cases hgo : ∃ y, next r = some y ∧ val y < val r
    · obtain ⟨y, he, hy⟩ := hgo
      have hval : Function.update val y (val r) y = val r := Function.update_self ..
      have hless := below_update hy
      have := ih (Function.update val y (val r)) y (by rw [hval]; omega) x
      rw [hval] at this
      obtain ⟨hin, hout⟩ := this
      rw [raise_go n he hy, raised_iff_of_step he hy]
      refine ⟨?_, fun hx => ?_⟩
      · rintro (rfl | hx)
        · by_cases hr : Raised next (Function.update val y (val x)) (val x) y x
          · exact hin hr
          · rw [hout hr]
            by_cases hxy : x = y
            · rw [hxy, Function.update_self]
            · rw [Function.update_of_ne hxy]
        · exact hin hx
      · obtain ⟨-, hx⟩ := not_or.mp hx
        have hxy : x ≠ y := by rintro rfl; exact hx .here
        rw [hout hx, Function.update_of_ne hxy]
    · push Not at hgo
      exact stop _ _ _ _ fun y he => not_lt.mpr (hgo y he)

/-- The walk that is given one step for each vertex. -/
def raiseAll (next : V → Option V) (val : V → α) (r : V) : V → α :=
  raise next (Fintype.card V) val r

theorem raiseAll_of_raised (hx : Raised next val (val r) r x) : raiseAll next val r x = val r :=
  (raise_spec _ val r below_le_card x).1 hx

theorem raiseAll_of_not_raised (hx : ¬ Raised next val (val r) r x) :
    raiseAll next val r x = val x :=
  (raise_spec _ val r below_le_card x).2 hx

theorem le_raiseAll (next : V → Option V) (val : V → α) (r x : V) : val x ≤ raiseAll next val r x := by
  by_cases hx : Raised next val (val r) r x
  · rw [raiseAll_of_raised hx]
    rcases hx.eq_or_lt with rfl | h
    · exact le_rfl
    · exact h.le
  · rw [raiseAll_of_not_raised hx]

/-- **A walk repairs monotonicity.** -/
theorem raiseAll_mono (next : V → Option V) (val : V → α) (r : V)
    (h : ∀ x y, next x = some y → x ≠ r → val x ≤ val y) (he : next x = some y) :
    raiseAll next val r x ≤ raiseAll next val r y := by
  by_cases hx : Raised next val (val r) r x
  · rw [raiseAll_of_raised hx]
    by_cases hy : val y < val r
    · rw [raiseAll_of_raised (.next hx he hy)]
    · exact (not_lt.mp hy).trans (le_raiseAll next val r y)
  · have hxr : x ≠ r := by rintro rfl; exact hx .here
    rw [raiseAll_of_not_raised hx]
    exact (h x y he hxr).trans (le_raiseAll next val r y)

end Pintos.Lib.Raising
