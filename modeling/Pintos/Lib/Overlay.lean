import Mathlib.Tactic

/-! # Slices and overlays

A store of values by position, a slice of it as a list, and a list laid over it from some position on. Both
can be taken in pieces, which is what a copy loop does. -/

namespace Pintos.Lib.Overlay

variable {β : Type*} {f g : ℕ → β} {ofs n p : ℕ}

/-- The `n` values of `f` from `ofs` on. -/
def slice (f : ℕ → β) (ofs n : ℕ) : List β := (List.range' ofs n).map f

/-- `f` with `bytes` laid over it from `ofs` on. -/
def overlay (f : ℕ → β) (ofs : ℕ) (bytes : List β) : ℕ → β := fun p =>
  if ofs ≤ p then (bytes[p - ofs]?).getD (f p) else f p

@[simp] theorem length_slice : (slice f ofs n).length = n := by simp [slice]

@[simp] theorem slice_zero : slice f ofs 0 = [] := rfl

theorem slice_append (f : ℕ → β) (ofs m n : ℕ) :
    slice f ofs (m + n) = slice f ofs m ++ slice f (ofs + m) n := by
  have hr : List.range' ofs (m + n) = List.range' ofs m ++ List.range' (ofs + m) n := by
    rw [← List.range'_append, one_mul]
  rw [slice, hr, List.map_append]
  rfl

theorem slice_succ (f : ℕ → β) (ofs n : ℕ) : slice f ofs (n + 1) = f ofs :: slice f (ofs + 1) n := by
  rw [Nat.add_comm n 1, slice_append]
  rfl

theorem mem_slice {x : β} : x ∈ slice f ofs n ↔ ∃ p, (ofs ≤ p ∧ p < ofs + n) ∧ f p = x := by
  simp [slice, List.mem_map, List.mem_range'_1]

theorem getElem?_slice (h : p < n) : (slice f ofs n)[p]? = some (f (ofs + p)) := by
  simp [slice, h]

/-- A slice without repetitions tells its positions apart. -/
theorem slice_injective (hn : (slice f ofs n).Nodup) {q : ℕ} (hp : ofs ≤ p ∧ p < ofs + n)
    (hq : ofs ≤ q ∧ q < ofs + n) (h : f p = f q) : p = q :=
  List.inj_on_of_nodup_map hn (List.mem_range'_1.mpr hp) (List.mem_range'_1.mpr hq) h

/-- A slice that continues another agrees with it, and is the rest behind it. -/
theorem slice_eq_append {m : ℕ} {xs : List β} (h : slice f ofs n = slice g ofs m ++ xs) :
    (∀ p < m, f (ofs + p) = g (ofs + p)) ∧ ∀ p, m ≤ p → p < n → f (ofs + p) ∈ xs := by
  have hlen := congrArg List.length h
  rw [List.length_append, length_slice, length_slice] at hlen
  refine ⟨fun p hp => ?_, fun p h1 h2 => ?_⟩
  · have hi := congrArg (fun l => l[p]?) h
    simp only [getElem?_slice (by omega : p < n), List.getElem?_append_left
      (by rw [length_slice]; exact hp : p < (slice g ofs m).length), getElem?_slice hp] at hi
    exact Option.some.inj hi
  · have hi := congrArg (fun l => l[p]?) h
    simp only [getElem?_slice h2, List.getElem?_append_right
      (by rw [length_slice]; exact h1 : (slice g ofs m).length ≤ p)] at hi
    exact List.mem_of_getElem? hi.symm

theorem slice_congr (h : ∀ p, ofs ≤ p → p < ofs + n → f p = g p) : slice f ofs n = slice g ofs n := by
  refine List.map_congr_left fun p hp => ?_
  have hm := List.mem_range'_1.mp hp
  exact h p hm.1 hm.2

/-- A slice that starts with a row, taken row by row. The last row may be short. -/
theorem slice_rows {m : ℕ} (hm : 0 < m) (f : ℕ → ℕ → β) : ∀ (c q n : ℕ), n ≤ m * c →
    slice (fun k => f (k / m) (k % m)) (m * q) n =
      (List.range' q c).flatMap fun r => slice (f r) 0 (min m (n + m * q - m * r))
  | 0, q, n, h => by
    obtain rfl : n = 0 := by simpa using h
    rfl
  | c + 1, q, n, h => by
    have hrow : ∀ l ≤ m, slice (fun k => f (k / m) (k % m)) (m * q) l = slice (f q) 0 l := by
      intro l hl
      refine List.ext_getElem (by simp) fun i h1 h2 => ?_
      have hi : i < m := by
        rw [length_slice] at h1
        omega
      have hd : (m * q + i) / m = q := by rw [Nat.mul_add_div hm, Nat.div_eq_of_lt hi, Nat.add_zero]
      have hr : (m * q + i) % m = i := by rw [Nat.mul_add_mod, Nat.mod_eq_of_lt hi]
      simp [slice, hd, hr]
    have hsub : n + m * q - m * q = n := by omega
    rw [List.range'_succ, List.flatMap_cons, hsub]
    rcases Nat.lt_or_ge m n with hn | hn
    · have hq : m * (q + 1) = m * q + m := Nat.mul_succ m q
      have hsplit : n = m + (n - m) := by omega
      have ih := slice_rows hm f c (q + 1) (n - m) (by
        rw [Nat.mul_succ] at h
        omega)
      rw [Nat.min_eq_left hn.le]
      conv_lhs => rw [hsplit, slice_append, hrow m le_rfl, ← hq, ih]
      refine congrArg _ (List.flatMap_congr fun r _ => ?_)
      rw [show n - m + m * (q + 1) = n + m * q by omega]
    · rw [Nat.min_eq_right hn, hrow n hn]
      have hnil : ((List.range' (q + 1) c).flatMap fun r => slice (f r) 0 (min m (n + m * q - m * r))) =
          [] := by
        refine List.flatMap_eq_nil_iff.mpr fun r hr => ?_
        have hle : m * (q + 1) ≤ m * r := Nat.mul_le_mul_left m (List.mem_range'_1.mp hr).1
        rw [Nat.mul_succ] at hle
        have h0 : min m (n + m * q - m * r) = 0 := by omega
        rw [h0]
        rfl
      rw [hnil, List.append_nil]

theorem overlay_of_lt (bytes : List β) (h : p < ofs) : overlay f ofs bytes p = f p :=
  if_neg (by omega)

theorem overlay_of_le {bytes : List β} (h : ofs + bytes.length ≤ p) : overlay f ofs bytes p = f p := by
  rw [overlay, if_pos (by omega), List.getElem?_eq_none (by omega)]
  rfl

theorem overlay_of_mem {bytes : List β} (h1 : ofs ≤ p) (h2 : p - ofs < bytes.length) :
    overlay f ofs bytes p = bytes[p - ofs] := by
  rw [overlay, if_pos h1, List.getElem?_eq_getElem h2]
  rfl

@[simp] theorem overlay_nil (f : ℕ → β) (ofs : ℕ) : overlay f ofs [] = f := by
  funext p
  unfold overlay
  split_ifs <;> rfl

/-- A list is laid over in two pieces. -/
theorem overlay_append (f : ℕ → β) (ofs : ℕ) (a b : List β) :
    overlay f ofs (a ++ b) = overlay (overlay f ofs a) (ofs + a.length) b := by
  funext p
  rcases Nat.lt_or_ge p ofs with h | h
  · rw [overlay_of_lt _ h, overlay_of_lt _ (by omega), overlay_of_lt _ h]
  rcases Nat.lt_or_ge p (ofs + a.length) with h' | h'
  · rw [overlay_of_mem h (by simp; omega), overlay_of_lt _ h', overlay_of_mem h (by omega),
      List.getElem_append_left]
  · have he : p - ofs - a.length = p - (ofs + a.length) := by omega
    simp only [overlay, if_pos h, if_pos h', List.getElem?_append_right (by omega : a.length ≤ p - ofs),
      he, List.getElem?_eq_none (by omega : a.length ≤ p - ofs), Option.getD_none]

theorem overlay_congr (bytes : List β) (h : f p = g p) : overlay f ofs bytes p = overlay g ofs bytes p := by
  unfold overlay
  rw [h]

/-- What is laid over a store is the slice of the result. -/
theorem slice_overlay (f : ℕ → β) (ofs : ℕ) (bytes : List β) :
    slice (overlay f ofs bytes) ofs bytes.length = bytes := by
  refine List.ext_getElem length_slice fun i h1 h2 => ?_
  have he : ofs + i - ofs = i := by omega
  simp [slice, overlay, he, h2]

theorem overlay_singleton (f : ℕ → β) (ofs : ℕ) (x : β) : overlay f ofs [x] = Function.update f ofs x := by
  funext p
  rcases lt_trichotomy p ofs with hp | rfl | hp
  · rw [overlay_of_lt _ hp, Function.update_of_ne hp.ne]
  · rw [overlay_of_mem le_rfl (by simp), Function.update_self]
    simp
  · rw [overlay_of_le (Nat.succ_le_of_lt hp), Function.update_of_ne hp.ne']

/-! ### Lists that stand in a store -/

section Lies

variable {l l' : List β} {x : β}

/-- The list stands in the store from `ofs` on. -/
def LiesAt (f : ℕ → β) (ofs : ℕ) (l : List β) : Prop := slice f ofs l.length = l

theorem liesAt_nil : LiesAt f ofs [] := rfl

theorem liesAt_cons : LiesAt f ofs (x :: l) ↔ f ofs = x ∧ LiesAt f (ofs + 1) l := by
  rw [LiesAt, List.length_cons, slice_succ, List.cons.injEq, LiesAt]

theorem liesAt_append : LiesAt f ofs (l ++ l') ↔ LiesAt f ofs l ∧ LiesAt f (ofs + l.length) l' := by
  rw [LiesAt, List.length_append, slice_append, LiesAt, LiesAt]
  exact ⟨fun h => List.append_inj h length_slice, fun h => congrArg₂ _ h.1 h.2⟩

theorem liesAt_overlay : LiesAt (overlay f ofs l) ofs l := slice_overlay f ofs l

/-- What is laid over the store behind the list. -/
theorem LiesAt.before (h : LiesAt f ofs l) (hp : ofs + l.length ≤ p) (l' : List β) : LiesAt (overlay f p l') ofs l :=
  (slice_congr fun _ _ hq => overlay_of_lt _ (hq.trans_le hp)).trans h

/-- Laying the list over the store once more changes nothing. -/
theorem LiesAt.overlay_eq (h : LiesAt f ofs l) : overlay f ofs l = f := by
  funext p
  rcases lt_or_ge p ofs with h1 | h1
  · exact overlay_of_lt _ h1
  rcases lt_or_ge (p - ofs) l.length with h2 | h2
  · have hget := @getElem?_slice _ f ofs _ _ h2
    rw [show slice f ofs l.length = l from h, Nat.add_sub_cancel' h1] at hget
    rw [overlay_of_mem h1 h2]
    exact (List.getElem_eq_iff h2).mpr hget
  · exact overlay_of_le (by omega)

end Lies

end Pintos.Lib.Overlay
