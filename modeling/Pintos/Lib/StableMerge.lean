import Mathlib.Tactic
import Mathlib.Order.Defs.Unbundled

/-! # Stable merges

A list is sorted by a strict order `less` when no element is before its predecessor. `Stable` says that
a list has the elements of another one, those that tie in the same order; `descents` counts the places
where a list falls, one less than the runs it is made of. Merging two sorted lists, the left one first
where they tie, is sorted and stable. -/

namespace Pintos.Lib.StableMerge

variable {α : Type} (less : α → α → Bool)

/-- The order of a sorted list: `b` is not before `a`. -/
def notAfter (a b : α) : Bool := !less b a

/-- Neither is before the other. -/
def tied (a b : α) : Bool := !less a b && !less b a

/-- The elements of `ys` are those of `xs`, and those that tie keep their order. -/
structure Stable (xs ys : List α) : Prop where
  perm : ys.Perm xs
  ties : ∀ c, ys.filter (tied less c) = xs.filter (tied less c)

/-- The places where the list falls. -/
def descents : List α → ℕ
  | a :: b :: l => (if less b a then 1 else 0) + descents (b :: l)
  | _ => 0

namespace Stable

variable {less} {xs ys zs xs' ys' : List α}

theorem refl : Stable less xs xs := ⟨List.Perm.refl _, fun _ => rfl⟩

theorem trans (h : Stable less xs ys) (h' : Stable less ys zs) : Stable less xs zs :=
  ⟨h'.perm.trans h.perm, fun c => (h'.ties c).trans (h.ties c)⟩

theorem append (h : Stable less xs ys) (h' : Stable less xs' ys') : Stable less (xs ++ xs') (ys ++ ys') :=
  ⟨h.perm.append h'.perm, fun c => by rw [List.filter_append, List.filter_append, h.ties, h'.ties]⟩

end Stable

/-! ### Runs -/

variable {less}

theorem descents_eq_zero_iff : ∀ {l : List α}, descents less l = 0 ↔ l.IsChain fun a b => notAfter less a b
  | [] => by simp [descents]
  | [a] => by simp [descents]
  | a :: b :: l => by
    rw [descents, Nat.add_eq_zero_iff, descents_eq_zero_iff, List.isChain_cons_cons]
    simp [notAfter]

theorem descents_le_length : ∀ l : List α, descents less l ≤ l.length
  | [] => le_rfl
  | [a] => Nat.zero_le _
  | a :: b :: l => by
    have := descents_le_length (b :: l)
    rw [descents, List.length_cons]
    split_ifs <;> omega

/-- One more fall, at most, where two lists meet. -/
theorem descents_append_le : ∀ l l' : List α, descents less (l ++ l') ≤ descents less l + 1 + descents less l'
  | [], l' => by simp
  | [a], [] => by simp [descents]
  | [a], b :: l' => by
    simp only [List.cons_append, List.nil_append, descents]
    split_ifs <;> omega
  | a :: b :: l, l' => by
    have := descents_append_le (b :: l) l'
    simp only [List.cons_append, descents] at this ⊢
    omega

/-- The falls of a run and of what follows it. -/
theorem descents_run_append {a b : α} {r : List α} (hb : less b a) : ∀ {l : List α},
    (l ++ [a]).IsChain (fun x y => notAfter less x y) → descents less (l ++ [a] ++ b :: r) = 1 + descents less
      (b :: r)
  | [], _ => by simp [descents, hb]
  | [x], h => by
    have hx : less a x = false := by simpa [notAfter] using h
    simp [descents, hb, hx]
  | x :: y :: l, h => by
    obtain ⟨hxy, htail⟩ := List.isChain_cons_cons.mp h
    have hx : less y x = false := by simpa [notAfter] using hxy
    have ih := descents_run_append (l := y :: l) (r := r) hb htail
    simp only [List.cons_append, descents, hx, Bool.false_eq_true, if_false] at ih ⊢
    omega

/-- A sorted list is known by the elements that tie with each other. -/
theorem eq_of_ties : ∀ {xs ys : List α}, xs.Pairwise (fun a b => less b a = false) →
    ys.Pairwise (fun a b => less b a = false) → (∀ e, less e e = false) →
    (∀ e, xs.filter (tied less e) = ys.filter (tied less e)) → xs = ys
  | [], [], _, _, _, _ => rfl
  | [], y :: ys, _, _, hirr, h => by
    have hy := h y
    rw [List.filter_cons_of_pos (by simp [tied, hirr])] at hy
    cases hy
  | x :: xs, [], _, _, hirr, h => by
    have hx := h x
    rw [List.filter_cons_of_pos (by simp [tied, hirr])] at hx
    cases hx
  | x :: xs, y :: ys, hxs, hys, hirr, h => by
    obtain ⟨hx, hxs'⟩ := List.pairwise_cons.mp hxs
    obtain ⟨hy, hys'⟩ := List.pairwise_cons.mp hys
    have hself : ∀ e, tied less e e = true := fun e => by simp [tied, hirr]
    have hxy : tied less x y = true := by
      have hmx : x ∈ (y :: ys).filter (tied less x) := by
        rw [← h x, List.filter_cons_of_pos (hself x)]
        exact List.mem_cons_self
      have hmy : y ∈ (x :: xs).filter (tied less y) := by
        rw [h y, List.filter_cons_of_pos (hself y)]
        exact List.mem_cons_self
      have h1 : less x y = false := by
        rcases List.mem_cons.mp (List.mem_of_mem_filter hmx) with rfl | hm
        · exact hirr x
        · exact hy x hm
      have h2 : less y x = false := by
        rcases List.mem_cons.mp (List.mem_of_mem_filter hmy) with rfl | hm
        · exact hirr y
        · exact hx y hm
      simp [tied, h1, h2]
    have hhead := h x
    rw [List.filter_cons_of_pos (hself x), List.filter_cons_of_pos hxy] at hhead
    obtain rfl : x = y := (List.cons.inj hhead).1
    refine congrArg (x :: ·) (eq_of_ties hxs' hys' hirr fun e => ?_)
    have he := h e
    rw [List.filter_cons, List.filter_cons] at he
    split_ifs at he
    · exact (List.cons.inj he).2
    · exact he

/-! ### Merging -/

variable [IsStrictWeakOrder α fun a b => less a b]

theorem asymm_less {a b : α} (h : less a b = true) : less b a = false :=
  Bool.eq_false_iff.mpr (asymm_of (fun a b => less a b = true) h)

theorem notAfter_total (a b : α) : (notAfter less a b || notAfter less b a) = true := by
  rcases hab : less a b
  · simp [notAfter, hab]
  · simp [notAfter, asymm_less hab]

theorem notAfter_trans (a b c : α) (hab : notAfter less a b = true) (hbc : notAfter less b c = true) :
    notAfter less a c = true := by
  simp only [notAfter, Bool.not_eq_true'] at *
  by_contra hca
  rw [Bool.not_eq_false] at hca
  have hab' : less a b = false := by
    by_contra h
    rw [Bool.not_eq_false] at h
    exact absurd (trans_of (fun a b => less a b = true) hca h) (by simp [hbc])
  have hbc' : less b c = false := by
    by_contra h
    rw [Bool.not_eq_false] at h
    exact absurd (trans_of (fun a b => less a b = true) h hca) (by simp [hab])
  have htie := @IsStrictWeakOrder.incomp_trans α (fun a b => less a b = true) _ a b c (by simp [hab, hab'])
    (by simp [hbc, hbc'])
  exact htie.2 hca

theorem pairwise_of_isChain {l : List α} (h : l.IsChain fun a b => notAfter less a b) :
    l.Pairwise fun a b => notAfter less a b := by
  have : IsTrans α fun a b => notAfter less a b = true := ⟨notAfter_trans⟩
  exact List.isChain_iff_pairwise.mp h

/-- An element before the head of a sorted list ties with none of it. -/
theorem filter_tied_eq_nil {x y c : α} {l : List α} (hl : (x :: l).Pairwise fun a b => notAfter less a b)
    (hyx : less y x = true) (hc : tied less c y = true) : (x :: l).filter (tied less c) = [] := by
  rw [List.filter_eq_nil_iff]
  intro z hz htie
  have hxz : notAfter less x z = true := by
    rcases List.mem_cons.mp hz with rfl | hz
    · simpa using notAfter_total z z
    · exact (List.pairwise_cons.mp hl).1 z hz
  simp only [tied, Bool.and_eq_true, Bool.not_eq_true'] at hc htie
  have hzy : notAfter less z y = true :=
    notAfter_trans z c y (by simp [notAfter, htie.1]) (by simp [notAfter, hc.2])
  have hxy : notAfter less x y = true := notAfter_trans x z y hxz hzy
  simp [notAfter, hyx] at hxy

/-- **A merge of sorted lists is stable.** -/
theorem stable_merge : ∀ {l l' : List α}, l.Pairwise (fun a b => notAfter less a b) →
    l'.Pairwise (fun a b => notAfter less a b) → Stable less (l ++ l') (l.merge l' (notAfter less))
  | [], l', _, _ => by simpa using Stable.refl
  | x :: l, [], _, _ => by simpa using Stable.refl
  | x :: l, y :: l', hl, hl' => by
    refine ⟨List.merge_perm_append _, fun c => ?_⟩
    by_cases hxy : notAfter less x y = true
    · have ih := (stable_merge (List.pairwise_cons.mp hl).2 hl').ties c
      rw [List.cons_merge_cons_pos _ _ _ hxy, List.cons_append, List.filter_cons, List.filter_cons, ih]
    · have ih := (stable_merge hl (List.pairwise_cons.mp hl').2).ties c
      have hyx : less y x = true := by simpa [notAfter] using hxy
      rw [List.cons_merge_cons_neg _ _ _ hxy, List.filter_cons, ih, List.filter_append, List.filter_append,
        List.filter_cons (x := y)]
      by_cases hc : tied less c y = true
      · rw [if_pos hc, if_pos hc, filter_tied_eq_nil hl hyx hc, List.nil_append, List.nil_append]
      · rw [if_neg hc, if_neg hc]

theorem isChain_merge {l l' : List α} (hl : l.IsChain fun a b => notAfter less a b)
    (hl' : l'.IsChain fun a b => notAfter less a b) :
    (l.merge l' (notAfter less)).IsChain fun a b => notAfter less a b :=
  (List.pairwise_merge notAfter_trans notAfter_total l l' (pairwise_of_isChain hl) (pairwise_of_isChain hl')).isChain

end Pintos.Lib.StableMerge
