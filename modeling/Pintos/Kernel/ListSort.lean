import Pintos.Lib.StableMerge
import Pintos.Kernel.ListLinks

/-! # Sorting a list

`list_sort` of `lib/kernel/list.c`, a natural merge sort in place: each pass merges the runs of the list
two by two, and the last pass finds one run. The loops take an amount of fuel, and every amount greater
than the length of the list is enough. The number of runs is a natural number: a list has less than 2³²
elements, each at an address of its own. -/

namespace Pintos.Kernel.ListSort

open Pintos.Lib.Ops Pintos.Lib.StableMerge Pintos.Kernel.ListLinks

variable {E : Type} [DecidableEq E] (less : E → E → Bool)

/-- The loop of `is_sorted`. -/
def isSortedLoop (b : E) : ℕ → E → Op (Links E) Bool
  | 0, _ => halt
  | fuel + 1, a => do
    let a ← listNext a
    if a = b then pure true else do
      let p ← listPrev a
      if less a p then pure false else isSortedLoop b fuel a

/-- `is_sorted`. -/
def isSorted (fuel : ℕ) (a b : E) : Op (Links E) Bool := if a ≠ b then isSortedLoop less b fuel a else pure true

/-- The loop of `find_end_of_run`. -/
def findEndOfRunLoop (b : E) : ℕ → E → Op (Links E) E
  | 0, _ => halt
  | fuel + 1, a => do
    let a ← listNext a
    if a = b then pure a else do
      let p ← listPrev a
      if less a p then pure a else findEndOfRunLoop b fuel a

/-- `find_end_of_run`. -/
def findEndOfRun (fuel : ℕ) (a b : E) : Op (Links E) E := do
  assert (a ≠ b)
  findEndOfRunLoop less b fuel a

/-- The loop of `inplace_merge`. -/
def inplaceMergeLoop (b1 : E) : ℕ → E → E → Op (Links E) Unit
  | 0, _, _ => halt
  | fuel + 1, a0, a1b0 =>
    if a0 ≠ a1b0 ∧ a1b0 ≠ b1 then
      if !less a1b0 a0 then do
        let a0 ← listNext a0
        inplaceMergeLoop b1 fuel a0 a1b0
      else do
        let a1b0 ← listNext a1b0
        let first ← listPrev a1b0
        listSplice a0 first a1b0
        inplaceMergeLoop b1 fuel a0 a1b0
    else pure ()

/-- `inplace_merge`. -/
def inplaceMerge (fuel : ℕ) (a0 a1b0 b1 : E) : Op (Links E) Unit := do
  let sorted ← isSorted less fuel a0 a1b0
  assert sorted
  let sorted ← isSorted less fuel a1b0 b1
  assert sorted
  inplaceMergeLoop less b1 fuel a0 a1b0

/-- One pass of `list_sort`, from `a0` on; it returns `output_run_cnt`. -/
def passLoop (l : KList E) (fuel : ℕ) : ℕ → E → ℕ → Op (Links E) ℕ
  | 0, _, _ => halt
  | rounds + 1, a0, output_run_cnt =>
    if a0 ≠ listEnd l then do
      let a1b0 ← findEndOfRun less fuel a0 (listEnd l)
      if a1b0 = listEnd l then pure (output_run_cnt + 1) else do
        let b1 ← findEndOfRun less fuel a1b0 (listEnd l)
        inplaceMerge less fuel a0 a1b0 b1
        passLoop l fuel rounds b1 (output_run_cnt + 1)
    else pure output_run_cnt

/-- The passes of `list_sort`. -/
def listSortLoop (l : KList E) (fuel : ℕ) : ℕ → Op (Links E) Unit
  | 0 => halt
  | passes + 1 => do
    let a0 ← listBegin l
    let output_run_cnt ← passLoop less l fuel fuel a0 0
    if 1 < output_run_cnt then listSortLoop l fuel passes else pure ()

/-- `list_sort`. -/
def listSort (fuel : ℕ) (l : KList E) : Op (Links E) Unit := do
  listSortLoop less l fuel fuel
  let a ← listBegin l
  let sorted ← isSorted less fuel a (listEnd l)
  assert sorted

variable {less} {m : Links E} {l : KList E} {P A B S Q : List E} {x : E} {fuel : ℕ}

/-! ### Runs -/

theorem isSortedLoop_yields : ∀ {fuel : ℕ} {P A : List E} {x : E}, Linked m l (P ++ x :: (A ++ S)) →
    (x :: A).IsChain (fun a b => notAfter less a b) → A.length < fuel →
    Yields (isSortedLoop less (cursor l S) fuel x) m fun r m' => r = true ∧ m' = m
  | 0, _, _, _, _, _, hfuel => absurd hfuel (Nat.not_lt_zero _)
  | fuel + 1, P, [], x, h, _, _ => by
    refine Yields.bind (h.listNext_yields ?_)
    rw [List.nil_append, if_pos rfl]
    exact Yields.pure ⟨rfl, rfl⟩
  | fuel + 1, P, y :: A, x, h, hchain, hfuel => by
    obtain ⟨hxy, htail⟩ := List.isChain_cons_cons.mp hchain
    have hnext : Linked m l ((P ++ [x]) ++ y :: (A ++ S)) := by simpa using h
    refine Yields.bind (h.listNext_yields ?_)
    rw [List.cons_append, cursor_cons, if_neg hnext.cursor_ne]
    refine Yields.bind (h.listPrev_yields ?_)
    rw [if_neg (by simpa [notAfter] using hxy)]
    exact isSortedLoop_yields hnext htail (Nat.lt_of_succ_lt_succ hfuel)

/-- **`is_sorted`** of a run. -/
theorem isSorted_yields (h : Linked m l (P ++ A ++ S)) (hchain : A.IsChain fun a b => notAfter less a b)
    (hfuel : A.length < fuel) :
    Yields (isSorted less fuel (cursor l (A ++ S)) (cursor l S)) m fun r m' => r = true ∧ m' = m := by
  unfold isSorted
  cases A with
  | nil =>
    rw [List.nil_append, if_neg (not_not_intro rfl)]
    exact Yields.pure ⟨rfl, rfl⟩
  | cons x A =>
    have h' : Linked m l (P ++ x :: (A ++ S)) := by simpa using h
    rw [List.cons_append, cursor_cons, if_pos h'.cursor_ne]
    exact isSortedLoop_yields h' hchain (Nat.lt_of_succ_lt hfuel)

/-- The list `Q` begins with the run `R ++ [z]` and goes on with `S`, which is empty or falls. -/
structure FirstRun (less : E → E → Bool) (Q R : List E) (z : E) (S : List E) : Prop where
  eq : Q = R ++ [z] ++ S
  run : (R ++ [z]).IsChain fun a b => notAfter less a b
  falls : ∀ s ∈ S.head?, less s z = true

theorem findEndOfRunLoop_yields : ∀ {fuel : ℕ} {P Q : List E} {x : E}, Linked m l (P ++ x :: Q) → Q.length < fuel →
    Yields (findEndOfRunLoop less l.tail fuel x) m fun c m' =>
      m' = m ∧ ∃ R z S, FirstRun less (x :: Q) R z S ∧ c = cursor l S
  | 0, _, _, _, _, hfuel => absurd hfuel (Nat.not_lt_zero _)
  | fuel + 1, P, [], x, h, _ => by
    refine Yields.bind (h.listNext_yields ?_)
    rw [if_pos cursor_nil]
    exact Yields.pure ⟨rfl, [], x, [], ⟨rfl, by simp, by simp⟩, rfl⟩
  | fuel + 1, P, y :: Q, x, h, hfuel => by
    have hnext : Linked m l ((P ++ [x]) ++ y :: Q) := by simpa using h
    refine Yields.bind (h.listNext_yields ?_)
    rw [cursor_cons, if_neg hnext.ne_tail]
    refine Yields.bind (h.listPrev_yields ?_)
    by_cases hless : less y x = true
    · rw [if_pos hless]
      exact Yields.pure ⟨rfl, [], x, y :: Q, ⟨rfl, by simp, by simpa using hless⟩, rfl⟩
    · rw [if_neg hless]
      refine (findEndOfRunLoop_yields hnext (Nat.lt_of_succ_lt_succ hfuel)).mono ?_
      rintro _ _ ⟨rfl, R, z, S, hrun, rfl⟩
      refine ⟨rfl, x :: R, z, S, ⟨by rw [hrun.eq]; rfl, ?_, hrun.falls⟩, rfl⟩
      refine List.isChain_cons.mpr ⟨fun w hw => ?_, hrun.run⟩
      obtain rfl : y = w := by
        have heq := congrArg List.head? hrun.eq
        rw [List.head?_append, show (R ++ [z]).head? = some w from hw] at heq
        simpa using heq
      simpa [notAfter] using hless

/-- **`find_end_of_run`** finds the first run of what is left. -/
theorem findEndOfRun_yields {c : E} (h : Linked m l (P ++ c :: Q)) (hfuel : Q.length < fuel) :
    Yields (findEndOfRun less fuel c l.tail) m fun c' m' =>
      m' = m ∧ ∃ R z S, FirstRun less (c :: Q) R z S ∧ c' = cursor l S :=
  Yields.bind (Yields.assert (decide_eq_true h.ne_tail) (findEndOfRunLoop_yields h hfuel))

/-! ### Merging two runs -/

/-- **The loop of `inplace_merge`**: the list is `P`, then what is left of the two runs, then `S`. -/
theorem inplaceMergeLoop_yields : ∀ {fuel : ℕ} {m : Links E} {P A B : List E}, Linked m l (P ++ A ++ B ++ S) →
    A.length + B.length < fuel →
    Yields (inplaceMergeLoop less (cursor l S) fuel (cursor l (A ++ B ++ S)) (cursor l (B ++ S))) m fun _ m' =>
      Linked m' l (P ++ A.merge B (notAfter less) ++ S)
  | 0, _, _, _, _, _, hfuel => absurd hfuel (Nat.not_lt_zero _)
  | fuel + 1, m, P, [], B, h, _ => by
    rw [inplaceMergeLoop, List.nil_append, if_neg fun hne => hne.1 rfl]
    exact Yields.pure (by simpa using h)
  | fuel + 1, m, P, x :: A, [], h, _ => by
    rw [inplaceMergeLoop, List.nil_append, if_neg fun hne => hne.2 rfl]
    exact Yields.pure (by simpa using h)
  | fuel + 1, m, P, x :: A, y :: B, h, hfuel => by
    have hx : Linked m l (P ++ x :: (A ++ y :: (B ++ S))) := by simpa using h
    have hy : Linked m l ((P ++ x :: A) ++ y :: (B ++ S)) := by simpa using h
    simp only [List.length_cons] at hfuel
    simp only [List.cons_append, List.append_assoc, cursor_cons]
    rw [inplaceMergeLoop, if_pos ⟨hx.cursor_ne, hy.cursor_ne⟩]
    by_cases hless : less y x = true
    · rw [if_neg (by simp [hless]), List.cons_merge_cons_neg _ _ _ (by simp [notAfter, hless])]
      refine Yields.bind (hy.listNext_yields (Yields.bind (hy.listPrev_yields ?_)))
      refine Yields.bind (hy.listSplice_yields.mono fun _ m' hm' => ?_)
      have hm : Linked m' l ((P ++ [y]) ++ (x :: A) ++ B ++ S) := by simpa using hm'
      have hlt : (x :: A).length + B.length < fuel := by
        rw [List.length_cons]
        omega
      simpa using inplaceMergeLoop_yields hm hlt
    · rw [if_pos (by simp [hless]), List.cons_merge_cons_pos _ _ _ (by simp [notAfter, hless])]
      refine Yields.bind (hx.listNext_yields ?_)
      have hm : Linked m l ((P ++ [x]) ++ A ++ (y :: B) ++ S) := by simpa using h
      have hlt : A.length + (y :: B).length < fuel := by
        rw [List.length_cons]
        omega
      simpa using inplaceMergeLoop_yields hm hlt

/-- **`inplace_merge`** of two runs: its assertions hold. -/
theorem inplaceMerge_yields (h : Linked m l (P ++ A ++ B ++ S)) (hA : A.IsChain fun a b => notAfter less a b)
    (hB : B.IsChain fun a b => notAfter less a b) (hfuel : A.length + B.length < fuel) :
    Yields (inplaceMerge less fuel (cursor l (A ++ B ++ S)) (cursor l (B ++ S)) (cursor l S)) m fun _ m' =>
      Linked m' l (P ++ A.merge B (notAfter less) ++ S) := by
  have h' : Linked m l (P ++ A ++ (B ++ S)) := by simpa using h
  have hAlt : A.length < fuel := by omega
  have hBlt : B.length < fuel := by omega
  have hsorted := isSorted_yields h' hA hAlt
  rw [← List.append_assoc] at hsorted
  refine Yields.bind (hsorted.mono ?_)
  rintro _ _ ⟨hr, rfl⟩
  refine Yields.bind (Yields.assert hr (Yields.bind ((isSorted_yields h hB hBlt).mono ?_)))
  rintro _ _ ⟨hr, rfl⟩
  exact Yields.bind (Yields.assert hr (inplaceMergeLoop_yields h hfuel))

/-! ### The passes -/

omit [DecidableEq E] in
theorem FirstRun.descents_eq {R : List E} {z : E} (h : FirstRun less Q R z S) :
    descents less Q = if S = [] then 0 else 1 + descents less S := by
  rw [h.eq]
  cases S with
  | nil => simpa using descents_eq_zero_iff.mpr h.run
  | cons s S =>
    rw [if_neg (List.cons_ne_nil _ _)]
    exact descents_run_append (h.falls s rfl) h.run

variable [IsStrictWeakOrder E fun a b => less a b]

/-- What a pass makes of the elements `Q`. -/
structure Passed (less : E → E → Bool) (Q ys : List E) : Prop where
  stable : Stable less Q ys
  halves : descents less ys ≤ descents less Q / 2

omit [DecidableEq E] in
/-- Two runs merged, and a pass over the rest. -/
theorem Passed.merge {R R' ys : List E} {z z' b : E} (hrun : FirstRun less Q R z (b :: B))
    (hrun' : FirstRun less (b :: B) R' z' S) (hys : Passed less S ys) :
    Passed less Q ((R ++ [z]).merge (R' ++ [z']) (notAfter less) ++ ys) := by
  refine ⟨?_, ?_⟩
  · rw [hrun.eq, hrun'.eq, ← List.append_assoc]
    exact (stable_merge (pairwise_of_isChain hrun.run) (pairwise_of_isChain hrun'.run)).append hys.stable
  · have hmerged := descents_eq_zero_iff.mpr (isChain_merge hrun.run hrun'.run)
    set merged := (R ++ [z]).merge (R' ++ [z']) (notAfter less)
    have happend : descents less (merged ++ ys) ≤ descents less merged + 1 + descents less ys :=
      descents_append_le merged ys
    have hhalves := hys.halves
    rw [hrun.descents_eq, if_neg (List.cons_ne_nil _ _), hrun'.descents_eq]
    split_ifs with hS
    · obtain rfl : ys = [] := List.perm_nil.mp (hS ▸ hys.stable.perm)
      rw [List.append_nil, hmerged]
    · omega

/-- **A pass** halves the falls of the list, and counts the runs it leaves. -/
theorem passLoop_yields : ∀ {rounds : ℕ} {m : Links E} {P Q : List E} {cnt : ℕ}, Linked m l (P ++ Q) →
    Q.length < rounds →
    Q.length < fuel → Yields (passLoop less l fuel rounds (cursor l Q) cnt) m fun cnt' m' =>
      ∃ ys, Linked m' l (P ++ ys) ∧ Passed less Q ys ∧ cnt' = if Q = [] then cnt else cnt + descents less Q / 2 + 1
  | 0, _, _, _, _, _, hrounds, _ => absurd hrounds (Nat.not_lt_zero _)
  | rounds + 1, m, P, [], cnt, h, _, _ => by
    rw [passLoop, if_neg (by simp [listEnd])]
    exact Yields.pure ⟨[], h, ⟨Stable.refl, by simp [descents]⟩, rfl⟩
  | rounds + 1, m, P, x :: Q, cnt, h, hrounds, hfuel => by
    rw [passLoop, if_pos (by simpa [listEnd] using h.ne_tail)]
    refine Yields.bind ((findEndOfRun_yields h (Nat.lt_of_succ_lt hfuel)).mono ?_)
    rintro _ m ⟨rfl, R, z, S, hrun, rfl⟩
    rw [if_neg (List.cons_ne_nil _ _)]
    have hdescents := hrun.descents_eq
    cases S with
    | nil =>
      rw [if_pos (show cursor l [] = listEnd l from rfl)]
      rw [if_pos rfl] at hdescents
      exact Yields.pure ⟨x :: Q, h, ⟨Stable.refl, by rw [hdescents]⟩, by rw [hdescents]⟩
    | cons b S =>
      have hlen : Q.length + 1 = R.length + (S.length + 1 + 1) := by simpa using congrArg List.length hrun.eq
      simp only [List.length_cons] at hrounds hfuel
      have hb : Linked m l ((P ++ (R ++ [z])) ++ b :: S) := by simpa [hrun.eq] using h
      have hlt : S.length < fuel := by omega
      rw [cursor_cons, if_neg (by simpa [listEnd] using hb.ne_tail)]
      refine Yields.bind ((findEndOfRun_yields hb hlt).mono ?_)
      rintro _ m ⟨rfl, R', z', S', hrun', rfl⟩
      have hlen' : S.length + 1 = R'.length + (S'.length + 1) := by simpa using congrArg List.length hrun'.eq
      have hm : Linked m l (P ++ (R ++ [z]) ++ (R' ++ [z']) ++ S') := by simpa [hrun'.eq] using hb
      have hlt' : (R ++ [z]).length + (R' ++ [z']).length < fuel := by
        simp only [List.length_append, List.length_singleton]
        omega
      have hmerge := inplaceMerge_yields hm hrun.run hrun'.run hlt'
      rw [List.append_assoc, ← hrun'.eq, ← hrun.eq] at hmerge
      refine Yields.bind (hmerge.mono fun _ m' hm' => ?_)
      refine (passLoop_yields hm' (by omega) (by omega)).mono ?_
      rintro cnt' m'' ⟨ys, hys, hpassed, rfl⟩
      refine ⟨_, ?_, Passed.merge hrun hrun' hpassed, ?_⟩
      · rwa [← List.append_assoc]
      · rw [hdescents, if_neg (List.cons_ne_nil _ _), hrun'.descents_eq]
        split_ifs <;> omega

/-- **The passes** come to an end with one run. -/
theorem listSortLoop_yields : ∀ {passes : ℕ} {m : Links E} {xs : List E}, Linked m l xs → descents less xs < passes →
    xs.length < fuel → Yields (listSortLoop less l fuel passes) m fun _ m' =>
      ∃ ys, Linked m' l ys ∧ Stable less xs ys ∧ descents less ys = 0
  | 0, _, _, _, hpasses, _ => absurd hpasses (Nat.not_lt_zero _)
  | passes + 1, m, xs, h, hpasses, hfuel => by
    refine Yields.bind (h.listBegin_yields (Yields.bind ?_))
    refine (passLoop_yields (P := []) h hfuel hfuel).mono ?_
    rintro cnt m' ⟨ys, hys, hpassed, rfl⟩
    have hhalves := hpassed.halves
    split_ifs with hxs hcnt hcnt
    · omega
    · obtain rfl : ys = [] := List.perm_nil.mp (hxs ▸ hpassed.stable.perm)
      exact Yields.pure ⟨[], hys, hpassed.stable, rfl⟩
    · have hlen := hpassed.stable.perm.length_eq
      rw [List.nil_append] at hys
      refine (listSortLoop_yields hys (by omega) (by omega)).mono ?_
      rintro _ m'' ⟨zs, hzs, hstable, hzero⟩
      exact ⟨zs, hzs, hpassed.stable.trans hstable, hzero⟩
    · exact Yields.pure ⟨ys, hys, hpassed.stable, by omega⟩

/-- **`list_sort`**: with any fuel greater than the length of the list it returns, without a failed assertion,
and leaves the same elements, linked both ways, none before its predecessor, those that tie in their order. -/
theorem listSort_sorts {xs : List E} (h : Linked m l xs) (hfuel : xs.length < fuel) :
    Yields (listSort less fuel l) m fun _ m' => ∃ ys, Linked m' l ys ∧ ys.Perm xs ∧
      ys.Pairwise (fun a b => less b a = false) ∧ ∀ c, ys.filter (tied less c) = xs.filter (tied less c) := by
  have hdescents : descents less xs ≤ xs.length := descents_le_length xs
  refine Yields.bind ((listSortLoop_yields h (hdescents.trans_lt hfuel) hfuel).mono ?_)
  rintro _ m' ⟨ys, hys, hstable, hzero⟩
  have hchain := descents_eq_zero_iff.mp hzero
  have hlt : ys.length < fuel := hstable.perm.length_eq ▸ hfuel
  have hall : Linked m' l ([] ++ ys ++ []) := by simpa using hys
  have hsorted := isSorted_yields hall hchain hlt
  rw [List.append_nil] at hsorted
  refine Yields.bind (hys.listBegin_yields (Yields.bind (hsorted.mono ?_)))
  rintro _ _ ⟨hr, rfl⟩
  refine Yields.assert hr ⟨ys, hys, hstable.perm, ?_, hstable.ties⟩
  exact (pairwise_of_isChain hchain).imp fun hab => by simpa [notAfter] using hab

/-- A list of three elements, that are compared by their tens. -/
def threeLinks : Links ℕ where
  next := fun e =>
    if e = 0 then some 21 else if e = 21 then some 11 else if e = 11 then some 20 else if e = 20 then some 1 else none
  prev := fun e =>
    if e = 1 then some 20 else if e = 20 then some 11 else if e = 11 then some 21 else if e = 21 then some 0 else none

theorem threeLinks_linked : Linked threeLinks ⟨0, 1⟩ [21, 11, 20] := by
  refine ⟨by decide, ?_, ?_, ?_⟩
  · simp [Link, threeLinks]
  · simp [threeLinks]
  · simp [threeLinks]

instance isStrictWeakOrder_tens : IsStrictWeakOrder ℕ fun a b => decide (a / 10 < b / 10) = true where
  irrefl := by simp
  trans := by
    simp only [decide_eq_true_eq]
    omega
  incomp_trans := by
    simp only [decide_eq_true_eq]
    omega

theorem listSort_sorts_three : Yields (listSort (fun a b => decide (a / 10 < b / 10)) 4 ⟨0, 1⟩) threeLinks fun _ m' =>
    ∃ ys, Linked m' ⟨0, 1⟩ ys ∧ ys.Perm [21, 11, 20] ∧ ys.Pairwise (fun a b => decide (b / 10 < a / 10) = false) ∧
      ∀ c, ys.filter (tied (fun a b => decide (a / 10 < b / 10)) c) =
        [21, 11, 20].filter (tied (fun a b => decide (a / 10 < b / 10)) c) :=
  listSort_sorts threeLinks_linked (by decide)

end Pintos.Kernel.ListSort
