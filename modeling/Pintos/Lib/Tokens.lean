import Mathlib.Tactic

/-! # Splitting a word into tokens

A word over any alphabet is split at its separators, and empty pieces are dropped: `nextToken` is one
step of the scan, `tokenize` the whole scan, `joinWith` writes tokens back with a separator before each.
The scan only returns words without separators, and it undoes `joinWith`; so `joinWith` is injective
on lists of such words. -/

namespace Pintos.Lib.Tokens

variable {α : Type*} (p : α → Bool)

/-- Skips separators, then returns the next token and what stands behind the separator ending it. -/
def nextToken (s : List α) : Option (List α × List α) :=
  match s.dropWhile p with
  | [] => none
  | c :: s' => some ((c :: s').takeWhile (!p ·), ((c :: s').dropWhile (!p ·)).tail)

/-- At most `n` tokens of `s`. -/
def tokensN : ℕ → List α → List (List α)
  | 0, _ => []
  | n + 1, s =>
    match nextToken p s with
    | none => []
    | some (t, rest) => t :: tokensN n rest

/-- All tokens of `s`. -/
def tokenize (s : List α) : List (List α) := tokensN p s.length s

/-- A word that the scan can return: not empty, and without separators. -/
def IsToken (t : List α) : Prop := t ≠ [] ∧ ∀ c ∈ t, p c = false

instance (t : List α) : Decidable (IsToken p t) := inferInstanceAs (Decidable (_ ∧ _))

/-- The tokens written one after the other, `sep` before each. -/
def joinWith (sep : α) (ts : List (List α)) : List α := ts.flatMap (sep :: ·)

variable {p}

theorem nextToken_length {s t rest : List α} (h : nextToken p s = some (t, rest)) :
    rest.length < s.length := by
  unfold nextToken at h
  have hd : (s.dropWhile p).length ≤ s.length := (List.dropWhile_sublist p).length_le
  rcases hs : s.dropWhile p with _ | ⟨c, s'⟩ <;> rw [hs] at h hd
  · simp at h
  · obtain ⟨-, rfl⟩ := by simpa using h
    have h2 : ((c :: s').dropWhile (!p ·)).length ≤ (c :: s').length :=
      (List.dropWhile_sublist _).length_le
    simp only [List.length_tail, List.length_cons] at *
    omega

theorem nextToken_isToken {s t rest : List α} (h : nextToken p s = some (t, rest)) :
    IsToken p t := by
  unfold nextToken at h
  rcases hs : s.dropWhile p with _ | ⟨c, s'⟩ <;> rw [hs] at h
  · simp at h
  · have hc : p c = false := by
      have := List.head_dropWhile_not p (by rw [hs]; simp)
      simpa [hs] using this
    obtain ⟨rfl, -⟩ := by simpa using h
    refine ⟨by simp [hc], fun d hd => ?_⟩
    have hall := List.all_takeWhile (p := (!p ·)) (l := c :: s')
    simpa using List.all_eq_true.mp hall d hd

theorem tokensN_isToken : ∀ (n : ℕ) (s : List α), ∀ t ∈ tokensN p n s, IsToken p t
  | 0, s => by simp [tokensN]
  | n + 1, s => by
    intro t ht
    unfold tokensN at ht
    rcases hs : nextToken p s with _ | ⟨t', rest⟩ <;> rw [hs] at ht
    · simp at ht
    · rcases List.mem_cons.mp ht with rfl | ht
      · exact nextToken_isToken hs
      · exact tokensN_isToken n rest t ht

/-- The scan returns tokens only. -/
theorem tokenize_isToken (s : List α) : ∀ t ∈ tokenize p s, IsToken p t :=
  tokensN_isToken _ s

/-- Fuel beyond the length of the word finds nothing more. -/
theorem tokensN_of_le : ∀ (n m : ℕ) (s : List α), s.length ≤ n → s.length ≤ m →
    tokensN p n s = tokensN p m s
  | 0, m, s, hn, _ => by
    obtain rfl : s = [] := List.length_eq_zero_iff.mp (by omega)
    cases m <;> simp [tokensN, nextToken]
  | n + 1, 0, s, _, hm => by
    obtain rfl : s = [] := List.length_eq_zero_iff.mp (by omega)
    simp [tokensN, nextToken]
  | n + 1, m + 1, s, hn, hm => by
    unfold tokensN
    rcases hs : nextToken p s with _ | ⟨t, rest⟩
    · rfl
    · have := nextToken_length hs
      simp only [tokensN_of_le n m rest (by omega) (by omega)]

theorem tokenize_of_le {n : ℕ} {s : List α} (h : s.length ≤ n) : tokensN p n s = tokenize p s :=
  tokensN_of_le n _ s h le_rfl

/-! ### The runs between the separators -/

theorem splitOnP_dropWhile : ∀ s : List α,
    ((s.dropWhile p).splitOnP p).filter (· ≠ []) = (s.splitOnP p).filter (· ≠ [])
  | [] => rfl
  | c :: s => by
    by_cases hc : p c = true
    · rw [List.dropWhile_cons_of_pos hc, splitOnP_dropWhile s, List.splitOnP_cons_eq_if_modifyHead, if_pos hc]
      simp
    · rw [List.dropWhile_cons_of_neg hc]

/-- The step of the scan, in the runs. -/
theorem nextToken_runs (s : List α) : (s.splitOnP p).filter (· ≠ []) =
    (nextToken p s).elim [] fun r => r.1 :: (r.2.splitOnP p).filter (· ≠ []) := by
  rw [← splitOnP_dropWhile]
  unfold nextToken
  rcases hs : s.dropWhile p with _ | ⟨c, s'⟩
  · rfl
  have hc : p c = false := by
    have := List.head_dropWhile_not p (by rw [hs]; simp)
    simpa [hs] using this
  have hall := List.all_takeWhile (p := (!p ·)) (l := c :: s')
  have htake : ∀ d ∈ (c :: s').takeWhile (!p ·), p d = false := fun d hd => by
    simpa using List.all_eq_true.mp hall d hd
  have hne : (c :: s').takeWhile (!p ·) ≠ [] := by simp [hc]
  conv_lhs => rw [← List.takeWhile_append_dropWhile (p := (!p ·)) (l := c :: s')]
  rcases hd : (c :: s').dropWhile (!p ·) with _ | ⟨d, rest⟩
  · rw [List.append_nil, List.splitOnP_eq_singleton htake]
    simp only [Option.elim_some, hd, List.tail_nil]
    simp [hne]
  · have hpd : p d = true := by
      have := List.head_dropWhile_not (!p ·) (by rw [hd]; simp)
      simpa [hd] using this
    rw [List.splitOnP_append_cons_of_forall_mem htake d hpd]
    simp [hne, hd]

/-- **The tokens are the maximal runs** without separators, in their order. -/
theorem tokenize_eq_runs (s : List α) : tokenize p s = (s.splitOnP p).filter (· ≠ []) := by
  have h : ∀ n, ∀ s : List α, s.length ≤ n → tokensN p n s = (s.splitOnP p).filter (· ≠ []) := by
    intro n
    induction n with
    | zero =>
      intro s hs
      obtain rfl : s = [] := List.length_eq_zero_iff.mp (by omega)
      rfl
    | succ n ih =>
      intro s hs
      rw [nextToken_runs, tokensN]
      rcases hn : nextToken p s with _ | ⟨t, rest⟩
      · rfl
      · have := nextToken_length hn
        simp only [ih rest (by omega), Option.elim]
  exact h s.length s le_rfl

theorem length_splitOnP : ∀ s : List α, (s.splitOnP p).length = s.countP p + 1
  | [] => rfl
  | c :: s => by
    rw [List.splitOnP_cons_eq_if_modifyHead, List.countP_cons]
    split_ifs with hc
    · rw [List.length_cons, length_splitOnP s]
    · rw [List.length_modifyHead, length_splitOnP s]

/-- There is at most one token more than there are separators. -/
theorem length_tokenize_le (s : List α) : (tokenize p s).length ≤ s.countP p + 1 := by
  rw [tokenize_eq_runs, ← length_splitOnP]
  exact List.length_filter_le _ _

/-! ### Writing tokens and reading them back -/

variable {sep : α}

@[simp] theorem joinWith_nil : joinWith sep ([] : List (List α)) = [] := rfl

@[simp] theorem joinWith_cons (t : List α) (ts : List (List α)) :
    joinWith sep (t :: ts) = sep :: (t ++ joinWith sep ts) := by
  simp [joinWith]

/-- Behind a token there is nothing or a separator, so the scan stops right there. -/
theorem nextToken_append {t w : List α} (hsep : p sep = true) (ht : IsToken p t)
    (hw : ∀ c ∈ w.head?, p c = true) : nextToken p (sep :: (t ++ w)) = some (t, w.tail) := by
  obtain ⟨hne, hp⟩ := ht
  obtain ⟨c, t', rfl⟩ := List.exists_cons_of_ne_nil hne
  have hc : p c = false := hp c (by simp)
  have h1 : (sep :: (c :: t' ++ w)).dropWhile p = c :: (t' ++ w) := by simp [hsep, hc]
  have hall : ∀ d ∈ c :: t', (!p d) = true := fun d hd => by simp [hp d hd]
  have h2 : (c :: t' ++ w).takeWhile (!p ·) = c :: t' := by
    rw [List.takeWhile_append_of_pos hall]
    rcases w with _ | ⟨d, w⟩
    · simp
    · simp [hw d (by simp)]
  have h3 : (c :: t' ++ w).dropWhile (!p ·) = w := by
    rw [List.dropWhile_append_of_pos hall]
    rcases w with _ | ⟨d, w⟩
    · rfl
    · simp [hw d (by simp)]
  unfold nextToken
  rw [h1]
  simp only [← List.cons_append, h2, h3]

theorem nextToken_nil : nextToken p ([] : List α) = none := rfl

/-- The scan may also start behind the first separator. -/
theorem nextToken_sep (hsep : p sep = true) (s : List α) :
    nextToken p (sep :: s) = nextToken p s := by
  simp [nextToken, hsep]

/-- **Reading back**: the tokens of joined tokens are these tokens. -/
theorem tokenize_joinWith (hsep : p sep = true) :
    ∀ (ts : List (List α)), (∀ t ∈ ts, IsToken p t) → tokenize p (joinWith sep ts) = ts
  | [], _ => rfl
  | t :: ts, h => by
    have ih := tokenize_joinWith hsep ts fun u hu => h u (by simp [hu])
    have hw : ∀ c ∈ (joinWith sep ts).head?, p c = true := by
      rcases ts with _ | ⟨u, us⟩ <;> simp [hsep]
    have hn := nextToken_append hsep (h t (by simp)) hw
    have htail : tokensN p (t ++ joinWith sep ts).length (joinWith sep ts).tail
        = tokenize p (joinWith sep ts) := by
      rcases ts with _ | ⟨u, us⟩
      · exact tokenize_of_le (by simp)
      · rw [joinWith_cons, List.tail_cons, tokensN_of_le _ (u ++ joinWith sep us).length _
          (by simp; omega) le_rfl]
        have : ∀ n s, tokensN p n (sep :: s) = tokensN p n s := fun n s => by
          cases n <;> simp [tokensN, nextToken_sep hsep]
        rw [← tokenize_of_le (n := (u ++ joinWith sep us).length + 1) (by simp), this]
        exact tokensN_of_le _ _ _ le_rfl (by omega)
    rw [joinWith_cons, tokenize, List.length_cons]
    unfold tokensN
    rw [hn]
    simp only [htail, ih]

/-- Words joined from tokens are equal only if the tokens are. -/
theorem joinWith_injective (hsep : p sep = true) {ts us : List (List α)}
    (ht : ∀ t ∈ ts, IsToken p t) (hu : ∀ t ∈ us, IsToken p t)
    (h : joinWith sep ts = joinWith sep us) : ts = us := by
  rw [← tokenize_joinWith hsep ts ht, h, tokenize_joinWith hsep us hu]

end Pintos.Lib.Tokens
