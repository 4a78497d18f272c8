import Pintos.Threads.DonationGraph

/-! # Effective priorities

A thread should run with the highest of its own priority and those of its donors. Donating and
`thread_set_priority` keep it so; `thread_restore_priority` starts its maximum over the remaining donors at 0
and not at the thread's own priority, and keeps it so only when that makes no difference. -/

namespace Pintos.Threads.EffectivePriority

open Pintos.Lib.Raising Pintos.Lib.Runs Pintos.Threads.Donation Pintos.Threads.DonationGraph

variable {T L : Type*} {s s' : Kernel T L} {t d r x : T} {l : L}

/-- The thread has the highest of its own priority and its donors'. -/
def Exact (s : Kernel T L) (t : T) : Prop :=
  IsGreatest (insert (s.genesisPriority t) {p | ∃ d ∈ s.donorThreadsList t, s.priority d = p})
    (s.priority t)

theorem Exact.le (h : Exact s t) (hd : d ∈ s.donorThreadsList t) : s.priority d ≤ s.priority t :=
  h.2 (.inr ⟨d, hd, rfl⟩)

theorem Exact.genesis_le (h : Exact s t) : s.genesisPriority t ≤ s.priority t := h.2 (.inl rfl)

/-- The loop of `thread_set_priority` computes it. -/
theorem exact_iff : Exact s t ↔
    s.priority t = maxPriority s.priority (s.genesisPriority t) (s.donorThreadsList t) := by
  have hmax := isGreatest_maxPriority s.priority (s.donorThreadsList t)
    (s.genesisPriority t)
  constructor
  · intro h
    exact h.unique hmax
  · intro h
    unfold Exact
    rwa [h]

theorem maxPriority_congr {p q : T → ℤ} : ∀ {ts : List T} {m : ℤ}, (∀ d ∈ ts, q d = p d) →
    maxPriority q m ts = maxPriority p m ts
  | [], _, _ => rfl
  | t :: ts, m, h => by
    unfold maxPriority
    rw [h t (by simp), maxPriority_congr fun d hd => h d (by simp [hd])]

/-- Only the thread itself and its donors matter. -/
theorem Exact.congr (h : Exact s t) (hp : s'.priority t = s.priority t)
    (hg : s'.genesisPriority t = s.genesisPriority t)
    (hd : s'.donorThreadsList t = s.donorThreadsList t)
    (hpd : ∀ d ∈ s.donorThreadsList t, s'.priority d = s.priority d) : Exact s' t := by
  rw [exact_iff] at h ⊢
  rw [hp, hg, hd, h, maxPriority_congr hpd]

/-! ### The three places that compute it -/

variable [DecidableEq T]

theorem exact_setPriority (hs : Graph s) (h : ∀ t, Exact s t) (ht : s.phase t = .idle) (p : ℤ)
    (x : T) : Exact (threadSetPriority s t p) x := by
  have hrt := hs.recipient_eq_none (t := t) (by simp [ht]) (by simp [ht])
  have hpd : ∀ d ∈ s.donorThreadsList x, (threadSetPriority s t p).priority d = s.priority d := by
    intro d hd
    have hdt : d ≠ t := by
      rintro rfl
      rw [hs.mem, hrt] at hd
      cases hd
    exact Function.update_of_ne hdt ..
  by_cases hxt : x = t
  · subst hxt
    have hm : maxPriority (threadSetPriority s x p).priority p (s.donorThreadsList x) = _ :=
      maxPriority_congr hpd
    rw [exact_iff]
    simp only [threadSetPriority, Function.update_self] at hm ⊢
    rw [hm]
  · exact (h x).congr (Function.update_of_ne hxt ..) (Function.update_of_ne hxt ..) rfl hpd

variable [DecidableEq L]

/-- That the maximum over the remaining donors may start at 0: the thread's own priority is 0, or a
remaining donor is above both. -/
def FreshStart (s : Kernel T L) (t : T) (l : L) : Prop :=
  s.genesisPriority t = 0 ∨
    ∃ d ∈ otherDonors s t l, 0 ≤ s.priority d ∧ s.genesisPriority t ≤ s.priority d

omit [DecidableEq T] [DecidableEq L] in
theorem maxPriority_eq_iff {priority : T → ℤ} {ts : List T} {m n : ℤ} :
    maxPriority priority m ts = maxPriority priority n ts ↔
      m = n ∨ ∃ t ∈ ts, m ≤ priority t ∧ n ≤ priority t := by
  have hm := (maxPriority_le_iff priority ts m).mp le_rfl
  have hn := (maxPriority_le_iff priority ts n).mp le_rfl
  have hm' := (le_maxPriority_iff priority ts m).mp le_rfl
  have hn' := (le_maxPriority_iff priority ts n).mp le_rfl
  constructor
  · intro he
    rcases hm' with h1 | ⟨t, ht, h1⟩
    · rcases hn' with h2 | ⟨t, ht, h2⟩
      · exact .inl (by omega)
      · exact .inr ⟨t, ht, by omega, by omega⟩
    · exact .inr ⟨t, ht, by omega, by omega⟩
  · rintro (rfl | ⟨t, ht, h1, h2⟩)
    · rfl
    · have h3 := hm.2 t ht
      have h4 := hn.2 t ht
      rcases hm' with h5 | ⟨u, hu, h5⟩
      · rcases hn' with h6 | ⟨v, hv, h6⟩
        · omega
        · have := hm.2 v hv
          omega
      · have := hn.2 u hu
        rcases hn' with h6 | ⟨v, hv, h6⟩
        · omega
        · have := hm.2 v hv
          omega

theorem donors_restore (hs : Graph s) (hrt : s.recipient t = none) (h0 : donorsFor s t l ≠ [])
    {d : T} (hd : d ∈ (threadRestorePriority s t l).donorThreadsList x) :
    (threadRestorePriority s t l).priority d = s.priority d := by
  have hdt : d ≠ t := by
    rintro rfl
    rw [(hs.restore hrt).mem, hs.recipient_restore, hrt] at hd
    cases hd.1
  unfold threadRestorePriority
  rw [if_neg h0]
  exact Function.update_of_ne hdt ..

/-- Restoring keeps the priorities exact, if and only if it strikes no donor, leaves none, or may start
at 0. -/
theorem exact_restore_iff (hs : Graph s) (h : ∀ t, Exact s t) (ht : s.phase t = .released l) :
    (∀ x, Exact (threadRestorePriority s t l) x) ↔
      (donorsFor s t l ≠ [] → otherDonors s t l ≠ [] → FreshStart s t l) := by
  have hrt := hs.recipient_eq_none (t := t) (by simp [ht]) (by simp [ht])
  by_cases h0 : donorsFor s t l = []
  · have hres : threadRestorePriority s t l = s := if_pos h0
    rw [hres]
    exact iff_of_true h fun hne => absurd h0 hne
  have hpd := fun x d (hd : d ∈ (threadRestorePriority s t l).donorThreadsList x) =>
    donors_restore hs hrt h0 hd
  have hself : Exact (threadRestorePriority s t l) t ↔ (otherDonors s t l ≠ [] → FreshStart s t l) := by
    rw [exact_iff, maxPriority_congr (hpd t)]
    unfold threadRestorePriority FreshStart
    simp only [h0, if_false, Function.update_self]
    split <;> rename_i hr
    · simp [hr, maxPriority]
    · rw [maxPriority_eq_iff]
      simp [hr, eq_comm]
  constructor
  · intro hx _
    exact hself.mp (hx t)
  · intro hc x
    by_cases hxt : x = t
    · subst hxt
      exact hself.mpr (hc h0)
    · refine (h x).congr ?_ ?_ ?_ ?_
      all_goals unfold threadRestorePriority; rw [if_neg h0]
      · exact Function.update_of_ne hxt ..
      · exact Function.update_of_ne hxt ..
      · intro d hd
        have hdt : d ≠ t := by
          rintro rfl
          rw [hs.mem, hrt] at hd
          cases hd
        exact Function.update_of_ne hdt ..

/-! ### Donating -/

variable [Fintype T]

omit [DecidableEq L] in
/-- A donation only lifts priorities. -/
theorem le_donate (hp : s.priority r ≤ s.priority t) (x : T) :
    s.priority x ≤ (propagate (recordDonor s t r l) r).priority x := by
  have h := le_raiseAll (recordDonor s t r l).recipient (recordDonor s t r l).priority r x
  refine le_trans ?_ h
  rw [recordDonor_priority]
  split <;> grind

omit [DecidableEq L] in
/-- The threads that a donation lifts, to the donor's priority. -/
theorem propagate_of_raised
    (hx : Raised (recordDonor s t r l).recipient (recordDonor s t r l).priority (s.priority t) r x) :
    (propagate (recordDonor s t r l) r).priority x = s.priority t := by
  have hr : (recordDonor s t r l).priority r = s.priority t := Function.update_self ..
  rw [← hr] at hx ⊢
  exact raiseAll_of_raised hx

omit [DecidableEq L] in
theorem propagate_of_not_raised
    (hx : ¬ Raised (recordDonor s t r l).recipient (recordDonor s t r l).priority (s.priority t) r x) :
    (propagate (recordDonor s t r l) r).priority x = s.priority x := by
  have hr : (recordDonor s t r l).priority r = s.priority t := Function.update_self ..
  have hxr : x ≠ r := by
    rintro rfl
    exact hx .here
  have hold : (recordDonor s t r l).priority x = s.priority x := Function.update_of_ne hxr ..
  rw [← hold]
  rw [← hr] at hx
  exact raiseAll_of_not_raised hx

omit [DecidableEq L] in
theorem exact_donate (hs : Graph s) (h : ∀ t, Exact s t) (ht : s.phase t = .donating l)
    (hh : s.holder l = some r) (hp : s.priority r ≤ s.priority t) (hrt : s.recipient t = none)
    (x : T) : Exact (propagate (recordDonor s t r l) r) x := by
  have hs' := graph_donate hs ht hh hp hrt
  have hle : ∀ {d x}, (recordDonor s t r l).recipient d = some x →
      (propagate (recordDonor s t r l) r).priority d ≤
        (propagate (recordDonor s t r l) r).priority x := fun hd => hs'.le hd
  have hge := le_donate (s := s) (l := l) hp
  refine ⟨?_, ?_⟩
  · by_cases hx : Raised (recordDonor s t r l).recipient (recordDonor s t r l).priority
      (s.priority t) r x
    · -- lifted: by the donor itself, or by the thread before it on the walk
      right
      rw [propagate_of_raised hx]
      cases hx with
      | here =>
        have hd : (recordDonor s t r l).recipient t = some r := recordDonor_recipient.mpr (by simp)
        refine ⟨t, hs'.mem.mpr hd, le_antisymm ?_ (hge t)⟩
        exact (hle hd).trans (propagate_of_raised .here).le
      | next hy he _ => exact ⟨_, hs'.mem.mpr he, propagate_of_raised hy⟩
    · -- not lifted: its old reason is still there
      rcases (h x).1 with hg | ⟨d, hd, he⟩
      · left
        rw [propagate_of_not_raised hx, hg]
        rfl
      · right
        have hdt : d ≠ t := by
          rintro rfl
          rw [hs.mem, hrt] at hd
          cases hd
        have hrec : (recordDonor s t r l).recipient d = some x :=
          recordDonor_recipient.mpr (.inr ⟨hdt, hs.mem.mp hd⟩)
        refine ⟨d, hs'.mem.mpr hrec, le_antisymm (hle hrec) ?_⟩
        rw [propagate_of_not_raised hx, ← he]
        exact hge d
  · rintro p (rfl | ⟨d, hd, rfl⟩)
    · exact (h x).genesis_le.trans (hge x)
    · exact hle (hs'.mem.mp hd)

/-! ### All steps -/

/-- The restorations that keep the priorities exact. -/
def Harmless (s : Kernel T L) : LockAction T L → Prop
  | .restore t l => donorsFor s t l ≠ [] → otherDonors s t l ≠ [] → FreshStart s t l
  | _ => True

theorem exact_step {a : LockAction T L} (hs : Graph s) (h : ∀ t, Exact s t) (ha : Harmless s a)
    (hst : Step s a s') (x : T) : Exact s' x := by
  cases effect_of_step hst with
  | donated ht hh hp hr => exact (exact_donate hs h ht hh hp hr x).congr rfl rfl rfl fun _ _ => rfl
  | restore ht =>
    exact ((exact_restore_iff hs h ht).mpr ha x).congr rfl rfl rfl fun _ _ => rfl
  | setPriority ht => exact exact_setPriority hs h ht _ x
  | _ => exact (h x).congr rfl rfl rfl fun _ _ => rfl

omit [DecidableEq T] [DecidableEq L] [Fintype T] in
theorem exact_start (h : Init s) (x : T) : Exact s x := by
  rw [exact_iff, h.donorThreadsList, h.genesisPriority]
  rfl

/-- **Exact effective priority**, as long as every restoration is harmless. -/
theorem exact_of_reachable (h : Reachable Init (Guarded Harmless Step) s) (t : T) : Exact s t := by
  have hinv : Invariant Init (Guarded Harmless (Step (T := T) (L := L))) fun s =>
      (Locking s ∧ Graph s) ∧ ∀ t, Exact s t :=
    invariant.guarded exact_start fun hj hp ha hst => exact_step hj.2 hp ha hst
  exact (h.of_invariant hinv).2 t

instance : (a : LockAction T L) → Decidable (Harmless s a)
  | .restore t l => inferInstanceAs (Decidable (_ ≠ [] → _ ≠ [] → s.genesisPriority t = 0 ∨
      ∃ d ∈ otherDonors s t l, 0 ≤ s.priority d ∧ s.genesisPriority t ≤ s.priority d))
  | .acquire .. | .donate .. | .semaDown .. | .setHolder .. | .tryAcquire .. | .release ..
  | .semaUp .. | .setPriority .. | .exit .. => isTrue trivial

/-- The thread `h` holds two locks, `v` waits for the first and `w` for the second. -/
def holdTwo (h v w : T) (a b : L) : List (LockAction T L) :=
  acquireFree h a ++ acquireFree h b ++ acquireTaken v a ++ acquireTaken w b

theorem exact_of_reachable_holdTwo :
    ∃ s : Kernel (Fin 3) (Fin 2), s.donorThreadsList 0 = [2] ∧ s.priority 0 = 33 ∧ Exact s 0 := by
  have h : ((holdTwo 0 1 2 0 1 ++ [LockAction.release (0 : Fin 3) (0 : Fin 2), .restore 0 0]).foldlM
      (fun s a => if Harmless s a then next s a else none) (initial ![31, 32, 33])).map
      (fun s : Kernel (Fin 3) (Fin 2) => (s.donorThreadsList 0, s.priority 0)) = some ([2], 33) := by
    decide +kernel
  obtain ⟨s, hs, h⟩ := Option.map_eq_some_iff.mp h
  refine ⟨s, by grind, by grind, exact_of_reachable (reachable_of_guarded_run ?_ hs) 0⟩
  decide

/-- The holder sets its own priority to 40 before it releases the first lock, and falls to 33. -/
theorem not_exact_of_reachable :
    ¬ ∀ s : Kernel (Fin 3) (Fin 2), Reachable Init Step s → ∀ t, Exact s t := by
  intro h
  have hr : ((holdTwo 0 1 2 0 1 ++ [LockAction.setPriority (0 : Fin 3) 40, .release 0 (0 : Fin 2),
    .restore 0 0]).foldlM next
      (initial ![31, 32, 33])).map
      (fun s : Kernel (Fin 3) (Fin 2) => (s.genesisPriority 0, s.priority 0)) = some (40, 33) := by
    decide +kernel
  obtain ⟨s, hs, hr⟩ := Option.map_eq_some_iff.mp hr
  have hle := (h s (reachable_of_run (by decide) hs) 0).genesis_le
  simp only [Prod.mk.injEq] at hr
  omega

end Pintos.Threads.EffectivePriority
