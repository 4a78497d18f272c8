import Pintos.Threads.PriorityInversion

/-! # The walk of a donation

The loop of `thread_donate_priority` follows pointers and has no bound of its own. Each round lifts a thread to the
donor's priority that was below it, so that the loop ends, on a cycle too. -/

namespace Pintos.Threads.DonationWalk

open Pintos.Lib.Raising Pintos.Threads.Donation Pintos.Threads.EffectivePriority Pintos.Threads.PriorityInversion

variable {T L : Type*} [DecidableEq T] [DecidableEq L]

/-- The loop of `thread_donate_priority`, with at most `fuel` rounds; `none` if they do not suffice. -/
def donateLoop : ℕ → Kernel T L → T → Option (Kernel T L)
  | 0, _, _ => none
  | fuel + 1, s, cur =>
    match s.recipient cur with
    | none => some s
    | some next =>
      if s.priority cur > s.priority next then
        donateLoop fuel { s with priority := Function.update s.priority next (s.priority cur) } next
      else some s

/-- `thread_donate_priority` with this loop. -/
def threadDonatePriorityLoop (fuel : ℕ) (s : Kernel T L) (donor recipient : T) (lock : L) : Option (Kernel T L) :=
  if s.priority recipient > s.priority donor then some s
  else if s.recipient donor = none then donateLoop fuel (recordDonor s donor recipient lock) recipient
  else none

variable [Fintype T] {s s' : Kernel T L} {donor recipient cur t : T} {lock : L} {fuel n : ℕ}

omit [DecidableEq L] in
/-- **The loop ends**: it has as many rounds as there are threads below the priority it carries. -/
theorem donateLoop_eq_raise : ∀ {fuel n : ℕ} {s : Kernel T L} {cur : T}, below s.priority (s.priority cur) < fuel →
    below s.priority (s.priority cur) ≤ n →
    donateLoop fuel s cur = some { s with priority := raise s.recipient n s.priority cur }
  | fuel + 1, n, s, cur, hfuel, hn => by
    rw [donateLoop]
    cases hnext : s.recipient cur with
    | none => rw [raise_stop (by simp [hnext])]
    | some next =>
      dsimp only
      split_ifs with hlt
      · have hpos := below_pos hlt
        obtain ⟨n, rfl⟩ := Nat.exists_eq_succ_of_ne_zero (show n ≠ 0 by omega)
        have hval : Function.update s.priority next (s.priority cur) next = s.priority cur := Function.update_self ..
        have hless : below (Function.update s.priority next (s.priority cur))
          (Function.update s.priority next (s.priority cur) next) <
            below s.priority (s.priority cur) := by
          rw [hval]
          exact below_update hlt
        rw [raise_go n hnext hlt]
        exact donateLoop_eq_raise (hless.trans_le (Nat.le_of_lt_succ hfuel)) (Nat.le_of_lt_succ (hless.trans_le hn))
      · rw [raise_stop fun y hy => by
          obtain rfl := Option.some.inj (hnext.symm.trans hy)
          exact hlt]

omit [DecidableEq L] in
theorem donateLoop_eq_propagate (hfuel : Fintype.card T < fuel) : donateLoop fuel s cur = some (propagate s cur) :=
  donateLoop_eq_raise (below_le_card.trans_lt hfuel) below_le_card

omit [DecidableEq L] in
/-- **More rounds change nothing.** -/
theorem threadDonatePriorityLoop_eq (hfuel : Fintype.card T < fuel) :
    threadDonatePriorityLoop fuel s donor recipient lock = threadDonatePriority s donor recipient lock := by
  unfold threadDonatePriorityLoop threadDonatePriority
  rw [donateLoop_eq_propagate hfuel]

/-- `t` is in the longest prefix of the recipient chain of `recipient` whose priorities are below `p`. -/
def InPrefix (s : Kernel T L) (recipient : T) (p : ℤ) (t : T) : Prop :=
  ∃ n, 0 < n ∧ chain s.recipient recipient n = some t ∧
    ∀ m u, 0 < m → m ≤ n → chain s.recipient recipient m = some u → s.priority u < p

omit [DecidableEq T] [DecidableEq L] [Fintype T] in
theorem lifts_iff : Lifts s donor recipient t ↔ t = recipient ∨ InPrefix s recipient (s.priority donor) t := by
  unfold Lifts
  rw [raised_iff_chain]
  constructor
  · rintro ⟨n, hn, hbelow⟩
    rcases Nat.eq_zero_or_pos n with rfl | hpos
    · exact Or.inl (Option.some.inj hn).symm
    · exact Or.inr ⟨n, hpos, hn, hbelow⟩
  · rintro (rfl | ⟨n, -, hn, hbelow⟩)
    · exact ⟨0, rfl, fun m u hpos hle => absurd hpos (by omega)⟩
    · exact ⟨n, hn, hbelow⟩

omit [DecidableEq L] in
/-- **A donation ends and lifts the recipient and the prefix of its chain that is below the donor**, to the donor's
priority, and no other thread. -/
theorem threadDonatePriorityLoop_exact (hfree : s.recipient donor = none)
    (hle : s.priority recipient ≤ s.priority donor) :
    ∃ s', (∀ fuel, Fintype.card T < fuel → threadDonatePriorityLoop fuel s donor recipient lock = some s') ∧
      (∀ t, t = recipient ∨ InPrefix s recipient (s.priority donor) t → s'.priority t = s.priority donor) ∧
      (∀ t, ¬(t = recipient ∨ InPrefix s recipient (s.priority donor) t) → s'.priority t = s.priority t) ∧
      ∀ t, s.priority t ≤ s'.priority t := by
  have hin : ∀ t, Lifts s donor recipient t →
      (propagate (recordDonor s donor recipient lock) recipient).priority t = s.priority donor := fun t ht =>
    propagate_of_raised ((raised_recordDonor_iff hfree).mpr ht)
  have hout : ∀ t, ¬Lifts s donor recipient t →
      (propagate (recordDonor s donor recipient lock) recipient).priority t = s.priority t := fun t ht =>
    propagate_of_not_raised (mt (raised_recordDonor_iff hfree).mp ht)
  refine ⟨propagate (recordDonor s donor recipient lock) recipient, fun fuel hfuel => ?_,
    fun t ht => hin t (lifts_iff.mpr ht), fun t ht => hout t (mt lifts_iff.mp ht), fun t => ?_⟩
  · rw [threadDonatePriorityLoop_eq hfuel, threadDonatePriority, if_neg (not_lt.mpr hle), if_pos hfree]
  · by_cases ht : Lifts s donor recipient t
    · rw [hin t ht]
      rcases ht.eq_or_lt with rfl | hlt
      · exact hle
      · exact hlt.le
    · exact (hout t ht).ge

/-- Two threads that wait for each other, both below a third one. -/
def deadlocked : Kernel (Option Bool) Unit where
  priority t := if t = none then 5 else 1
  genesisPriority _ := 1
  lock _ := some ()
  recipient t := t.map fun b => some !b
  donorThreadsList t := (t.map fun b => some !b).toList
  holder _ := some (some true)
  value _ := 0
  waiters _ := []
  phase _ := .idle

theorem threadDonatePriorityLoop_exact_deadlocked :
    ∃ s', (∀ fuel, Fintype.card (Option Bool) < fuel →
        threadDonatePriorityLoop fuel deadlocked none (some true) () = some s') ∧
      (∀ t, t = some true ∨ InPrefix deadlocked (some true) 5 t → s'.priority t = 5) ∧
      (∀ t, ¬(t = some true ∨ InPrefix deadlocked (some true) 5 t) → s'.priority t = deadlocked.priority t) ∧
      ∀ t, deadlocked.priority t ≤ s'.priority t :=
  threadDonatePriorityLoop_exact (s := deadlocked) rfl (by decide)

end Pintos.Threads.DonationWalk
