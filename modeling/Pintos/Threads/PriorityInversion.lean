import Pintos.Threads.EffectivePriority

/-! # Priority inversion

The holder of a lock should not have a lower priority than a thread that waits for it. A waiter that is
recorded as a donor is safe: the graph carries it. The steps that can go wrong are those that meet a waiter
which is not recorded, because its donation was refused, because the lock had no holder when it came, or
because it was struck by an earlier release. -/

namespace Pintos.Threads.PriorityInversion

open Pintos.Lib.Raising Pintos.Lib.Runs Pintos.Threads.Donation Pintos.Threads.DonationGraph
open Pintos.Threads.EffectivePriority

variable {T L : Type*} {s s' : Kernel T L} {t w r x : T} {l : L}

def NoInversion (s : Kernel T L) : Prop :=
  ∀ l h w, s.holder l = some h → s.phase w = .waiting l → s.priority w ≤ s.priority h

/-- A thread that waits for a lock and is nobody's donor. -/
def Unrecorded (s : Kernel T L) (w : T) (l : L) : Prop :=
  s.phase w = .waiting l ∧ s.recipient w = none

/-- The donation of `t` to `r` lifts `x`. -/
def Lifts (s : Kernel T L) (t r x : T) : Prop := Raised s.recipient s.priority (s.priority t) r x

/-- Recorded waiters are no concern. -/
theorem noInversion_of_unrecorded (hs : Graph s)
    (h : ∀ l h w, s.holder l = some h → Unrecorded s w l → s.priority w ≤ s.priority h) :
    NoInversion s := by
  intro l h' w hh hw
  cases hr : s.recipient w with
  | none => exact h l h' w hh ⟨hw, hr⟩
  | some r =>
    obtain ⟨l', -, hp, hold⟩ := hs.donates hr
    have hl : l' = l := by
      rw [hw] at hp
      grind
    subst hl
    have hrh : r = h' := by grind
    subst hrh
    exact hs.le hr

variable [DecidableEq T] [DecidableEq L]

/-- The steps that do not meet an unrecorded waiter, or are high enough for it. -/
def Safe (s : Kernel T L) : LockAction T L → Prop
  | .setHolder t l => ∀ w, Unrecorded s w l → s.priority w ≤ s.priority t
  | .semaDown t l => ∀ h, s.value l = 0 → s.holder l = some h → s.recipient t = none →
      s.priority t ≤ s.priority h
  | .donate t l => ∀ r, s.holder l = some r → s.priority r ≤ s.priority t →
      ∀ x l' h, Lifts s t r x → Unrecorded s x l' → s.holder l' = some h →
        s.priority t ≤ s.priority h ∨ Lifts s t r h
  | .restore t l => donorsFor s t l ≠ [] → ∀ l' w, s.holder l' = some t → Unrecorded s w l' →
      if otherDonors s t l = [] then s.priority w ≤ s.genesisPriority t
      else s.priority w ≤ 0 ∨ ∃ d ∈ otherDonors s t l, s.priority w ≤ s.priority d
  | .setPriority t p => ∀ l w, s.holder l = some t → Unrecorded s w l →
      s.priority w ≤ p ∨ ∃ d ∈ s.donorThreadsList t, s.priority w ≤ s.priority d
  | _ => True

omit [DecidableEq L] in
/-- Recording the donation does not change whom it lifts. -/
theorem raised_recordDonor_iff (hrt : s.recipient t = none) :
    Raised (recordDonor s t r l).recipient (recordDonor s t r l).priority (s.priority t) r x ↔
      Lifts s t r x := by
  constructor
  · intro hx
    induction hx with
    | here => exact .here
    | @next x y _ he hy ih =>
      rw [recordDonor_priority] at hy
      have he' := recordDonor_recipient.mp he
      refine .next ih ?_ ?_ <;> grind
  · intro hx
    induction hx with
    | here => exact .here
    | @next x y _ he hy ih =>
      by_cases hyr : y = r
      · subst hyr
        exact .here
      refine .next ih (recordDonor_recipient.mpr (.inr ⟨?_, he⟩)) ?_
      · rintro rfl
        rw [hrt] at he
        cases he
      · rwa [recordDonor_priority, if_neg hyr]

/-! ### The steps that change priorities -/

theorem noInversion_setPriority (h : NoInversion s) (hs : Graph s) (ht : s.phase t = .idle) {p : ℤ}
    (ha : Safe s (.setPriority t p)) : NoInversion (threadSetPriority s t p) := by
  refine noInversion_of_unrecorded (graph_setPriority hs ht p) ?_
  intro l h' w hh hw
  have hwt : w ≠ t := by
    rintro rfl
    cases ht.symm.trans hw.1
  have hwp : (threadSetPriority s t p).priority w = s.priority w := Function.update_of_ne hwt ..
  rw [hwp]
  by_cases hht : h' = t
  · subst hht
    refine le_of_le_of_eq ((le_maxPriority_iff _ _ _).mpr (ha l w hh hw)) (Eq.symm ?_)
    exact Function.update_self ..
  · have hhp : (threadSetPriority s t p).priority h' = s.priority h' := Function.update_of_ne hht ..
    rw [hhp]
    exact h l h' w hh hw.1

theorem noInversion_restore (h : NoInversion s) (hl : Locking s) (hs : Graph s)
    (ht : s.phase t = .released l) (ha : Safe s (.restore t l)) :
    NoInversion ((threadRestorePriority s t l).setPhase t (.restored l)) := by
  refine noInversion_of_unrecorded (graph_restore hs ht) ?_
  intro l' h' w hh hw
  obtain ⟨hp, hho, -⟩ := restore_locks (s := s) (t := t) (l := l)
  have hln : s.holder l = none := hl.holder (t := t) (by simp [ht, owning])
  obtain ⟨hw1, hw2⟩ := hw
  simp only [setPhase_holder, hho] at hh
  simp only [setPhase_phase, hp] at hw1
  simp only [setPhase_recipient] at hw2
  simp only [setPhase_priority]
  have hwt : w ≠ t := by
    rintro rfl
    simp at hw1
  rw [if_neg hwt] at hw1
  by_cases h0 : donorsFor s t l = []
  · have hres : threadRestorePriority s t l = s := if_pos h0
    rw [hres]
    exact h l' h' w hh hw1
  -- a thread that waits for another lock has not been struck
  have hun : s.recipient w = none := by
    cases hr : s.recipient w with
    | none => rfl
    | some r =>
      obtain ⟨l'', hlk, hph, hhold⟩ := hs.donates hr
      have := hs.recipient_restore (t := t) (l := l) (d := w) (r := r)
      grind
  have hprio : ∀ x, (threadRestorePriority s t l).priority x = if x = t then
      (if otherDonors s t l = [] then s.genesisPriority t
        else maxPriority s.priority 0 (otherDonors s t l)) else s.priority x := fun x => by
    unfold threadRestorePriority
    rw [if_neg h0]
    exact Function.update_apply ..
  rw [hprio, hprio, if_neg hwt]
  by_cases hht : h' = t
  · subst hht
    have := ha h0 l' w hh ⟨hw1, hun⟩
    rw [if_pos rfl]
    split <;> rename_i ho
    · rwa [if_pos ho] at this
    · rw [if_neg ho] at this
      exact (le_maxPriority_iff _ _ _).mpr this
  · rw [if_neg hht]
    exact h l' h' w hh hw1

variable [Fintype T]

theorem noInversion_donate (h : NoInversion s) (hs : Graph s) (ht : s.phase t = .donating l)
    (hh : s.holder l = some r) (hp : s.priority r ≤ s.priority t) (hrt : s.recipient t = none)
    (ha : Safe s (.donate t l)) :
    NoInversion ((propagate (recordDonor s t r l) r).setPhase t (.downing l)) := by
  refine noInversion_of_unrecorded (graph_donate hs ht hh hp hrt) ?_
  intro l' h' w hh' hw
  obtain ⟨hw1, hw2⟩ := hw
  have hwt : w ≠ t := by
    rintro rfl
    simp at hw1
  have hw1 : s.phase w = .waiting l' := by
    rw [setPhase_phase, if_neg hwt] at hw1
    exact hw1
  have hw2 : s.recipient w = none := (Function.update_of_ne hwt ..).symm.trans hw2
  have hh' : s.holder l' = some h' := hh'
  have hge := le_donate (s := s) (t := t) (r := r) (l := l) hp h'
  simp only [setPhase_priority]
  by_cases hx : Raised (recordDonor s t r l).recipient (recordDonor s t r l).priority
      (s.priority t) r w
  · rw [propagate_of_raised hx]
    rcases ha r hh hp w l' h' ((raised_recordDonor_iff hrt).mp hx) ⟨hw1, hw2⟩ hh' with hle | hl
    · exact hle.trans hge
    · exact (propagate_of_raised ((raised_recordDonor_iff hrt).mpr hl)).ge
  · rw [propagate_of_not_raised hx]
    exact (h l' h' w hh' hw1).trans hge

/-! ### All steps -/

omit [DecidableEq T] [DecidableEq L] [Fintype T] in
/-- A step that keeps the priorities and gives nobody a lock, and blocks nobody. -/
theorem NoInversion.frame (h : NoInversion s) (hp : s'.priority = s.priority)
    (hh : ∀ l h, s'.holder l = some h → s.holder l = some h)
    (hw : ∀ w l, s'.phase w = .waiting l → s.phase w = .waiting l) : NoInversion s' := by
  intro l h' w h1 h2
  rw [hp]
  exact h l h' w (hh l h' h1) (hw w l h2)

theorem noInversion_step {a : LockAction T L} (hl : Locking s) (hs : Graph s) (h : NoInversion s)
    (ha : Safe s a) (hst : Step s a s') : NoInversion s' := by
  have hs' := graph_step hl hs hst
  cases effect_of_step hst with
  | donated ht hh hp hr => exact noInversion_donate h hs ht hh hp hr ha
  | restore ht => exact noInversion_restore h hl hs ht ha
  | setPriority ht => exact noInversion_setPriority h hs ht ha
  | @blocked t l ht hv =>
    refine noInversion_of_unrecorded hs' ?_
    rintro l' h' w hh ⟨hw1, hw2⟩
    by_cases hwt : w = t
    · subst hwt
      have hll : l = l' := by simpa [Kernel.block] using hw1
      subst hll
      exact ha h' hv hh hw2
    · exact h l' h' w hh (by simpa [Kernel.block, hwt] using hw1)
  | @setHolder t l ht =>
    refine noInversion_of_unrecorded hs' ?_
    rintro l' h' w hh ⟨hw1, hw2⟩
    have hw : s.phase w = .waiting l' := by
      by_cases hwt : w = t <;> simp_all
    by_cases hll : l' = l
    · subst hll
      have hht : t = h' := by simpa using hh
      subst hht
      exact ha w ⟨hw, hw2⟩
    · exact h l' h' w (by simpa [hll] using hh) hw
  | free | taken | refused | exit =>
    refine h.frame rfl (fun _ _ hh => hh) ?_
    simp only [setPhase_phase]
    grind
  | downed | tried =>
    refine h.frame rfl (fun _ _ hh => hh) ?_
    simp only [Kernel.down, setPhase_phase]
    grind
  | tryFailed => exact h
  | release =>
    refine h.frame rfl ?_ ?_
    · simp only [setPhase_holder]
      grind
    · simp only [setPhase_phase]
      grind
  | upped =>
    refine h.frame rfl (fun _ _ hh => hh) ?_
    simp only [Kernel.up, setPhase_phase]
    grind
  | woken =>
    refine h.frame rfl (fun _ _ hh => hh) ?_
    simp only [Kernel.up, Kernel.wake, setPhase_phase]
    grind

/-- **No priority inversion**, as long as every step is safe. -/
theorem noInversion_of_reachable (h : Reachable Init (Guarded Safe Step) s) : NoInversion s := by
  have hinv : Invariant Init (Guarded Safe (Step (T := T) (L := L))) fun s =>
      (Locking s ∧ Graph s) ∧ NoInversion s := by
    refine invariant.guarded ?_ fun hj hp ha hst => noInversion_step hj.1 hj.2 hp ha hst
    intro s h l h' w hh
    rw [h.holder] at hh
    cases hh
  exact (h.of_invariant hinv).2

/-- Nobody waits, and nobody is about to block without having donated. -/
def Quiet (s : Kernel T L) (a : LockAction T L) : Prop :=
  (∀ w l, s.phase w ≠ .waiting l) ∧
    ∀ t l, a = .semaDown t l → s.value l = 0 → s.recipient t ≠ none

instance [Fintype L] (s : Kernel T L) (a : LockAction T L) : Decidable (Quiet s a) :=
  inferInstanceAs (Decidable (_ ∧ _))

omit [Fintype T] in
theorem safe_of_quiet {a : LockAction T L} (h : Quiet s a) : Safe s a := by
  obtain ⟨h, hb⟩ := h
  cases a with
  | donate t l => exact fun r _ _ x l' _ _ hx => absurd hx.1 (h x l')
  | semaDown t l => exact fun _ hv _ hr => absurd hr (hb t l rfl hv)
  | setHolder t l => exact fun w hw => absurd hw.1 (h w l)
  | restore t l => exact fun _ l' w _ hw => absurd hw.1 (h w l')
  | setPriority t p => exact fun l w _ hw => absurd hw.1 (h w l)
  | _ => trivial

theorem noInversion_of_reachable_donation : ∃ s : Kernel (Fin 2) (Fin 1),
    s.holder 0 = some 0 ∧ s.phase 1 = .waiting 0 ∧ NoInversion s := by
  have h : ((holdAndWait 0 1 0).foldlM (fun s a => if Quiet s a then next s a else none)
      (initial ![31, 40])).map
      (fun s : Kernel (Fin 2) (Fin 1) => (s.holder 0, s.phase 1)) = some (some 0, .waiting 0) := by
    decide +kernel
  obtain ⟨s, hs, h⟩ := Option.map_eq_some_iff.mp h
  have hr := reachable_of_guarded_run (by decide) hs
  refine ⟨s, by grind, by grind, noInversion_of_reachable (hr.mono ?_)⟩
  exact fun s a s' h => ⟨safe_of_quiet h.1, h.2⟩

/-- A thread of priority 31 holds two locks. One of priority 40 waits for the first; the donation of one of
priority 35, which waits for the second, is refused. After the release of the first lock the holder of the
second is back at 31. -/
theorem not_noInversion_of_reachable :
    ¬ ∀ s : Kernel (Fin 3) (Fin 2), Reachable Init Step s → NoInversion s := by
  intro h
  have hr : ((holdTwo 0 1 2 0 1 ++ [LockAction.release (0 : Fin 3) (0 : Fin 2), .restore 0 0]).foldlM next
      (initial ![31, 40, 35])).map
      (fun s : Kernel (Fin 3) (Fin 2) => (s.holder 1, s.phase 2, s.priority 0, s.priority 2)) =
      some (some 0, .waiting 1, 31, 35) := by
    decide +kernel
  obtain ⟨s, hs, hr⟩ := Option.map_eq_some_iff.mp hr
  simp only [Prod.mk.injEq] at hr
  have hle := h s (reachable_of_run (by decide) hs) 1 0 2 hr.1 hr.2.1
  omega

end Pintos.Threads.PriorityInversion
