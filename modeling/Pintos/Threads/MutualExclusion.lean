import Pintos.Threads.Monitor

/-! # Mutual exclusion

At most one thread is past the semaphore of a lock, and `lock->holder` is NULL or that thread, although it is
written outside the atomic sections. -/

namespace Pintos.Threads.MutualExclusion

open Pintos.Lib.Runs Pintos.Threads.Monitor
open Pintos.Threads.Semaphore (Sema semaInit unsignedSize)

variable {T L C : Type*} {s s' : Sys T L C} {t u : T} {l : L}

/-- Between the semaphore and the assignment to `lock->holder`, on the way in or out. -/
def Passing (p : Place L C) (l : L) : Prop := p = .downed l ∨ ∃ cond, p = .released l cond

structure Exclusion (s : Sys T L C) : Prop where
  count : ∀ l, (s.semaphore l).value + (s.inside l).length = 1
  holder : ∀ {l t}, s.holder l = some t → s.inside l = [t]
  passing : ∀ {l t}, Passing (s.place t) l → s.inside l = [t] ∧ s.holder l = none

theorem Exclusion.outside (hs : Exclusion s) (hv : (s.semaphore l).value ≠ 0) :
    (s.semaphore l).value = 1 ∧ s.inside l = [] := by
  have hc := hs.count l
  refine ⟨by omega, List.eq_nil_of_length_eq_zero (by omega)⟩

/-- Locks whose semaphore is up have no holder and nobody on the way. -/
theorem Exclusion.free (hs : Exclusion s) (hi : s.inside l = []) :
    s.holder l = none ∧ ∀ t, ¬ Passing (s.place t) l := by
  refine ⟨?_, fun t ht => ?_⟩
  · cases hh : s.holder l with
    | none => rfl
    | some t =>
      rw [hs.holder hh] at hi
      cases hi
  · rw [(hs.passing ht).1] at hi
    cases hi

theorem Exclusion.value_eq_zero (hs : Exclusion s) (hi : s.inside l = [t]) :
    (s.semaphore l).value = 0 := by
  have hc := hs.count l
  rw [hi, List.length_singleton] at hc
  omega

/-- A step that touches neither holders nor semaphore values, and takes a thread from one place outside of the
short passages to another. -/
theorem Exclusion.frame (hs : Exclusion s) (hh : s'.holder = s.holder)
    (hv : ∀ l, (s'.semaphore l).value = (s.semaphore l).value) (hi : s'.inside = s.inside)
    (hp : ∀ t l, Passing (s'.place t) l → Passing (s.place t) l) : Exclusion s' where
  count l := by
    rw [hv, hi]
    exact hs.count l
  holder := by
    rw [hh, hi]
    exact hs.holder
  passing := by
    intro l t ht
    rw [hh, hi]
    exact hs.passing (hp t l ht)

variable [DecidableEq T]

theorem Exclusion.move (hs : Exclusion s) {p : Place L C} (hp : ∀ l, ¬ Passing p l) :
    Exclusion (s.move t p) := by
  refine hs.frame rfl (fun _ => rfl) rfl fun u l hu => ?_
  rw [move_place] at hu
  split at hu
  · exact absurd hu (hp l)
  · exact hu

variable [DecidableEq L]

/-- A thread gets past the semaphore. -/
theorem exclusion_enter (hs : Exclusion s) (hv : (s.semaphore l).value ≠ 0) :
    Exclusion (s.enter t l { s.semaphore l with value := (s.semaphore l).value - 1 }) := by
  obtain ⟨hv1, hi⟩ := hs.outside hv
  obtain ⟨hh, hp⟩ := hs.free hi
  obtain ⟨h1, h2, h3⟩ := hs
  unfold Sys.enter
  constructor <;> grind [Passing]

theorem exclusion_setHolder (hs : Exclusion s) (ht : s.place t = .downed l) :
    Exclusion ({ s with holder := Function.update s.holder l (some t) }.move t .idle) := by
  obtain ⟨hi, hn⟩ := hs.passing (t := t) (.inl ht)
  obtain ⟨h1, h2, h3⟩ := hs
  constructor <;> grind [Passing]

theorem exclusion_release (hs : Exclusion s) (hh : s.holder l = some t) (cond : Option C) :
    Exclusion ({ s with holder := Function.update s.holder l none }.move t (.released l cond)) := by
  have hi := hs.holder hh
  have hn : ∀ u, ¬ Passing (s.place u) l := by
    intro u hu
    rw [(hs.passing hu).2] at hh
    cases hh
  obtain ⟨h1, h2, h3⟩ := hs
  constructor <;> grind [Passing]

/-- The semaphore is up again, before the thread has left `lock_release`. -/
theorem exclusion_up (hs : Exclusion s) {cond : Option C} (ht : s.place t = .released l cond)
    {p : Place L C} (hp : ∀ l, ¬ Passing p l) (waiters : List T) :
    Exclusion ((s.up t l waiters).move t p) := by
  obtain ⟨hi, hn⟩ := hs.passing (t := t) (.inr ⟨cond, ht⟩)
  have hv := hs.value_eq_zero hi
  obtain ⟨h1, h2, h3⟩ := hs
  unfold Sys.up
  constructor <;> grind [Passing, unsignedSize]

omit [DecidableEq L] in
theorem not_passing_afterRelease (cond : Option C) (l : L) : ¬ Passing (afterRelease cond) l := by
  unfold afterRelease Passing
  cases cond <;> simp

variable [DecidableEq C]

theorem exclusion_step {lockOf : C → L} {a : MonitorAction T L C} (hs : Exclusion s)
    (h : Step lockOf s a s') : Exclusion s' := by
  cases effect_of_step h with
  | acquire ht hh => exact hs.move (by simp [Passing])
  | @blocked t l ht hv =>
    have hf : Exclusion ({ s with
        semaphore := Function.update s.semaphore l
          { s.semaphore l with waiters := (s.semaphore l).waiters ++ [t] } } : Sys T L C) := by
      refine hs.frame rfl (fun l' => ?_) rfl fun _ _ h => h
      grind
    exact hf.move (by simp [Passing])
  | downed ht hv => exact exclusion_enter hs hv
  | setHolder ht => exact exclusion_setHolder hs ht
  | tried ht hv => exact exclusion_enter hs hv
  | tryFailed => exact hs
  | release ht hh => exact exclusion_release hs hh none
  | upped ht hw => exact exclusion_up hs ht (not_passing_afterRelease _) []
  | @woke t w l cond ht hw =>
    have hu := exclusion_up hs ht (not_passing_afterRelease cond) ((s.semaphore l).waiters.erase w)
    refine hu.frame rfl (fun _ => rfl) rfl fun u l' hu => ?_
    simp only [move_place] at hu ⊢
    grind [Passing]
  | condRelease ht hh => exact exclusion_release hs hh _
  | condWait | slept | waited =>
    refine Exclusion.move ?_ (by simp [Passing])
    exact hs.frame rfl (fun _ => rfl) rfl fun _ _ h => h
  | noWaiter _ _ _ => exact hs
  | signalEarly ht hh hw hm => exact hs.frame rfl (fun _ => rfl) rfl fun _ _ h => h
  | signalWaking ht hh hw hm =>
    refine Exclusion.move ?_ (by simp [Passing])
    exact hs.frame rfl (fun _ => rfl) rfl fun _ _ h => h
  | setPriority => exact hs.frame rfl (fun _ => rfl) rfl fun _ _ h => h

theorem exclusion_invariant (lockOf : C → L) :
    Invariant Init (Step (T := T) lockOf) Exclusion where
  start h := by
    obtain ⟨h1, h2, h3, h4, h5, h6⟩ := h
    constructor <;> simp [h1, h2, h5, h6, semaInit, Passing]
  step := exclusion_step

/-- **Mutual exclusion**: at most one thread is inside, the value counts the rest, and the holder is that
thread. -/
theorem exclusion_of_reachable {lockOf : C → L} (h : Reachable Init (Step lockOf) s) (l : L) :
    (s.inside l).length ≤ 1 ∧ (s.semaphore l).value + (s.inside l).length = 1 ∧
      ∀ t, s.holder l = some t → s.inside l = [t] := by
  have hs := h.of_invariant (exclusion_invariant lockOf)
  have hc := hs.count l
  exact ⟨by omega, hc, fun _ => hs.holder⟩

/-- A thread waits on a condition and another takes the lock meanwhile. -/
theorem exclusion_of_reachable_condWait : ∃ s : Sys (Fin 2) (Fin 1) (Fin 1),
    s.holder 0 = some 1 ∧ s.place 0 = .window 0 ∧
      (s.semaphore 0).value + (s.inside 0).length = 1 ∧ s.inside 0 = [1] := by
  have h : ([MonitorAction.acquire (0 : Fin 2) (0 : Fin 1), .semaDown 0 0, .setHolder 0 0,
      .condWait 0 (0 : Fin 1), .condRelease 0 0, .semaUp 0 0, .acquire 1 0, .semaDown 1 0,
      .setHolder 1 0].foldlM (act fun _ => 0) (initial fun _ => 31)).map
      (fun s => (s.holder 0, s.place 0)) = some (some 1, .window 0) := by decide
  obtain ⟨s, hs, h⟩ := Option.map_eq_some_iff.mp h
  have hr : Reachable Init (Step fun _ => 0) s := .of_foldlM id _ (.start (init_initial _)) hs
  have he := exclusion_of_reachable hr 0
  simp only [Prod.mk.injEq] at h
  exact ⟨s, h.1, h.2, he.2.1, he.2.2 1 h.1⟩

end Pintos.Threads.MutualExclusion
