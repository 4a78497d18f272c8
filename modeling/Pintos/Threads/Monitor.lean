import Pintos.Threads.Semaphore

/-! # Locks and condition variables

`lock_acquire`, `lock_try_acquire`, `lock_release`, `cond_wait`, `cond_signal` and `cond_broadcast` as steps of
a system whose threads interleave. The bodies of the semaphore functions are atomic, the assignments to
`lock->holder` are steps of their own, and a thread in `cond_wait` may be preempted anywhere, in particular
between `lock_release` and `sema_down`. A failed `ASSERT` is `none`. What donations do to priorities may
happen at any time. -/

namespace Pintos.Threads.Monitor

open Pintos.Lib.Runs
open Pintos.Threads.Donation (listMax listMax_mem)
open Pintos.Threads.Semaphore (Sema semaInit semaDown semaTryDown semaUp semaUp_cases unsignedSize)

/-- Where a thread is in the functions of a lock or a condition variable. -/
inductive Place (L C : Type*)
  | idle
  /-- In `lock_acquire`, about to look at the semaphore. -/
  | downing (lock : L)
  | waiting (lock : L)
  /-- Past the semaphore, about to write `lock->holder`. -/
  | downed (lock : L)
  /-- In `lock_release`, past `lock->holder = NULL`, called by `cond_wait` on a condition or not. -/
  | released (lock : L) (cond : Option C)
  /-- In `cond_wait`, on the list of the condition, the lock still held. -/
  | listed (cond : C)
  /-- In `cond_wait`, past `lock_release`, about to look at the semaphore of `waiter`. -/
  | window (cond : C)
  /-- Blocked on the semaphore of `waiter`. -/
  | asleep (cond : C)
  /-- Unblocked, about to look at the semaphore of `waiter` again. -/
  | woken (cond : C)
  deriving DecidableEq

structure Sys (T L C : Type*) where
  holder : L → Option T
  semaphore : L → Sema T
  /-- `cond->waiters`; an element is named after the thread in whose `cond_wait` it lives. -/
  waiters : C → List T
  /-- The semaphore of a thread's `struct semaphore_elem waiter`. -/
  waiter : T → Sema T
  priority : T → ℤ
  place : T → Place L C
  /-- Who is past a `sema_down` of the lock and not past the matching `sema_up`. -/
  inside : L → List T

inductive MonitorAction (T L C : Type*)
  | acquire (t : T) (lock : L)
  | semaDown (t : T) (lock : L)
  | setHolder (t : T) (lock : L)
  | tryAcquire (t : T) (lock : L)
  /-- `lock_release` up to `lock->holder = NULL`. -/
  | release (t : T) (lock : L)
  | semaUp (t : T) (lock : L)
  /-- `cond_wait` up to `list_push_back`. -/
  | condWait (t : T) (cond : C)
  /-- `lock_release` in `cond_wait`, up to `lock->holder = NULL`. -/
  | condRelease (t : T) (cond : C)
  /-- One turn of `sema_down (&waiter.semaphore)`; if it is the last, `lock_acquire` begins. -/
  | waiterDown (t : T) (cond : C)
  /-- `cond_signal`, also as a turn of the loop in `cond_broadcast`. Where the comparison takes the tail of an
  empty list for a thread, it reads `junk`. -/
  | condSignal (t : T) (cond : C) (junk : T → ℤ)
  | setPriority (t : T) (p : ℤ)

variable {T L C : Type*} [DecidableEq T] [DecidableEq L] [DecidableEq C]

def Sys.move (s : Sys T L C) (t : T) (p : Place L C) : Sys T L C :=
  { s with place := Function.update s.place t p }

section move

variable (s : Sys T L C) (t t' : T) (p : Place L C) (l : L) (c : C)

omit [DecidableEq L] [DecidableEq C] in
@[simp, grind =] theorem move_place :
    (s.move t p).place t' = if t' = t then p else s.place t' := Function.update_apply ..

omit [DecidableEq L] [DecidableEq C] in
@[simp, grind =] theorem move_holder : (s.move t p).holder l = s.holder l := rfl
omit [DecidableEq L] [DecidableEq C] in
@[simp, grind =] theorem move_semaphore : (s.move t p).semaphore l = s.semaphore l := rfl
omit [DecidableEq L] [DecidableEq C] in
@[simp, grind =] theorem move_waiters : (s.move t p).waiters c = s.waiters c := rfl
omit [DecidableEq L] [DecidableEq C] in
@[simp, grind =] theorem move_waiter : (s.move t p).waiter t' = s.waiter t' := rfl
omit [DecidableEq L] [DecidableEq C] in
@[simp, grind =] theorem move_inside : (s.move t p).inside l = s.inside l := rfl

end move

/-- The priority by which `semaphore_elem_priority_less` compares an element. -/
def elemPriority (s : Sys T L C) (junk : T → ℤ) (t : T) : ℤ :=
  match (s.waiter t).waiters with
  | [] => junk t
  | w :: ws => s.priority (listMax s.priority w ws)

/-- `sema_down` or `sema_try_down` of a lock has succeeded. -/
def Sys.enter (s : Sys T L C) (t : T) (l : L) (sema : Sema T) : Sys T L C :=
  { s with
    semaphore := Function.update s.semaphore l sema
    inside := Function.update s.inside l (s.inside l ++ [t]) }.move t (.downed l)

/-- `sema_up` of a lock; the thread goes on after `lock_release`. -/
def leave (s : Sys T L C) (t : T) (l : L) (cond : Option C) : Sys T L C :=
  let (next, sema) := semaUp s.priority (s.semaphore l)
  let s := { s with
    semaphore := Function.update s.semaphore l sema
    inside := Function.update s.inside l ((s.inside l).erase t) }
  let s := match next with
    | none => s
    | some w => s.move w (.downing l)
  match cond with
  | none => s.move t .idle
  | some c => s.move t (.window c)

/-- `list_remove` and `sema_up` in `cond_signal`. -/
def signal (s : Sys T L C) (c : C) (e : T) : Sys T L C :=
  let (next, sema) := semaUp s.priority (s.waiter e)
  let s := { s with
    waiters := Function.update s.waiters c ((s.waiters c).erase e)
    waiter := Function.update s.waiter e sema }
  match next with
  | none => s
  | some w => s.move w (.woken c)

/-- What an action does, if its thread is where it must be; `lockOf` is the lock that protects a condition. -/
def act (lockOf : C → L) (s : Sys T L C) : MonitorAction T L C → Option (Sys T L C)
  | .acquire t l =>
    if s.place t = .idle ∧ s.holder l ≠ some t then some (s.move t (.downing l)) else none
  | .semaDown t l =>
    if s.place t = .downing l then
      let (done, sema) := semaDown (s.semaphore l) t
      if done then some (s.enter t l sema)
      else some ({ s with semaphore := Function.update s.semaphore l sema }.move t (.waiting l))
    else none
  | .setHolder t l =>
    if s.place t = .downed l then
      some ({ s with holder := Function.update s.holder l (some t) }.move t .idle)
    else none
  | .tryAcquire t l =>
    if s.place t = .idle ∧ s.holder l ≠ some t then
      let (done, sema) := semaTryDown (s.semaphore l)
      if done then some (s.enter t l sema) else some s
    else none
  | .release t l =>
    if s.place t = .idle ∧ s.holder l = some t then
      some ({ s with holder := Function.update s.holder l none }.move t (.released l none))
    else none
  | .semaUp t l =>
    match s.place t with
    | .released l' cond => if l' = l then some (leave s t l cond) else none
    | _ => none
  | .condWait t c =>
    if s.place t = .idle ∧ s.holder (lockOf c) = some t then
      some ({ s with
        waiter := Function.update s.waiter t (semaInit 0)
        waiters := Function.update s.waiters c (s.waiters c ++ [t]) }.move t (.listed c))
    else none
  | .condRelease t c =>
    if s.place t = .listed c ∧ s.holder (lockOf c) = some t then
      some ({ s with holder := Function.update s.holder (lockOf c) none }.move t
        (.released (lockOf c) (some c)))
    else none
  | .waiterDown t c =>
    if s.place t = .window c ∨ s.place t = .woken c then
      let (done, sema) := semaDown (s.waiter t) t
      let s := { s with waiter := Function.update s.waiter t sema }
      if done then
        if s.holder (lockOf c) = some t then none else some (s.move t (.downing (lockOf c)))
      else some (s.move t (.asleep c))
    else none
  | .condSignal t c junk =>
    if s.place t = .idle ∧ s.holder (lockOf c) = some t then
      match s.waiters c with
      | [] => some s
      | e :: es => some (signal s c (listMax (elemPriority s junk) e es))
    else none
  | .setPriority t p => some { s with priority := Function.update s.priority t p }

def Step (lockOf : C → L) (s : Sys T L C) (a : MonitorAction T L C) (s' : Sys T L C) : Prop :=
  act lockOf s a = some s'

/-- Every lock as `lock_init` leaves it, every condition as `cond_init` does. -/
structure Init (s : Sys T L C) : Prop where
  holder : ∀ l, s.holder l = none
  semaphore : ∀ l, s.semaphore l = semaInit 1
  waiters : ∀ c, s.waiters c = []
  waiter : ∀ t, s.waiter t = semaInit 0
  place : ∀ t, s.place t = .idle
  inside : ∀ l, s.inside l = []

def initial (priority : T → ℤ) : Sys T L C where
  holder _ := none
  semaphore _ := semaInit 1
  waiters _ := []
  waiter _ := semaInit 0
  priority := priority
  place _ := .idle
  inside _ := []

omit [DecidableEq T] [DecidableEq L] [DecidableEq C] in
theorem init_initial (priority : T → ℤ) : Init (initial priority : Sys T L C) :=
  ⟨fun _ => rfl, fun _ => rfl, fun _ => rfl, fun _ => rfl, fun _ => rfl, fun _ => rfl⟩

/-! ### What a step does -/

/-- The place where `lock_release` returns to. -/
def afterRelease : Option C → Place L C
  | none => .idle
  | some c => .window c

/-- A lock is up again and `t` outside of it. -/
def Sys.up (s : Sys T L C) (t : T) (l : L) (waiters : List T) : Sys T L C :=
  { s with
    semaphore := Function.update s.semaphore l
      ⟨((s.semaphore l).value + 1) % unsignedSize, waiters⟩
    inside := Function.update s.inside l ((s.inside l).erase t) }

/-- The element of `e` is signalled. -/
def Sys.signalled (s : Sys T L C) (c : C) (e : T) (waiters : List T) : Sys T L C :=
  { s with
    waiters := Function.update s.waiters c ((s.waiters c).erase e)
    waiter := Function.update s.waiter e ⟨((s.waiter e).value + 1) % unsignedSize, waiters⟩ }

/-- The steps, with every guard on the way to them. -/
inductive Effect (lockOf : C → L) (s : Sys T L C) : MonitorAction T L C → Sys T L C → Prop
  | acquire {t l} (ht : s.place t = .idle) (hh : s.holder l ≠ some t) :
      Effect lockOf s (.acquire t l) (s.move t (.downing l))
  | blocked {t l} (ht : s.place t = .downing l) (hv : (s.semaphore l).value = 0) :
      Effect lockOf s (.semaDown t l) ({ s with
        semaphore := Function.update s.semaphore l
          { s.semaphore l with waiters := (s.semaphore l).waiters ++ [t] } }.move t (.waiting l))
  | downed {t l} (ht : s.place t = .downing l) (hv : (s.semaphore l).value ≠ 0) :
      Effect lockOf s (.semaDown t l)
        (s.enter t l { s.semaphore l with value := (s.semaphore l).value - 1 })
  | setHolder {t l} (ht : s.place t = .downed l) :
      Effect lockOf s (.setHolder t l)
        ({ s with holder := Function.update s.holder l (some t) }.move t .idle)
  | tried {t l} (ht : s.place t = .idle) (hv : (s.semaphore l).value ≠ 0) :
      Effect lockOf s (.tryAcquire t l)
        (s.enter t l { s.semaphore l with value := (s.semaphore l).value - 1 })
  | tryFailed {t l} : Effect lockOf s (.tryAcquire t l) s
  | release {t l} (ht : s.place t = .idle) (hh : s.holder l = some t) :
      Effect lockOf s (.release t l)
        ({ s with holder := Function.update s.holder l none }.move t (.released l none))
  | upped {t l cond} (ht : s.place t = .released l cond) (hw : (s.semaphore l).waiters = []) :
      Effect lockOf s (.semaUp t l) ((s.up t l []).move t (afterRelease cond))
  | woke {t w l cond} (ht : s.place t = .released l cond) (hw : w ∈ (s.semaphore l).waiters) :
      Effect lockOf s (.semaUp t l)
        (((s.up t l ((s.semaphore l).waiters.erase w)).move w (.downing l)).move t
          (afterRelease cond))
  | condWait {t c} (ht : s.place t = .idle) (hh : s.holder (lockOf c) = some t) :
      Effect lockOf s (.condWait t c) ({ s with
        waiter := Function.update s.waiter t (semaInit 0)
        waiters := Function.update s.waiters c (s.waiters c ++ [t]) }.move t (.listed c))
  | condRelease {t c} (ht : s.place t = .listed c) (hh : s.holder (lockOf c) = some t) :
      Effect lockOf s (.condRelease t c)
        ({ s with holder := Function.update s.holder (lockOf c) none }.move t
          (.released (lockOf c) (some c)))
  | slept {t c} (ht : s.place t = .window c ∨ s.place t = .woken c) (hv : (s.waiter t).value = 0) :
      Effect lockOf s (.waiterDown t c) ({ s with
        waiter := Function.update s.waiter t
          { s.waiter t with waiters := (s.waiter t).waiters ++ [t] } }.move t (.asleep c))
  | waited {t c} (ht : s.place t = .window c ∨ s.place t = .woken c) (hv : (s.waiter t).value ≠ 0)
      (hh : s.holder (lockOf c) ≠ some t) :
      Effect lockOf s (.waiterDown t c) ({ s with
        waiter := Function.update s.waiter t
          { s.waiter t with value := (s.waiter t).value - 1 } }.move t (.downing (lockOf c)))
  | noWaiter {t c junk} (ht : s.place t = .idle) (hh : s.holder (lockOf c) = some t)
      (hw : s.waiters c = []) : Effect lockOf s (.condSignal t c junk) s
  | signalEarly {t e es c junk} (ht : s.place t = .idle) (hh : s.holder (lockOf c) = some t)
      (hw : s.waiters c = e :: es) (hm : (s.waiter (listMax (elemPriority s junk) e es)).waiters = []) :
      Effect lockOf s (.condSignal t c junk)
        (s.signalled c (listMax (elemPriority s junk) e es) [])
  | signalWaking {t e es c junk w} (ht : s.place t = .idle) (hh : s.holder (lockOf c) = some t)
      (hw : s.waiters c = e :: es)
      (hm : w ∈ (s.waiter (listMax (elemPriority s junk) e es)).waiters) :
      Effect lockOf s (.condSignal t c junk)
        ((s.signalled c (listMax (elemPriority s junk) e es)
          ((s.waiter (listMax (elemPriority s junk) e es)).waiters.erase w)).move w (.woken c))
  | setPriority {t p} : Effect lockOf s (.setPriority t p)
      { s with priority := Function.update s.priority t p }

/-- **What a step does.** -/
theorem effect_of_step {lockOf : C → L} {s s' : Sys T L C} {a : MonitorAction T L C}
    (h : Step lockOf s a s') : Effect lockOf s a s' := by
  unfold Step at h
  cases a with
  | acquire t l =>
    simp only [act] at h
    split at h <;> cases h
    exact .acquire (And.left ‹_›) (And.right ‹_›)
  | semaDown t l =>
    simp only [act] at h
    split at h
    · rename_i ht
      by_cases hv : (s.semaphore l).value = 0
      · simp only [semaDown, if_pos hv] at h
        cases h
        exact .blocked ht hv
      · simp only [semaDown, if_neg hv] at h
        cases h
        exact .downed ht hv
    · cases h
  | setHolder t l =>
    simp only [act] at h
    split at h <;> cases h
    exact .setHolder ‹_›
  | tryAcquire t l =>
    simp only [act] at h
    split at h
    · rename_i ht
      by_cases hv : (s.semaphore l).value > 0
      · simp only [semaTryDown, if_pos hv] at h
        cases h
        exact .tried ht.1 (by omega)
      · simp only [semaTryDown, if_neg hv] at h
        cases h
        exact .tryFailed
    · cases h
  | release t l =>
    simp only [act] at h
    split at h <;> cases h
    exact .release (And.left ‹_›) (And.right ‹_›)
  | semaUp t l =>
    simp only [act] at h
    split at h
    · rename_i l' cond ht
      split at h <;> cases h
      subst l'
      rcases semaUp_cases s.priority (s.semaphore l) with ⟨hw, he⟩ | ⟨w, hw, he⟩
      · have : Effect lockOf s _ _ := .upped ht hw
        unfold leave
        rw [he]
        cases cond <;> simpa [Sys.up, afterRelease, hw] using this
      · have : Effect lockOf s _ _ := .woke ht hw
        unfold leave
        rw [he]
        cases cond <;> exact this
    · cases h
  | condWait t c =>
    simp only [act] at h
    split at h <;> cases h
    exact .condWait (And.left ‹_›) (And.right ‹_›)
  | condRelease t c =>
    simp only [act] at h
    split at h <;> cases h
    exact .condRelease (And.left ‹_›) (And.right ‹_›)
  | waiterDown t c =>
    simp only [act] at h
    split at h
    · rename_i ht
      by_cases hv : (s.waiter t).value = 0
      · simp only [semaDown, if_pos hv] at h
        cases h
        exact .slept ht hv
      · simp only [semaDown, if_neg hv, if_true] at h
        split at h <;> cases h
        exact .waited ht hv ‹_›
    · cases h
  | condSignal t c junk =>
    simp only [act] at h
    split at h
    · rename_i ht
      split at h <;> rename_i hw
      · cases h
        exact .noWaiter ht.1 ht.2 hw
      · rename_i e es
        cases h
        rcases semaUp_cases s.priority (s.waiter (listMax (elemPriority s junk) e es)) with
          ⟨hm, he⟩ | ⟨w, hm, he⟩
        · have : Effect lockOf s _ _ := .signalEarly ht.1 ht.2 hw hm
          unfold signal
          rw [he]
          simpa [Sys.signalled, hm] using this
        · have : Effect lockOf s _ _ := .signalWaking ht.1 ht.2 hw hm
          unfold signal
          rw [he]
          exact this
    · cases h
  | setPriority t p =>
    cases h
    exact .setPriority

end Pintos.Threads.Monitor
