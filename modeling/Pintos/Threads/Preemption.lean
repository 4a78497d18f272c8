import Pintos.Threads.ListDiscipline

/-! # Preemption by priority

The calls that may make a thread of a higher priority ready, or lower the priority of the running one:
`sema_up`, `lock_release`, `cond_signal`, `thread_create` and `thread_set_priority`, over the scheduler, with
what the donations record of the threads. A call is as many steps as it has sections between which the timer
may interrupt it, and what a step of `Sched` does is done by `Scheduler.act`. Only `thread_create` and a
`thread_set_priority` that lowers the priority end in `thread_yield`. -/

namespace Pintos.Threads.Preemption

open Pintos.Lib.Runs
open Pintos.Threads.Donation (Kernel maxPriority maxPriority_le_iff le_maxPriority_iff listMax listMax_mem le_listMax
  threadDonatePriority threadRestorePriority threadSetPriority)
open Pintos.Threads.Semaphore (Sema semaInit semaDown semaUp)
open Pintos.Threads.Scheduler (Sched SchedAction Status schedule threadInit)
open Pintos.Threads.ListDiscipline (Good)

section Sched

/-! ### What the scheduler ensures -/

variable {T S : Type*} {s s' : Sched T S} {σ : S}

/-- No ready thread has a higher priority than the running one. -/
def NoHigher (s : Sched T S) : Prop := ∀ t ∈ s.readyList, s.priority t ≤ s.priority s.current

/-- No thread has a higher priority than the running one among the ready threads and the waiters of `σ`. -/
def NoHigherWith (s : Sched T S) (σ : S) : Prop :=
  NoHigher s ∧ ∀ t ∈ (s.semas σ).waiters, s.priority t ≤ s.priority s.current

variable [DecidableEq T]

theorem noHigher_of_schedule (h : schedule s = some s') : NoHigher s' := by
  obtain ⟨next, rfl, -, hmax⟩ := ListDiscipline.schedule_cases h
  obtain ⟨hready, -, -, -, -, -, -, hcur⟩ := ListDiscipline.switchTo_lists s next
  have hp : (ListDiscipline.switchTo s next).priority = s.priority := by
    unfold ListDiscipline.switchTo Scheduler.threadScheduleTail
    dsimp only
    split
    · split <;> rfl
    · rfl
  intro t ht
  rw [hready] at ht
  rw [hp, hcur]
  rcases hmax with ⟨hnil, -⟩ | ⟨-, hmax⟩
  · rw [hnil] at ht
    cases ht
  · exact hmax t (List.mem_of_mem_erase ht)

theorem threadUnblock_eq {t : T} (h : Scheduler.threadUnblock s t = some s') :
    s'.readyList = s.readyList ++ [t] ∧ s'.priority = s.priority ∧ s'.current = s.current := by
  unfold Scheduler.threadUnblock at h
  split at h <;> cases h
  exact ⟨rfl, rfl, rfl⟩

theorem wakeSleepers_current : ∀ (ts : List T) {s s' : Sched T S},
    Scheduler.wakeSleepers s ts = some s' → s'.current = s.current
  | [], _, _, h => by
    cases h
    rfl
  | t :: ts, s, s', h => by
    unfold Scheduler.wakeSleepers at h
    split at h
    · cases h
      rfl
    · obtain ⟨s₁, h1, h2⟩ := Option.bind_eq_some_iff.mp h
      unfold Scheduler.threadExitSleep at h1
      split at h1
      · exact (wakeSleepers_current ts h2).trans (threadUnblock_eq h1).2.2
      · cases h1

variable [DecidableEq S]

/-- `sema_up` ensures that no ready thread is of a higher priority if and only if the waiters and what was
ready before are not. -/
theorem noHigher_semaUp_iff (h : Scheduler.act s (.semaUp σ) = some s') :
    s'.current = s.current ∧ (NoHigher s' ↔ NoHigherWith s σ) := by
  change Scheduler.semaUpCall s σ = some s' at h
  unfold Scheduler.semaUpCall semaUp at h
  cases hw : (s.semas σ).waiters with
  | nil =>
    simp only [hw, Option.some.injEq] at h
    subst h
    refine ⟨rfl, fun h => ⟨h, ?_⟩, fun h => h.1⟩
    simp [hw]
  | cons w ws =>
    simp only [hw] at h
    obtain ⟨hr, hp, hc⟩ := threadUnblock_eq h
    have hmem := listMax_mem s.priority ws w
    have hmax := le_listMax s.priority ws w
    refine ⟨hc, ?_⟩
    unfold NoHigherWith NoHigher
    rw [hr, hp, hc, hw]
    constructor
    · intro hall
      have htop := hall (listMax s.priority w ws) (by simp)
      exact ⟨fun t ht => hall t (by simp [ht]), fun t ht => (hmax t ht).trans htop⟩
    · rintro ⟨hready, hwait⟩ t ht
      rcases List.mem_append.mp ht with ht | ht
      · exact hready t ht
      · rw [List.mem_singleton.mp ht]
        exact hwait _ hmem

/-- Another thread gets to run only through `schedule`. -/
theorem current_or_noHigher {a : SchedAction T S} (h : Scheduler.act s a = some s') :
    s'.current = s.current ∨ NoHigher s' := by
  cases a with
  | create t p | createIdle t | idleStart | semaTryDown | setPriority =>
    cases h
    exact .inl rfl
  | unblock t =>
    obtain ⟨s₁, h1, rfl⟩ := Option.map_eq_some_iff.mp h
    exact .inl (threadUnblock_eq h1).2.2
  | yield | block | idleBlock | exit => exact .inr (noHigher_of_schedule h)
  | semaUp σ => exact .inl (noHigher_semaUp_iff h).1
  | semaDown σ =>
    change Scheduler.semaDownTurn s σ = some s' at h
    unfold Scheduler.semaDownTurn at h
    dsimp only at h
    split at h
    · cases h
      exact .inl rfl
    · exact .inr (noHigher_of_schedule h)
  | enterSleep n =>
    change Scheduler.threadEnterSleep s n = some s' at h
    unfold Scheduler.threadEnterSleep at h
    split at h
    · cases h
    · split at h
      · exact .inr (noHigher_of_schedule h)
      · cases h
        exact .inl rfl
  | timer =>
    change Scheduler.timerInterrupt s = some s' at h
    unfold Scheduler.timerInterrupt at h
    obtain ⟨s₁, h1, h2⟩ := Option.bind_eq_some_iff.mp h
    split at h2
    · exact .inr (noHigher_of_schedule h2)
    · cases h2
      exact .inl ((wakeSleepers_current _ h1).trans rfl)

end Sched

/-! ### The calls -/

/-- What follows a `sema_down`. -/
inductive Then (S : Type*)
  | nothing
  /-- `lock->holder = thread_current ()`. -/
  | setHolder
  /-- The `lock_acquire` that ends `cond_wait`. -/
  | acquire (lock : S)
  deriving DecidableEq

/-- Where a thread is in the calls. A lock is named after its semaphore. -/
inductive Position (T S : Type*)
  | elsewhere
  /-- In `thread_create`, past `init_thread`. -/
  | created (t : T)
  /-- In `thread_create`, past `thread_unblock`. -/
  | unblocked
  /-- In `thread_set_priority`, the priority lowered. -/
  | lowered
  /-- In the `thread_yield` that ends one of these two. -/
  | yielding
  /-- In `cond_wait`, about to call `lock_acquire`. -/
  | acquiring (lock : S)
  /-- In `lock_acquire`, having seen a holder. -/
  | donating (lock : S)
  | downing (sema : S) (then_ : Then S)
  /-- Past the semaphore of a lock, about to write `lock->holder`. -/
  | downed (lock : S)
  /-- In `cond_wait`, past `list_push_back`. -/
  | listed (waiter lock : S)
  /-- In `lock_release`, past `lock->holder = NULL`, called by `cond_wait` with a `waiter` or not. -/
  | released (lock : S) (waiter : Option S)
  /-- In `lock_release`, past `thread_restore_priority`. -/
  | restored (lock : S) (waiter : Option S)
  deriving DecidableEq

/-- The scheduler with `priority_donation_info` of every thread, the locks and the conditions. -/
structure System (T S C : Type*) where
  sched : Sched T S
  genesisPriority : T → ℤ
  lock : T → Option S
  recipient : T → Option T
  donorThreadsList : T → List T
  holder : S → Option T
  /-- The semaphores of the elements of `cond->waiters`. -/
  waiters : C → List S
  position : T → Position T S
  /-- One of the five calls has just returned, to the running thread. -/
  returned : Bool

inductive CallAction (T S C : Type*)
  /-- Everything else that the scheduler sees; `sema_up` here is that of an interrupt handler. -/
  | sched (a : SchedAction T S)
  /-- `thread_create` with no page left. -/
  | createFails
  | create (t : T) (priority : ℤ)
  | createIdle (t : T)
  | createUnblock (t : T)
  | createYield
  | setPriority (newPriority : ℤ)
  | setPriorityYield
  /-- The beginning of `sema_down`. -/
  | down (sema : S)
  /-- One turn of the loop in `sema_down`, or its end. -/
  | semaDown (sema : S) (then_ : Then S)
  | semaUp (sema : S)
  | acquire (lock : S)
  | donate (lock : S)
  | setHolder (lock : S)
  | tryAcquire (lock : S)
  | release (lock : S)
  | restore (lock : S) (waiter : Option S)
  /-- `sema_up` at the end of `lock_release`. -/
  | releaseUp (lock : S) (waiter : Option S)
  /-- `cond_wait` up to `list_push_back`. -/
  | condWait (cond : C) (waiter : S)
  /-- `lock_release` in `cond_wait`, up to `lock->holder = NULL`. -/
  | condRelease (waiter lock : S)
  /-- `cond_signal`, also as a turn of the loop in `cond_broadcast`. Where the comparison takes the tail of an
  empty list for a thread, it reads `junk`. -/
  | condSignal (cond : C) (junk : S → ℤ)

variable {T S C : Type*}

def System.current (s : System T S C) : T := s.sched.current

/-- Where the running thread is. -/
def System.here (s : System T S C) : Position T S := s.position s.current

/-- What the functions of the donations see. -/
def System.kernel (s : System T S C) : Kernel T S where
  priority := s.sched.priority
  genesisPriority := s.genesisPriority
  lock := s.lock
  recipient := s.recipient
  donorThreadsList := s.donorThreadsList
  holder := s.holder
  value σ := (s.sched.semas σ).value
  waiters σ := (s.sched.semas σ).waiters
  phase _ := .idle

/-- What they write. -/
def System.withKernel (s : System T S C) (k : Kernel T S) : System T S C :=
  { s with
    sched := { s.sched with priority := k.priority }
    genesisPriority := k.genesisPriority
    lock := k.lock
    recipient := k.recipient
    donorThreadsList := k.donorThreadsList }

def System.withSched (s : System T S C) (sched : Sched T S) : System T S C := { s with sched := sched }

def System.return (s : System T S C) : System T S C := { s with returned := true }

/-- The priority by which `semaphore_elem_priority_less` compares an element. -/
def elemPriority (s : Sched T S) (junk : S → ℤ) (σ : S) : ℤ :=
  match (s.semas σ).waiters with
  | [] => junk σ
  | w :: ws => s.priority (listMax s.priority w ws)

/-- The element that `cond_signal` takes. -/
def System.signalled (s : System T S C) (c : C) (junk : S → ℤ) : Option S :=
  match s.waiters c with
  | [] => none
  | e :: es => some (listMax (elemPriority s.sched junk) e es)

/-- Where a thread goes on after `sema_down`. -/
def Then.position (σ : S) : Then S → Position T S
  | .nothing => .elsewhere
  | .setHolder => .downed σ
  | .acquire l => .acquiring l

/-- Where a thread goes on after `lock_release`. -/
def afterRelease (lock : S) : Option S → Position T S
  | none => .elsewhere
  | some σ => .downing σ (.acquire lock)

variable [DecidableEq T]

def System.move (s : System T S C) (t : T) (p : Position T S) : System T S C :=
  { s with position := Function.update s.position t p }

/-- The donations part of `init_thread`. -/
def System.initDonation (s : System T S C) (t : T) (priority : ℤ) : System T S C :=
  { s with
    genesisPriority := Function.update s.genesisPriority t priority
    lock := Function.update s.lock t none
    recipient := Function.update s.recipient t none
    donorThreadsList := Function.update s.donorThreadsList t [] }.move t .elsewhere

variable [DecidableEq S]

/-- The running thread may have come back from the `thread_yield` that ends a call. -/
def System.arrive (s : System T S C) : System T S C :=
  if s.here = .yielding then (s.move s.current .elsewhere).return else s

variable [DecidableEq C] [Fintype T]

def System.setHolder (s : System T S C) (l : S) (t : Option T) : System T S C :=
  { s with holder := Function.update s.holder l t }

/-- What an action does, but for the call it may let return by switching to another thread. -/
def body (lockOf : C → S) (s : System T S C) : CallAction T S C → Option (System T S C)
  | .sched a => (Scheduler.act s.sched a).map s.withSched
  | .createFails => some s.return
  | .create t p =>
    (Scheduler.act s.sched (.create t p)).map fun sched =>
      ((s.withSched sched).initDonation t p).move s.current (.created t)
  | .createIdle t =>
    (Scheduler.act s.sched (.createIdle t)).map fun sched =>
      ((s.withSched sched).initDonation t 0).move s.current (.created t)
  | .createUnblock t =>
    (Scheduler.act s.sched (.unblock t)).map fun sched => (s.withSched sched).move s.current .unblocked
  | .createYield =>
    (Scheduler.act s.sched .yield).map fun sched => (s.withSched sched).move s.current .yielding
  | .setPriority p =>
    let k := threadSetPriority s.kernel s.current p
    if s.sched.priority s.current > k.priority s.current then
      some ((s.withKernel k).move s.current .lowered)
    else some (s.withKernel k).return
  | .setPriorityYield =>
    (Scheduler.act s.sched .yield).map fun sched => (s.withSched sched).move s.current .yielding
  | .down σ => some (s.move s.current (.downing σ .nothing))
  | .semaDown σ k =>
    (Scheduler.act s.sched (.semaDown σ)).map fun sched =>
      if (s.sched.semas σ).value = 0 then s.withSched sched
      else (s.withSched sched).move s.current (k.position σ)
  | .semaUp σ => (Scheduler.act s.sched (.semaUp σ)).map fun sched => (s.withSched sched).return
  | .acquire l =>
    if s.holder l = some s.current then none
    else if s.holder l = none then some (s.move s.current (.downing l .setHolder))
    else some (s.move s.current (.donating l))
  | .donate l =>
    match s.holder l with
    | none => none
    | some r =>
      (threadDonatePriority s.kernel s.current r l).map fun k =>
        (s.withKernel k).move s.current (.downing l .setHolder)
  | .setHolder l => some ((s.setHolder l (some s.current)).move s.current .elsewhere)
  | .tryAcquire l =>
    if s.holder l = some s.current then none
    else
      (Scheduler.act s.sched (.semaTryDown l)).map fun sched =>
        if (s.sched.semas l).value > 0 then (s.withSched sched).move s.current (.downed l)
        else s.withSched sched
  | .release l =>
    if s.holder l = some s.current then
      some ((s.setHolder l none).move s.current (.released l none))
    else none
  | .restore l w =>
    some ((s.withKernel (threadRestorePriority s.kernel s.current l)).move s.current (.restored l w))
  | .releaseUp l w =>
    (Scheduler.act s.sched (.semaUp l)).map fun sched =>
      ((s.withSched sched).move s.current (afterRelease l w)).return
  | .condWait c σ =>
    if s.holder (lockOf c) = some s.current then
      some ({ s with
        sched := { s.sched with semas := Function.update s.sched.semas σ (semaInit 0) }
        waiters := Function.update s.waiters c (s.waiters c ++ [σ]) }.move s.current
          (.listed σ (lockOf c)))
    else none
  | .condRelease σ l =>
    if s.holder l = some s.current then
      some ((s.setHolder l none).move s.current (.released l (some σ)))
    else none
  | .condSignal c junk =>
    if s.holder (lockOf c) = some s.current then
      match s.signalled c junk with
      | none => some s.return
      | some σ =>
        (Scheduler.act s.sched (.semaUp σ)).map fun sched =>
          { s with
            sched := sched
            waiters := Function.update s.waiters c ((s.waiters c).erase σ) }.return
    else none

def act (lockOf : C → S) (s : System T S C) (a : CallAction T S C) : Option (System T S C) :=
  (body lockOf { s with returned := false } a).map System.arrive

/-- Where the running thread must be for what is not one of the calls. The timer and the handlers may
interrupt it anywhere. -/
def Allowed (s : System T S C) : SchedAction T S → Prop
  | .create _ _ | .createIdle _ | .setPriority _ _ | .semaDown _ => False
  | .timer | .semaUp _ | .semaTryDown _ => True
  | .unblock t => ∀ u, s.position u ≠ .created t
  | .idleStart | .yield | .block | .idleBlock | .enterSleep _ | .exit => s.here = .elsewhere

/-- Where the running thread must be. -/
def Enabled (s : System T S C) : CallAction T S C → Prop
  | .sched a => Scheduler.Enabled s.sched a ∧ Allowed s a
  | .create t p => s.here = .elsewhere ∧ Scheduler.Enabled s.sched (.create t p)
  | .createIdle t => s.here = .elsewhere ∧ Scheduler.Enabled s.sched (.createIdle t)
  | .createUnblock t => s.here = .created t ∧ Scheduler.Enabled s.sched (.unblock t)
  | .createYield => s.here = .unblocked
  | .setPriorityYield => s.here = .lowered
  | .createFails | .setPriority _ | .semaUp _ | .tryAcquire _ | .release _ | .condSignal _ _ =>
    s.here = .elsewhere
  | .down σ => s.here = .elsewhere ∧ Scheduler.Enabled s.sched (.semaDown σ)
  | .semaDown σ k => s.here = .downing σ k ∧ Scheduler.Enabled s.sched (.semaDown σ)
  | .acquire l => s.here = .elsewhere ∨ s.here = .acquiring l
  | .donate l => s.here = .donating l
  | .setHolder l => s.here = .downed l
  | .restore l w => s.here = .released l w
  | .releaseUp l w => s.here = .restored l w
  | .condWait _ σ =>
    s.here = .elsewhere ∧ (s.sched.semas σ).waiters = [] ∧ (∀ c, σ ∉ s.waiters c) ∧
      s.holder σ = none
  | .condRelease σ l => s.here = .listed σ l

def Step (lockOf : C → S) (s : System T S C) (a : CallAction T S C) (s' : System T S C) : Prop :=
  Enabled s a ∧ act lockOf s a = some s'

/-- The state that `thread_init` leaves, with the locks and the conditions initialised. -/
structure Init (s : System T S C) : Prop where
  sched : Scheduler.Init s.sched
  genesisPriority : s.genesisPriority = s.sched.priority
  lock : ∀ t, s.lock t = none
  recipient : ∀ t, s.recipient t = none
  donorThreadsList : ∀ t, s.donorThreadsList t = []
  holder : ∀ l, s.holder l = none
  waiters : ∀ c, s.waiters c = []
  position : ∀ t, s.position t = .elsewhere
  returned : s.returned = false

/-! ### What the calls should ensure, and when they do -/

/-- Before the last section of a call that does not yield: what is ready, or may become so, is not of a higher
priority than the running thread. A `thread_set_priority` that lowers the priority is not asked for more. -/
def Fits (s : System T S C) : CallAction T S C → Prop
  | .createFails => NoHigher s.sched
  | .semaUp σ => NoHigherWith s.sched σ
  | .releaseUp l _ => NoHigherWith s.sched l
  | .condSignal c junk =>
    NoHigher s.sched ∧ ∀ σ, s.signalled c junk = some σ → NoHigherWith s.sched σ
  | .setPriority p =>
    (p < s.sched.priority s.current ∧
      ∀ d ∈ s.donorThreadsList s.current, s.sched.priority d < s.sched.priority s.current) ∨
    ∀ t ∈ s.sched.readyList, s.sched.priority t ≤ p ∨
      ∃ d ∈ s.donorThreadsList s.current, s.sched.priority t ≤ s.sched.priority d
  | _ => True

section frame

variable (s : System T S C) (t : T) (p : Position T S) (sched : Sched T S)

omit [DecidableEq S] [DecidableEq C] [Fintype T] in
@[simp] theorem move_sched : (s.move t p).sched = s.sched := rfl
omit [DecidableEq S] [DecidableEq C] [Fintype T] in
@[simp] theorem move_returned : (s.move t p).returned = s.returned := rfl
omit [DecidableEq S] [DecidableEq C] [Fintype T] in
@[simp] theorem move_here : (s.move t p).here = if s.current = t then p else s.here :=
  Function.update_apply ..

omit [DecidableEq T] [DecidableEq S] [DecidableEq C] [Fintype T] in
@[simp] theorem withSched_here : (s.withSched sched).here = s.position sched.current := rfl
omit [DecidableEq T] [DecidableEq S] [DecidableEq C] [Fintype T] in
@[simp] theorem withSched_current : (s.withSched sched).current = sched.current := rfl

end frame

section step

variable {lockOf : C → S} {s s₁ s' : System T S C} {a : CallAction T S C}

omit [DecidableEq C] [Fintype T] in
theorem arrive_sched : s.arrive.sched = s.sched := by
  unfold System.arrive
  split <;> rfl

omit [DecidableEq C] [Fintype T] in
theorem arrive_here : s.arrive.here ≠ .yielding := by
  unfold System.arrive
  split
  · show ((s.move s.current .elsewhere)).here ≠ .yielding
    simp
  · assumption

/-! ### What a step does -/

/-- A step that ends no call, unless by switching to a thread whose call ends so. -/
structure Continues (s : System T S C) (a : CallAction T S C) (s₁ : System T S C) : Prop where
  good : Good s₁.sched
  returned : s₁.returned = false
  switched : s₁.here = .yielding → NoHigher s₁.sched ∧ Fits s a

/-- A step that ends a call of the running thread. -/
structure Returns (s : System T S C) (a : CallAction T S C) (s₁ : System T S C) : Prop where
  good : Good s₁.sched
  returned : s₁.returned = true
  here : s₁.here ≠ .yielding
  noHigher : NoHigher s₁.sched ↔ Fits s a

omit [DecidableEq C] [Fintype T] in
theorem good_act (hs : Good s.sched) {b : SchedAction T S} {sched : Sched T S}
    (hb : Scheduler.Enabled s.sched b) (h : Scheduler.act s.sched b = some sched) : Good sched :=
  (ListDiscipline.keeps_step hs hb).1 _ h

omit [DecidableEq T] [DecidableEq S] [Fintype T] in
theorem good_priority {s : Sched T S} (hs : Good s) (p : T → ℤ) : Good { s with priority := p } := by
  obtain ⟨⟨h1, h2, h3, h4, h5, h6, h7, h8, h9, h10, h11, h12⟩, h13, h14⟩ := hs
  exact ⟨⟨h1, h2, h3, h4, h5, h6, h7, h8, h9, h10, h11, h12⟩, h13, h14⟩

omit [DecidableEq C] [Fintype T] in
/-- A step of the scheduler after which its thread stays where it was, or goes where no call has ended. -/
theorem continues_act (hs : Good s.sched) (hr : s.returned = false) (hh : s.here ≠ .yielding)
    {b : SchedAction T S} {sched : Sched T S} (hb : Scheduler.Enabled s.sched b)
    (h : Scheduler.act s.sched b = some sched) (hf : Fits s a) : Continues s a (s.withSched sched) where
  good := good_act hs hb h
  returned := hr
  switched hy := by
    refine ⟨(current_or_noHigher h).resolve_left fun hc => hh ?_, hf⟩
    rw [withSched_here, hc] at hy
    exact hy

omit [DecidableEq S] [DecidableEq C] [Fintype T] in
theorem Continues.move (h : Continues s a s₁) (t : T) {p : Position T S} (hp : p ≠ .yielding) :
    Continues s a (s₁.move t p) where
  good := h.good
  returned := h.returned
  switched hy := by
    rw [move_here] at hy
    split at hy
    · exact absurd hy hp
    · exact h.switched hy

omit [DecidableEq S] [DecidableEq C] [Fintype T] in
theorem Continues.initDonation (h : Continues s a s₁) (t : T) (p : ℤ) :
    Continues s a (s₁.initDonation t p) := by
  have h' : Continues s a { s₁ with
      genesisPriority := Function.update s₁.genesisPriority t p
      lock := Function.update s₁.lock t none
      recipient := Function.update s₁.recipient t none
      donorThreadsList := Function.update s₁.donorThreadsList t [] } :=
    ⟨h.good, h.returned, h.switched⟩
  exact h'.move t (by simp)

omit [DecidableEq T] [DecidableEq S] [DecidableEq C] [Fintype T] in
/-- A step that leaves the scheduler's lists alone. -/
theorem continues_of_sched (hs : Good s₁.sched) (hr : s₁.returned = false) (hh : s₁.here ≠ .yielding) :
    Continues s a s₁ := ⟨hs, hr, fun hy => absurd hy hh⟩

omit [DecidableEq C] [Fintype T] in
theorem continues_yield (hs : Good s.sched) (hr : s.returned = false) {sched : Sched T S}
    (h : Scheduler.act s.sched .yield = some sched) (hf : Fits s a) :
    Continues s a ((s.withSched sched).move s.current .yielding) where
  good := good_act (b := .yield) hs trivial h
  returned := hr
  switched _ := ⟨noHigher_of_schedule h, hf⟩

omit [DecidableEq S] [DecidableEq C] [Fintype T] in
theorem threadSetPriority_current (p : ℤ) :
    (threadSetPriority s.kernel s.current p).priority s.current =
      maxPriority s.sched.priority p (s.donorThreadsList s.current) := Function.update_self ..

omit [DecidableEq S] [DecidableEq C] [Fintype T] in
theorem returns_setPriority (hs : Good s.sched) (hh : s.here ≠ .yielding) {p : ℤ}
    (hp : ¬ s.sched.priority s.current >
      maxPriority s.sched.priority p (s.donorThreadsList s.current)) :
    Returns s (.setPriority p) (s.withKernel (threadSetPriority s.kernel s.current p)).return where
  good := good_priority hs _
  returned := rfl
  here := hh
  noHigher := by
    have hnot := (hs.1.current_free hs.2).1
    have hready : ∀ t ∈ s.sched.readyList,
        (threadSetPriority s.kernel s.current p).priority t = s.sched.priority t := fun t ht =>
      Function.update_of_ne (ne_of_mem_of_not_mem ht hnot) _ _
    have hcur := threadSetPriority_current (s := s) p
    constructor
    · intro h
      refine .inr fun t ht => ?_
      rw [← le_maxPriority_iff, ← hcur, ← hready t ht]
      exact h t ht
    · intro h t ht
      change (threadSetPriority s.kernel s.current p).priority t ≤
        (threadSetPriority s.kernel s.current p).priority s.current
      rw [hready t ht, hcur]
      rcases h with ⟨hlt, hd⟩ | h
      · have : maxPriority s.sched.priority p (s.donorThreadsList s.current) ≤
            s.sched.priority s.current - 1 := (maxPriority_le_iff ..).mpr
          ⟨by omega, fun d hm => by have := hd d hm; omega⟩
        omega
      · exact (le_maxPriority_iff ..).mpr (h t ht)

omit [DecidableEq C] [Fintype T] in
theorem returns_semaUp (hs : Good s.sched) {σ : S} {sched : Sched T S}
    (h : Scheduler.act s.sched (.semaUp σ) = some sched) (hsched : s₁.sched = sched)
    (hr : s₁.returned = true) (hh : s₁.here ≠ .yielding) (hf : NoHigherWith s.sched σ ↔ Fits s a) :
    Returns s a s₁ where
  good := hsched ▸ good_act (b := .semaUp σ) hs trivial h
  returned := hr
  here := hh
  noHigher := by rw [hsched, (noHigher_semaUp_iff h).2, hf]

omit [Fintype T] in
theorem good_sema {s : Sched T S} (hs : Good s) (σ : S) (v : ℕ) :
    Good { s with semas := Function.update s.semas σ (semaInit v) } :=
  ⟨ListDiscipline.lists_semas hs.1 σ _ (by simp [semaInit]) (by simp [semaInit]), hs.2.1, hs.2.2⟩

/-- **What a step does.** -/
theorem body_cases (hs : Good s.sched) (hh : s.here ≠ .yielding) (hr : s.returned = false)
    (he : Enabled s a) (h : body lockOf s a = some s₁) : Continues s a s₁ ∨ Returns s a s₁ := by
  have hstay : ∀ {p : Position T S} (s₁ : System T S C), Good s₁.sched → s₁.returned = false →
      s₁.current = s.current → p ≠ .yielding → Continues s a (s₁.move s.current p) :=
    fun s₁ h1 h2 h3 hp => continues_of_sched h1 h2 (by simp [h3, hp])
  cases a with
  | sched b =>
    simp only [body, Option.map_eq_some_iff] at h
    obtain ⟨sched, h1, rfl⟩ := h
    exact .inl (continues_act hs hr hh he.1 h1 trivial)
  | createFails =>
    cases h
    exact .inr ⟨hs, rfl, hh, Iff.rfl⟩
  | create t p =>
    simp only [body, Option.map_eq_some_iff] at h
    obtain ⟨sched, h1, rfl⟩ := h
    exact .inl (((continues_act (a := .create t p) hs hr hh he.2 h1 trivial).initDonation t p).move _ (by simp))
  | createIdle t =>
    simp only [body, Option.map_eq_some_iff] at h
    obtain ⟨sched, h1, rfl⟩ := h
    exact .inl (((continues_act (a := .createIdle t) hs hr hh he.2 h1 trivial).initDonation t 0).move _ (by simp))
  | createUnblock t =>
    simp only [body, Option.map_eq_some_iff] at h
    obtain ⟨sched, h1, rfl⟩ := h
    exact .inl ((continues_act (a := .createUnblock t) hs hr hh he.2 h1 trivial).move _ (by simp))
  | createYield =>
    simp only [body, Option.map_eq_some_iff] at h
    obtain ⟨sched, h1, rfl⟩ := h
    exact .inl (continues_yield (a := .createYield) hs hr h1 trivial)
  | setPriorityYield =>
    simp only [body, Option.map_eq_some_iff] at h
    obtain ⟨sched, h1, rfl⟩ := h
    exact .inl (continues_yield (a := .setPriorityYield) hs hr h1 trivial)
  | setPriority p =>
    simp only [body] at h
    split at h <;> rename_i hp <;> cases h
    · exact .inl (hstay _ (good_priority hs _) hr rfl (by simp))
    · refine .inr (returns_setPriority hs hh ?_)
      rwa [threadSetPriority_current] at hp
  | down σ =>
    cases h
    exact .inl (hstay s hs hr rfl (by simp))
  | semaDown σ k =>
    simp only [body, Option.map_eq_some_iff] at h
    obtain ⟨sched, h1, rfl⟩ := h
    have hc := continues_act (a := .semaDown σ k) hs hr hh he.2 h1 trivial
    left
    split
    · exact hc
    · refine hc.move _ ?_
      cases k <;> simp [Then.position]
  | semaUp σ =>
    simp only [body, Option.map_eq_some_iff] at h
    obtain ⟨sched, h1, rfl⟩ := h
    refine .inr (returns_semaUp hs h1 rfl rfl ?_ Iff.rfl)
    show s.position sched.current ≠ .yielding
    rw [(noHigher_semaUp_iff h1).1]
    exact hh
  | acquire l =>
    simp only [body] at h
    split at h
    · cases h
    · left
      split at h <;> cases h <;> exact hstay s hs hr rfl (by simp)
  | donate l =>
    simp only [body] at h
    split at h
    · cases h
    · obtain ⟨k, -, rfl⟩ := Option.map_eq_some_iff.mp h
      exact .inl (hstay _ (good_priority hs _) hr rfl (by simp))
  | setHolder l =>
    cases h
    exact .inl (hstay _ hs hr rfl (by simp))
  | tryAcquire l =>
    simp only [body] at h
    split at h
    · cases h
    · obtain ⟨sched, h1, rfl⟩ := Option.map_eq_some_iff.mp h
      have hc := continues_act (a := .tryAcquire l) (b := .semaTryDown l) hs hr hh trivial h1 trivial
      left
      split
      · exact hc.move _ (by simp)
      · exact hc
  | release l =>
    simp only [body] at h
    split at h <;> cases h
    exact .inl (hstay _ hs hr rfl (by simp))
  | restore l w =>
    cases h
    exact .inl (hstay _ (good_priority hs _) hr rfl (by simp))
  | releaseUp l w =>
    simp only [body, Option.map_eq_some_iff] at h
    obtain ⟨sched, h1, rfl⟩ := h
    refine .inr (returns_semaUp hs h1 rfl rfl ?_ Iff.rfl)
    show ((s.withSched sched).move s.current (afterRelease l w)).here ≠ .yielding
    have hc : (s.withSched sched).current = s.current := (noHigher_semaUp_iff h1).1
    rw [move_here, if_pos hc]
    cases w <;> simp [afterRelease]
  | condWait c σ =>
    simp only [body] at h
    split at h <;> cases h
    exact .inl (hstay _ (good_sema hs _ _) hr rfl (by simp))
  | condRelease σ l =>
    simp only [body] at h
    split at h <;> cases h
    exact .inl (hstay _ hs hr rfl (by simp))
  | condSignal c junk =>
    simp only [body] at h
    split at h
    · split at h <;> rename_i hσ
      · cases h
        exact .inr ⟨hs, rfl, hh, fun h => ⟨h, by simp [hσ]⟩, fun h => h.1⟩
      · obtain ⟨sched, h1, rfl⟩ := Option.map_eq_some_iff.mp h
        refine .inr (returns_semaUp hs h1 rfl rfl ?_ ?_)
        · show s.position sched.current ≠ .yielding
          rw [(noHigher_semaUp_iff h1).1]
          exact hh
        · simp only [Fits, hσ, Option.some.injEq, forall_eq', iff_and_self]
          exact fun h => h.1
    · cases h

theorem step_spec (hs : Good s.sched ∧ s.here ≠ .yielding) (h : Step lockOf s a s') :
    (Good s'.sched ∧ s'.here ≠ .yielding) ∧
      (s'.returned = true → (NoHigher s'.sched ↔ Fits s a)) := by
  obtain ⟨he, h⟩ := h
  obtain ⟨s₁, h1, rfl⟩ := Option.map_eq_some_iff.mp h
  have he' : Enabled { s with returned := false } a := by
    cases a <;> exact he
  have hfits : Fits { s with returned := false } a ↔ Fits s a := by
    cases a <;> exact Iff.rfl
  refine ⟨⟨?_, arrive_here⟩, fun hret => ?_⟩
  · rw [arrive_sched]
    rcases body_cases (s := { s with returned := false }) hs.1 hs.2 rfl he' h1 with hc | hc
    · exact hc.good
    · exact hc.good
  · rw [arrive_sched]
    rcases body_cases (s := { s with returned := false }) hs.1 hs.2 rfl he' h1 with hc | hc
    · have hy : s₁.here = .yielding := by
        by_contra hn
        rw [System.arrive, if_neg hn, hc.returned] at hret
        cases hret
      obtain ⟨hno, hf⟩ := hc.switched hy
      exact ⟨fun _ => hfits.mp hf, fun _ => hno⟩
    · exact hc.noHigher.trans hfits

theorem good_invariant (lockOf : C → S) : Invariant Init (Step (T := T) lockOf) fun s =>
    Good s.sched ∧ s.here ≠ .yielding where
  start h := ⟨ListDiscipline.good_invariant.start h.sched, by simp [System.here, h.position]⟩
  step hs h := (step_spec hs h).1

end step

/-! ### The law -/

/-- **Preemption.** Whatever has run before, as long as the calls find no thread of a higher priority among
those that are ready or that they wake, there is none when they return; and a call that finds one returns with
one. -/
theorem preempts (lockOf : C → S) :
    (∀ s : System T S C,
      Reachable (fun s₀ => Reachable Init (Step lockOf) s₀ ∧ s₀.returned = false)
        (Guarded Fits (Step lockOf)) s → s.returned = true → NoHigher s.sched) ∧
    ∀ (s s' : System T S C) (a : CallAction T S C), Reachable Init (Step lockOf) s →
      Step lockOf s a s' → s'.returned = true → (NoHigher s'.sched ↔ Fits s a) := by
  have hstep : ∀ {s s' : System T S C} {a : CallAction T S C}, Good s.sched ∧ s.here ≠ .yielding →
      Step lockOf s a s' → s'.returned = true → (NoHigher s'.sched ↔ Fits s a) :=
    fun hi h => (step_spec hi h).2
  refine ⟨fun s h hret => ?_, fun s s' a hs => hstep (hs.of_invariant (good_invariant lockOf))⟩
  have hi : Invariant (fun s₀ => Reachable Init (Step lockOf) s₀ ∧ s₀.returned = false)
      (Guarded Fits (Step lockOf)) fun s : System T S C => Good s.sched ∧ s.here ≠ .yielding :=
    ⟨fun h => h.1.of_invariant (good_invariant lockOf), fun hs h => (step_spec hs h.2).1⟩
  cases h with
  | start h =>
    rw [h.2] at hret
    cases hret
  | step hs h => exact (hstep (hs.of_invariant hi) h.2 hret).mpr h.1

/-! ### Runs that compute -/

instance (s : System T S C) : (a : SchedAction T S) → Decidable (Allowed s a)
  | .create _ _ | .createIdle _ | .setPriority _ _ | .semaDown _ => isFalse id
  | .timer | .semaUp _ | .semaTryDown _ => isTrue trivial
  | .unblock t => inferInstanceAs (Decidable (∀ u, s.position u ≠ .created t))
  | .idleStart | .yield | .block | .idleBlock | .enterSleep _ | .exit =>
    inferInstanceAs (Decidable (s.here = .elsewhere))

instance [Fintype C] (s : System T S C) : (a : CallAction T S C) → Decidable (Enabled s a)
  | .sched a => inferInstanceAs (Decidable (Scheduler.Enabled s.sched a ∧ Allowed s a))
  | .create t p =>
    inferInstanceAs (Decidable (s.here = .elsewhere ∧ Scheduler.Enabled s.sched (.create t p)))
  | .createIdle t =>
    inferInstanceAs (Decidable (s.here = .elsewhere ∧ Scheduler.Enabled s.sched (.createIdle t)))
  | .createUnblock t =>
    inferInstanceAs (Decidable (s.here = .created t ∧ Scheduler.Enabled s.sched (.unblock t)))
  | .createYield => inferInstanceAs (Decidable (s.here = .unblocked))
  | .setPriorityYield => inferInstanceAs (Decidable (s.here = .lowered))
  | .createFails | .setPriority _ | .semaUp _ | .tryAcquire _ | .release _ | .condSignal _ _ =>
    inferInstanceAs (Decidable (s.here = .elsewhere))
  | .down σ =>
    inferInstanceAs (Decidable (s.here = .elsewhere ∧ Scheduler.Enabled s.sched (.semaDown σ)))
  | .semaDown σ k =>
    inferInstanceAs (Decidable (s.here = .downing σ k ∧ Scheduler.Enabled s.sched (.semaDown σ)))
  | .acquire l => inferInstanceAs (Decidable (s.here = .elsewhere ∨ s.here = .acquiring l))
  | .donate l => inferInstanceAs (Decidable (s.here = .donating l))
  | .setHolder l => inferInstanceAs (Decidable (s.here = .downed l))
  | .restore l w => inferInstanceAs (Decidable (s.here = .released l w))
  | .releaseUp l w => inferInstanceAs (Decidable (s.here = .restored l w))
  | .condWait _ σ =>
    inferInstanceAs (Decidable (s.here = .elsewhere ∧ (s.sched.semas σ).waiters = [] ∧
      (∀ c, σ ∉ s.waiters c) ∧ s.holder σ = none))
  | .condRelease σ l => inferInstanceAs (Decidable (s.here = .listed σ l))

def next [Fintype C] (lockOf : C → S) (s : System T S C) (a : CallAction T S C) :
    Option (System T S C) :=
  if Enabled s a then act lockOf s a else none

/-- The initial thread alone. -/
def initial (initialThread : T) : System T S C where
  sched := threadInit initialThread
  genesisPriority _ := 31
  lock _ := none
  recipient _ := none
  donorThreadsList _ := []
  holder _ := none
  waiters _ := []
  position _ := .elsewhere
  returned := false

omit [DecidableEq S] [DecidableEq C] [Fintype T] in
theorem init_initial (t : T) : Init (initial t : System T S C) :=
  ⟨Scheduler.init_threadInit t, rfl, fun _ => rfl, fun _ => rfl, fun _ => rfl, fun _ => rfl,
    fun _ => rfl, fun _ => rfl, rfl⟩

theorem step_of_next [Fintype C] {lockOf : C → S} {s s' : System T S C} {a : CallAction T S C}
    (h : next lockOf s a = some s') : Step lockOf s a s' := by
  unfold next at h
  split at h
  · exact ⟨‹_›, h⟩
  · cases h

theorem reachable_of_run [Fintype C] {lockOf : C → S} {t : T} {as : List (CallAction T S C)}
    {s : System T S C} (h : as.foldlM (next lockOf) (initial t) = some s) :
    Reachable Init (Step lockOf) s :=
  .of_foldlM step_of_next as (.start (init_initial t)) h

/-- `thread_create` up to the switch. -/
def create (t : T) (priority : ℤ) : List (CallAction T S C) :=
  [.create t priority, .createUnblock t, .createYield]

/-- `thread_start`, with `idle` as the page of the idle thread and `started` as the semaphore. -/
def threadStart (idle : T) (started : S) : List (CallAction T S C) :=
  [.createIdle idle, .createUnblock idle, .createYield, .down started, .semaDown started .nothing,
    .sched .idleStart, .semaUp started, .sched .idleBlock, .semaDown started .nothing]

/-- A thread waits for a semaphore, and the initial thread, which has created it, puts the semaphore up. -/
def upForWaiter (t : T) (priority : ℤ) (sema : S) : List (CallAction T S C) :=
  create t priority ++ [.down sema, .semaDown sema .nothing, .semaUp sema]

/-- A thread of a higher priority than the initial thread is created, and exits: `thread_create` returns. -/
theorem preempts_create : ∃ s : System (Fin 3) (Fin 2) (Fin 1),
    s.sched.current = 0 ∧ s.returned = true ∧ NoHigher s.sched := by
  have h : ((threadStart (1 : Fin 3) (0 : Fin 2) ++ create 2 32).foldlM
      (next fun _ : Fin 1 => 0) (initial 0)).map
      (fun s : System (Fin 3) (Fin 2) (Fin 1) => (s.returned,
        (next (fun _ => 0) s (.sched .exit)).map
          fun s' : System (Fin 3) (Fin 2) (Fin 1) => (s'.sched.current, s'.returned))) =
      some (false, some (0, true)) := by
    decide +kernel
  obtain ⟨s₀, hs, h⟩ := Option.map_eq_some_iff.mp h
  simp only [Prod.mk.injEq, Option.map_eq_some_iff] at h
  obtain ⟨hret₀, s, hst, hcur, hret⟩ := h
  refine ⟨s, hcur, hret, (preempts fun _ => 0).1 s ?_ hret⟩
  exact .step (a := .sched .exit) (.start ⟨reachable_of_run hs, hret₀⟩)
    ⟨trivial, step_of_next hst⟩

/-- The waiter has a higher priority than the thread that wakes it. -/
theorem not_preempts : ¬ ∀ s : System (Fin 3) (Fin 2) (Fin 1),
    Reachable Init (Step fun _ => 0) s → s.returned = true → NoHigher s.sched := by
  intro hall
  have h : ((threadStart (1 : Fin 3) (0 : Fin 2) ++ upForWaiter 2 32 1).foldlM
      (next fun _ : Fin 1 => 0) (initial 0)).map
      (fun s : System (Fin 3) (Fin 2) (Fin 1) => (s.returned, s.sched.readyList, s.sched.current,
        s.sched.priority 0, s.sched.priority 2)) = some (true, [2], 0, 31, 32) := by
    decide +kernel
  obtain ⟨s, hs, h⟩ := Option.map_eq_some_iff.mp h
  simp only [Prod.mk.injEq] at h
  obtain ⟨hret, hready, hcur, hp0, hp2⟩ := h
  have := hall s (reachable_of_run hs) hret 2 (by simp [hready])
  rw [hcur, hp0, hp2] at this
  omega

end Pintos.Threads.Preemption
