import Pintos.Lib.Raising
import Pintos.Lib.Runs

/-! # Locks and priority donation

`lock_acquire`, `lock_try_acquire`, `lock_release` and `thread_set_priority` as steps of a system whose
threads interleave. A step is one atomic piece: the bodies of `sema_down` (up to the point where it
blocks), `sema_up`, `thread_restore_priority`, and the call of `thread_donate_priority` together with the
reading of its argument `lock->holder`. Between two steps of one thread any other thread may run. A failed
`ASSERT` is `none`. -/

namespace Pintos.Threads.Donation

open Pintos.Lib.Raising Pintos.Lib.Runs

/-- Where a thread is in the functions of a lock. -/
inductive Phase (L : Type*)
  | idle
  /-- In `lock_acquire`, having seen a holder. -/
  | donating (lock : L)
  /-- In `sema_down`, about to look at the value. -/
  | downing (lock : L)
  /-- Blocked in `sema_down`. -/
  | waiting (lock : L)
  /-- Past the semaphore, about to write `lock->holder`. -/
  | downed (lock : L)
  /-- In `lock_release`, past `lock->holder = NULL`. -/
  | released (lock : L)
  /-- In `lock_release`, past `thread_restore_priority`. -/
  | restored (lock : L)
  | dead
  deriving DecidableEq

structure Kernel (T L : Type*) where
  priority : T → ℤ
  genesisPriority : T → ℤ
  /-- `priority_donation_info.lock`. -/
  lock : T → Option L
  recipient : T → Option T
  donorThreadsList : T → List T
  holder : L → Option T
  /-- The semaphore of a lock. -/
  value : L → ℕ
  waiters : L → List T
  phase : T → Phase L

variable {T L : Type*} [DecidableEq T]

def Kernel.setPhase (s : Kernel T L) (t : T) (p : Phase L) : Kernel T L :=
  { s with phase := Function.update s.phase t p }

section setPhase

variable (s : Kernel T L) (t t' : T) (p : Phase L) (l : L)

@[simp, grind =] theorem setPhase_phase :
    (s.setPhase t p).phase t' = if t' = t then p else s.phase t' := by
  simp [Kernel.setPhase, Function.update_apply]

@[simp, grind =] theorem setPhase_holder : (s.setPhase t p).holder l = s.holder l := rfl
@[simp, grind =] theorem setPhase_value : (s.setPhase t p).value l = s.value l := rfl
@[simp, grind =] theorem setPhase_waiters : (s.setPhase t p).waiters l = s.waiters l := rfl
@[simp, grind =] theorem setPhase_priority : (s.setPhase t p).priority t' = s.priority t' := rfl
@[simp, grind =] theorem setPhase_genesisPriority :
    (s.setPhase t p).genesisPriority t' = s.genesisPriority t' := rfl
@[simp, grind =] theorem setPhase_lock : (s.setPhase t p).lock t' = s.lock t' := rfl
@[simp, grind =] theorem setPhase_recipient : (s.setPhase t p).recipient t' = s.recipient t' := rfl
@[simp, grind =] theorem setPhase_donorThreadsList :
    (s.setPhase t p).donorThreadsList t' = s.donorThreadsList t' := rfl

end setPhase

variable [DecidableEq L]

/-! ### thread.c -/

/-- The loops of `thread_set_priority` and `thread_restore_priority`. -/
def maxPriority (priority : T → ℤ) : ℤ → List T → ℤ
  | m, [] => m
  | m, t :: ts => maxPriority priority (if priority t > m then priority t else m) ts

def threadSetPriority (s : Kernel T L) (current : T) (newPriority : ℤ) : Kernel T L :=
  { s with
    genesisPriority := Function.update s.genesisPriority current newPriority
    priority := Function.update s.priority current
      (maxPriority s.priority newPriority (s.donorThreadsList current)) }

/-- The straight-line part of `thread_donate_priority`. -/
def recordDonor (s : Kernel T L) (donor recipient : T) (lock : L) : Kernel T L :=
  { s with
    priority := Function.update s.priority recipient (s.priority donor)
    lock := Function.update s.lock donor (some lock)
    recipient := Function.update s.recipient donor (some recipient)
    donorThreadsList := Function.update s.donorThreadsList recipient
      (s.donorThreadsList recipient ++ [donor]) }

/-- The loop of `thread_donate_priority`. -/
def propagate [Fintype T] (s : Kernel T L) (cur : T) : Kernel T L :=
  { s with priority := raiseAll s.recipient s.priority cur }

def threadDonatePriority [Fintype T] (s : Kernel T L) (donor recipient : T) (lock : L) :
    Option (Kernel T L) :=
  if s.priority recipient > s.priority donor then some s
  else if s.recipient donor = none then
    some (propagate (recordDonor s donor recipient lock) recipient)
  else none

/-- The donors that `thread_restore_priority` strikes from the list. -/
def donorsFor (s : Kernel T L) (recipient : T) (lock : L) : List T :=
  (s.donorThreadsList recipient).filter fun d =>
    s.lock d = some lock ∧ s.recipient d = some recipient

/-- The donors that it leaves. -/
def otherDonors (s : Kernel T L) (recipient : T) (lock : L) : List T :=
  (s.donorThreadsList recipient).filter fun d =>
    ¬ (s.lock d = some lock ∧ s.recipient d = some recipient)

def threadRestorePriority (s : Kernel T L) (recipient : T) (lock : L) : Kernel T L :=
  if donorsFor s recipient lock = [] then s
  else
    { s with
      donorThreadsList := Function.update s.donorThreadsList recipient (otherDonors s recipient lock)
      lock := fun t => if t ∈ donorsFor s recipient lock then none else s.lock t
      recipient := fun t => if t ∈ donorsFor s recipient lock then none else s.recipient t
      priority := Function.update s.priority recipient
        (if otherDonors s recipient lock = [] then s.genesisPriority recipient
         else maxPriority s.priority 0 (otherDonors s recipient lock)) }

/-- `list_max` with `thread_priority_less`: the first of the threads with the highest priority. -/
def listMax (priority : T → ℤ) : T → List T → T
  | max, [] => max
  | max, e :: es => listMax priority (if priority max < priority e then e else max) es

/-! ### synch.c -/

/-- One turn of the loop in `sema_down`, or its end. -/
def semaDown (s : Kernel T L) (current : T) (lock : L) : Kernel T L :=
  if s.value lock = 0 then
    { s with waiters := Function.update s.waiters lock (s.waiters lock ++ [current]) }.setPhase
      current (.waiting lock)
  else
    { s with value := Function.update s.value lock (s.value lock - 1) }.setPhase
      current (.downed lock)

/-- `sema_up` as the last call of `lock_release`. A thread it wakes looks at the value again. -/
def semaUp (s : Kernel T L) (current : T) (lock : L) : Kernel T L :=
  match s.waiters lock with
  | [] => { s with value := Function.update s.value lock (s.value lock + 1) }.setPhase current .idle
  | w :: ws =>
    let t := listMax s.priority w ws
    { s with
      waiters := Function.update s.waiters lock ((w :: ws).erase t)
      value := Function.update s.value lock (s.value lock + 1) }.setPhase t (.downing lock)
      |>.setPhase current .idle

/-! ### What the loops compute -/

omit [DecidableEq T] in
theorem maxPriority_le_iff (priority : T → ℤ) {x : ℤ} : ∀ (ts : List T) (m : ℤ),
    maxPriority priority m ts ≤ x ↔ m ≤ x ∧ ∀ t ∈ ts, priority t ≤ x
  | [], m => by simp [maxPriority]
  | t :: ts, m => by
    unfold maxPriority
    rw [maxPriority_le_iff priority ts, List.forall_mem_cons, ← and_assoc]
    refine and_congr_left fun _ => ?_
    split <;> omega

omit [DecidableEq T] in
theorem le_maxPriority_iff (priority : T → ℤ) {x : ℤ} (ts : List T) (m : ℤ) :
    x ≤ maxPriority priority m ts ↔ x ≤ m ∨ ∃ t ∈ ts, x ≤ priority t := by
  have h := maxPriority_le_iff priority (x := x - 1) ts m
  constructor
  · intro hx
    by_contra hn
    push Not at hn
    have := h.mpr ⟨by omega, fun t ht => by have := hn.2 t ht; omega⟩
    omega
  · intro hx
    by_contra hn
    obtain ⟨hm, ht⟩ := h.mp (by omega)
    rcases hx with hx | ⟨t, htm, hx⟩
    · omega
    · have := ht t htm
      omega

omit [DecidableEq T] in
theorem isGreatest_maxPriority (priority : T → ℤ) (ts : List T) (m : ℤ) :
    IsGreatest (insert m {p | ∃ t ∈ ts, priority t = p}) (maxPriority priority m ts) := by
  have hub := (maxPriority_le_iff priority ts m).mp le_rfl
  constructor
  · rcases (le_maxPriority_iff priority ts m).mp le_rfl with h | ⟨t, ht, h⟩
    · exact .inl (le_antisymm h hub.1)
    · exact .inr ⟨t, ht, le_antisymm (hub.2 t ht) h⟩
  · rintro p (rfl | ⟨t, ht, rfl⟩)
    · exact hub.1
    · exact hub.2 t ht

omit [DecidableEq T] in
theorem listMax_mem (priority : T → ℤ) : ∀ (es : List T) (max : T),
    listMax priority max es ∈ max :: es
  | [], max => by simp [listMax]
  | e :: es, max => by
    unfold listMax
    have := listMax_mem priority es (if priority max < priority e then e else max)
    rcases List.mem_cons.mp this with h | h
    · rw [h]
      split <;> simp
    · simp [h]

omit [DecidableEq T] in
theorem le_listMax (priority : T → ℤ) : ∀ (es : List T) (max t : T), t ∈ max :: es →
    priority t ≤ priority (listMax priority max es)
  | [], max, t, h => by
    rw [List.mem_singleton.mp h]
    rfl
  | e :: es, max, t, h => by
    unfold listMax
    have hnext := le_listMax priority es (if priority max < priority e then e else max)
    have hhead := hnext _ List.mem_cons_self
    have hmax : priority max ≤ priority (if priority max < priority e then e else max) := by
      split <;> omega
    have he : priority e ≤ priority (if priority max < priority e then e else max) := by
      split <;> omega
    rcases List.mem_cons.mp h with rfl | h
    · exact hmax.trans hhead
    rcases List.mem_cons.mp h with rfl | h
    · exact he.trans hhead
    · exact hnext t (List.mem_cons_of_mem _ h)

/-! ### The system -/

inductive LockAction (T L : Type*)
  /-- `lock_acquire` up to its test of `lock->holder`. -/
  | acquire (t : T) (lock : L)
  | donate (t : T) (lock : L)
  | semaDown (t : T) (lock : L)
  | setHolder (t : T) (lock : L)
  /-- `lock_try_acquire` up to `lock->holder = thread_current ()`. -/
  | tryAcquire (t : T) (lock : L)
  /-- `lock_release` up to `lock->holder = NULL`. -/
  | release (t : T) (lock : L)
  | restore (t : T) (lock : L)
  | semaUp (t : T) (lock : L)
  | setPriority (t : T) (newPriority : ℤ)
  /-- The thread exits; it holds no lock. -/
  | exit (t : T)
  deriving DecidableEq

variable [Fintype T]

/-- What an action does, apart from where its thread must be for it. -/
def act (s : Kernel T L) : LockAction T L → Option (Kernel T L)
  | .acquire t l =>
    if s.holder l = some t then none
    else if s.holder l = none then some (s.setPhase t (.downing l))
    else some (s.setPhase t (.donating l))
  | .donate t l =>
    match s.holder l with
    | none => none
    | some r => (threadDonatePriority s t r l).map fun s => s.setPhase t (.downing l)
  | .semaDown t l => some (semaDown s t l)
  | .setHolder t l =>
    some ({ s with holder := Function.update s.holder l (some t) }.setPhase t .idle)
  | .tryAcquire t l =>
    if s.holder l = some t then none
    else if s.value l > 0 then
      some ({ s with value := Function.update s.value l (s.value l - 1) }.setPhase t (.downed l))
    else some s
  | .release t l =>
    if s.holder l = some t then
      some ({ s with holder := Function.update s.holder l none }.setPhase t (.released l))
    else none
  | .restore t l => some ((threadRestorePriority s t l).setPhase t (.restored l))
  | .semaUp t l => some (semaUp s t l)
  | .setPriority t p => some (threadSetPriority s t p)
  | .exit t => some (s.setPhase t .dead)

/-- Where the thread must be. -/
def Enabled (s : Kernel T L) : LockAction T L → Prop
  | .acquire t _ | .tryAcquire t _ | .release t _ | .setPriority t _ => s.phase t = .idle
  | .donate t l => s.phase t = .donating l
  | .semaDown t l => s.phase t = .downing l
  | .setHolder t l => s.phase t = .downed l
  | .restore t l => s.phase t = .released l
  | .semaUp t l => s.phase t = .restored l
  | .exit t => s.phase t = .idle ∧ ∀ l, s.holder l ≠ some t

def Step (s : Kernel T L) (a : LockAction T L) (s' : Kernel T L) : Prop :=
  Enabled s a ∧ act s a = some s'

def priMin : ℤ := 0
def priMax : ℤ := 63

/-- Every thread as `init_thread` leaves it, every lock as `lock_init` does. -/
structure Init (s : Kernel T L) : Prop where
  priority : ∀ t, priMin ≤ s.priority t ∧ s.priority t ≤ priMax
  genesisPriority : s.genesisPriority = s.priority
  lock : ∀ t, s.lock t = none
  recipient : ∀ t, s.recipient t = none
  donorThreadsList : ∀ t, s.donorThreadsList t = []
  holder : ∀ l, s.holder l = none
  value : ∀ l, s.value l = 1
  waiters : ∀ l, s.waiters l = []
  phase : ∀ t, s.phase t = .idle

/-- The freshly initialised threads of the given priorities. -/
def initial (priority : T → ℤ) : Kernel T L where
  priority := priority
  genesisPriority := priority
  lock _ := none
  recipient _ := none
  donorThreadsList _ := []
  holder _ := none
  value _ := 1
  waiters _ := []
  phase _ := .idle

omit [DecidableEq T] [DecidableEq L] [Fintype T] in
theorem init_initial {priority : T → ℤ} (h : ∀ t, priMin ≤ priority t ∧ priority t ≤ priMax) :
    Init (initial priority : Kernel T L) :=
  ⟨h, rfl, fun _ => rfl, fun _ => rfl, fun _ => rfl, fun _ => rfl, fun _ => rfl, fun _ => rfl,
    fun _ => rfl⟩

/-! ### Runs that compute -/

instance [Fintype L] (s : Kernel T L) : (a : LockAction T L) → Decidable (Enabled s a)
  | .acquire t _ | .tryAcquire t _ | .release t _ | .setPriority t _ =>
    inferInstanceAs (Decidable (s.phase t = .idle))
  | .donate t l => inferInstanceAs (Decidable (s.phase t = .donating l))
  | .semaDown t l => inferInstanceAs (Decidable (s.phase t = .downing l))
  | .setHolder t l => inferInstanceAs (Decidable (s.phase t = .downed l))
  | .restore t l => inferInstanceAs (Decidable (s.phase t = .released l))
  | .semaUp t l => inferInstanceAs (Decidable (s.phase t = .restored l))
  | .exit t => inferInstanceAs (Decidable (s.phase t = .idle ∧ ∀ l, s.holder l ≠ some t))

def next [Fintype L] (s : Kernel T L) (a : LockAction T L) : Option (Kernel T L) :=
  if Enabled s a then act s a else none

theorem step_of_next [Fintype L] {s s' : Kernel T L} {a : LockAction T L} (h : next s a = some s') :
    Step s a s' := by
  unfold next at h
  split at h
  · exact ⟨‹_›, h⟩
  · cases h

theorem reachable_of_run [Fintype L] {priority : T → ℤ} {as : List (LockAction T L)}
    {s : Kernel T L} (hp : ∀ t, priMin ≤ priority t ∧ priority t ≤ priMax)
    (h : as.foldlM next (initial priority) = some s) : Reachable Init Step s :=
  .of_foldlM step_of_next as (.start (init_initial hp)) h

/-- A run that checks a condition on its steps. -/
theorem reachable_of_guarded_run [Fintype L] {ok : Kernel T L → LockAction T L → Prop}
    [∀ s a, Decidable (ok s a)] {priority : T → ℤ} {as : List (LockAction T L)} {s : Kernel T L}
    (hp : ∀ t, priMin ≤ priority t ∧ priority t ≤ priMax)
    (h : as.foldlM (fun s a => if ok s a then next s a else none) (initial priority) = some s) :
    Reachable Init (Guarded ok Step) s := by
  refine .of_foldlM ?_ as (.start (init_initial hp)) h
  intro s a s' h
  split at h
  · exact ⟨‹_›, step_of_next h⟩
  · cases h

/-- `lock_acquire` of a free lock. -/
def acquireFree (t : T) (l : L) : List (LockAction T L) :=
  [.acquire t l, .semaDown t l, .setHolder t l]

/-- `lock_acquire` of a lock that another thread holds, up to where it blocks. -/
def acquireTaken (t : T) (l : L) : List (LockAction T L) :=
  [.acquire t l, .donate t l, .semaDown t l]

/-! ### What a step does -/

/-- The thread `t` has blocked on `l`. -/
def Kernel.block (s : Kernel T L) (t : T) (l : L) : Kernel T L :=
  { s with waiters := Function.update s.waiters l (s.waiters l ++ [t]) }.setPhase t (.waiting l)

/-- The thread `t` has taken the semaphore of `l` down. -/
def Kernel.down (s : Kernel T L) (t : T) (l : L) : Kernel T L :=
  { s with value := Function.update s.value l (s.value l - 1) }.setPhase t (.downed l)

/-- The semaphore of `l` is up again. -/
def Kernel.up (s : Kernel T L) (l : L) : Kernel T L :=
  { s with value := Function.update s.value l (s.value l + 1) }

/-- The thread `w` has left the waiters of `l`. -/
def Kernel.wake (s : Kernel T L) (w : T) (l : L) : Kernel T L :=
  { s with waiters := Function.update s.waiters l ((s.waiters l).erase w) }.setPhase w (.downing l)

/-- The steps, with every guard on the way to them. -/
inductive Effect (s : Kernel T L) : LockAction T L → Kernel T L → Prop
  | free {t l} (ht : s.phase t = .idle) (hh : s.holder l = none) :
      Effect s (.acquire t l) (s.setPhase t (.downing l))
  | taken {t r l} (ht : s.phase t = .idle) (hh : s.holder l = some r) (hr : r ≠ t) :
      Effect s (.acquire t l) (s.setPhase t (.donating l))
  | refused {t r l} (ht : s.phase t = .donating l) (hh : s.holder l = some r)
      (hp : s.priority t < s.priority r) : Effect s (.donate t l) (s.setPhase t (.downing l))
  | donated {t r l} (ht : s.phase t = .donating l) (hh : s.holder l = some r)
      (hp : s.priority r ≤ s.priority t) (hr : s.recipient t = none) :
      Effect s (.donate t l) ((propagate (recordDonor s t r l) r).setPhase t (.downing l))
  | blocked {t l} (ht : s.phase t = .downing l) (hv : s.value l = 0) :
      Effect s (.semaDown t l) (s.block t l)
  | downed {t l} (ht : s.phase t = .downing l) (hv : s.value l ≠ 0) :
      Effect s (.semaDown t l) (s.down t l)
  | setHolder {t l} (ht : s.phase t = .downed l) :
      Effect s (.setHolder t l)
        ({ s with holder := Function.update s.holder l (some t) }.setPhase t .idle)
  | tried {t l} (ht : s.phase t = .idle) (hv : s.value l ≠ 0) :
      Effect s (.tryAcquire t l) (s.down t l)
  | tryFailed {t l} (ht : s.phase t = .idle) (hv : s.value l = 0) : Effect s (.tryAcquire t l) s
  | release {t l} (ht : s.phase t = .idle) (hh : s.holder l = some t) :
      Effect s (.release t l)
        ({ s with holder := Function.update s.holder l none }.setPhase t (.released l))
  | restore {t l} (ht : s.phase t = .released l) :
      Effect s (.restore t l) ((threadRestorePriority s t l).setPhase t (.restored l))
  | upped {t l} (ht : s.phase t = .restored l) (hw : s.waiters l = []) :
      Effect s (.semaUp t l) ((s.up l).setPhase t .idle)
  | woken {t w l} (ht : s.phase t = .restored l) (hw : w ∈ s.waiters l) :
      Effect s (.semaUp t l) (((s.wake w l).up l).setPhase t .idle)
  | setPriority {t p} (ht : s.phase t = .idle) : Effect s (.setPriority t p) (threadSetPriority s t p)
  | exit {t} (ht : s.phase t = .idle) (hh : ∀ l, s.holder l ≠ some t) :
      Effect s (.exit t) (s.setPhase t .dead)

/-- **What a step does.** -/
theorem effect_of_step {s s' : Kernel T L} {a : LockAction T L} (h : Step s a s') : Effect s a s' := by
  obtain ⟨he, h⟩ := h
  cases a with
  | acquire t l =>
    simp only [act] at h
    cases hh : s.holder l with
    | none =>
      simp only [hh, reduceCtorEq, if_false, if_true, Option.some.injEq] at h
      rw [← h]
      exact .free he hh
    | some r =>
      simp only [hh, Option.some.injEq, reduceCtorEq, if_false] at h
      split at h
      · cases h
      · cases h
        exact .taken he hh ‹_›
  | donate t l =>
    simp only [act] at h
    cases hh : s.holder l with
    | none => simp [hh] at h
    | some r =>
      simp only [hh] at h
      obtain ⟨s₁, h1, rfl⟩ := Option.map_eq_some_iff.mp h
      unfold threadDonatePriority at h1
      split at h1 <;> rename_i hp
      · cases h1
        exact .refused he hh hp
      · split at h1 <;> cases h1
        exact .donated he hh (not_lt.mp hp) ‹_›
  | semaDown t l =>
    cases h
    unfold semaDown
    split <;> rename_i hv
    · exact .blocked he hv
    · exact .downed he hv
  | setHolder t l =>
    cases h
    exact .setHolder he
  | tryAcquire t l =>
    simp only [act] at h
    split at h
    · cases h
    · split at h <;> cases h
      · exact .tried he (by omega)
      · exact .tryFailed he (by omega)
  | release t l =>
    simp only [act] at h
    split at h <;> cases h
    exact .release he ‹_›
  | restore t l =>
    cases h
    exact .restore he
  | semaUp t l =>
    cases h
    unfold semaUp
    split <;> rename_i hw
    · exact .upped he hw
    · rename_i w ws
      have hm : listMax s.priority w ws ∈ s.waiters l := by
        rw [hw]
        exact listMax_mem s.priority ws w
      have := Effect.woken he hm
      unfold Kernel.wake Kernel.up at this
      rw [hw] at this
      exact this
  | setPriority t p =>
    cases h
    exact .setPriority he
  | exit t =>
    cases h
    exact .exit he.1 he.2

end Pintos.Threads.Donation
