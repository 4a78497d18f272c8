import Pintos.Threads.Semaphore

/-! # The scheduler

The threads of the kernel with the lists they may be in: the ready list, the list of the sleepers and the
waiters of the semaphores. One step is a section with interrupts disabled, or the timer interrupt. A failed
`ASSERT` and a dereferenced NULL are `none`. Donations and the recalculations of the multi-level feedback
queue appear as arbitrary changes of priorities. -/

namespace Pintos.Threads.Scheduler

open Pintos.Lib.Runs
open Pintos.Threads.Donation (listMax listMax_mem le_listMax)
open Pintos.Threads.Semaphore (Sema semaInit semaDown semaTryDown semaUp semaUp_cases unsignedSize)

inductive Status
  | running
  | ready
  | blocked
  | dying
  deriving DecidableEq

/-- `T` are the addresses of pages; a page without a status holds no `struct thread`. -/
structure Sched (T S : Type*) where
  status : T → Option Status
  priority : T → ℤ
  isSleeping : T → Bool
  wakeupTime : T → ℤ
  readyList : List T
  sleeperList : List T
  semas : S → Sema T
  /-- The threads for which `thread_unblock` is called directly: new ones, and those that have called
  `thread_block` outside of a semaphore, as `intq_getc` does. -/
  parked : List T
  idleThread : Option T
  initialThread : T
  /-- The thread that `thread_start` has created to run `idle`. -/
  idleTid : Option T
  current : T
  ticks : ℤ
  threadTicks : ℕ

def timeSlice : ℕ := 4

variable {T S : Type*} [DecidableEq T]

def Sched.setStatus (s : Sched T S) (t : T) (st : Status) : Sched T S :=
  { s with status := Function.update s.status t (some st) }

/-! ### thread.c -/

def threadUnblock (s : Sched T S) (t : T) : Option (Sched T S) :=
  if s.status t = some .blocked then
    some ({ s with readyList := s.readyList ++ [t] }.setStatus t .ready)
  else none

def nextThreadToRun (s : Sched T S) : Option T × Sched T S :=
  match s.readyList with
  | [] => (s.idleThread, s)
  | e :: es =>
    (some (listMax s.priority e es),
      { s with readyList := (e :: es).erase (listMax s.priority e es) })

/-- `thread_schedule_tail`, on the stack of `cur`; `prev` is the thread it was switched from. -/
def threadScheduleTail (s : Sched T S) (cur : T) (prev : Option T) : Sched T S :=
  let s := { s with current := cur, threadTicks := 0 }.setStatus cur .running
  match prev with
  | some prev =>
    if s.status prev = some .dying ∧ prev ≠ s.initialThread then
      { s with status := Function.update s.status prev none }
    else s
  | none => s

def schedule (s : Sched T S) : Option (Sched T S) :=
  match nextThreadToRun s with
  | (none, _) => none
  | (some next, s) =>
    if s.status s.current = some .running ∨ s.status next = none then none
    else if s.current ≠ next then some (threadScheduleTail s next (some s.current))
    else some (threadScheduleTail s next none)

def threadBlock (s : Sched T S) : Option (Sched T S) := schedule (s.setStatus s.current .blocked)

def threadYield (s : Sched T S) : Option (Sched T S) :=
  let r := if s.idleThread = some s.current then s.readyList else s.readyList ++ [s.current]
  schedule ({ s with readyList := r }.setStatus s.current .ready)

/-- `thread_exit` past `process_exit`. -/
def threadExit (s : Sched T S) : Option (Sched T S) := schedule (s.setStatus s.current .dying)

/-- `init_thread`. -/
def initThread (s : Sched T S) (t : T) (priority : ℤ) : Sched T S :=
  { s with
    priority := Function.update s.priority t priority
    isSleeping := Function.update s.isSleeping t false
    wakeupTime := Function.update s.wakeupTime t 0 }.setStatus t .blocked

/-- `list_insert_ordered` with `thread_wakeup_time_less`. -/
def insertOrdered (wakeupTime : T → ℤ) (t : T) : List T → List T
  | [] => [t]
  | e :: es => if wakeupTime t < wakeupTime e then t :: e :: es else e :: insertOrdered wakeupTime t es

def threadEnterSleep (s : Sched T S) (sleepTicks : ℤ) : Option (Sched T S) :=
  if s.isSleeping s.current then none
  else if sleepTicks > 0 then
    let w := Function.update s.wakeupTime s.current (s.ticks + sleepTicks)
    threadBlock { s with
      isSleeping := Function.update s.isSleeping s.current true
      wakeupTime := w
      sleeperList := insertOrdered w s.current s.sleeperList }
  else some s

/-- `thread_exit_sleep` of a thread whose time has come. -/
def threadExitSleep (s : Sched T S) (t : T) : Option (Sched T S) :=
  if s.isSleeping t then
    threadUnblock { s with
      isSleeping := Function.update s.isSleeping t false
      wakeupTime := Function.update s.wakeupTime t 0
      sleeperList := s.sleeperList.erase t } t
  else none

/-- The loop of `thread_tick` over the sleepers. -/
def wakeSleepers (s : Sched T S) : List T → Option (Sched T S)
  | [] => some s
  | t :: ts =>
    if s.wakeupTime t > s.ticks then some s
    else (threadExitSleep s t).bind fun s => wakeSleepers s ts

/-- `timer_interrupt`, and the `thread_yield` on its return if the time slice is over. -/
def timerInterrupt (s : Sched T S) : Option (Sched T S) :=
  let s := { s with ticks := s.ticks + 1, threadTicks := s.threadTicks + 1 }
  (wakeSleepers s s.sleeperList).bind fun s =>
    if s.threadTicks ≥ timeSlice then threadYield s else some s

variable [DecidableEq S]

/-! ### synch.c -/

/-- One turn of the loop in `sema_down`, or its end. -/
def semaDownTurn (s : Sched T S) (σ : S) : Option (Sched T S) :=
  let (done, sema) := semaDown (s.semas σ) s.current
  let s := { s with semas := Function.update s.semas σ sema }
  if done then some s else threadBlock s

def semaTryDownCall (s : Sched T S) (σ : S) : Sched T S :=
  { s with semas := Function.update s.semas σ (semaTryDown (s.semas σ)).2 }

def semaUpCall (s : Sched T S) (σ : S) : Option (Sched T S) :=
  let (next, sema) := semaUp s.priority (s.semas σ)
  let s := { s with semas := Function.update s.semas σ sema }
  match next with
  | none => some s
  | some t => threadUnblock s t

/-! ### The system -/

inductive SchedAction (T S : Type*)
  /-- `thread_create` up to `thread_unblock`, in a page that the page allocator has given out. -/
  | create (t : T) (priority : ℤ)
  /-- The same in `thread_start`. -/
  | createIdle (t : T)
  /-- The first statement of `idle`. -/
  | idleStart
  | unblock (t : T)
  | yield
  | block
  /-- `thread_block` in the loop of `idle`. -/
  | idleBlock
  | semaDown (sema : S)
  | semaTryDown (sema : S)
  | semaUp (sema : S)
  | enterSleep (sleepTicks : ℤ)
  | timer
  | exit
  | setPriority (t : T) (priority : ℤ)

def act (s : Sched T S) : SchedAction T S → Option (Sched T S)
  | .create t p => some { initThread s t p with parked := s.parked ++ [t] }
  | .createIdle t =>
    some { initThread s t 0 with parked := s.parked ++ [t], idleTid := some t }
  | .idleStart => some { s with idleThread := some s.current }
  | .unblock t => (threadUnblock s t).map fun s => { s with parked := s.parked.erase t }
  | .yield => threadYield s
  | .block => threadBlock { s with parked := s.parked ++ [s.current] }
  | .idleBlock => threadBlock s
  | .semaDown σ => semaDownTurn s σ
  | .semaTryDown σ => some (semaTryDownCall s σ)
  | .semaUp σ => semaUpCall s σ
  | .enterSleep n => threadEnterSleep s n
  | .timer => timerInterrupt s
  | .exit => threadExit s
  | .setPriority t p => some { s with priority := Function.update s.priority t p }

/-- Who may do what. The idle thread only sets `idle_thread` and blocks. -/
def Enabled (s : Sched T S) : SchedAction T S → Prop
  | .create t p => s.status t = none ∧ 0 ≤ p ∧ p ≤ 63 ∧ s.idleTid ≠ some s.current
  | .createIdle t => s.status t = none ∧ s.idleTid = none
  | .idleStart => s.idleTid = some s.current ∧ s.idleThread = none
  | .unblock t => t ∈ s.parked
  | .block | .semaDown _ | .enterSleep _ | .exit => s.idleTid ≠ some s.current
  | .idleBlock => s.idleThread = some s.current
  | .yield | .semaTryDown _ | .semaUp _ | .timer | .setPriority _ _ => True

def Step (s : Sched T S) (a : SchedAction T S) (s' : Sched T S) : Prop :=
  Enabled s a ∧ act s a = some s'

/-- The state that `thread_init` leaves, with one semaphore initialised for each of `S`. -/
structure Init (s : Sched T S) : Prop where
  current : s.current = s.initialThread
  status : ∀ t, s.status t = if t = s.initialThread then some .running else none
  isSleeping : ∀ t, s.isSleeping t = false
  readyList : s.readyList = []
  sleeperList : s.sleeperList = []
  semas : ∀ σ, (s.semas σ).waiters = []
  parked : s.parked = []
  idleThread : s.idleThread = none
  idleTid : s.idleTid = none

/-- `thread_init` on the stack of `initialThread`. -/
def threadInit (initialThread : T) : Sched T S where
  status t := if t = initialThread then some .running else none
  priority _ := 31
  isSleeping _ := false
  wakeupTime _ := 0
  readyList := []
  sleeperList := []
  semas _ := semaInit 0
  parked := []
  idleThread := none
  initialThread := initialThread
  idleTid := none
  current := initialThread
  ticks := 0
  threadTicks := 0

omit [DecidableEq S] in
theorem init_threadInit (t : T) : Init (threadInit t : Sched T S) :=
  ⟨rfl, fun _ => rfl, fun _ => rfl, rfl, rfl, fun _ => rfl, rfl, rfl, rfl⟩

/-! ### Runs that compute -/

instance (s : Sched T S) : (a : SchedAction T S) → Decidable (Enabled s a)
  | .create t p => inferInstanceAs (Decidable (s.status t = none ∧ 0 ≤ p ∧ p ≤ 63 ∧ _))
  | .createIdle t => inferInstanceAs (Decidable (s.status t = none ∧ s.idleTid = none))
  | .idleStart => inferInstanceAs (Decidable (s.idleTid = some s.current ∧ s.idleThread = none))
  | .unblock t => inferInstanceAs (Decidable (t ∈ s.parked))
  | .block | .semaDown _ | .enterSleep _ | .exit =>
    inferInstanceAs (Decidable (s.idleTid ≠ some s.current))
  | .idleBlock => inferInstanceAs (Decidable (s.idleThread = some s.current))
  | .yield | .semaTryDown _ | .semaUp _ | .timer | .setPriority _ _ => isTrue trivial

def next (s : Sched T S) (a : SchedAction T S) : Option (Sched T S) :=
  if Enabled s a then act s a else none

theorem reachable_of_run {t : T} {as : List (SchedAction T S)} {s : Sched T S}
    (h : as.foldlM next (threadInit t) = some s) : Reachable Init Step s := by
  refine .of_foldlM (f := next) ?_ as (.start (init_threadInit t)) h
  intro s a s' h
  unfold next at h
  split at h
  · exact ⟨‹_›, h⟩
  · cases h

/-- `thread_start`, with `idle` as the page of the idle thread and `started` as the semaphore. -/
def threadStart (idle : T) (started : S) : List (SchedAction T S) :=
  [.createIdle idle, .unblock idle, .yield, .semaDown started, .idleStart, .semaUp started,
    .idleBlock, .semaDown started]

end Pintos.Threads.Scheduler
