import Pintos.Lib.Runs

/-! # Processes that start, wait for and end each other

`process_execute`, `start_process`, `process_wait`, `process_exit` and `process_activate` as steps of threads
that interleave. A `struct process_info` is named after the thread that has allocated it, and the semaphore of
a `process_execute` after the thread that it creates. A step is a statement that other threads can see. A
failed `ASSERT`, an access to a `struct process_info` or a semaphore that has been freed and a second `free`
are `none`. `start_process` has memory for its `struct process_info`; without it the kernel reads from the null
pointer. -/

namespace Pintos.Userprog.Processes

open Pintos.Lib.Runs

inductive ProcessStatus
  | running
  | exited
  deriving DecidableEq

/-- The memory of a `struct process_info`. -/
inductive Life
  | unborn
  | live
  /-- In `process_info_release`, and not freed yet. -/
  | releasing
  | freed
  deriving DecidableEq

/-- What follows `process_info_release`. -/
inductive After
  /-- The end of `process_wait`. -/
  | wait (returnValue : ℤ)
  /-- The end of `process_execute`. -/
  | execute
  /-- The `thread_exit` of a thread whose `load` has failed. -/
  | failed
  /-- `thread_current ()->process_info = NULL` in `process_exit`. -/
  | orphan
  deriving DecidableEq

/-- Where a thread is. -/
inductive Place (T : Type*)
  | unborn
  /-- In user mode, or in the kernel thread that runs the tasks. -/
  | user
  /-- In `process_execute`, about to call `thread_create`; the flag is `new_pi`. -/
  | creating (newPi : Bool)
  /-- About to `sema_down`. -/
  | execDown (child : T) (newPi : Bool)
  | execDowned (child : T) (newPi : Bool)
  /-- In `start_process`, with the argument `parent_pi`. -/
  | starting (parentPi : T)
  | loading
  /-- Past a failed `load`. -/
  | failing
  /-- Past the `sema_up` of a failed `load`. -/
  | failed
  | loaded
  /-- Past `list_push_back`. -/
  | linked
  /-- In `process_wait`, about to `sema_down`. -/
  | waiting (child : T)
  | waited (child : T)
  /-- In `process_info_release` of `owner`, at the head of the loop with these children to go. -/
  | releasing (owner : T) (rest : List T) (after : After)
  /-- In the same loop, about to take the next element of the list after `child`. -/
  | stepping (owner child : T) (rest : List T) (after : After)
  /-- In `process_exit`, before it looks at `parent_pi`. -/
  | exiting
  /-- Past that, with a parent. -/
  | exitingChild
  /-- Past `pi->status = PROCESS_EXITED`. -/
  | statusSet
  /-- Past `thread_current ()->process_info = NULL`. -/
  | detached
  /-- Without a parent, past `process_info_release`. -/
  | orphaned
  | dead
  deriving DecidableEq

/-- What a call returns. -/
inductive Result (T : Type*)
  | pid (pid : ℤ)
  | pidError
  /-- The exit code of a child. -/
  | exitCode (child : T) (value : ℤ)
  /-- The `-1` of `process_wait`. -/
  | noChild
  deriving DecidableEq

structure Sys (T : Type*) where
  life : T → Life
  pid : T → ℤ
  exitCode : T → ℤ
  /-- `pi->sema` is not NULL. -/
  sema : T → Bool
  status : T → ProcessStatus
  parentPi : T → Option T
  childrenPi : T → List T
  /-- The value of a semaphore that is allocated. -/
  value : T → Option ℕ
  /-- `thread->process_info` is the thread's own, not NULL. -/
  processInfo : T → Bool
  /-- What the child has written through `out_pi` is not NULL. -/
  childPi : T → Bool
  place : T → Place T
  lastPid : ℤ
  /-- The thread whose `process_execute` has created a thread. -/
  creator : T → Option T
  /-- The thread has put its `struct process_info` on the list of its creator's. -/
  onList : T → Bool
  /-- A `process_wait` has taken it from that list. -/
  reaped : T → Bool
  /-- The exit code when a process set `PROCESS_EXITED`. -/
  stored : T → Option ℤ
  /-- The call that the last step has completed. -/
  returned : Option (T × Result T)

inductive ProcAction (T : Type*)
  /-- `process_execute` up to `thread_create`. -/
  | execute (t : T)
  /-- `process_execute` without the memory that it needs first. -/
  | executeFails (t : T)
  | create (t child : T)
  | createFails (t : T)
  | load (t : T)
  | loadFails (t : T)
  /-- `process_wait` up to `sema_down`. -/
  | wait (t : T) (pid : ℤ)
  /-- `sys_exit` up to `thread_exit`. -/
  | exit (t : T) (exitCode : ℤ)
  /-- `thread_exit` up to the place in `process_exit`. -/
  | threadExit (t : T)
  /-- `process_activate` at a switch to the thread. -/
  | activate (t : T)
  /-- The next statement of the thread. -/
  | run (t : T)

/-- `INT_MAX`. -/
def intMax : ℤ := 2 ^ 31 - 1

variable {T : Type*} [DecidableEq T]

@[simps]
def Sys.move (s : Sys T) (t : T) (p : Place T) : Sys T :=
  { s with place := Function.update s.place t p, returned := none }

@[simps]
def Sys.return (s : Sys T) (t : T) (r : Result T) : Sys T :=
  { s.move t .user with returned := some (t, r) }

def Sys.Allocated (s : Sys T) (t : T) : Prop := s.life t = .live ∨ s.life t = .releasing

instance (s : Sys T) (t : T) : Decidable (s.Allocated t) :=
  inferInstanceAs (Decidable (_ ∨ _))

/-- The state after `process_info_allocate`. -/
@[simps]
def Sys.allocate (s : Sys T) (t : T) (sema : Bool) (parentPi : Option T) : Sys T :=
  { s with
    life := Function.update s.life t .live
    pid := Function.update s.pid t s.lastPid
    lastPid := s.lastPid + 1
    exitCode := Function.update s.exitCode t 0
    sema := Function.update s.sema t sema
    status := Function.update s.status t .running
    parentPi := Function.update s.parentPi t parentPi
    childrenPi := Function.update s.childrenPi t [] }

/-- `process_info_allocate`, with a semaphore or NULL; there is a pid left. -/
def processInfoAllocate (s : Sys T) (t : T) (sema : Bool) (parentPi : Option T) : Option (Sys T) :=
  if s.lastPid = intMax then none else some (s.allocate t sema parentPi)

@[simps]
def Sys.setValue (s : Sys T) (sema : T) (v : Option ℕ) : Sys T :=
  { s with value := Function.update s.value sema v }

def semaUp (s : Sys T) (sema : T) : Option (Sys T) :=
  (s.value sema).map fun v => s.setValue sema (some (v + 1))

/-- `sema_down` of a semaphore that is not zero. -/
def semaDown (s : Sys T) (sema : T) : Option (Sys T) :=
  (s.value sema).map fun v => s.setValue sema (some (v - 1))

/-- `free` of a semaphore. -/
def semaFree (s : Sys T) (sema : T) : Option (Sys T) :=
  (s.value sema).map fun _ => s.setValue sema none

/-- The state in which the loop of `process_info_release` begins. -/
@[simps]
def Sys.release (s : Sys T) (t owner : T) (after : After) : Sys T :=
  { s with
    life := Function.update s.life owner .releasing
    value := if s.sema owner then Function.update s.value owner none else s.value
    sema := Function.update s.sema owner false
    place := Function.update s.place t (.releasing owner (s.childrenPi owner) after)
    returned := none }

/-- `process_info_release` up to its loop. -/
def startRelease (s : Sys T) (t owner : T) (after : After) : Option (Sys T) :=
  if s.life owner = .live ∧ (s.sema owner = true → s.value owner ≠ none) then
    some (s.release t owner after)
  else none

/-- `process_info_release` past its loop, and where the thread goes on. -/
def endRelease (s : Sys T) (t owner : T) (after : After) : Option (Sys T) :=
  if s.life owner = .releasing then
    let s := { s with life := Function.update s.life owner .freed }
    match after with
    | .wait v => some (s.return t (.exitCode owner v))
    | .execute => some (s.return t .pidError)
    | .failed => some (s.move t .dead)
    | .orphan => some (s.move t .orphaned)
  else none

/-- The loop of `process_wait`. -/
def findChild (s : Sys T) (pid : ℤ) : List T → Option (Option T)
  | [] => some none
  | c :: cs =>
    if s.Allocated c then if s.pid c = pid then some (some c) else findChild s pid cs else none

/-- The next statement of a thread. -/
def runThread (s : Sys T) (t : T) : Option (Sys T) :=
  match s.place t with
  | .execDown u n => (semaDown s u).map fun s => s.move t (.execDowned u n)
  | .execDowned u n =>
    if s.childPi u then
      if s.Allocated u then
        some ({ s with processInfo := Function.update s.processInfo t true }.return t
          (.pid (s.pid u)))
      else none
    else
      (semaFree s u).bind fun s =>
        if n then startRelease s t t .execute else some (s.return t .pidError)
  | .starting p =>
    if s.Allocated p then
      (processInfoAllocate s t true (some p)).map fun s => s.move t .loading
    else none
  | .failing =>
    if s.Allocated t then
      (semaUp s t).map fun s => { s with childPi := Function.update s.childPi t false }.move t .failed
    else none
  | .failed => startRelease { s with sema := Function.update s.sema t false } t t .failed
  | .loaded =>
    match s.parentPi t with
    | none => none
    | some p =>
      if s.Allocated t ∧ s.Allocated p then
        some ({ s with
          processInfo := Function.update s.processInfo t true
          childrenPi := Function.update s.childrenPi p (s.childrenPi p ++ [t])
          onList := Function.update s.onList t true }.move t .linked)
      else none
  | .linked =>
    if s.Allocated t then
      (semaUp s t).map fun s => { s with childPi := Function.update s.childPi t true }.move t .user
    else none
  | .waiting c =>
    if s.Allocated c then (semaDown s c).map fun s => s.move t (.waited c) else none
  | .waited c =>
    if s.Allocated c ∧ s.status c = .exited then
      startRelease { s with
        childrenPi := Function.update s.childrenPi t ((s.childrenPi t).erase c)
        reaped := Function.update s.reaped c true } t c (.wait (s.exitCode c))
    else none
  | .releasing o (c :: rest) k =>
    if s.Allocated c then
      some ({ s with parentPi := Function.update s.parentPi c none }.move t (.stepping o c rest k))
    else none
  | .stepping o c rest k => if s.Allocated c then some (s.move t (.releasing o rest k)) else none
  | .releasing o [] k => endRelease s t o k
  | .exiting =>
    if s.Allocated t then
      match s.parentPi t with
      | some _ => some (s.move t .exitingChild)
      | none => startRelease s t t .orphan
    else none
  | .exitingChild =>
    if s.Allocated t then
      some ({ s with
        status := Function.update s.status t .exited
        stored := Function.update s.stored t (some (s.exitCode t)) }.move t .statusSet)
    else none
  | .statusSet =>
    some ({ s with processInfo := Function.update s.processInfo t false }.move t .detached)
  | .detached => if s.Allocated t then (semaUp s t).map fun s => s.move t .dead else none
  | .orphaned =>
    some ({ s with processInfo := Function.update s.processInfo t false }.move t .dead)
  | .unborn | .user | .creating _ | .loading | .dead => none

def act (s : Sys T) : ProcAction T → Option (Sys T)
  | .execute t =>
    if s.processInfo t then some (s.move t (.creating false))
    else (processInfoAllocate s t false none).map fun s => s.move t (.creating true)
  | .executeFails t => some (s.return t .pidError)
  | .create t u =>
    match s.place t with
    | .creating n =>
      some ({ s with
        value := Function.update s.value u (some 0)
        creator := Function.update s.creator u (some t) }.move u (.starting t) |>.move t
          (.execDown u n))
    | _ => none
  | .createFails t =>
    match s.place t with
    | .creating true => startRelease s t t .execute
    | .creating false => some (s.return t .pidError)
    | _ => none
  | .load t => some (s.move t .loaded)
  | .loadFails t => some (s.move t .failing)
  | .wait t pid =>
    if s.processInfo t then
      if s.Allocated t then
        (findChild s pid (s.childrenPi t)).map fun c =>
          match c with
          | some c => s.move t (.waiting c)
          | none => s.return t .noChild
      else none
    else some (s.return t .noChild)
  | .exit t code =>
    if s.Allocated t then
      some ({ s with exitCode := Function.update s.exitCode t code }.move t .exiting)
    else none
  | .threadExit t => some (s.move t (if s.processInfo t then .exiting else .dead))
  | .activate t =>
    if s.processInfo t = true → s.Allocated t then some { s with returned := none } else none
  | .run t => runThread s t

/-- The thread can go on by itself; at a semaphore, only if that is not zero. -/
def Runnable (s : Sys T) (t : T) : Prop :=
  match s.place t with
  | .execDown u _ => s.value u ≠ some 0
  | .waiting c => s.value c ≠ some 0
  | .unborn | .user | .creating _ | .loading | .dead => False
  | _ => True

def Enabled (s : Sys T) : ProcAction T → Prop
  | .execute t | .executeFails t | .wait t _ | .threadExit t => s.place t = .user
  | .exit t _ => s.place t = .user ∧ s.processInfo t = true
  | .create t u => (∃ n, s.place t = .creating n) ∧ s.place u = .unborn
  | .createFails t => ∃ n, s.place t = .creating n
  | .load t | .loadFails t => s.place t = .loading
  | .activate t => s.place t ≠ .unborn ∧ s.place t ≠ .dead
  | .run t => Runnable s t

def Step (s : Sys T) (a : ProcAction T) (s' : Sys T) : Prop := Enabled s a ∧ act s a = some s'

/-- The main thread alone, without a process. -/
structure Init (s : Sys T) : Prop where
  place : ∃ main, ∀ t, s.place t = if t = main then .user else .unborn
  life : ∀ t, s.life t = .unborn
  processInfo : ∀ t, s.processInfo t = false
  childrenPi : ∀ t, s.childrenPi t = []
  lastPid : s.lastPid = 1
  creator : ∀ t, s.creator t = none
  onList : ∀ t, s.onList t = false
  reaped : ∀ t, s.reaped t = false
  stored : ∀ t, s.stored t = none
  returned : s.returned = none

/-! ### What a step does -/

/-- The steps, with the guards on the way to them. -/
inductive Effect (s : Sys T) : Sys T → Prop
  | execute {t} (ht : s.place t = .user) (hp : s.processInfo t = true) :
      Effect s (s.move t (.creating false))
  | executeNew {t} (ht : s.place t = .user) (hp : s.processInfo t = false) :
      Effect s ((s.allocate t false none).move t (.creating true))
  | executeFailed {t} (ht : s.place t = .user) : Effect s (s.return t .pidError)
  | create {t u n} (ht : s.place t = .creating n) (hu : s.place u = .unborn) :
      Effect s (({ s with
        value := Function.update s.value u (some 0)
        creator := Function.update s.creator u (some t) }.move u (.starting t)).move t
          (.execDown u n))
  | createFailed {t} (ht : s.place t = .creating true) (hl : s.life t = .live) :
      Effect s (s.release t t .execute)
  | createFailedOld {t} (ht : s.place t = .creating false) : Effect s (s.return t .pidError)
  | load {t} (ht : s.place t = .loading) : Effect s (s.move t .loaded)
  | loadFailed {t} (ht : s.place t = .loading) : Effect s (s.move t .failing)
  | wait {t c} (ht : s.place t = .user) (hp : s.processInfo t = true) (hc : c ∈ s.childrenPi t) :
      Effect s (s.move t (.waiting c))
  | noChild {t} (ht : s.place t = .user) : Effect s (s.return t .noChild)
  | exit {t code} (ht : s.place t = .user) (hp : s.processInfo t = true) :
      Effect s ({ s with exitCode := Function.update s.exitCode t code }.move t .exiting)
  | threadExit {t} (ht : s.place t = .user) (hp : s.processInfo t = true) :
      Effect s (s.move t .exiting)
  | threadDies {t} (ht : s.place t = .user) (hp : s.processInfo t = false) :
      Effect s (s.move t .dead)
  | activate : Effect s { s with returned := none }
  | execDown {t u n v} (ht : s.place t = .execDown u n) (hv : s.value u = some v) (h0 : v ≠ 0) :
      Effect s ((s.setValue u (some (v - 1))).move t (.execDowned u n))
  | executed {t u n} (ht : s.place t = .execDowned u n) (hc : s.childPi u = true) :
      Effect s ({ s with processInfo := Function.update s.processInfo t true }.return t
        (.pid (s.pid u)))
  | notLoaded {t u} (ht : s.place t = .execDowned u true) (hc : s.childPi u = false)
      (hl : s.life t = .live) : Effect s ((s.setValue u none).release t t .execute)
  | notLoadedOld {t u} (ht : s.place t = .execDowned u false) (hc : s.childPi u = false) :
      Effect s ((s.setValue u none).return t .pidError)
  | start {t p} (ht : s.place t = .starting p) :
      Effect s ((s.allocate t true (some p)).move t .loading)
  | failUp {t v} (ht : s.place t = .failing) (hv : s.value t = some v) :
      Effect s ({ s.setValue t (some (v + 1)) with
        childPi := Function.update s.childPi t false }.move t .failed)
  | failed {t} (ht : s.place t = .failed) (hl : s.life t = .live) :
      Effect s ({ s with sema := Function.update s.sema t false }.release t t .failed)
  | link {t p} (ht : s.place t = .loaded) (hp : s.parentPi t = some p) :
      Effect s ({ s with
        processInfo := Function.update s.processInfo t true
        childrenPi := Function.update s.childrenPi p (s.childrenPi p ++ [t])
        onList := Function.update s.onList t true }.move t .linked)
  | startUp {t v} (ht : s.place t = .linked) (hv : s.value t = some v) :
      Effect s ({ s.setValue t (some (v + 1)) with
        childPi := Function.update s.childPi t true }.move t .user)
  | waitDown {t c v} (ht : s.place t = .waiting c) (hv : s.value c = some v) (h0 : v ≠ 0) :
      Effect s ((s.setValue c (some (v - 1))).move t (.waited c))
  | waitDone {t c} (ht : s.place t = .waited c) (hl : s.life c = .live)
      (hs : s.status c = .exited) :
      Effect s ({ s with
        childrenPi := Function.update s.childrenPi t ((s.childrenPi t).erase c)
        reaped := Function.update s.reaped c true }.release t c (.wait (s.exitCode c)))
  | releaseChild {t o c rest k} (ht : s.place t = .releasing o (c :: rest) k) :
      Effect s ({ s with parentPi := Function.update s.parentPi c none }.move t
        (.stepping o c rest k))
  | releaseNext {t o c rest k} (ht : s.place t = .stepping o c rest k) :
      Effect s (s.move t (.releasing o rest k))
  | releasedWait {t o v} (ht : s.place t = .releasing o [] (.wait v)) (hl : s.life o = .releasing) :
      Effect s ({ s with life := Function.update s.life o .freed }.return t (.exitCode o v))
  | releasedExecute {t o} (ht : s.place t = .releasing o [] .execute) (hl : s.life o = .releasing) :
      Effect s ({ s with life := Function.update s.life o .freed }.return t .pidError)
  | releasedFailed {t o} (ht : s.place t = .releasing o [] .failed) (hl : s.life o = .releasing) :
      Effect s ({ s with life := Function.update s.life o .freed }.move t .dead)
  | releasedOrphan {t o} (ht : s.place t = .releasing o [] .orphan) (hl : s.life o = .releasing) :
      Effect s ({ s with life := Function.update s.life o .freed }.move t .orphaned)
  | exitChild {t p} (ht : s.place t = .exiting) (hp : s.parentPi t = some p) :
      Effect s (s.move t .exitingChild)
  | exitOrphan {t} (ht : s.place t = .exiting) (hp : s.parentPi t = none) (hl : s.life t = .live) :
      Effect s (s.release t t .orphan)
  | setStatus {t} (ht : s.place t = .exitingChild) :
      Effect s ({ s with
        status := Function.update s.status t .exited
        stored := Function.update s.stored t (some (s.exitCode t)) }.move t .statusSet)
  | detach {t} (ht : s.place t = .statusSet) :
      Effect s ({ s with processInfo := Function.update s.processInfo t false }.move t .detached)
  | exitUp {t v} (ht : s.place t = .detached) (hv : s.value t = some v) :
      Effect s ((s.setValue t (some (v + 1))).move t .dead)
  | clear {t} (ht : s.place t = .orphaned) :
      Effect s ({ s with processInfo := Function.update s.processInfo t false }.move t .dead)

omit [DecidableEq T] in
theorem findChild_mem {s : Sys T} {pid : ℤ} : ∀ {cs : List T} {c : T},
    findChild s pid cs = some (some c) → c ∈ cs ∧ s.pid c = pid
  | c' :: cs, c, h => by
    unfold findChild at h
    split at h
    · split at h
      · cases h
        exact ⟨List.mem_cons_self, ‹_›⟩
      · obtain ⟨hm, hp⟩ := findChild_mem h
        exact ⟨List.mem_cons_of_mem _ hm, hp⟩
    · cases h

theorem startRelease_eq {s s' : Sys T} {t o : T} {k : After} (h : startRelease s t o k = some s') :
    s.life o = .live ∧ s' = s.release t o k := by
  unfold startRelease at h
  split at h <;> cases h
  exact ⟨And.left ‹_›, rfl⟩

theorem startRelease_of {s : Sys T} {t o : T} {k : After} (hl : s.life o = .live)
    (hv : s.sema o = true → s.value o ≠ none) : startRelease s t o k = some (s.release t o k) :=
  if_pos ⟨hl, hv⟩

theorem effect_of_run {s s' : Sys T} {t : T} (hr : Runnable s t) (h : runThread s t = some s') :
    Effect s s' := by
  unfold runThread at h
  unfold Runnable at hr
  cases ht : s.place t with
  | execDown u n =>
    simp only [ht, semaDown, Option.map_map, Option.map_eq_some_iff] at h hr
    obtain ⟨v, hv, rfl⟩ := h
    exact .execDown ht hv fun h0 => hr (by rw [hv, h0])
  | execDowned u n =>
    simp only [ht] at h
    split at h
    · split at h <;> cases h
      exact .executed ht ‹_›
    · rename_i hc
      obtain ⟨s₁, h1, h⟩ := Option.bind_eq_some_iff.mp h
      obtain ⟨v, hv, rfl⟩ := Option.map_eq_some_iff.mp h1
      cases n with
      | true =>
        obtain ⟨hl, rfl⟩ := startRelease_eq h
        exact .notLoaded ht (by simpa using hc) hl
      | false =>
        cases h
        exact .notLoadedOld ht (by simpa using hc)
  | starting p =>
    simp only [ht] at h
    split at h
    · obtain ⟨s₁, h1, rfl⟩ := Option.map_eq_some_iff.mp h
      unfold processInfoAllocate at h1
      split at h1 <;> cases h1
      exact .start ht
    · cases h
  | failing =>
    simp only [ht] at h
    split at h
    · obtain ⟨s₁, h1, rfl⟩ := Option.map_eq_some_iff.mp h
      obtain ⟨v, hv, rfl⟩ := Option.map_eq_some_iff.mp h1
      exact .failUp ht hv
    · cases h
  | failed =>
    simp only [ht] at h
    obtain ⟨hl, rfl⟩ := startRelease_eq h
    exact .failed ht hl
  | loaded =>
    simp only [ht] at h
    split at h
    · cases h
    · split at h <;> cases h
      exact .link ht ‹_›
  | linked =>
    simp only [ht] at h
    split at h
    · obtain ⟨s₁, h1, rfl⟩ := Option.map_eq_some_iff.mp h
      obtain ⟨v, hv, rfl⟩ := Option.map_eq_some_iff.mp h1
      exact .startUp ht hv
    · cases h
  | waiting c =>
    simp only [ht] at h hr
    split at h
    · obtain ⟨s₁, h1, rfl⟩ := Option.map_eq_some_iff.mp h
      obtain ⟨v, hv, rfl⟩ := Option.map_eq_some_iff.mp h1
      exact .waitDown ht hv fun h0 => hr (by rw [hv, h0])
    · cases h
  | waited c =>
    simp only [ht] at h
    split at h
    · obtain ⟨hl, rfl⟩ := startRelease_eq h
      exact .waitDone ht hl (And.right ‹_›)
    · cases h
  | releasing o rest k =>
    cases rest with
    | cons c rest =>
      simp only [ht] at h
      split at h <;> cases h
      exact .releaseChild ht
    | nil =>
      simp only [ht, endRelease] at h
      split at h
      · cases k <;> cases h
        · exact .releasedWait ht ‹_›
        · exact .releasedExecute ht ‹_›
        · exact .releasedFailed ht ‹_›
        · exact .releasedOrphan ht ‹_›
      · cases h
  | stepping o c rest k =>
    simp only [ht] at h
    split at h <;> cases h
    exact .releaseNext ht
  | exiting =>
    simp only [ht] at h
    split at h
    · split at h
      · cases h
        exact .exitChild ht ‹_›
      · obtain ⟨hl, rfl⟩ := startRelease_eq h
        exact .exitOrphan ht ‹_› hl
    · cases h
  | exitingChild =>
    simp only [ht] at h
    split at h <;> cases h
    exact .setStatus ht
  | statusSet =>
    simp only [ht, Option.some.injEq] at h
    rw [← h]
    exact .detach ht
  | detached =>
    simp only [ht] at h
    split at h
    · obtain ⟨s₁, h1, rfl⟩ := Option.map_eq_some_iff.mp h
      obtain ⟨v, hv, rfl⟩ := Option.map_eq_some_iff.mp h1
      exact .exitUp ht hv
    · cases h
  | orphaned =>
    simp only [ht, Option.some.injEq] at h
    rw [← h]
    exact .clear ht
  | unborn | user | creating | loading | dead => simp [ht] at hr

/-- **What a step does.** -/
theorem effect_of_step {s s' : Sys T} {a : ProcAction T} (h : Step s a s') : Effect s s' := by
  obtain ⟨he, h⟩ := h
  cases a with
  | execute t =>
    simp only [act] at h
    split at h <;> rename_i hp
    · cases h
      exact .execute he hp
    · obtain ⟨s₁, h1, rfl⟩ := Option.map_eq_some_iff.mp h
      unfold processInfoAllocate at h1
      split at h1 <;> cases h1
      exact .executeNew he (by simpa using hp)
  | executeFails t =>
    cases h
    exact .executeFailed he
  | create t u =>
    obtain ⟨⟨n, ht⟩, hu⟩ := he
    simp only [act, ht, Option.some.injEq] at h
    rw [← h]
    exact .create ht hu
  | createFails t =>
    obtain ⟨n, ht⟩ := he
    simp only [act, ht] at h
    cases n with
    | true =>
      obtain ⟨hl, rfl⟩ := startRelease_eq h
      exact .createFailed ht hl
    | false =>
      cases h
      exact .createFailedOld ht
  | load t =>
    cases h
    exact .load he
  | loadFails t =>
    cases h
    exact .loadFailed he
  | wait t pid =>
    simp only [act] at h
    split at h <;> rename_i hp
    · split at h
      · obtain ⟨c, hc, rfl⟩ := Option.map_eq_some_iff.mp h
        cases c with
        | none => exact .noChild he
        | some c => exact .wait he hp (findChild_mem hc).1
      · cases h
    · cases h
      exact .noChild he
  | exit t code =>
    simp only [act] at h
    split at h <;> cases h
    exact .exit he.1 he.2
  | threadExit t =>
    cases h
    cases hp : s.processInfo t with
    | true => exact .threadExit he hp
    | false => exact .threadDies he hp
  | activate t =>
    simp only [act] at h
    split at h <;> cases h
    exact .activate
  | run t => exact effect_of_run he h

/-! ### Runs that compute -/

instance (s : Sys T) (t : T) : Decidable (Runnable s t) :=
  match h : s.place t with
  | .execDown u _ => decidable_of_iff (s.value u ≠ some 0) (by simp [Runnable, h])
  | .waiting c => decidable_of_iff (s.value c ≠ some 0) (by simp [Runnable, h])
  | .unborn | .user | .creating _ | .loading | .dead => isFalse (by simp [Runnable, h])
  | .execDowned _ _ | .starting _ | .failing | .failed | .loaded | .linked | .waited _
  | .releasing _ _ _ | .stepping _ _ _ _ | .exiting | .exitingChild | .statusSet | .detached
  | .orphaned => isTrue (by simp [Runnable, h])

instance (s : Sys T) (t : T) : Decidable (∃ n, s.place t = .creating n) :=
  decidable_of_iff (s.place t = .creating true ∨ s.place t = .creating false) (by simp [or_comm])

instance (s : Sys T) : (a : ProcAction T) → Decidable (Enabled s a)
  | .execute t | .executeFails t | .wait t _ | .threadExit t =>
    inferInstanceAs (Decidable (s.place t = .user))
  | .exit _ _ => inferInstanceAs (Decidable (_ ∧ _))
  | .create t u => inferInstanceAs (Decidable ((∃ n, s.place t = .creating n) ∧ s.place u = .unborn))
  | .createFails t => inferInstanceAs (Decidable (∃ n, s.place t = .creating n))
  | .load t | .loadFails t => inferInstanceAs (Decidable (s.place t = .loading))
  | .activate _ => inferInstanceAs (Decidable (_ ∧ _))
  | .run t => inferInstanceAs (Decidable (Runnable s t))

def next (s : Sys T) (a : ProcAction T) : Option (Sys T) := if Enabled s a then act s a else none

theorem step_of_next {s s' : Sys T} {a : ProcAction T} (h : next s a = some s') : Step s a s' := by
  unfold next at h
  split at h
  · exact ⟨‹_›, h⟩
  · cases h

/-- The main thread before its first `process_execute`. -/
def initial (main : T) : Sys T where
  life _ := .unborn
  pid _ := 0
  exitCode _ := 0
  sema _ := false
  status _ := .running
  parentPi _ := none
  childrenPi _ := []
  value _ := none
  processInfo _ := false
  childPi _ := false
  place t := if t = main then .user else .unborn
  lastPid := 1
  creator _ := none
  onList _ := false
  reaped _ := false
  stored _ := none
  returned := none

theorem init_initial (main : T) : Init (initial main) :=
  ⟨⟨main, fun _ => rfl⟩, fun _ => rfl, fun _ => rfl, fun _ => rfl, rfl, fun _ => rfl, fun _ => rfl,
    fun _ => rfl, fun _ => rfl, rfl⟩

/-- `process_execute` of a program that loads, up to its return. -/
def exec (t u : T) : List (ProcAction T) :=
  [.execute t, .create t u, .run u, .load u, .run u, .run u, .run t, .run t]

/-- `exit` of a process that has a parent. -/
def exitWith (t : T) (code : ℤ) : List (ProcAction T) :=
  [.exit t code, .run t, .run t, .run t, .run t]

end Pintos.Userprog.Processes
