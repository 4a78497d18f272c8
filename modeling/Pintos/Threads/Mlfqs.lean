import Pintos.Lib.FixedPoint
import Pintos.Threads.Alarm

/-! # The multi-level feedback queue

The scheduler with `thread_mlfqs` set: `thread_tick` keeps the load average and the recent processor time of
each thread in 49.14 fixed-point numbers. An operation on 64 or 32 bits that overflows is `none`. -/

namespace Pintos.Threads.Mlfqs

open Pintos.Lib Pintos.Lib.Runs Pintos.Threads.Scheduler Pintos.Threads.ListDiscipline

/-! ### fixed-point.h -/

def fractionConstant : ℤ := 2 ^ 14

def int64 (x : ℤ) : Option ℤ := if -2 ^ 63 ≤ x ∧ x < 2 ^ 63 then some x else none

def int32 (x : ℤ) : Option ℤ := if -2 ^ 31 ≤ x ∧ x < 2 ^ 31 then some x else none

def int32ToFixed64 (x : ℤ) : Option ℤ := int64 (x * fractionConstant)

/-- The conversion of a `long long` to an `int` keeps its 32 low bits. -/
def fixed64ToInt32 (x : ℤ) : ℤ := (x.tdiv fractionConstant).bmod (2 ^ 32)

def fixed64Add (x₁ x₂ : ℤ) : Option ℤ := int64 (x₁ + x₂)

def fixed64AddInt32 (x₁ x₂ : ℤ) : Option ℤ := do
  let x₂' ← int32ToFixed64 x₂
  int64 (x₁ + x₂')

def fixed64Mul (x₁ x₂ : ℤ) : Option ℤ := do
  let y ← int64 (x₁ * x₂)
  int64 (y.tdiv fractionConstant)

def fixed64Div (x₁ x₂ : ℤ) : Option ℤ := do
  let y ← int64 (x₁ * fractionConstant)
  if x₂ = 0 then none else int64 (y.tdiv x₂)

def fixed64MulInt32 (x₁ x₂ : ℤ) : Option ℤ := int64 (x₁ * x₂)

def fixed64DivInt32 (x₁ x₂ : ℤ) : Option ℤ := if x₂ = 0 then none else int64 (x₁.tdiv x₂)

/-! ### thread.c -/

def timerFreq : ℤ := 100

def priMin : ℤ := 0

def priMax : ℤ := 63

structure System (T S : Type*) where
  sched : Sched T S
  allList : List T
  nice : T → ℤ
  recentCpu : T → ℤ
  loadAvg : ℤ

variable {T S : Type*} [DecidableEq T]

def priorityClamp (pri : ℤ) : ℤ := if pri > priMax then priMax else if pri < priMin then priMin else pri

/-- The value that `thread_mlfqs_recalculate_priority` gives. -/
def recalculatePriority (recentCpu nice : ℤ) : Option ℤ := do
  let x ← fixed64DivInt32 recentCpu 4
  let p ← int32 (priMax - fixed64ToInt32 x)
  let n ← int32 (nice * 2)
  let p ← int32 (p - n)
  some (priorityClamp p)

/-- The value that `thread_mlfqs_recalculate_recent_cpu` gives. -/
def recalculateRecentCpu (loadAvg recentCpu nice : ℤ) : Option ℤ := do
  let x₁ ← fixed64MulInt32 loadAvg 2
  let x₂ ← fixed64MulInt32 loadAvg 2
  let x₂ ← fixed64AddInt32 x₂ 1
  let x ← fixed64Div x₁ x₂
  let x ← fixed64Mul x recentCpu
  fixed64AddInt32 x nice

/-- The value that `mlfqs_recalculate_load_avg` gives. -/
def recalculateLoadAvg (loadAvg readyThreads : ℤ) : Option ℤ := do
  let x ← int32ToFixed64 59
  let p ← fixed64DivInt32 x 60
  let x ← int32ToFixed64 1
  let q ← fixed64DivInt32 x 60
  let x ← fixed64Mul p loadAvg
  let z ← fixed64MulInt32 q readyThreads
  fixed64Add x z

variable {T S : Type*} [DecidableEq T]

def threadMlfqsRecalculatePriority (y : System T S) (t : T) : Option (System T S) :=
  (recalculatePriority (y.recentCpu t) (y.nice t)).map fun p =>
    { y with sched := { y.sched with priority := Function.update y.sched.priority t p } }

def threadMlfqsRecalculateRecentCpu (y : System T S) (t : T) : Option (System T S) :=
  (recalculateRecentCpu y.loadAvg (y.recentCpu t) (y.nice t)).map fun x =>
    { y with recentCpu := Function.update y.recentCpu t x }

/-- The `ready_threads` of `mlfqs_recalculate_load_avg`. -/
def readyThreads (s : Sched T S) : ℕ :=
  (if s.idleThread = some s.current then 0 else 1) +
    (s.readyList.filter fun t => s.idleThread ≠ some t).length

def mlfqsRecalculateLoadAvg (y : System T S) : Option (System T S) :=
  (recalculateLoadAvg y.loadAvg (readyThreads y.sched)).map fun x => { y with loadAvg := x }

/-- `timer_interrupt` up to the recalculations of `thread_tick`. -/
def tickStart (y : System T S) : Option (System T S) :=
  let s := { y.sched with ticks := y.sched.ticks + 1, threadTicks := y.sched.threadTicks + 1 }
  (wakeSleepers s s.sleeperList).bind fun s =>
    if s.idleThread = some s.current then some { y with sched := s }
    else
      (fixed64AddInt32 (y.recentCpu s.current) 1).map fun x =>
        { y with sched := s, recentCpu := Function.update y.recentCpu s.current x }

/-- One turn of the loop of `thread_tick` over `all_list`. -/
def tickThread (y : System T S) (t : T) : Option (System T S) :=
  if y.sched.idleThread = some t then some y
  else
    (if y.sched.ticks % 4 = 0 then threadMlfqsRecalculatePriority y t else some y).bind fun y =>
      if y.sched.ticks % timerFreq = 0 then threadMlfqsRecalculateRecentCpu y t else some y

/-- The recalculations of `thread_tick`. -/
def tickMlfqs (y : System T S) : Option (System T S) :=
  (if y.sched.ticks % timerFreq = 0 then mlfqsRecalculateLoadAvg y else some y).bind fun y =>
    y.allList.foldlM tickThread y

/-- `timer_interrupt`, and the `thread_yield` on its return if the time slice is over. -/
def timerInterrupt (y : System T S) : Option (System T S) :=
  (tickStart y).bind fun y => (tickMlfqs y).bind fun y =>
    if y.sched.threadTicks ≥ timeSlice then (threadYield y.sched).map fun s => { y with sched := s }
    else some y

/-- What `init_thread` does to the lists and to the fields of `t`, beside what `sched` says. -/
def initThread (y : System T S) (t : T) : System T S :=
  { y with
    allList := y.allList ++ [t]
    nice := Function.update y.nice t 0
    recentCpu := Function.update y.recentCpu t 0 }

inductive MlfqsAction (T S : Type*)
  | sched (a : SchedAction T S)
  /-- `thread_set_nice`. -/
  | setNice (nice : ℤ)

variable [DecidableEq S]

def act (y : System T S) : MlfqsAction T S → Option (System T S)
  | .sched .timer => timerInterrupt y
  | .sched (.create t p) =>
    (Scheduler.act y.sched (.create t p)).map fun s => initThread { y with sched := s } t
  | .sched (.createIdle t) =>
    (Scheduler.act y.sched (.createIdle t)).map fun s => initThread { y with sched := s } t
  | .sched .exit => (Scheduler.act y.sched .exit).map fun s =>
    { y with sched := s, allList := y.allList.erase y.sched.current }
  | .sched a => (Scheduler.act y.sched a).map fun s => { y with sched := s }
  | .setNice n => some { y with nice := Function.update y.nice y.sched.current n }

def Enabled (y : System T S) : MlfqsAction T S → Prop
  | .sched a => Scheduler.Enabled y.sched a
  | .setNice _ => y.sched.idleTid ≠ some y.sched.current

def Step (y : System T S) (a : MlfqsAction T S) (y' : System T S) : Prop := Enabled y a ∧ act y a = some y'

/-- The state that `thread_init` leaves. -/
structure Init (y : System T S) : Prop where
  sched : Scheduler.Init y.sched
  ticks : y.sched.ticks = 0
  allList : y.allList = [y.sched.initialThread]
  nice : y.nice y.sched.initialThread = 0
  recentCpu : y.recentCpu y.sched.initialThread = 0
  loadAvg : y.loadAvg = 0

/-- `t` is a thread that has not exited. -/
def Alive (s : Sched T S) (t : T) : Prop := s.status t ≠ none ∧ s.status t ≠ some .dying

/-- Nice values are at most `m`, and at most `n` threads are ready or running whenever the load average is
recalculated. -/
def Allowed (n m : ℕ) (y : System T S) : MlfqsAction T S → Prop
  | .sched .timer => ∀ y₁, tickStart y = some y₁ → y₁.sched.ticks % timerFreq = 0 → readyThreads y₁.sched ≤ n
  | .sched _ => True
  | .setNice x => |x| ≤ m

/-! ### Runs that compute -/

omit [DecidableEq S] in
/-- The state that `thread_init` leaves. -/
def mlfqsInit (initialThread : T) : System T S where
  sched := threadInit initialThread
  allList := [initialThread]
  nice _ := 0
  recentCpu _ := 0
  loadAvg := 0

omit [DecidableEq S] in
theorem init_mlfqsInit (t : T) : Init (mlfqsInit t : System T S) :=
  ⟨init_threadInit t, rfl, rfl, rfl, rfl, rfl⟩

instance (y : System T S) : (a : MlfqsAction T S) → Decidable (Enabled y a)
  | .sched a => inferInstanceAs (Decidable (Scheduler.Enabled y.sched a))
  | .setNice _ => inferInstanceAs (Decidable (y.sched.idleTid ≠ some y.sched.current))

instance (n m : ℕ) (y : System T S) : (a : MlfqsAction T S) → Decidable (Allowed n m y a)
  | .sched .timer => inferInstanceAs (Decidable (∀ y₁ ∈ tickStart y,
      y₁.sched.ticks % timerFreq = 0 → readyThreads y₁.sched ≤ n))
  | .sched (.create ..) | .sched (.createIdle _) | .sched .idleStart | .sched (.unblock _)
  | .sched .yield | .sched .block | .sched .idleBlock | .sched (.semaDown _) | .sched (.semaTryDown _)
  | .sched (.semaUp _) | .sched (.enterSleep _) | .sched .exit | .sched (.setPriority ..) => isTrue trivial
  | .setNice x => inferInstanceAs (Decidable (|x| ≤ m))

def next (n m : ℕ) (y : System T S) (a : MlfqsAction T S) : Option (System T S) :=
  if Allowed n m y a ∧ Enabled y a then act y a else none

theorem reachable_of_run {n m : ℕ} {t : T} {as : List (MlfqsAction T S)} {y : System T S}
    (h : as.foldlM (next n m) (mlfqsInit t) = some y) :
    Reachable Init (Guarded (Allowed n m) Step) y := by
  refine .of_foldlM (f := next n m) ?_ as (.start (init_mlfqsInit t)) h
  intro y a y' h
  unfold next at h
  split at h
  · exact ⟨And.left ‹_›, And.right ‹_›, h⟩
  · cases h

omit [DecidableEq T] [DecidableEq S] in
/-- `thread_start`, a nice value for the initial thread, and a run of ticks. -/
def niceRun (idle : T) (started : S) (nice : ℤ) (ticks : ℕ) : List (MlfqsAction T S) :=
  (threadStart idle started).map .sched ++ .setNice nice :: List.replicate ticks (.sched .timer)

/-! ### Threads and lists -/

variable {s s' : Sched T S} {y y' : System T S} {t : T}

omit [DecidableEq S] in
theorem alive_schedule (hl : Lists s) (h : schedule s = some s') (ht : Alive s' t) : Alive s t := by
  obtain ⟨next, rfl, hne, hnext⟩ := schedule_cases h
  unfold Alive at ht ⊢
  rw [switchTo_status] at ht
  by_cases hn : t = next
  · subst hn
    rcases hnext with ⟨-, hid⟩ | ⟨hm, -⟩
    · exact hl.idleLives (hl.idle hid)
    · simp [(hl.ready.mp hm).1]
  · rw [if_neg hn] at ht
    split at ht
    · exact absurd rfl ht.1
    · exact ht

omit [DecidableEq S] in
theorem alive_setStatus {u : T} (st : Status) (hu : Alive s u) (ht : Alive (s.setStatus u st) t) :
    Alive s t := by
  unfold Alive at ht
  rw [setStatus_status] at ht
  split at ht
  · rename_i h
    exact h ▸ hu
  · exact ht

omit [DecidableEq T] [DecidableEq S] in
theorem alive_current (hg : Good s) : Alive s s.current := by
  unfold Alive
  rw [hg.2.current]
  simp

omit [DecidableEq S] in
theorem alive_unblock {u : T} (h : threadUnblock s u = some s') (ht : Alive s' t) : Alive s t := by
  unfold threadUnblock at h
  split at h
  · rename_i hb
    cases h
    have hu : Alive { s with readyList := s.readyList ++ [u] } u := by simp [Alive, hb]
    exact alive_setStatus .ready hu ht
  · cases h

omit [DecidableEq S] in
theorem wakeSleepers_frame : ∀ (ts : List T) {s s' : Sched T S}, wakeSleepers s ts = some s' →
    s'.ticks = s.ticks ∧ ∀ t, Alive s' t → Alive s t
  | [], _, _, h => by
    cases h
    exact ⟨rfl, fun _ ht => ht⟩
  | u :: ts, s, s', h => by
    unfold wakeSleepers at h
    split at h
    · cases h
      exact ⟨rfl, fun _ ht => ht⟩
    · obtain ⟨s₁, h1, h2⟩ := Option.bind_eq_some_iff.mp h
      obtain ⟨f1, f2⟩ := wakeSleepers_frame ts h2
      unfold threadExitSleep at h1
      split at h1
      · have ha := fun t => alive_unblock (t := t) h1
        unfold threadUnblock at h1
        split at h1 <;> cases h1
        exact ⟨f1, fun t ht => ha t (f2 t ht)⟩
      · cases h1

/-- The thread that a step makes. -/
def Creates : SchedAction T S → T → Prop
  | .create t _, u | .createIdle t, u => u = t
  | _, _ => False

/-- What a step other than the timer interrupt keeps; `new` are the threads that it makes. -/
structure Kept (new : T → Prop) (s s' : Sched T S) : Prop where
  ticks : s'.ticks = s.ticks
  idleThread : ∀ {t}, s'.idleThread ≠ some t → s.idleThread ≠ some t
  alive : ∀ {t}, Alive s' t → Alive s t ∨ new t

variable {new : T → Prop}

omit [DecidableEq S] in
theorem Kept.schedule {s₁ : Sched T S} (h : Kept new s s₁) (hl : Lists s₁) (hs : schedule s₁ = some s') :
    Kept new s s' := by
  have hid : s'.idleThread = s₁.idleThread := by
    obtain ⟨next, rfl, -, -⟩ := schedule_cases hs
    exact (switchTo_lists s₁ next).2.2.2.2.2.1
  refine ⟨(Alarm.schedule_sleepers hs).2.1.trans h.ticks, fun ht => h.idleThread ?_, fun ht =>
    h.alive (alive_schedule hl hs ht)⟩
  rwa [hid] at ht

omit [DecidableEq S] in
/-- The status of a thread changes. -/
theorem kept_setStatus {r w p : List T} {wt : T → ℤ} {sl : T → Bool} {σ : S → Semaphore.Sema T} {u : T}
    (st : Status) (hu : Alive s u) : Kept new s ({ s with
      readyList := r, sleeperList := w, parked := p, wakeupTime := wt, isSleeping := sl
      semas := σ }.setStatus u st) :=
  ⟨rfl, fun h => h, fun ht => .inl (alive_setStatus st hu ht)⟩

omit [DecidableEq S] in
theorem kept_unblock {u : T} (h : threadUnblock s u = some s') : Kept new s s' := by
  have ha := fun t => alive_unblock (t := t) h
  unfold threadUnblock at h
  split at h <;> cases h
  exact ⟨rfl, fun h => h, fun ht => .inl (ha _ ht)⟩

omit [DecidableEq S] in
theorem kept_create {ps : List T} {i : Option T} (t : T) (p : ℤ) (hnew : new t) :
    Kept new s { Scheduler.initThread s t p with parked := ps, idleTid := i } := by
  refine ⟨rfl, fun h => h, fun {u} hu => ?_⟩
  by_cases hut : u = t
  · exact .inr (hut ▸ hnew)
  · unfold Alive Scheduler.initThread at hu
    rw [setStatus_status, if_neg hut] at hu
    exact .inl hu

omit [DecidableEq S] in
theorem kept_yield (hg : Good s) (h : threadYield s = some s') : Kept new s s' :=
  (kept_setStatus .ready (alive_current hg)).schedule (lists_yield hg.1 hg.2) h

/-- **What a step keeps**, if it is not the timer interrupt. -/
theorem kept_step {a : SchedAction T S} (hg : Good s) (h : Scheduler.Step s a s') (ha : a ≠ .timer) :
    Kept (Creates a) s s' := by
  obtain ⟨he, h⟩ := h
  have hc := alive_current hg
  cases a with
  | create t p =>
    cases h
    exact kept_create t p rfl
  | createIdle t =>
    cases h
    exact kept_create t 0 rfl
  | timer => exact absurd rfl ha
  | idleStart =>
    cases h
    exact ⟨rfl, fun _ => by simp [he.2], .inl⟩
  | semaTryDown | setPriority =>
    cases h
    exact ⟨rfl, fun h => h, .inl⟩
  | unblock u =>
    obtain ⟨s₁, h1, rfl⟩ := Option.map_eq_some_iff.mp h
    have hk : Kept (Creates (.unblock u : SchedAction T S)) s s₁ := kept_unblock h1
    obtain ⟨k1, k2, k3⟩ := hk
    exact ⟨k1, k2, k3⟩
  | yield => exact kept_yield hg h
  | block => exact (kept_setStatus .blocked hc).schedule (lists_park hg.1 hg.2 he) h
  | idleBlock => exact (kept_setStatus .blocked hc).schedule (lists_setBlocked hg.1 hg.2) h
  | exit => exact (kept_setStatus .dying hc).schedule (lists_exit hg.1 hg.2 he) h
  | semaDown σ =>
    change semaDownTurn s σ = some s' at h
    unfold semaDownTurn Semaphore.semaDown at h
    by_cases hv : (s.semas σ).value = 0
    · rw [if_pos hv] at h
      exact (kept_setStatus .blocked hc).schedule (lists_wait hg.1 hg.2 he σ (s.semas σ).value) h
    · rw [if_neg hv] at h
      cases h
      exact ⟨rfl, fun h => h, .inl⟩
  | semaUp σ =>
    change semaUpCall s σ = some s' at h
    unfold semaUpCall at h
    rcases Semaphore.semaUp_cases s.priority (s.semas σ) with ⟨-, hs⟩ | ⟨u, -, hs⟩
    · rw [hs] at h
      cases h
      exact ⟨rfl, fun h => h, .inl⟩
    · rw [hs] at h
      obtain ⟨k1, k2, k3⟩ := kept_unblock h
      exact ⟨k1, k2, k3⟩
  | enterSleep n =>
    change threadEnterSleep s n = some s' at h
    unfold threadEnterSleep at h
    split at h
    · cases h
    split at h
    · exact (kept_setStatus .blocked hc).schedule (lists_sleep hg.1 hg.2 he _) h
    · cases h
      exact ⟨rfl, fun h => h, .inl⟩

omit [DecidableEq S] in
/-- A thread that exits has exited. -/
theorem exit_current (hg : Good s) (he : s.idleTid ≠ some s.current) (h : threadExit s = some s')
    (ht : Alive s' t) : t ≠ s.current := by
  have ha := alive_schedule (lists_exit hg.1 hg.2 he) h ht
  rintro rfl
  exact ha.2 (by simp)

/-! ### The tick -/

/-- What the recalculations change. -/
structure Recalculated (y y' : System T S) : Prop where
  sched : ∃ p, y'.sched = { y.sched with priority := p }
  allList : y'.allList = y.allList
  nice : y'.nice = y.nice

omit [DecidableEq T] [DecidableEq S] in
theorem Recalculated.refl : Recalculated y y := ⟨⟨_, rfl⟩, rfl, rfl⟩

omit [DecidableEq T] [DecidableEq S] in
theorem Recalculated.trans {y₁ y₂ y₃ : System T S} (h : Recalculated y₁ y₂) (h' : Recalculated y₂ y₃) :
    Recalculated y₁ y₃ := by
  obtain ⟨⟨p, hp⟩, h1, h2⟩ := h
  obtain ⟨⟨p', hp'⟩, h1', h2'⟩ := h'
  exact ⟨⟨p', by rw [hp', hp]⟩, h1'.trans h1, h2'.trans h2⟩

omit [DecidableEq S] in
/-- One turn of the loop. -/
theorem tickThread_eq (h : tickThread y t = some y') : Recalculated y y' ∧ y'.loadAvg = y.loadAvg ∧
    (∀ u, u ≠ t → y'.recentCpu u = y.recentCpu u) ∧
    (if y.sched.idleThread ≠ some t ∧ y.sched.ticks % timerFreq = 0 then
      recalculateRecentCpu y.loadAvg (y.recentCpu t) (y.nice t) = some (y'.recentCpu t)
    else y'.recentCpu t = y.recentCpu t) := by
  unfold tickThread at h
  by_cases hid : y.sched.idleThread = some t
  · rw [if_pos hid] at h
    cases h
    exact ⟨.refl, rfl, fun _ _ => rfl, by rw [if_neg (by simp [hid])]⟩
  rw [if_neg hid] at h
  obtain ⟨y₁, h1, h2⟩ := Option.bind_eq_some_iff.mp h
  have hp : ∃ p, y₁ = { y with sched := { y.sched with priority := p } } := by
    split at h1
    · obtain ⟨p, -, rfl⟩ := Option.map_eq_some_iff.mp h1
      exact ⟨_, rfl⟩
    · cases h1
      exact ⟨_, rfl⟩
  obtain ⟨p, rfl⟩ := hp
  dsimp only at h2
  split at h2
  · rename_i hu
    obtain ⟨x, hx, rfl⟩ := Option.map_eq_some_iff.mp h2
    refine ⟨⟨⟨_, rfl⟩, rfl, rfl⟩, rfl, fun u hu => Function.update_of_ne hu .., ?_⟩
    rw [if_pos ⟨hid, hu⟩]
    simpa using hx
  · rename_i hu
    cases h2
    exact ⟨⟨⟨_, rfl⟩, rfl, rfl⟩, rfl, fun _ _ => rfl, by rw [if_neg fun h => hu h.2]⟩

omit [DecidableEq S] in
/-- The sleepers that `thread_tick` wakes up, and the thread whose time it counts. -/
theorem tickStart_cases (hg : Good y.sched) : ∃ s, Good s ∧ s.ticks = y.sched.ticks + 1 ∧
    s.idleThread = y.sched.idleThread ∧ (∀ t, Alive s t → Alive y.sched t) ∧
    tickStart y = if s.idleThread = some s.current then some { y with sched := s }
      else (fixed64AddInt32 (y.recentCpu s.current) 1).map fun x =>
        { y with sched := s, recentCpu := Function.update y.recentCpu s.current x } := by
  obtain ⟨hl, hr⟩ := hg
  have hg' : Good { y.sched with
      ticks := y.sched.ticks + 1, threadTicks := y.sched.threadTicks + 1 } := by
    obtain ⟨h1, h2, h3, h4, h5, h6, h7, h8, h9, h10, h11, h12⟩ := hl
    exact ⟨⟨h1, h2, h3, h4, h5, h6, h7, h8, h9, h10, h11, h12⟩, hr.1, hr.2⟩
  obtain ⟨s, h1, hg1, hid⟩ := wakeSleepers_spec y.sched.sleeperList _ hg' hl.sleeperNodup
    fun u hu => (hl.sleeper.mp hu).1
  obtain ⟨hticks, ha⟩ := wakeSleepers_frame _ h1
  refine ⟨s, hg1, hticks, hid, ha, ?_⟩
  unfold tickStart
  dsimp only
  rw [h1, Option.bind_some]

end Pintos.Threads.Mlfqs
