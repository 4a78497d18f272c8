import Pintos.Lib.Runs

/-! # The console lock

`vprintf`, `puts`, `putbuf` and `putchar` of any number of threads. A thread that is in one of them may be led
into another, wherever it is preempted, so that it has a stack of calls; interrupt handlers print without the
lock. What is printed between taking and leaving the lock is one call with the calls inside it, and no other
thread's. -/

namespace Pintos.Kernel.Console

open Pintos.Lib.Runs

/-- Where a call is. -/
inductive Phase
  /-- About to look, in `acquire_console`. -/
  | entering
  /-- About to call `lock_acquire`. -/
  | calling
  /-- In `sema_down`. -/
  | downing
  /-- Past `sema_down`, about to write `lock->holder`. -/
  | downed
  /-- The lock was taken by this call. -/
  | printing
  /-- The lock had been taken by an outer call. -/
  | nested
  /-- Locks are not used any more. -/
  | bare
  /-- In `lock_release`, past `lock->holder = NULL`. -/
  | released
  deriving DecidableEq, Repr

/-- Where a call is in `putchar_have_lock`. -/
inductive Stage
  | outside
  /-- Past `write_cnt++`, about to call `serial_putc`. -/
  | counted (c : UInt8)
  /-- About to call `vga_putc`. -/
  | sent (c : UInt8)
  deriving DecidableEq, Repr

/-- A call: its whole text, and what has not been passed to `putchar_have_lock` yet. -/
structure Frame where
  phase : Phase
  stage : Stage
  text : List UInt8
  rest : List UInt8
  deriving DecidableEq, Repr

inductive Device
  | serial
  | vga
  deriving DecidableEq, Repr

/-- What is still to be printed on a device. -/
def Frame.left (f : Frame) (d : Device) : List UInt8 :=
  match f.stage, d with
  | .counted c, _ => c :: f.rest
  | .sent c, .vga => c :: f.rest
  | _, _ => f.rest

/-- The functions of the console. What `__vprintf` passes to `vprintf_helper` is a parameter. -/
inductive ConsoleCall
  | vprintf (formatted : List UInt8)
  | puts (s : List UInt8)
  | putbuf (buffer : List UInt8)
  | putchar (c : UInt8)

def ConsoleCall.text : ConsoleCall → List UInt8
  | vprintf formatted => formatted
  | puts s => s ++ [10]
  | putbuf buffer => buffer
  | putchar c => [c]

/-- What is recorded: who takes or leaves the lock, and who prints what. -/
inductive Event (T : Type*)
  | enter (t : T) (text : List UInt8)
  | put (t : T) (c : UInt8)
  | leave (t : T)
  /-- In an interrupt handler. -/
  | interrupt (c : UInt8)
  deriving DecidableEq, Repr

namespace Event

variable {T : Type*}

def char? : Event T → Option UInt8
  | put _ c => some c
  | interrupt c => some c
  | _ => none

def isThread : Event T → Bool
  | interrupt _ => false
  | _ => true

end Event

/-- The console and its threads. Of the semaphore in `console_lock` it is enough to know whether its value is `1`. -/
structure Sys (T : Type*) where
  free : Bool
  holder : Option T
  useConsoleLock : Bool
  consoleLockDepth : ℕ
  writeCnt : ℕ
  stack : T → List Frame
  /-- What each device has printed, and who took and left the lock in between. -/
  log : Device → List (Event T)

inductive Halt
  /-- In no call, or blocked in `sema_down`. -/
  | waits
  | assertion
  deriving DecidableEq, Repr

section functions

variable {T : Type*} [DecidableEq T]

def Sys.setStack (s : Sys T) (t : T) (fs : List Frame) : Sys T :=
  { s with stack := Function.update s.stack t fs }

/-- `serial_putc` or `vga_putc`, as an event on the device. -/
def Sys.print (s : Sys T) (d : Device) (e : Event T) : Sys T :=
  { s with log := Function.update s.log d (s.log d ++ [e]) }

def Sys.record (s : Sys T) (e : Event T) : Sys T := { s with log := fun d => s.log d ++ [e] }

/-- `acquire_console`, up to the call of `lock_acquire`. -/
def acquireConsole (s : Sys T) (t : T) (f : Frame) (fs : List Frame) : Sys T :=
  if s.useConsoleLock then
    if s.holder = some t then
      { s.setStack t ({ f with phase := .nested } :: fs) with consoleLockDepth := s.consoleLockDepth + 1 }.record
        (.enter t f.text)
    else s.setStack t ({ f with phase := .calling } :: fs)
  else (s.setStack t ({ f with phase := .bare } :: fs)).record (.enter t f.text)

/-- `release_console`, up to `sema_up` in `lock_release`. -/
def releaseConsole (s : Sys T) (t : T) (f : Frame) (fs : List Frame) : Except Halt (Sys T) :=
  if s.useConsoleLock then
    if 0 < s.consoleLockDepth then
      .ok ({ s.setStack t fs with consoleLockDepth := s.consoleLockDepth - 1 }.record (.leave t))
    else if s.holder = some t then
      .ok ({ s.setStack t ({ f with phase := .released } :: fs) with holder := none }.record (.leave t))
    else .error .assertion
  else .ok ((s.setStack t fs).record (.leave t))

/-- `console_locked_by_current_thread`, outside of interrupt handlers. -/
def consoleLocked (s : Sys T) (t : T) : Bool := !s.useConsoleLock || s.holder = some t

/-- `putchar_have_lock`, one step after the other, and then `release_console`. -/
def putcharHaveLock (s : Sys T) (t : T) (f : Frame) (fs : List Frame) : Except Halt (Sys T) :=
  match f.stage with
  | .outside =>
    match f.rest with
    | [] => releaseConsole s t f fs
    | c :: rest =>
      if consoleLocked s t then
        .ok { s.setStack t ({ f with stage := .counted c, rest := rest } :: fs) with writeCnt := s.writeCnt + 1 }
      else .error .assertion
  | .counted c => .ok ((s.setStack t ({ f with stage := .sent c } :: fs)).print .serial (.put t c))
  | .sent c => .ok ((s.setStack t ({ f with stage := .outside } :: fs)).print .vga (.put t c))

/-- The next step of a thread's innermost call. -/
def turn (s : Sys T) (t : T) : Except Halt (Sys T) :=
  match s.stack t with
  | [] => .error .waits
  | f :: fs =>
    match f.phase with
    | .entering => .ok (acquireConsole s t f fs)
    | .calling =>
      if s.holder = some t then .error .assertion else .ok (s.setStack t ({ f with phase := .downing } :: fs))
    | .downing =>
      if s.free then .ok { s.setStack t ({ f with phase := .downed } :: fs) with free := false }
      else .error .waits
    | .downed =>
      .ok ({ s.setStack t ({ f with phase := .printing } :: fs) with holder := some t }.record (.enter t f.text))
    | .released => .ok { s.setStack t fs with free := true }
    | .printing | .nested | .bare => putcharHaveLock s t f fs

end functions

/-! ### The system -/

inductive ConsoleAction (T : Type*)
  | call (t : T) (c : ConsoleCall)
  | turn (t : T)
  /-- A call in an interrupt handler, which runs through. -/
  | interrupt (c : ConsoleCall)
  /-- `console_panic`. -/
  | panic

variable {T : Type*} [DecidableEq T]

/-- `putchar_have_lock` in an interrupt handler. -/
def Sys.printInterrupt (s : Sys T) (c : UInt8) : Sys T :=
  { s with writeCnt := s.writeCnt + 1 }.record (.interrupt c)

def next (s : Sys T) : ConsoleAction T → Except Halt (Sys T)
  | .call t c => .ok (s.setStack t (⟨.entering, .outside, c.text, c.text⟩ :: s.stack t))
  | .turn t => turn s t
  | .interrupt c => .ok (c.text.foldl Sys.printInterrupt s)
  | .panic => .ok { s with useConsoleLock := false }

def Step (s : Sys T) (a : ConsoleAction T) (s' : Sys T) : Prop := next s a = .ok s'

/-- The console after `console_init`. -/
structure Init (s : Sys T) : Prop where
  free : s.free = true
  holder : s.holder = none
  useConsoleLock : s.useConsoleLock = true
  consoleLockDepth : s.consoleLockDepth = 0
  writeCnt : s.writeCnt = 0
  stack : ∀ t, s.stack t = []
  log : ∀ d, s.log d = []

/-- The kernel does not panic. -/
def NoPanic (_ : Sys T) : ConsoleAction T → Prop
  | .panic => False
  | _ => True

/-! ### Whole calls -/

/-- What is printed inside a call of `t` that has printed `b`: its bytes in order, and whole calls of `t` between
them. -/
inductive Body (t : T) : List UInt8 → List (Event T) → Prop
  | nil : Body t [] []
  | put {b : List UInt8} {es : List (Event T)} (c : UInt8) (h : Body t b es) : Body t (b ++ [c]) (es ++ [.put t c])
  | call {b b' : List UInt8} {es es' : List (Event T)} (h : Body t b es) (h' : Body t b' es') :
      Body t b (es ++ .enter t b' :: es' ++ [.leave t])

/-- A sequence of whole calls. -/
inductive Calls : List (Event T) → Prop
  | nil : Calls []
  | call {t : T} {b : List UInt8} {ls es : List (Event T)} (hs : Calls ls) (h : Body t b es) :
      Calls (ls ++ .enter t b :: es ++ [.leave t])

/-- A call that has not printed anything and has not taken the lock. -/
structure Frame.Waiting (f : Frame) : Prop where
  phase : f.phase = .entering ∨ f.phase = .calling ∨ f.phase = .downing
  stage : f.stage = .outside
  rest : f.rest = f.text

/-- The thread is about to write `lock->holder`, or about to call `sema_up`. -/
inductive Window : List Frame → Prop
  | downed {f : Frame} {fs : List Frame} (hp : f.phase = .downed) (h1 : f.stage = .outside) (h2 : f.rest = f.text)
      (h : ∀ g ∈ fs, g.Waiting) : Window (f :: fs)
  | released {f : Frame} {fs : List Frame} (hp : f.phase = .released) (h : ∀ g ∈ fs, g.Waiting) : Window (f :: fs)
  | waiting {f : Frame} {fs : List Frame} (hf : f.Waiting) (h : Window fs) : Window (f :: fs)

/-- The thread `t` holds the lock, `n` of its calls are nested, and the calls have printed `es`. -/
inductive Open (d : Device) (t : T) : List Frame → ℕ → List (Event T) → Prop
  | printing {f : Frame} {fs : List Frame} {b : List UInt8} {es : List (Event T)} (hp : f.phase = .printing)
      (hb : Body t b es) (ht : f.text = b ++ f.left d) (h : ∀ g ∈ fs, g.Waiting) :
      Open d t (f :: fs) 0 (.enter t f.text :: es)
  | nested {f : Frame} {fs : List Frame} {n : ℕ} {b : List UInt8} {es es' : List (Event T)} (hp : f.phase = .nested)
      (hb : Body t b es') (ht : f.text = b ++ f.left d) (h : Open d t fs n es) :
      Open d t (f :: fs) (n + 1) (es ++ .enter t f.text :: es')
  | entering {f : Frame} {fs : List Frame} {n : ℕ} {es : List (Event T)} (hp : f.phase = .entering) (hf : f.Waiting)
      (h : Open d t fs n es) : Open d t (f :: fs) n es

variable {s s' : Sys T} {t u : T} {d : Device} {f f' : Frame} {fs : List Frame} {n : ℕ} {es ls : List (Event T)}

omit [DecidableEq T] in
theorem Body.puts : ∀ (cs : List UInt8) {b : List UInt8} {es : List (Event T)}, Body t b es →
    Body t (b ++ cs) (es ++ cs.map (.put t))
  | [], _, _, h => by simpa using h
  | c :: cs, _, _, h => by simpa using puts cs (h.put c)

omit [DecidableEq T] in
/-- The innermost call prints `cs`. -/
theorem Open.puts (h : Open d t (f :: fs) n es) (hne : f.phase ≠ .entering) (hp : f'.phase = f.phase)
    (ht : f'.text = f.text) {cs : List UInt8} (hl : f.left d = cs ++ f'.left d) :
    Open d t (f' :: fs) n (es ++ cs.map (.put t)) := by
  cases h with
  | printing hp' hb htext hw =>
    rw [← ht]
    exact .printing (hp.trans hp') (Body.puts cs hb) (by rw [ht, htext, hl, List.append_assoc]) hw
  | nested hp' hb htext h =>
    rw [← ht, List.append_assoc]
    exact .nested (hp.trans hp') (Body.puts cs hb) (by rw [ht, htext, hl, List.append_assoc]) h
  | entering hp' => exact absurd hp' hne

omit [DecidableEq T] in
/-- A nested call returns. -/
theorem Open.call {b : List UInt8} {es' : List (Event T)} (h : Open d t fs n es) (hb : Body t b es') :
    Open d t fs n (es ++ .enter t b :: es' ++ [.leave t]) := by
  induction h with
  | printing hp hb' ht hw => exact .printing hp (hb'.call hb) ht hw
  | nested hp hb' ht h _ =>
    have := Open.nested hp (hb'.call hb) ht h
    simpa using this
  | entering hp hf _ ih => exact .entering hp hf ih

omit [DecidableEq T] in
theorem Open.phase (h : Open d t (f :: fs) n es) :
    f.phase = .printing ∨ f.phase = .nested ∨ f.phase = .entering := by
  cases h with
  | printing hp => exact .inl hp
  | nested hp => exact .inr (.inl hp)
  | entering hp => exact .inr (.inr hp)

omit [DecidableEq T] in
theorem Open.of_printing (h : Open d t (f :: fs) n es) (hp : f.phase = .printing) : n = 0 ∧ (∀ g ∈ fs, g.Waiting) ∧
    ∃ b es', Body t b es' ∧ f.text = b ++ f.left d ∧ es = .enter t f.text :: es' := by
  cases h with
  | printing _ hb ht hw => exact ⟨rfl, hw, _, _, hb, ht, rfl⟩
  | nested hp' => simp [hp] at hp'
  | entering hp' => simp [hp] at hp'

omit [DecidableEq T] in
theorem Open.of_nested (h : Open d t (f :: fs) n es) (hp : f.phase = .nested) : 0 < n ∧
    ∃ b es₀ es', Open d t fs (n - 1) es₀ ∧ Body t b es' ∧ f.text = b ++ f.left d ∧
      es = es₀ ++ .enter t f.text :: es' := by
  cases h with
  | printing hp' => simp [hp] at hp'
  | nested _ hb ht h => exact ⟨Nat.succ_pos _, _, _, _, h, hb, ht, rfl⟩
  | entering hp' => simp [hp] at hp'

omit [DecidableEq T] in
theorem Open.of_entering (h : Open d t (f :: fs) n es) (hp : f.phase = .entering) : f.Waiting ∧ Open d t fs n es := by
  cases h with
  | printing hp' => simp [hp] at hp'
  | nested hp' => simp [hp] at hp'
  | entering _ hf h => exact ⟨hf, h⟩

/-! ### The invariant -/

/-- What threads do, without the interrupt handlers. -/
def threads (l : List (Event T)) : List (Event T) := l.filter Event.isThread

/-- A thread with no part in the lock. -/
def AllWaiting (s : Sys T) (t : T) : Prop := ∀ g ∈ s.stack t, g.Waiting

/-- **The invariant.** -/
inductive LockInv (s : Sys T) : Prop
  | idle (huse : s.useConsoleLock = true) (hfree : s.free = true) (hh : s.holder = none)
      (hd : s.consoleLockDepth = 0) (hs : ∀ t, AllWaiting s t) (hl : ∀ d, Calls (threads (s.log d)))
  | window (u : T) (huse : s.useConsoleLock = true) (hfree : s.free = false) (hh : s.holder = none)
      (hd : s.consoleLockDepth = 0) (hu : Window (s.stack u)) (hs : ∀ t, t ≠ u → AllWaiting s t)
      (hl : ∀ d, Calls (threads (s.log d)))
  | held (u : T) (huse : s.useConsoleLock = true) (hfree : s.free = false) (hh : s.holder = some u)
      (hs : ∀ t, t ≠ u → AllWaiting s t) (hl : ∀ d, ∃ ls es, Calls ls ∧ threads (s.log d) = ls ++ es ∧
        Open d u (s.stack u) s.consoleLockDepth es)

theorem stack_setStack (s : Sys T) (t u : T) (fs : List Frame) :
    (s.setStack t fs).stack u = if u = t then fs else s.stack u := Function.update_apply ..

theorem stack_setStack_self (s : Sys T) (t : T) (fs : List Frame) : (s.setStack t fs).stack t = fs :=
  Function.update_self ..

theorem stack_setStack_ne (s : Sys T) (fs : List Frame) (h : u ≠ t) : (s.setStack t fs).stack u = s.stack u :=
  Function.update_of_ne h ..

/-- The stack of one thread changes: where it has no part in the lock before and after, nothing else does. -/
theorem AllWaiting.set (hs : ∀ u, AllWaiting s u) (h : ∀ g ∈ fs, g.Waiting) (u : T) :
    AllWaiting (s.setStack t fs) u := by
  unfold AllWaiting
  rw [stack_setStack]
  split_ifs
  · exact h
  · exact hs u

theorem AllWaiting.set_others (hs : ∀ v, v ≠ u → AllWaiting s v) (h : t ≠ u → ∀ g ∈ fs, g.Waiting) (v : T)
    (hv : v ≠ u) : AllWaiting (s.setStack t fs) v := by
  unfold AllWaiting
  rw [stack_setStack]
  split_ifs with heq
  · exact h (heq ▸ hv)
  · exact hs v hv

omit [DecidableEq T] in
theorem Window.of_waiting (h : Window (f :: fs)) (hf : f.Waiting) : Window fs := by
  have hphase := hf.phase
  cases h with
  | downed hp => simp [hp] at hphase
  | released hp => simp [hp] at hphase
  | waiting _ h => exact h

/-- A call that waits goes on, and still waits. -/
theorem LockInv.replace (h : LockInv s) (hst : s.stack t = f :: fs) (hf : f.Waiting) (hf' : f'.Waiting)
    (hne : s.holder ≠ some t) : LockInv (s.setStack t (f' :: fs)) := by
  have hlist : AllWaiting s t → ∀ g ∈ f' :: fs, g.Waiting := fun hw => by
    rw [AllWaiting, hst] at hw
    exact List.forall_mem_cons.mpr ⟨hf', (List.forall_mem_cons.mp hw).2⟩
  cases h with
  | idle huse hfree hh hd hs hl => exact .idle huse hfree hh hd (AllWaiting.set hs (hlist (hs t))) hl
  | window u huse hfree hh hd hu hs hl =>
    refine .window u huse hfree hh hd ?_ (AllWaiting.set_others hs fun hne => hlist (hs t hne)) hl
    rw [stack_setStack]
    split_ifs with heq
    · subst heq
      rw [hst] at hu
      exact .waiting hf' (hu.of_waiting hf)
    · exact hu
  | held u huse hfree hh hs hl =>
    have hut : u ≠ t := fun he => hne (he ▸ hh)
    refine .held u huse hfree hh (AllWaiting.set_others hs fun hne => hlist (hs t hne)) fun d => ?_
    rw [stack_setStack_ne _ _ hut]
    exact hl d

/-- A call begins. -/
theorem LockInv.call (h : LockInv s) (c : ConsoleCall) :
    LockInv (s.setStack t (⟨.entering, .outside, c.text, c.text⟩ :: s.stack t)) := by
  have hf : Frame.Waiting ⟨.entering, .outside, c.text, c.text⟩ := ⟨.inl rfl, rfl, rfl⟩
  have hlist : AllWaiting s t → ∀ g ∈ ⟨.entering, .outside, c.text, c.text⟩ :: s.stack t, g.Waiting :=
    fun hw => List.forall_mem_cons.mpr ⟨hf, hw⟩
  cases h with
  | idle huse hfree hh hd hs hl => exact .idle huse hfree hh hd (AllWaiting.set hs (hlist (hs t))) hl
  | window u huse hfree hh hd hu hs hl =>
    refine .window u huse hfree hh hd ?_ (AllWaiting.set_others hs fun hne => hlist (hs t hne)) hl
    rw [stack_setStack]
    split_ifs with heq
    · exact .waiting hf (heq ▸ hu)
    · exact hu
  | held u huse hfree hh hs hl =>
    refine .held u huse hfree hh (AllWaiting.set_others hs fun hne => hlist (hs t hne)) fun d => ?_
    obtain ⟨ls, es, hls, hlog, hopen⟩ := hl d
    refine ⟨ls, es, hls, hlog, ?_⟩
    rw [stack_setStack]
    split_ifs with heq
    · exact .entering rfl hf (heq ▸ hopen)
    · exact hopen

omit [DecidableEq T] in
/-- What an interrupt handler prints. -/
theorem LockInv.interrupt (h : LockInv s) (c : UInt8) : LockInv (s.printInterrupt c) := by
  have hlog : ∀ d, threads ((s.printInterrupt c).log d) = threads (s.log d) := fun d => by
    show (s.log d ++ [Event.interrupt c]).filter Event.isThread = _
    rw [List.filter_append]
    exact List.append_nil _
  cases h with
  | idle huse hfree hh hd hs hl => exact .idle huse hfree hh hd hs fun d => by rw [hlog]; exact hl d
  | window u huse hfree hh hd hu hs hl =>
    exact .window u huse hfree hh hd hu hs fun d => by rw [hlog]; exact hl d
  | held u huse hfree hh hs hl => exact .held u huse hfree hh hs fun d => by rw [hlog]; exact hl d

/-- What a step of a thread does: no assertion fails, and the invariant is kept. -/
def Fine (r : Except Halt (Sys T)) : Prop := r ≠ .error .assertion ∧ ∀ s', r = .ok s' → LockInv s'

omit [DecidableEq T] in
theorem Fine.ok (h : LockInv s') : Fine (.ok s') := ⟨nofun, by
  rintro _ ⟨⟩
  exact h⟩

omit [DecidableEq T] in
theorem Fine.waits : Fine (.error .waits : Except Halt (Sys T)) := ⟨by simp, nofun⟩

omit [DecidableEq T] in
theorem threads_append (l : List (Event T)) {es : List (Event T)} (h : ∀ e ∈ es, e.isThread) :
    threads (l ++ es) = threads l ++ es := by
  rw [threads, List.filter_append, List.filter_eq_self.mpr h, threads]

/-- A thread with no part in the lock takes a step. -/
theorem turn_waiting (h : LockInv s) (hst : s.stack t = f :: fs) (hf : f.Waiting) (hne : s.holder ≠ some t) :
    Fine (turn s t) := by
  have huse : s.useConsoleLock = true := by cases h <;> assumption
  obtain ⟨hp, hstage, hrest⟩ := hf
  have hreplace : ∀ {p : Phase}, p = .calling ∨ p = .downing → LockInv (s.setStack t ({ f with phase := p } :: fs)) :=
    fun hp' => h.replace hst ⟨hp, hstage, hrest⟩ ⟨.inr hp', hstage, hrest⟩ hne
  unfold turn
  rw [hst]
  rcases hp with hp | hp | hp <;> simp only [hp]
  · unfold acquireConsole
    rw [if_pos huse, if_neg hne]
    exact .ok (hreplace (.inl rfl))
  · rw [if_neg hne]
    exact .ok (hreplace (.inr rfl))
  · split_ifs with hfree
    swap
    · exact .waits
    cases h with
    | idle huse hfree hh hd hs hl =>
      have hfs : ∀ g ∈ fs, g.Waiting := fun g hg => hs t g (hst ▸ List.mem_cons_of_mem _ hg)
      refine .ok (.window t huse rfl hh hd ?_ (fun u hu => ?_) hl)
      · show Window ((s.setStack t _).stack t)
        rw [stack_setStack_self]
        exact .downed rfl hstage hrest hfs
      · show ∀ g ∈ (s.setStack t _).stack u, g.Waiting
        rw [stack_setStack_ne _ _ hu]
        exact hs u
    | window u huse hnot => exact absurd hfree (by rw [hnot]; decide)
    | held u huse hnot => exact absurd hfree (by rw [hnot]; decide)

/-- `release_console` of the call that took the lock, or of one inside it. -/
theorem release_held (huse : s.useConsoleLock = true) (hfree : s.free = false) (hh : s.holder = some t)
    (hs : ∀ u, u ≠ t → AllWaiting s u) (hl : ∀ d, ∃ ls es, Calls ls ∧ threads (s.log d) = ls ++ es ∧
      Open d t (f :: fs) s.consoleLockDepth es) (hf : f.phase = .printing ∨ f.phase = .nested)
    (hleft : ∀ d, f.left d = []) : Fine (releaseConsole s t f fs) := by
  have hleave : ∀ d, threads (s.log d ++ [.leave t]) = threads (s.log d) ++ [.leave t] := fun d =>
    threads_append _ (by simp [Event.isThread])
  have hothers : ∀ (fs : List Frame) u, u ≠ t → ∀ g ∈ (s.setStack t fs).stack u, g.Waiting := fun fs u hu => by
    rw [stack_setStack_ne _ _ hu]
    exact hs u hu
  unfold releaseConsole
  rw [if_pos huse]
  rcases hf with hf | hf
  · -- the call that took the lock
    obtain ⟨-, es₀, -, -, hopen⟩ := hl .serial
    obtain ⟨hd, hw, -⟩ := hopen.of_printing hf
    rw [if_neg (by omega), if_pos hh]
    refine .ok (.window t huse hfree rfl hd ?_ (hothers _) fun d => ?_)
    · show Window ((s.setStack t _).stack t)
      rw [stack_setStack_self]
      exact .released rfl hw
    · obtain ⟨ls, es, hls, he, ho⟩ := hl d
      obtain ⟨-, -, b, es', hb, ht, rfl⟩ := ho.of_printing hf
      rw [hleft, List.append_nil] at ht
      show Calls (threads (s.log d ++ [.leave t]))
      rw [hleave, he, ht]
      exact hls.call hb
  · obtain ⟨-, es₀, -, -, hopen⟩ := hl .serial
    obtain ⟨hd, -⟩ := hopen.of_nested hf
    rw [if_pos hd]
    refine .ok (.held t huse hfree hh (hothers _) fun d => ?_)
    obtain ⟨ls, es, hls, he, ho⟩ := hl d
    obtain ⟨-, b, es₁, es', hout, hb, ht, rfl⟩ := ho.of_nested hf
    rw [hleft, List.append_nil] at ht
    refine ⟨ls, es₁ ++ .enter t b :: es' ++ [.leave t], hls, ?_, ?_⟩
    · show threads (s.log d ++ [.leave t]) = _
      rw [hleave, he, ht]
      simp
    · show Open d t ((s.setStack t fs).stack t) _ _
      rw [stack_setStack_self]
      exact hout.call hb

/-- `putchar_have_lock` and `release_console` of the call that took the lock, or of one inside it. -/
theorem putchar_held (huse : s.useConsoleLock = true) (hfree : s.free = false) (hh : s.holder = some t)
    (hs : ∀ u, u ≠ t → AllWaiting s u) (hl : ∀ d, ∃ ls es, Calls ls ∧ threads (s.log d) = ls ++ es ∧
      Open d t (f :: fs) s.consoleLockDepth es) (hf : f.phase = .printing ∨ f.phase = .nested) :
    Fine (putcharHaveLock s t f fs) := by
  have hne : f.phase ≠ .entering := by rcases hf with hf | hf <;> simp [hf]
  -- the innermost call prints, or not, on each device
  have hstep : ∀ (f' : Frame) (cs : Device → List UInt8) (w : ℕ) (log : Device → List (Event T)),
      f'.phase = f.phase → f'.text = f.text → (∀ d, f.left d = cs d ++ f'.left d) →
      (∀ d, log d = s.log d ++ (cs d).map (.put t)) →
      LockInv { s.setStack t (f' :: fs) with writeCnt := w, log := log } := by
    intro f' cs w log hp ht hleft hlog
    refine .held t huse hfree hh (fun u hu => ?_) fun d => ?_
    · show ∀ g ∈ (s.setStack t _).stack u, g.Waiting
      rw [stack_setStack_ne _ _ hu]
      exact hs u hu
    · obtain ⟨ls, es, hls, he, ho⟩ := hl d
      refine ⟨ls, es ++ (cs d).map (.put t), hls, ?_, ?_⟩
      · show threads (log d) = _
        rw [hlog, threads_append _ (by simp [Event.isThread]), he, List.append_assoc]
      · show Open d t ((s.setStack t _).stack t) _ _
        rw [stack_setStack_self]
        exact ho.puts hne hp ht (hleft d)
  unfold putcharHaveLock
  split
  · rename_i hstage
    split
    · rename_i hrest
      exact release_held huse hfree hh hs hl hf fun d => by simp [Frame.left, hstage, hrest]
    · rename_i c rest hrest
      rw [if_pos (by simp [consoleLocked, hh])]
      refine .ok (hstep _ (fun _ => []) _ s.log rfl rfl (fun d => ?_) fun d => ?_)
      · simp [Frame.left, hstage, hrest]
      · simp
  · rename_i c hstage
    refine .ok (hstep _ (fun d => if d = .serial then [c] else []) _ _ rfl rfl (fun d => ?_) fun d => ?_)
    · cases d <;> simp [Frame.left, hstage]
    · cases d <;> simp [Sys.setStack]
  · rename_i c hstage
    refine .ok (hstep _ (fun d => if d = .vga then [c] else []) _ _ rfl rfl (fun d => ?_) fun d => ?_)
    · cases d <;> simp [Frame.left, hstage]
    · cases d <;> simp [Sys.setStack]

/-- **A step of a thread.** -/
theorem LockInv.turn (h : LockInv s) (t : T) : Fine (turn s t) := by
  rcases hst : s.stack t with _ | ⟨f, fs⟩
  · unfold Console.turn
    rw [hst]
    exact .waits
  have hwaiting : AllWaiting s t → s.holder ≠ some t → Fine (Console.turn s t) := fun hw hne =>
    turn_waiting h hst (hw f (hst ▸ List.mem_cons_self)) hne
  cases id h with
  | idle huse hfree hh hd hs hl => exact hwaiting (hs t) (by rw [hh]; exact nofun)
  | window u huse hfree hh hd hu hs hl =>
    by_cases htu : t = u
    swap
    · exact hwaiting (hs t htu) (by rw [hh]; exact nofun)
    subst htu
    rw [hst] at hu
    cases hu with
    | waiting hf => exact turn_waiting h hst hf (by rw [hh]; exact nofun)
    | released hp hfs =>
      unfold Console.turn
      simp only [hst, hp]
      refine .ok (.idle huse rfl hh hd (fun u => ?_) hl)
      show ∀ g ∈ (s.setStack t fs).stack u, g.Waiting
      rw [stack_setStack]
      split_ifs with heq
      · exact hfs
      · exact hs u heq
    | downed hp hstage hrest hfs =>
      unfold Console.turn
      simp only [hst, hp]
      refine .ok (.held t huse hfree rfl (fun u hu => ?_) fun d => ?_)
      · show ∀ g ∈ (s.setStack t _).stack u, g.Waiting
        rw [stack_setStack_ne _ _ hu]
        exact hs u hu
      · refine ⟨threads (s.log d), [.enter t f.text], hl d, threads_append _ (by simp [Event.isThread]), ?_⟩
        show Open d t ((s.setStack t _).stack t) s.consoleLockDepth _
        rw [stack_setStack_self, hd]
        exact .printing rfl .nil (by simp [Frame.left, hstage, hrest]) hfs
  | held u huse hfree hh hs hl =>
    by_cases htu : t = u
    swap
    · exact hwaiting (hs t htu) fun he => htu (Option.some.inj (he.symm.trans hh))
    subst htu
    rw [hst] at hl
    obtain ⟨-, es, -, -, hopen⟩ := hl .serial
    have hphase := hopen.phase
    unfold Console.turn
    rw [hst]
    rcases hphase with hp | hp | hp <;> simp only [hp]
    · exact putchar_held huse hfree hh hs hl (.inl hp)
    · exact putchar_held huse hfree hh hs hl (.inr hp)
    · unfold acquireConsole
      rw [if_pos huse, if_pos hh]
      refine .ok (.held t huse hfree hh (fun u hu => ?_) fun d => ?_)
      · show ∀ g ∈ (s.setStack t _).stack u, g.Waiting
        rw [stack_setStack_ne _ _ hu]
        exact hs u hu
      obtain ⟨ls, es, hls, he, ho⟩ := hl d
      obtain ⟨hf, ho⟩ := ho.of_entering hp
      refine ⟨ls, es ++ [.enter t f.text], hls, ?_, ?_⟩
      · show threads (s.log d ++ [.enter t f.text]) = _
        rw [threads_append _ (by simp [Event.isThread]), he, List.append_assoc]
      · show Open d t ((s.setStack t _).stack t) (s.consoleLockDepth + 1) _
        rw [stack_setStack_self]
        exact .nested rfl .nil (by simp [Frame.left, hf.stage, hf.rest]) ho

theorem invariant : Invariant Init (Guarded NoPanic Step) (LockInv (T := T)) where
  start h := .idle h.useConsoleLock h.free h.holder h.consoleLockDepth (fun t => by simp [AllWaiting, h.stack])
    fun d => by rw [h.log]; exact .nil
  step := by
    rintro s a s' hs ⟨hok, hstep⟩
    cases a with
    | call t c =>
      cases hstep
      exact hs.call c
    | turn t => exact (hs.turn t).2 s' hstep
    | interrupt c =>
      cases hstep
      have : ∀ (l : List UInt8) {s : Sys T}, LockInv s → LockInv (l.foldl Sys.printInterrupt s) := by
        intro l
        induction l with
        | nil => exact fun h => h
        | cons c l ih => exact fun h => ih (h.interrupt c)
      exact this _ hs
    | panic => exact hok.elim

/-- **Calls are printed whole**: in every run without a panic, however threads are preempted and led into further
calls, no assertion of the console fails, and what threads print on either device is a sequence of whole calls,
followed by what the calls of the one thread that holds the lock have printed so far. -/
theorem reachable_whole (h : Reachable Init (Guarded NoPanic Step) s) :
    (∀ t, turn s t ≠ .error .assertion) ∧ ∀ d, ∃ ls es, Calls ls ∧ threads (s.log d) = ls ++ es ∧
      s.holder.elim (es = []) fun u => Open d u (s.stack u) s.consoleLockDepth es := by
  have hs := h.of_invariant invariant
  refine ⟨fun t => (hs.turn t).1, fun d => ?_⟩
  cases hs with
  | idle _ _ hh _ _ hl => exact ⟨_, [], hl d, (List.append_nil _).symm, by rw [hh]; rfl⟩
  | window _ _ _ hh _ _ _ hl => exact ⟨_, [], hl d, (List.append_nil _).symm, by rw [hh]; rfl⟩
  | held u _ _ hh _ hl =>
    obtain ⟨ls, es, hls, he, ho⟩ := hl d
    exact ⟨ls, es, hls, he, by rw [hh]; exact ho⟩

/-! ### Progress -/

/-- What a step of a thread does to the calls: the innermost one goes on or returns. -/
theorem turn_stack (h : turn s t = .ok s') : ∃ f fs, s.stack t = f :: fs ∧
    ((∃ f', s'.stack = Function.update s.stack t (f' :: fs)) ∨ s'.stack = Function.update s.stack t fs) := by
  unfold turn at h
  rcases hst : s.stack t with _ | ⟨f, fs⟩ <;> rw [hst] at h
  · cases h
  refine ⟨f, fs, rfl, ?_⟩
  have hrelease : ∀ {r}, releaseConsole s t f fs = .ok r → (∃ f', r.stack = Function.update s.stack t (f' :: fs)) ∨
      r.stack = Function.update s.stack t fs := by
    intro r hr
    unfold releaseConsole at hr
    split_ifs at hr <;> cases hr
    · exact .inr rfl
    · exact .inl ⟨_, rfl⟩
    · exact .inr rfl
  have hputchar : ∀ {r}, putcharHaveLock s t f fs = .ok r → (∃ f', r.stack = Function.update s.stack t (f' :: fs)) ∨
      r.stack = Function.update s.stack t fs := by
    intro r hr
    unfold putcharHaveLock at hr
    split at hr
    · split at hr
      · exact hrelease hr
      · split_ifs at hr
        cases hr
        exact .inl ⟨_, rfl⟩
    · cases hr
      exact .inl ⟨_, rfl⟩
    · cases hr
      exact .inl ⟨_, rfl⟩
  rcases hp : f.phase <;> simp only [hp] at h
  case entering =>
    cases h
    unfold acquireConsole
    split_ifs <;> exact .inl ⟨_, rfl⟩
  case calling =>
    split_ifs at h
    cases h
    exact .inl ⟨_, rfl⟩
  case downing =>
    split_ifs at h
    cases h
    exact .inl ⟨_, rfl⟩
  case downed =>
    cases h
    exact .inl ⟨_, rfl⟩
  case released =>
    cases h
    exact .inr rfl
  all_goals exact hputchar h

/-- When a thread has to wait. -/
theorem turn_waits (h : turn s t = .error .waits) :
    s.stack t = [] ∨ ∃ f fs, s.stack t = f :: fs ∧ f.phase = .downing ∧ s.free = false := by
  unfold turn at h
  rcases hst : s.stack t with _ | ⟨f, fs⟩ <;> rw [hst] at h
  · exact .inl rfl
  refine .inr ⟨f, fs, rfl, ?_⟩
  have hputchar : putcharHaveLock s t f fs ≠ .error .waits := by
    unfold putcharHaveLock releaseConsole
    split
    · split
      · split_ifs <;> simp
      · split_ifs <;> simp
    · simp
    · simp
  rcases hp : f.phase <;> simp only [hp] at h
  case downing =>
    split_ifs at h with hfree
    exact ⟨rfl, by simpa using hfree⟩
  case calling =>
    split_ifs at h
    cases h
  case entering => cases h
  case downed => cases h
  case released => cases h
  all_goals exact absurd h hputchar

/-- In `lock_acquire` past the semaphore, or in `lock_release` before it: the semaphore is down, and the lock has
no holder. -/
def Frame.InWindow (f : Frame) : Prop := f.phase = .downed ∨ f.phase = .released

instance (f : Frame) : Decidable f.InWindow := inferInstanceAs (Decidable (_ ∨ _))

omit [DecidableEq T] in
theorem Window.exists_inWindow (h : Window fs) : ∃ g ∈ fs, g.InWindow := by
  induction h with
  | downed hp => exact ⟨_, List.mem_cons_self, .inl hp⟩
  | released hp => exact ⟨_, List.mem_cons_self, .inr hp⟩
  | waiting _ _ ih => exact ih.imp fun g hg => ⟨List.mem_cons_of_mem _ hg.1, hg.2⟩

/-- No thread is led into a call while it takes or leaves the lock. -/
def OutsideWindow (s : Sys T) : ConsoleAction T → Prop
  | .call t _ => ∀ f ∈ (s.stack t).head?, ¬f.InWindow
  | .panic => False
  | _ => True

instance (s : Sys T) : (a : ConsoleAction T) → Decidable (OutsideWindow s a)
  | .call t _ => inferInstanceAs (Decidable (∀ f ∈ (s.stack t).head?, ¬f.InWindow))
  | .turn _ | .interrupt _ => isTrue trivial
  | .panic => isFalse id

omit [DecidableEq T] in
theorem noPanic_of_outside {a : ConsoleAction T} (h : OutsideWindow s a) : NoPanic s a := by
  cases a with
  | panic => exact h
  | _ => trivial

/-- The outer calls of a thread neither take nor leave the lock. -/
def OuterOutside (s : Sys T) : Prop := ∀ t f fs, s.stack t = f :: fs → ∀ g ∈ fs, ¬g.InWindow

theorem OuterOutside.update {fs : List Frame} (h : OuterOutside s)
    (hfs : ∀ f gs, fs = f :: gs → ∀ g ∈ gs, ¬g.InWindow) (hs : s'.stack = Function.update s.stack t fs) :
    OuterOutside s' := by
  intro u f gs hu
  rw [hs, Function.update_apply] at hu
  split_ifs at hu
  · exact hfs f gs hu
  · exact h u f gs hu

theorem outer_invariant : Invariant Init (Guarded OutsideWindow Step) (OuterOutside (T := T)) where
  start h t f fs hst := by
    rw [h.stack] at hst
    cases hst
  step := by
    rintro s a s' hs ⟨hok, hstep⟩
    cases a with
    | call t c =>
      cases hstep
      refine hs.update (fun f gs he g hg => ?_) rfl
      cases he
      rcases hst : s.stack t with _ | ⟨f, fs⟩ <;> rw [hst] at hg
      · cases hg
      · rcases List.mem_cons.mp hg with rfl | hg
        · exact hok _ (by rw [hst]; rfl)
        · exact hs t f fs hst g hg
    | turn t =>
      obtain ⟨f, fs, hst, ⟨f', hs'⟩ | hs'⟩ := turn_stack hstep
      · refine hs.update (fun _ _ he => ?_) hs'
        cases he
        exact hs t f fs hst
      · refine hs.update (fun g gs he k hk => ?_) hs'
        exact hs t f fs hst k (by rw [he]; exact List.mem_cons_of_mem _ hk)
    | interrupt c =>
      cases hstep
      have : ∀ (l : List UInt8) (s : Sys T), (l.foldl Sys.printInterrupt s).stack = s.stack := by
        intro l
        induction l with
        | nil => exact fun s => rfl
        | cons c l ih => exact fun s => ih _
      intro t f fs hst
      rw [this] at hst
      exact hs t f fs hst
    | panic => exact hok.elim

/-- **The console does not deadlock**: while no thread is led into a call between taking the semaphore and writing
`lock->holder`, or between clearing it and `sema_up`, some call goes on as long as there is one. -/
theorem reachable_progress (h : Reachable Init (Guarded OutsideWindow Step) s) (hs : ∃ t, s.stack t ≠ []) :
    ∃ t s', turn s t = .ok s' := by
  have hinv := (h.mono fun _ _ _ hstep => ⟨noPanic_of_outside hstep.1, hstep.2⟩).of_invariant invariant
  have houter := h.of_invariant outer_invariant
  obtain ⟨t, hmoves⟩ : ∃ t, turn s t ≠ .error .waits := by
    cases id hinv with
    | idle huse hfree hh hd hs' hl =>
      obtain ⟨t, ht⟩ := hs
      refine ⟨t, fun hw => ?_⟩
      obtain hnil | ⟨f, fs, -, -, hnot⟩ := turn_waits hw
      · exact ht hnil
      · rw [hfree] at hnot
        cases hnot
    | window u huse hfree hh hd hu hs' hl =>
      refine ⟨u, fun hw => ?_⟩
      obtain hnil | ⟨f, fs, hst, hp, -⟩ := turn_waits hw
      · rw [hnil] at hu
        cases hu
      · have hout := houter u f fs hst
        rw [hst] at hu
        obtain ⟨g, hg, hwin⟩ := hu.exists_inWindow
        rcases List.mem_cons.mp hg with rfl | hg
        · rcases hwin with hwin | hwin <;> simp [hp] at hwin
        · exact hout g hg hwin
    | held u huse hfree hh hs' hl =>
      refine ⟨u, fun hw => ?_⟩
      obtain ⟨-, es, -, -, hopen⟩ := hl .serial
      obtain hnil | ⟨f, fs, hst, hp, -⟩ := turn_waits hw
      · rw [hnil] at hopen
        cases hopen
      · rw [hst] at hopen
        simpa [hp] using hopen.phase
  rcases ht : turn s t with e | s'
  · cases e with
    | waits => exact absurd ht hmoves
    | assertion => exact absurd ht (hinv.turn t).1
  · exact ⟨t, s', ht⟩

/-! ### Two threads -/

def initial (T : Type*) : Sys T := ⟨true, none, true, 0, 0, fun _ => [], fun _ => []⟩

omit [DecidableEq T] in
theorem init_initial : Init (initial T) := ⟨rfl, rfl, rfl, rfl, rfl, fun _ => rfl, fun _ => rfl⟩

def nextOutside (s : Sys T) (a : ConsoleAction T) : Option (Sys T) :=
  if OutsideWindow s a then (next s a).toOption else none

theorem step_of_nextOutside {a : ConsoleAction T} (h : nextOutside s a = some s') :
    Guarded OutsideWindow Step s a s' := by
  unfold nextOutside at h
  split_ifs at h with hok
  refine ⟨hok, ?_⟩
  unfold Step
  rcases hr : next s a with e | r <;> rw [hr] at h <;> cases h
  rfl

/-- A thread that prints `ab` is led into printing `x` when `a` has gone to the serial port only; another thread
waits to print `y`, and an interrupt handler prints `!`. -/
def sampleRun : List (ConsoleAction Bool) :=
  .call false (.putbuf [97, 98]) :: List.replicate 6 (.turn false) ++
    .call false (.putchar 120) :: List.replicate 5 (.turn false) ++
      .call true (.putchar 121) :: List.replicate 2 (.turn true) ++ [.interrupt (.putchar 33)]

theorem reachable_sample : ∃ s : Sys Bool, Reachable Init (Guarded OutsideWindow Step) s ∧
    s.log .serial = [.enter false [97, 98], .put false 97, .enter false [120], .put false 120, .leave false,
      .interrupt 33] ∧ s.holder = some false ∧ (s.stack true).map (·.phase) = [.downing] := by
  have hrun : (sampleRun.foldlM nextOutside (initial Bool)).map (fun s => (s.log .serial, s.holder,
      (s.stack true).map (·.phase))) = some ([.enter false [97, 98], .put false 97, .enter false [120],
        .put false 120, .leave false, .interrupt 33], some false, [.downing]) := by
    decide +kernel
  obtain ⟨s, hrun, hs⟩ := Option.map_eq_some_iff.mp hrun
  simp only [Prod.mk.injEq] at hs
  exact ⟨s, .of_foldlM step_of_nextOutside _ (.start init_initial) hrun, hs⟩

theorem reachable_whole_sample : ∃ s : Sys Bool, s.holder = some false ∧ (s.stack true).map (·.phase) = [.downing] ∧
    (∀ t, turn s t ≠ .error .assertion) ∧ ∀ d, ∃ ls es, Calls ls ∧ threads (s.log d) = ls ++ es ∧
      s.holder.elim (es = []) fun u => Open d u (s.stack u) s.consoleLockDepth es := by
  obtain ⟨s, hs, -, hh, hst⟩ := reachable_sample
  exact ⟨s, hh, hst, reachable_whole (hs.mono fun _ _ _ hstep => ⟨noPanic_of_outside hstep.1, hstep.2⟩)⟩

theorem reachable_progress_sample : ∃ s : Sys Bool, (s.stack true).map (·.phase) = [.downing] ∧
    ∃ t s', turn s t = .ok s' := by
  obtain ⟨s, hs, -, -, hst⟩ := reachable_sample
  refine ⟨s, hst, reachable_progress hs ⟨true, fun hnil => ?_⟩⟩
  rw [hnil] at hst
  cases hst

end Pintos.Kernel.Console
