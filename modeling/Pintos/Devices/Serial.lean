import Pintos.Devices.Intq

/-! # The serial port

Threads and interrupt handlers print to the serial port and read what it receives, through two interrupt queues.
The functions run with interrupts off, and a thread runs until it blocks in one of the queues. Whatever happens in
between, the bytes are sent in the order in which they were accepted, and the interrupts of the port are on
whenever there is something to send or room for something received. -/

namespace Pintos.Devices.Serial

open Pintos.Lib.Runs Pintos.Lib.RingBuffer
open Pintos.Devices.Intq
open Pintos.Threads.Semaphore (semaInit)

variable {T : Type*} [DecidableEq T]

/-! ### What the calls of a queue do to its bytes -/

/-- The queue, and what has been read and written, are as they were. -/
structure SameBytes (s s' : Intq.Sys T) : Prop where
  queue : s'.queue = s.queue
  read : s'.read = s.read
  written : s'.written = s.written

section bytes

variable {s s' s'' : Intq.Sys T} {t : T} {k : Cond} {call : Call} {byte : BitVec 8}

omit [DecidableEq T] in
theorem SameBytes.trans (h : SameBytes s s') (h' : SameBytes s' s'') : SameBytes s s'' :=
  ⟨h'.queue.trans h.queue, h'.read.trans h.read, h'.written.trans h.written⟩

theorem sameBytes_unblock (h : unblock s t = some s') : SameBytes s s' := by
  obtain ⟨p, -, rfl⟩ := Option.map_eq_some_iff.mp h
  exact ⟨rfl, rfl, rfl⟩

theorem sameBytes_signal (h : signal s k = some s') : SameBytes s s' := by
  unfold signal at h
  split_ifs at h
  cases hw : s.waiter k with
  | none =>
    rw [hw] at h
    cases h
    exact ⟨rfl, rfl, rfl⟩
  | some w =>
    rw [hw] at h
    obtain ⟨s₁, h1, rfl⟩ := Option.map_eq_some_iff.mp h
    obtain ⟨h2, h3, h4⟩ := sameBytes_unblock h1
    exact ⟨h2, h3, h4⟩

theorem sameBytes_lockRelease (h : lockRelease s t = some s') : SameBytes s s' := by
  unfold lockRelease at h
  split_ifs at h
  rcases hr : Threads.Semaphore.semaUp s.priority s.semaphore with ⟨_ | w, sema⟩ <;> rw [hr] at h
  · cases h
    exact ⟨rfl, rfl, rfl⟩
  · obtain ⟨h2, h3, h4⟩ := sameBytes_unblock h
    exact ⟨h2, h3, h4⟩

/-- A thread that blocks leaves the queue alone, and is not running. -/
theorem downLock_blocks (h : downLock s t call = some s') : SameBytes s s' ∧ s'.place t ≠ .running := by
  unfold downLock wait at h
  dsimp only at h
  split_ifs at h <;> cases h
  all_goals exact ⟨⟨rfl, rfl, rfl⟩, by rw [place_move, if_pos rfl]; exact nofun⟩

/-- `intq_putc` that does not wait. -/
theorem operate_putc (h : operate s (.putc byte) = some s') :
    s'.queue = s.queue.push byte ∧ s'.read = s.read ∧ s'.written = s.written ++ [byte] :=
  ⟨(sameBytes_signal h).queue, (sameBytes_signal h).read, (sameBytes_signal h).written⟩

/-- `intq_getc` that does not wait. -/
theorem operate_getc (h : operate s .getc = some s') :
    s'.queue = s.queue.pop ∧ s'.read = s.read ++ [s.queue.front] ∧ s'.written = s.written :=
  ⟨(sameBytes_signal h).queue, (sameBytes_signal h).read, (sameBytes_signal h).written⟩

theorem unblock_running {w : T} (h : unblock s w = some s') (ht : s.place t = .running) : s'.place t = .running := by
  obtain ⟨p, hp, rfl⟩ := Option.map_eq_some_iff.mp h
  rw [place_move, if_neg, ht]
  rintro rfl
  rw [ht] at hp
  cases hp

theorem signal_running (h : signal s k = some s') (ht : s.place t = .running) : s'.place t = .running := by
  unfold signal at h
  split_ifs at h
  cases hw : s.waiter k with
  | none =>
    rw [hw] at h
    cases h
    exact ht
  | some w =>
    rw [hw] at h
    obtain ⟨s₁, h1, rfl⟩ := Option.map_eq_some_iff.mp h
    show s₁.place t = .running
    exact unblock_running h1 ht

/-- Running threads go on running where another call is done. -/
theorem operate_running (h : operate s call = some s') (ht : s.place t = .running) : s'.place t = .running := by
  cases call <;> exact signal_running h ht

theorem lockRelease_running (h : lockRelease s t = some s') (ht : s.place t = .running) : s'.place t = .running := by
  unfold lockRelease at h
  split_ifs at h
  rcases hr : Threads.Semaphore.semaUp s.priority s.semaphore with ⟨_ | w, sema⟩ <;> rw [hr] at h
  · cases h
    exact ht
  · exact unblock_running h ht

/-- **What a call does to the bytes**: it goes through, and its thread runs on, or the thread blocks. -/
theorem loop_cases (h : loop s t call = some s') (ht : s.place t = .running) :
    (s.blocks call.cond = false ∧ operate s call = some s' ∧ s'.place t = .running) ∨
      SameBytes s s' ∧ s'.place t ≠ .running := by
  unfold loop at h
  split_ifs at h with hb hh
  · exact .inr (downLock_blocks h)
  · exact .inl ⟨by simpa using hb, h, operate_running h ht⟩

/-- The same for a thread that goes on. -/
theorem resume_cases (h : resume s t = some s') : (∃ call s₁, SameBytes s s₁ ∧ s₁.blocks call.cond = false ∧
    operate s₁ call = some s' ∧ s'.place t = .running ∧ s.place t = .signalled call) ∨
      SameBytes s s' ∧ s'.place t ≠ .running := by
  unfold resume at h
  have hmove : SameBytes s (s.move t .running) := ⟨rfl, rfl, rfl⟩
  cases hp : s.place t with
  | unlocked call =>
    rw [hp] at h
    exact .inr ⟨hmove.trans (downLock_blocks h).1, (downLock_blocks h).2⟩
  | signalled call =>
    rw [hp] at h
    obtain ⟨s₁, h1, h⟩ := Option.bind_eq_some_iff.mp h
    have hsame := hmove.trans (sameBytes_lockRelease h1)
    have hrun := lockRelease_running h1 (by rw [place_move, if_pos rfl])
    rcases loop_cases h hrun with ⟨hb, ho, hr⟩ | ⟨hsame', hne⟩
    · exact .inl ⟨call, s₁, hsame, hb, ho, hr, rfl⟩
    · exact .inr ⟨hsame.trans hsame', hne⟩
  | running => simp [hp] at h
  | locked => simp [hp] at h
  | waiting => simp [hp] at h

/-- The call that a thread is in. -/
def callOf : Place → Option Call
  | .running => none
  | .locked call | .unlocked call | .waiting call | .signalled call => some call

/-- The threads are in calls of this kind only. -/
def Calling (P : Call → Prop) (s : Intq.Sys T) : Prop := ∀ t, ∀ c ∈ callOf (s.place t), P c

variable {P : Call → Prop}

theorem Calling.move {p : Place} (h : Calling P s) (hp : ∀ c ∈ callOf p, P c) : Calling P (s.move t p) := by
  intro u c hc
  rw [place_move] at hc
  split_ifs at hc
  · exact hp c hc
  · exact h u c hc

theorem Calling.unblock (h : Calling P s) (hu : unblock s t = some s') : Calling P s' := by
  obtain ⟨p, hp, rfl⟩ := Option.map_eq_some_iff.mp hu
  refine h.move fun c hc => h t c ?_
  cases hpl : s.place t <;> rw [hpl] at hp <;> cases hp <;> exact hc

theorem Calling.signal (h : Calling P s) (hs : signal s k = some s') : Calling P s' := by
  unfold Intq.signal at hs
  split_ifs at hs
  cases hw : s.waiter k with
  | none =>
    rw [hw] at hs
    cases hs
    exact h
  | some w =>
    rw [hw] at hs
    obtain ⟨s₁, h1, rfl⟩ := Option.map_eq_some_iff.mp hs
    show Calling P s₁
    exact h.unblock h1

theorem Calling.operate (h : Calling P s) (ho : operate s call = some s') : Calling P s' := by
  cases call with
  | getc => exact Calling.signal (s := { s with queue := s.queue.pop, read := s.read ++ [s.queue.front] }) h ho
  | putc byte =>
    exact Calling.signal (s := { s with queue := s.queue.push byte, written := s.written ++ [byte] }) h ho

theorem Calling.downLock (h : Calling P s) (hc : P call) (hd : downLock s t call = some s') : Calling P s' := by
  unfold Intq.downLock wait at hd
  dsimp only at hd
  have hcall : ∀ p, callOf p = some call → ∀ c ∈ callOf p, P c := fun p hp c hc' => by
    rw [hp] at hc'
    cases hc'
    exact hc
  have hset : ∀ {s₁ : Intq.Sys T} {p : Place}, s₁.place = s.place → callOf p = some call → Calling P (s₁.move t p) :=
    fun hp hcp => Calling.move (fun u c hu => h u c (by rwa [hp] at hu)) (hcall _ hcp)
  split_ifs at hd <;> cases hd
  · exact hset rfl rfl
  · exact hset rfl rfl

theorem Calling.lockRelease (h : Calling P s) (hl : lockRelease s t = some s') : Calling P s' := by
  unfold Intq.lockRelease at hl
  split_ifs at hl
  rcases hr : Threads.Semaphore.semaUp s.priority s.semaphore with ⟨_ | w, sema⟩ <;> rw [hr] at hl
  · cases hl
    exact h
  · exact Calling.unblock (s := { s with holder := none, semaphore := sema }) h hl

theorem Calling.loop (h : Calling P s) (hc : P call) (hl : loop s t call = some s') : Calling P s' := by
  unfold Intq.loop at hl
  split_ifs at hl
  · exact h.downLock hc hl
  · exact h.operate hl

theorem Calling.resume (h : Calling P s) (hr : resume s t = some s') : Calling P s' := by
  unfold Intq.resume at hr
  have hmove : Calling P (s.move t .running) := h.move nofun
  cases hp : s.place t with
  | unlocked call =>
    rw [hp] at hr
    exact hmove.downLock (h t call (by rw [hp]; rfl)) hr
  | signalled call =>
    rw [hp] at hr
    obtain ⟨s₁, h1, hr⟩ := Option.bind_eq_some_iff.mp hr
    exact (hmove.lockRelease h1).loop (h t call (by rw [hp]; rfl)) hr
  | running => simp [hp] at hr
  | locked => simp [hp] at hr
  | waiting => simp [hp] at hr

end bytes

/-! ### The port -/

inductive Mode
  | uninit
  | poll
  | queue
  deriving DecidableEq, Repr

/-- The bits of the interrupt enable register. -/
structure Ier where
  recv : Bool
  xmit : Bool
  deriving DecidableEq, Repr

/-- The port and the two queues, with what has been sent. What was sent before there was a queue is recorded. -/
structure Port (T : Type*) where
  mode : Mode
  txq : Intq.Sys T
  /-- `buffer` of the input layer. -/
  input : Intq.Sys T
  ier : Ier
  wire : List (BitVec 8)
  polled : List (BitVec 8)

/-- `write_ier`. -/
def Port.writeIer (p : Port T) : Port T :=
  { p with ier := ⟨!p.input.queue.isFull, !p.txq.queue.isEmpty⟩ }

/-- `intq_init`. -/
def intqInit (s : Intq.Sys T) : Intq.Sys T :=
  { s with
    queue := ⟨s.queue.buf, 0, 0, bufSize_pos, bufSize_pos⟩
    semaphore := semaInit 1
    holder := none
    waiter := fun _ => none }

/-- `init_poll`. -/
def Port.initPoll (p : Port T) : Option (Port T) :=
  if p.mode = .uninit then some { p with ier := ⟨false, false⟩, txq := intqInit p.txq, mode := .poll } else none

/-- `putc_poll`, once the port is ready. -/
def Port.putcPoll (p : Port T) (byte : BitVec 8) : Port T := { p with wire := p.wire ++ [byte] }

/-- `intq_getc` and then `outb`, or `putc_poll`. -/
def Port.sendQueued (p : Port T) : Option (Port T) :=
  (operate p.txq .getc).map fun q => { p with txq := q }.putcPoll p.txq.queue.front

/-- `serial_notify`. -/
def Port.notify (p : Port T) : Port T := if p.mode = .queue then p.writeIer else p

/-- `serial_putc` when there is no queue. -/
def Port.putcDirect (p : Port T) (byte : BitVec 8) : Option (Port T) :=
  (if p.mode = .uninit then p.initPoll else some p).map fun p =>
    { p.putcPoll byte with polled := p.polled ++ [byte] }

/-- What precedes `intq_putc` in `serial_putc`: interrupts are off, and the queue is full. -/
def Port.makeRoom (p : Port T) (intrOn : Bool) : Option (Port T) :=
  if !intrOn && p.txq.queue.isFull then p.sendQueued else some p

/-- What follows `intq_putc` in `serial_putc`, if the thread has not blocked. -/
def Port.putDone (p : Port T) (t : T) : Port T := if p.txq.place t = .running then p.writeIer else p

/-- `serial_putc` of a thread. -/
def Port.putc (p : Port T) (t : T) (intrOn : Bool) (byte : BitVec 8) : Option (Port T) :=
  if p.mode = .queue then
    (p.makeRoom intrOn).bind fun p => (loop p.txq t (.putc byte)).map fun q => { p with txq := q }.putDone t
  else p.putcDirect byte

/-- `serial_putc` in an interrupt handler. -/
def Port.putcHandler (p : Port T) (byte : BitVec 8) : Option (Port T) :=
  if p.mode = .queue then
    (p.makeRoom false).bind fun p =>
      if p.txq.queue.isFull then none
      else (operate p.txq (.putc byte)).map fun q => { p with txq := q }.writeIer
  else p.putcDirect byte

/-- `serial_flush`, which empties a queue of `n` bytes. -/
def Port.flush : ℕ → Port T → Option (Port T)
  | 0, p => some p
  | n + 1, p => if p.txq.queue.isEmpty then some p else p.sendQueued.bind (flush n)

/-- `serial_init_queue`. -/
def Port.initQueue (p : Port T) : Option (Port T) :=
  (if p.mode = .uninit then p.initPoll else some p).bind fun p =>
    if p.mode = .poll then some { p with mode := .queue }.writeIer else none

/-- What follows `intq_getc` in `input_getc`, if the thread has not blocked. -/
def Port.getDone (p : Port T) (t : T) : Port T := if p.input.place t = .running then p.notify else p

/-- `input_getc`. -/
def Port.getc (p : Port T) (t : T) : Option (Port T) :=
  (loop p.input t .getc).map fun q => { p with input := q }.getDone t

/-- `input_putc`. -/
def Port.inputPutc (p : Port T) (byte : BitVec 8) : Option (Port T) :=
  if p.input.queue.isFull then none
  else (operate p.input (.putc byte)).map fun q => { p with input := q }.notify

/-- The first loop of `serial_interrupt`; the port has `received`. -/
def Port.receiveLoop : List (BitVec 8) → Port T → Option (Port T)
  | [], p => some p
  | byte :: received, p => if p.input.queue.isFull then some p else (p.inputPutc byte).bind (receiveLoop received)

/-- The second one; the port is ready for `n` bytes. -/
def Port.transmitLoop : ℕ → Port T → Option (Port T)
  | 0, p => some p
  | n + 1, p => if p.txq.queue.isEmpty then some p else p.sendQueued.bind (transmitLoop n)

/-- `serial_interrupt`. -/
def Port.interrupt (p : Port T) (received : List (BitVec 8)) (ready : ℕ) : Option (Port T) :=
  (p.receiveLoop received).bind fun p => (p.transmitLoop ready).map writeIer

/-- A thread goes on that had blocked in `serial_putc`. -/
def Port.resumePut (p : Port T) (t : T) : Option (Port T) :=
  (resume p.txq t).map fun q => { p with txq := q }.putDone t

/-- A thread goes on that had blocked in `input_getc`. -/
def Port.resumeGet (p : Port T) (t : T) : Option (Port T) :=
  (resume p.input t).map fun q => { p with input := q }.getDone t

/-! ### The system -/

inductive PortAction (T : Type*)
  | putc (t : T) (intrOn : Bool) (byte : BitVec 8)
  | resumePut (t : T)
  | putcHandler (byte : BitVec 8)
  | flush
  | initQueue
  | getc (t : T)
  | resumeGet (t : T)
  /-- The keyboard handler stores a character, if there is room. -/
  | key (byte : BitVec 8)
  | interrupt (received : List (BitVec 8)) (ready : ℕ)
  | setPriority (t : T) (priority : ℤ)

def next (p : Port T) : PortAction T → Option (Port T)
  | .putc t intrOn byte => p.putc t intrOn byte
  | .resumePut t => p.resumePut t
  | .putcHandler byte => p.putcHandler byte
  | .flush => p.flush p.txq.queue.count
  | .initQueue => p.initQueue
  | .getc t => p.getc t
  | .resumeGet t => p.resumeGet t
  | .key byte => if p.input.queue.isFull then some p else p.inputPutc byte
  | .interrupt received ready => p.interrupt received ready
  | .setPriority t priority =>
    some { p with
      txq := { p.txq with priority := Function.update p.txq.priority t priority }
      input := { p.input with priority := Function.update p.input.priority t priority } }

/-- A thread calls a function only while it runs. The handler is registered when there is a queue, and there is one
once. -/
def Enabled (p : Port T) : PortAction T → Prop
  | .putc t _ _ => p.txq.place t = .running ∧ p.input.place t = .running
  | .getc t => p.txq.place t = .running ∧ p.input.place t = .running
  | .resumePut t => ∃ call, p.txq.place t = .unlocked call ∨ p.txq.place t = .signalled call
  | .resumeGet t => ∃ call, p.input.place t = .unlocked call ∨ p.input.place t = .signalled call
  | .initQueue => p.mode ≠ .queue
  | .interrupt _ _ => p.mode = .queue
  | _ => True

/-- A thread that has slept on the lock of a queue finds its condition unchanged. -/
def Calm (p : Port T) : PortAction T → Prop
  | .resumePut t => Unchanged p.txq (.resume t)
  | .resumeGet t => Unchanged p.input (.resume t)
  | _ => True

def Step (p : Port T) (a : PortAction T) (p' : Port T) : Prop := Enabled p a ∧ next p a = some p'

/-- The port before it is used, after `input_init`. -/
structure Init (p : Port T) : Prop where
  mode : p.mode = .uninit
  input : Intq.Init p.input
  empty : p.txq.queue.isEmpty = true
  place : ∀ t, p.txq.place t = .running
  written : p.txq.written = []
  read : p.txq.read = []
  overwritten : p.txq.overwritten = false
  panicked : p.txq.panicked = false
  wire : p.wire = []
  polled : p.polled = []

/-! ### The invariant -/

/-- What holds also before `write_ier`. -/
structure Core (p : Port T) : Prop where
  input : Inv p.input
  txq : p.mode ≠ .uninit → Inv p.txq
  /-- The queue is not used before `serial_init_queue`. -/
  unused : p.mode ≠ .queue → p.txq.written = [] ∧ p.txq.read = [] ∧ (∀ t, p.txq.place t = .running) ∧
    p.txq.overwritten = false ∧ p.txq.panicked = false ∧ p.txq.queue.isEmpty = true
  wire : p.wire = p.polled ++ p.txq.read
  /-- Threads only write to the one queue and only read from the other. -/
  putters : Calling (· ≠ .getc) p.txq
  getters : Calling (· = .getc) p.input

/-- **The invariant**: the interrupts are on that are needed. -/
structure PortInv (p : Port T) : Prop extends Core p where
  recv : p.mode = .queue → p.ier.recv = !p.input.queue.isFull
  xmit : p.mode = .queue → p.txq.queue.isEmpty = false → p.ier.xmit = true

variable {p p' : Port T} {q : Intq.Sys T} {t : T} {byte : BitVec 8}

omit [DecidableEq T] in
theorem PortInv.of_init (h : Init p) : PortInv p where
  input := Inv.of_init h.input
  txq hm := absurd h.mode hm
  unused _ := ⟨h.written, h.read, h.place, h.overwritten, h.panicked, h.empty⟩
  wire := by rw [h.wire, h.polled, h.read, List.append_nil]
  putters t c hc := by
    rw [h.place t] at hc
    cases hc
  getters t c hc := by
    rw [h.input.place t] at hc
    cases hc
  recv hm := by
    rw [h.mode] at hm
    cases hm
  xmit hm := by
    rw [h.mode] at hm
    cases hm

omit [DecidableEq T] in
/-- **`write_ier`.** -/
theorem Core.writeIer (h : Core p) : PortInv p.writeIer :=
  { h with
    recv := fun _ => rfl
    xmit := fun _ he => by
      show (!p.txq.queue.isEmpty) = true
      rw [show p.txq.queue.isEmpty = false from he]
      rfl }

omit [DecidableEq T] in
theorem PortInv.notify (h : Core p) : PortInv p.notify := by
  unfold Port.notify
  split_ifs with hm
  · exact h.writeIer
  · exact { h with recv := fun h => absurd h hm, xmit := fun h => absurd h hm }

omit [DecidableEq T] in
/-- The queue of the port goes from one state to another, and nothing is sent. -/
theorem Core.set_txq (h : Core p) (hm : p.mode = .queue) (hq : Inv q) (hr : q.read = p.txq.read)
    (hc : Calling (· ≠ .getc) q) : Core { p with txq := q } where
  input := h.input
  txq _ := hq
  unused hm' := absurd hm hm'
  wire := by rw [hr]; exact h.wire
  putters := hc
  getters := h.getters

omit [DecidableEq T] in
theorem Core.set_input (h : Core p) (hq : Inv q) (hc : Calling (· = .getc) q) : Core { p with input := q } :=
  { h with input := hq, getters := hc }

omit [DecidableEq T] in
theorem blocks_notEmpty {s : Intq.Sys T} (h : s.queue.isEmpty = false) : s.blocks Call.getc.cond = false := h

omit [DecidableEq T] in
theorem blocks_notFull {s : Intq.Sys T} (byte : BitVec 8) (h : s.queue.isFull = false) : s.blocks (Call.putc byte).cond = false := h

/-- **A byte of the queue is sent.** -/
theorem Core.sendQueued (h : Core p) (hm : p.mode = .queue) (he : p.txq.queue.isEmpty = false) :
    ∃ p', p.sendQueued = some p' ∧ Core p' ∧ p'.mode = .queue ∧ p'.input = p.input ∧ p'.ier = p.ier ∧
      p'.txq.queue = p.txq.queue.pop ∧ p'.wire = p.wire ++ [p.txq.queue.front] ∧
      ∀ t, p.txq.place t = .running → p'.txq.place t = .running := by
  obtain ⟨q, hq, hinv⟩ := operate_spec (h.txq (by rw [hm]; decide)) (blocks_notEmpty he)
  obtain ⟨h1, h2, h3⟩ := operate_getc hq
  refine ⟨{ p with txq := q }.putcPoll p.txq.queue.front, by rw [Port.sendQueued, hq]; rfl,
    ⟨h.input, fun _ => hinv, fun hm' => absurd hm hm', ?_, h.putters.operate hq, h.getters⟩, hm, rfl,
    rfl, h1, rfl, fun t => operate_running hq⟩
  show p.wire ++ [p.txq.queue.front] = p.polled ++ q.read
  rw [h2, h.wire, List.append_assoc]

/-- Not more than `n` bytes of the queue are sent. -/
theorem Core.transmitLoop : ∀ (n : ℕ) {p : Port T}, Core p → p.mode = .queue →
    ∃ p', p.transmitLoop n = some p' ∧ Core p' ∧ p'.mode = .queue ∧ p'.input = p.input ∧ p'.ier = p.ier ∧
      p'.txq.queue.contents = p.txq.queue.contents.drop n ∧ p'.wire = p.wire ++ p.txq.queue.contents.take n
  | 0, p, h, hm => ⟨p, rfl, h, hm, rfl, rfl, rfl, (List.append_nil _).symm⟩
  | n + 1, p, h, hm => by
    unfold Port.transmitLoop
    split_ifs with he
    · have hnil := p.txq.queue.contents_of_isEmpty he
      exact ⟨p, rfl, h, hm, rfl, rfl, by rw [hnil]; rfl, by rw [hnil]; exact (List.append_nil _).symm⟩
    · obtain ⟨p₁, h1, hc, hm1, hi1, her1, hq1, hw1, -⟩ := h.sendQueued hm (by simpa using he)
      obtain ⟨p₂, h2, hc2, hm2, hi2, her2, hq2, hw2⟩ := hc.transmitLoop n hm1
      have hcont := p.txq.queue.contents_pop he
      refine ⟨p₂, by rw [h1]; exact h2, hc2, hm2, hi2.trans hi1, her2.trans her1, ?_, ?_⟩
      · rw [hq2, hq1, hcont, List.drop_succ_cons]
      · rw [hw2, hq1, hw1, hcont, List.take_succ_cons, List.append_assoc]
        rfl

/-- `serial_flush` is the same loop. -/
theorem flush_eq : ∀ (n : ℕ) (p : Port T), p.flush n = p.transmitLoop n
  | 0, _ => rfl
  | n + 1, p => by
    unfold Port.flush Port.transmitLoop
    split_ifs
    · rfl
    · exact congrArg _ (funext fun p => flush_eq n p)

/-- A byte that was received, or a key, is stored. -/
theorem Core.inputPutc (h : Core p) (byte : BitVec 8) (he : p.input.queue.isFull = false) :
    ∃ p', p.inputPutc byte = some p' ∧ PortInv p' ∧ p'.mode = p.mode ∧ p'.txq = p.txq ∧ p'.wire = p.wire ∧
      p'.input.queue = p.input.queue.push byte ∧ p'.input.written = p.input.written ++ [byte] := by
  obtain ⟨q, hq, hinv⟩ := operate_spec h.input (blocks_notFull byte he)
  obtain ⟨h1, h2, h3⟩ := operate_putc hq
  refine ⟨({ p with input := q } : Port T).notify, ?_, PortInv.notify (h.set_input hinv (h.getters.operate hq)), ?_⟩
  · rw [Port.inputPutc, if_neg (by rw [he]; decide), hq]
    rfl
  · unfold Port.notify
    split_ifs <;> exact ⟨rfl, rfl, rfl, h1, h3⟩

/-- How many bytes fit into a queue. -/
def room (q : Intq.Sys T) : ℕ := bufSize - 1 - q.queue.count

/-- As many bytes are received as there is room for. -/
theorem Core.receiveLoop : ∀ (received : List (BitVec 8)) {p : Port T}, Core p →
    ∃ p', p.receiveLoop received = some p' ∧ Core p' ∧ p'.mode = p.mode ∧ p'.txq = p.txq ∧ p'.wire = p.wire ∧
      p'.input.written = p.input.written ++ received.take (room p.input)
  | [], p, h => ⟨p, rfl, h, rfl, rfl, rfl, by simp⟩
  | byte :: received, p, h => by
    unfold Port.receiveLoop
    split_ifs with he
    · have hroom : room p.input = 0 := by
        have := p.input.queue.isFull_iff_count.mp he
        unfold room
        omega
      exact ⟨p, rfl, h, rfl, rfl, rfl, by rw [hroom]; simp⟩
    · obtain ⟨p₁, h1, hc, hm1, ht1, hw1, hq1, hr1⟩ := h.inputPutc byte (by simpa using he)
      obtain ⟨p₂, h2, hc2, hm2, ht2, hw2, hr2⟩ := hc.toCore.receiveLoop received
      refine ⟨p₂, by rw [h1]; exact h2, hc2, hm2.trans hm1, ht2.trans ht1, hw2.trans hw1, ?_⟩
      have hroom : room p.input = room p₁.input + 1 := by
        have hcount := p.input.queue.count_push byte he
        have hlt := (p.input.queue.push byte).count_lt
        unfold room
        rw [hq1]
        omega
      rw [hr2, hr1, hroom, List.take_succ_cons, List.append_assoc]
      rfl

/-- **The handler**: it stores what is received as long as there is room, and sends what is queued as long as the
port is ready. -/
theorem Core.interrupt (h : Core p) (hm : p.mode = .queue) (received : List (BitVec 8)) (ready : ℕ) :
    ∃ p', p.interrupt received ready = some p' ∧ PortInv p' ∧ p'.wire = p.wire ++ p.txq.queue.contents.take ready ∧
      p'.txq.queue.contents = p.txq.queue.contents.drop ready ∧
      p'.input.written = p.input.written ++ received.take (room p.input) := by
  obtain ⟨p₁, h1, hc1, hm1, ht1, hw1, hr1⟩ := h.receiveLoop received
  obtain ⟨p₂, h2, hc2, -, hi2, -, hq2, hw2⟩ := hc1.transmitLoop ready (hm1.trans hm)
  refine ⟨p₂.writeIer, ?_, hc2.writeIer, ?_, ?_, ?_⟩
  · rw [Port.interrupt, h1, Option.bind_some, h2, Option.map_some]
  · show p₂.wire = _
    rw [hw2, ht1, hw1]
  · show p₂.txq.queue.contents = _
    rw [hq2, ht1]
  · show p₂.input.written = _
    rw [hi2, hr1]

omit [DecidableEq T] in
/-- `intq_init` for the queue of the port. -/
theorem PortInv.initPoll (h : PortInv p) (hm : p.mode = .uninit) :
    ∃ p', p.initPoll = some p' ∧ PortInv p' ∧ p'.mode = .poll := by
  obtain ⟨h1, h2, h3, h4, h5, -⟩ := h.unused (by rw [hm]; decide)
  have hinit : Intq.Init (intqInit p.txq) := ⟨rfl, rfl, rfl, rfl, fun _ => rfl, h3, h1, h2, h4, h5⟩
  refine ⟨_, if_pos hm, ⟨⟨h.input, fun _ => Inv.of_init hinit, fun _ => ⟨h1, h2, h3, h4, h5, rfl⟩, h.wire, h.putters,
    h.getters⟩, ?_, ?_⟩, rfl⟩
  · exact fun hq => by cases hq
  · exact fun hq => by cases hq

omit [DecidableEq T] in
theorem PortInv.opened (h : PortInv p) (hm : p.mode ≠ .queue) :
    ∃ p', (if p.mode = .uninit then p.initPoll else some p) = some p' ∧ PortInv p' ∧ p'.mode = .poll := by
  split_ifs with hu
  · exact h.initPoll hu
  · refine ⟨p, rfl, h, ?_⟩
    cases hmode : p.mode with
    | uninit => exact absurd hmode hu
    | poll => rfl
    | queue => exact absurd hmode hm

omit [DecidableEq T] in
/-- A byte that is sent directly. -/
theorem PortInv.putcDirect (h : PortInv p) (hm : p.mode ≠ .queue) :
    ∃ p', p.putcDirect byte = some p' ∧ PortInv p' := by
  obtain ⟨p₁, h1, hi, hm1⟩ := h.opened hm
  refine ⟨{ p₁.putcPoll byte with polled := p₁.polled ++ [byte] }, by rw [Port.putcDirect, h1]; rfl, ?_⟩
  have hread : p₁.txq.read = [] := (hi.unused (by rw [hm1]; decide)).2.1
  refine ⟨⟨hi.input, hi.txq, hi.unused, ?_, hi.putters, hi.getters⟩, hi.recv, hi.xmit⟩
  show p₁.wire ++ [byte] = p₁.polled ++ [byte] ++ p₁.txq.read
  rw [hi.wire, hread, List.append_nil, List.append_nil]

omit [DecidableEq T] in
theorem PortInv.initQueue (h : PortInv p) (hm : p.mode ≠ .queue) : ∃ p', p.initQueue = some p' ∧ PortInv p' := by
  obtain ⟨p₁, h1, hi, hm1⟩ := h.opened hm
  have hc : Core { p₁ with mode := .queue } :=
    ⟨hi.input, fun _ => hi.txq (by rw [hm1]; decide), fun hne => absurd rfl hne, hi.wire, hi.putters, hi.getters⟩
  refine ⟨_, ?_, hc.writeIer⟩
  rw [Port.initQueue, h1, Option.bind_some, if_pos hm1]

omit [DecidableEq T] in
/-- Bytes are sent, and `write_ier` does not follow: what is set stays set. -/
theorem PortInv.sent (h : PortInv p) (hc : Core p') (hm : p.mode = .queue)
    (hi : p'.input = p.input) (hier : p'.ier = p.ier)
    (hq : p'.txq.queue.isEmpty = false → p.txq.queue.isEmpty = false) : PortInv p' :=
  { hc with
    recv := fun _ => by rw [hier, hi]; exact h.recv hm
    xmit := fun _ he => by rw [hier]; exact h.xmit hm (hq he) }

theorem PortInv.makeRoom (h : PortInv p) (hm : p.mode = .queue) (intrOn : Bool) :
    ∃ p', p.makeRoom intrOn = some p' ∧ PortInv p' ∧ p'.mode = .queue ∧
      (intrOn = false → p'.txq.queue.isFull = false) ∧
      ∀ t, p.txq.place t = .running → p'.txq.place t = .running := by
  unfold Port.makeRoom
  split_ifs with hfull
  · rw [Bool.and_eq_true] at hfull
    have he : p.txq.queue.isEmpty = false := by
      have hcount := p.txq.queue.isFull_iff_count.mp hfull.2
      rw [Bool.eq_false_iff, ne_eq, Ring.isEmpty_iff_count]
      intro h0
      rw [h0] at hcount
      exact absurd hcount (by decide)
    obtain ⟨p₁, h1, hc, hm1, hi1, her1, hq1, -, hrun⟩ := h.toCore.sendQueued hm he
    refine ⟨p₁, h1, h.sent hc hm hi1 her1 fun _ => he, hm1, fun _ => ?_, hrun⟩
    rw [hq1]
    simpa using p.txq.queue.not_isFull_pop (by simpa using he)
  · refine ⟨p, rfl, h, hm, fun hoff => ?_, fun t ht => ht⟩
    simpa [hoff] using hfull

/-- **`serial_putc`** in an interrupt handler. -/
theorem PortInv.putcHandler (h : PortInv p) : ∃ p', p.putcHandler byte = some p' ∧ PortInv p' := by
  unfold Port.putcHandler
  split_ifs with hm
  swap
  · exact h.putcDirect hm
  obtain ⟨p₁, h1, hi, hm1, hroom, -⟩ := h.makeRoom hm false
  obtain ⟨q, hq, hinv⟩ := operate_spec (hi.txq (by rw [hm1]; decide)) (blocks_notFull byte (hroom rfl))
  refine ⟨({ p₁ with txq := q } : Port T).writeIer, ?_, ?_⟩
  · rw [h1, Option.bind_some, if_neg (by rw [hroom rfl]; decide), hq, Option.map_some]
  · exact (hi.toCore.set_txq hm1 hinv (operate_putc hq).2.1 (hi.putters.operate hq)).writeIer

/-- What follows `intq_putc` of a thread, which has gone through or blocks. -/
theorem PortInv.putDone {s₁ : Intq.Sys T} (h : PortInv p) (hm : p.mode = .queue) (hq : Inv q)
    (hcall : Calling (· ≠ .getc) q)
    (hc : (∃ byte, SameBytes p.txq s₁ ∧ operate s₁ (.putc byte) = some q ∧ q.place t = .running) ∨
      SameBytes p.txq q ∧ q.place t ≠ .running) : PortInv (({ p with txq := q } : Port T).putDone t) := by
  unfold Port.putDone
  rcases hc with ⟨byte, hsame, ho, hrun⟩ | ⟨hsame, hne⟩
  · rw [if_pos hrun]
    exact (h.toCore.set_txq hm hq ((operate_putc ho).2.1.trans hsame.read) hcall).writeIer
  · rw [if_neg hne]
    refine h.sent (h.toCore.set_txq hm hq hsame.read hcall) hm rfl rfl fun he => ?_
    rw [← hsame.queue]
    exact he

/-- **`serial_putc`** of a thread. -/
theorem PortInv.putc (h : PortInv p) (ht : p.txq.place t = .running) (intrOn : Bool) :
    ∃ p', p.putc t intrOn byte = some p' ∧ PortInv p' := by
  unfold Port.putc
  split_ifs with hm
  swap
  · exact h.putcDirect hm
  obtain ⟨p₁, h1, hi, hm1, -, hrun⟩ := h.makeRoom hm intrOn
  have ht1 := hrun t ht
  obtain ⟨q, hq, hinv⟩ := @loop_spec _ _ _ _ (.putc byte) (hi.txq (by rw [hm1]; decide)) ht1
  refine ⟨({ p₁ with txq := q } : Port T).putDone t, ?_, ?_⟩
  · rw [h1, Option.bind_some, hq, Option.map_some]
  · refine @PortInv.putDone _ _ _ _ _ p₁.txq hi hm1 hinv (hi.putters.loop (show Call.putc byte ≠ .getc by simp) hq) ?_
    rcases loop_cases hq ht1 with ⟨-, ho, hr⟩ | hsame
    · exact .inl ⟨byte, ⟨rfl, rfl, rfl⟩, ho, hr⟩
    · exact .inr hsame

/-- A thread goes on in `serial_putc`. -/
theorem PortInv.resumePut (h : PortInv p) (he : Intq.Enabled p.txq (.resume t)) (hok : Unchanged p.txq (.resume t)) :
    ∃ p', p.resumePut t = some p' ∧ PortInv p' := by
  have hm : p.mode = .queue := by
    by_contra hne
    obtain ⟨call, ht | ht⟩ := he <;> rw [(h.unused hne).2.2.1 t] at ht <;> cases ht
  obtain ⟨q, hq, hinv⟩ := act_spec (h.txq (by rw [hm]; decide)) he hok
  have hq : resume p.txq t = some q := hq
  have hcall := h.putters.resume hq
  rcases resume_cases hq with ⟨call, s₁, hsame, -, ho, hr, hp⟩ | hblocked
  · have hne := h.putters t call (by rw [hp]; rfl)
    cases call with
    | getc => exact absurd rfl hne
    | putc byte =>
      exact ⟨_, by rw [Port.resumePut, hq]; rfl, h.putDone hm hinv hcall (.inl ⟨byte, hsame, ho, hr⟩)⟩
  · exact ⟨_, by rw [Port.resumePut, hq]; rfl, @PortInv.putDone _ _ _ _ _ p.txq h hm hinv hcall (.inr hblocked)⟩

omit [DecidableEq T] in
/-- What follows `intq_getc` of a thread. -/
theorem PortInv.getDone (h : PortInv p) (hq : Inv q) (hcall : Calling (· = .getc) q)
    (hc : q.place t = .running ∨ SameBytes p.input q) : PortInv (({ p with input := q } : Port T).getDone t) := by
  have hcore := h.toCore.set_input hq hcall
  unfold Port.getDone
  split_ifs with hrun
  · exact PortInv.notify hcore
  · have hsame := hc.resolve_left hrun
    exact { hcore with
      recv := fun hm => by
        show p.ier.recv = !q.queue.isFull
        rw [hsame.queue]
        exact h.recv hm
      xmit := h.xmit }

/-- **`input_getc`.** -/
theorem PortInv.getc (h : PortInv p) (ht : p.input.place t = .running) : ∃ p', p.getc t = some p' ∧ PortInv p' := by
  obtain ⟨q, hq, hinv⟩ := @loop_spec _ _ _ _ .getc h.input ht
  refine ⟨_, by rw [Port.getc, hq]; rfl, h.getDone hinv (h.getters.loop rfl hq) ?_⟩
  exact (loop_cases hq ht).imp (fun hc => hc.2.2) fun hc => hc.1

/-- A thread goes on in `input_getc`. -/
theorem PortInv.resumeGet (h : PortInv p) (he : Intq.Enabled p.input (.resume t))
    (hok : Unchanged p.input (.resume t)) : ∃ p', p.resumeGet t = some p' ∧ PortInv p' := by
  obtain ⟨q, hq, hinv⟩ := act_spec h.input he hok
  have hq : resume p.input t = some q := hq
  refine ⟨_, by rw [Port.resumeGet, hq]; rfl, h.getDone hinv (h.getters.resume hq) ?_⟩
  exact (resume_cases hq).imp (fun ⟨_, _, _, _, _, hr, _⟩ => hr) fun hc => hc.1

/-- **`serial_flush`.** -/
theorem PortInv.flush (h : PortInv p) : ∃ p', p.flush p.txq.queue.count = some p' ∧ PortInv p' := by
  rw [flush_eq]
  by_cases hm : p.mode = .queue
  · obtain ⟨p', h1, hc, -, hi, hier, hq, -⟩ := h.toCore.transmitLoop p.txq.queue.count hm
    refine ⟨p', h1, h.sent hc hm hi hier fun he => ?_⟩
    have hnil : p'.txq.queue.contents = [] := by
      rw [hq]
      exact List.drop_eq_nil_of_le (le_of_eq (Ring.length_contents _))
    have hcount := congrArg List.length hnil
    rw [Ring.length_contents] at hcount
    rw [(Ring.isEmpty_iff_count _).mpr hcount] at he
    cases he
  · have he : p.txq.queue.count = 0 := (Ring.isEmpty_iff_count _).mp (h.unused hm).2.2.2.2.2
    exact ⟨p, by rw [he]; rfl, h⟩

theorem PortInv.key (h : PortInv p) :
    ∃ p', (if p.input.queue.isFull then some p else p.inputPutc byte) = some p' ∧ PortInv p' := by
  split_ifs with he
  · exact ⟨p, rfl, h⟩
  · obtain ⟨p', h1, hi, -⟩ := h.toCore.inputPutc byte (by simpa using he)
    exact ⟨p', h1, hi⟩

/-- **One step**: no assertion fails, and the invariant is kept. -/
theorem PortInv.next {a : PortAction T} (h : PortInv p) (he : Enabled p a) (hok : Calm p a) :
    ∃ p', next p a = some p' ∧ PortInv p' := by
  cases a with
  | putc t intrOn byte => exact h.putc he.1 intrOn
  | resumePut t => exact h.resumePut he hok
  | putcHandler byte => exact h.putcHandler
  | flush => exact h.flush
  | initQueue => exact h.initQueue he
  | getc t => exact h.getc he.2
  | resumeGet t => exact h.resumeGet he hok
  | key byte => exact h.key
  | interrupt received ready =>
    obtain ⟨p', h1, hi, -⟩ := h.toCore.interrupt he received ready
    exact ⟨p', h1, hi⟩
  | setPriority t priority =>
    exact ⟨_, rfl, { h with
      input := { h.input with }
      txq := fun hm => { h.txq hm with } }⟩

theorem invariant : Invariant Init (Guarded Calm Step) (PortInv (T := T)) where
  start := PortInv.of_init
  step := by
    rintro p a p' hp ⟨hok, he, hnext⟩
    obtain ⟨p₁, h1, hi⟩ := hp.next he hok
    obtain rfl : p₁ = p' := Option.some.inj (h1.symm.trans hnext)
    exact hi

/-- A thread that finds a queue changed fails. -/
theorem next_of_not_calm {a : PortAction T} (he : Enabled p a) (hok : ¬Calm p a) : next p a = none := by
  cases a with
  | resumePut t =>
    have hnone : resume p.txq t = none := act_of_changed (a := .resume t) he hok
    show (resume p.txq t).map _ = none
    rw [hnone]
    rfl
  | resumeGet t =>
    have hnone : resume p.input t = none := act_of_changed (a := .resume t) he hok
    show (resume p.input t).map _ = none
    rw [hnone]
    rfl
  | _ => exact absurd trivial hok

omit [DecidableEq T] in
/-- The bytes that were accepted are those that were sent and those in the queue. -/
theorem PortInv.accepted (h : PortInv p) : p.wire ++ p.txq.queue.contents = p.polled ++ p.txq.written := by
  by_cases hm : p.mode = .queue
  · rw [h.wire, List.append_assoc, (h.txq (by rw [hm]; decide)).fifo]
  · obtain ⟨h1, h2, -, -, -, he⟩ := h.unused hm
    rw [h.wire, h1, h2, Ring.contents_of_isEmpty _ he, List.append_nil]

/-- **The serial port under any interleaving**: as long as no thread that slept on the lock of a queue finds it
changed, no assertion fails; the bytes go out in the order in which they were accepted, none is lost and none sent
twice; received bytes are read in their order; the transmit interrupt is on while anything is queued, and the
receive interrupt as long as there is room; and the handler sends what the port is ready for and stores what there
is room for. -/
theorem reachable_port (h : Reachable Init (Guarded Calm Step) p) :
    p.wire ++ p.txq.queue.contents = p.polled ++ p.txq.written ∧
    p.input.read ++ p.input.queue.contents = p.input.written ∧
    (p.mode = .queue → p.ier.recv = !p.input.queue.isFull ∧ (p.txq.queue.contents ≠ [] → p.ier.xmit = true) ∧
      ∀ received ready, ∃ p', p.interrupt received ready = some p' ∧
        p'.wire = p.wire ++ p.txq.queue.contents.take ready ∧
        p'.txq.queue.contents = p.txq.queue.contents.drop ready ∧
        p'.input.written = p.input.written ++ received.take (room p.input)) ∧
    ∀ a, Enabled p a → (next p a = none ↔ ¬Calm p a) := by
  have hp := h.of_invariant invariant
  refine ⟨hp.accepted, hp.input.fifo, fun hm => ⟨hp.recv hm, fun hne => hp.xmit hm ?_, fun received ready => ?_⟩,
    fun a he => ⟨fun hnone hok => ?_, next_of_not_calm he⟩⟩
  · by_contra hempty
    exact hne (Ring.contents_of_isEmpty _ (by simpa using hempty))
  · obtain ⟨p', h1, -, h2⟩ := hp.toCore.interrupt hm received ready
    exact ⟨p', h1, h2⟩
  · obtain ⟨p', h1, -⟩ := hp.next he hok
    rw [hnone] at h1
    cases h1

/-! ### A byte each way -/

def unused (T : Type*) : Port T where
  mode := .uninit
  txq := initial T 0 fun _ => 31
  input := initial T 0 fun _ => 31
  ier := ⟨false, false⟩
  wire := []
  polled := []

omit [DecidableEq T] in
theorem init_unused : Init (unused T) :=
  ⟨rfl, init_initial 0 _, rfl, fun _ => rfl, rfl, rfl, rfl, rfl, rfl, rfl⟩

theorem reachable_next {a : PortAction T} (h : Reachable Init (Guarded Calm Step) p) (hok : Calm p a)
    (he : Enabled p a) (hnext : next p a = some p') : Reachable Init (Guarded Calm Step) p' :=
  h.step ⟨hok, he, hnext⟩

/-- A byte is sent before there is a queue and one through it, and a thread waits for a byte that is received. -/
theorem reachable_port_both : ∃ p : Port Bool, p.wire = [65, 66] ∧ p.input.read = [7] ∧
    p.wire ++ p.txq.queue.contents = p.polled ++ p.txq.written ∧
    p.input.read ++ p.input.queue.contents = p.input.written := by
  have h₀ : Reachable Init (Guarded Calm Step) (unused Bool) := .start init_unused
  have h₁ := reachable_next h₀ (a := .putc false true 65) trivial ⟨rfl, rfl⟩ rfl
  have h₂ := reachable_next h₁ (a := .initQueue) trivial (fun hm => by cases hm) rfl
  have h₃ := reachable_next h₂ (a := .getc true) trivial ⟨rfl, rfl⟩ rfl
  have h₄ := reachable_next h₃ (a := .putc false true 66) trivial ⟨rfl, rfl⟩ rfl
  have h₅ := reachable_next h₄ (a := .interrupt [7] 1) trivial rfl rfl
  have h₆ := reachable_next h₅ (a := .resumeGet true) (unchanged_of_signalled rfl) ⟨.getc, .inr rfl⟩ rfl
  obtain ⟨haccepted, hread, -, -⟩ := reachable_port h₆
  exact ⟨_, rfl, rfl, haccepted, hread⟩

end Pintos.Devices.Serial
