import Pintos.Lib.RingBuffer
import Pintos.Lib.Runs
import Pintos.Threads.Semaphore

/-! # Interrupt queues

A `struct intq` that any number of threads and interrupt handlers use. The functions run with interrupts off and
nothing in them yields, so that a thread runs until it blocks, in `lock_acquire` or in `wait`; interrupts come
while other threads run. A failed `ASSERT` is `none` in a function and a panic in the system.

A thread that has slept on the lock waits without another look at the queue. Where it finds the queue as it was,
all is well; where bytes have come or gone in the meantime, the assertion of `wait` fails. -/

namespace Pintos.Devices.Intq

open Pintos.Lib.Runs Pintos.Lib.RingBuffer
open Pintos.Threads.Semaphore (Sema semaInit semaDown semaUp semaUp_cases unsignedSize)

/-- `INTQ_BUFSIZE`. -/
def bufSize : ℕ := 64

theorem bufSize_pos : 0 < bufSize := by decide

/-- The members of a queue that `waiter` points to. -/
inductive Cond
  | notFull
  | notEmpty
  deriving DecidableEq, Repr

inductive Call
  | getc
  | putc (byte : BitVec 8)
  deriving DecidableEq, Repr

/-- The condition that a call waits for. -/
def Call.cond : Call → Cond
  | getc => .notEmpty
  | putc _ => .notFull

/-- Where a thread is. -/
inductive Place
  /-- In no function of the queue, or in one that runs. -/
  | running
  /-- Blocked in `lock_acquire`. -/
  | locked (call : Call)
  /-- Unblocked by `sema_up`, about to look at the semaphore again. -/
  | unlocked (call : Call)
  /-- Blocked in `wait`, the lock held. -/
  | waiting (call : Call)
  /-- Unblocked by `signal`, the lock still held. -/
  | signalled (call : Call)
  deriving DecidableEq, Repr

/-- `thread_unblock`, which asserts that the thread is blocked. -/
def Place.unblock : Place → Option Place
  | locked call => some (unlocked call)
  | waiting call => some (signalled call)
  | _ => none

/-- The queue and its threads. What has been written and read is recorded, and whether a waiting thread has been
overwritten. -/
structure Sys (T : Type*) where
  queue : Ring bufSize (BitVec 8)
  semaphore : Sema T
  holder : Option T
  /-- `q->not_full` and `q->not_empty`. -/
  waiter : Cond → Option T
  place : T → Place
  priority : T → ℤ
  written : List (BitVec 8)
  read : List (BitVec 8)
  overwritten : Bool
  panicked : Bool

/-! ### The functions -/

section functions

variable {T : Type*} [DecidableEq T]

/-- `intq_empty` or `intq_full`: a call has to wait for the condition. -/
def Sys.blocks (s : Sys T) : Cond → Bool
  | .notEmpty => s.queue.isEmpty
  | .notFull => s.queue.isFull

def Sys.move (s : Sys T) (t : T) (p : Place) : Sys T := { s with place := Function.update s.place t p }

def Sys.setWaiter (s : Sys T) (k : Cond) (w : Option T) : Sys T := { s with waiter := Function.update s.waiter k w }

def unblock (s : Sys T) (w : T) : Option (Sys T) := (s.place w).unblock.map (s.move w)

/-- `wait`, up to `thread_block`. -/
def wait (s : Sys T) (t : T) (call : Call) : Option (Sys T) :=
  if s.blocks call.cond then
    let s := { s with overwritten := s.overwritten || (s.waiter call.cond).isSome }
    some ((s.setWaiter call.cond (some t)).move t (.waiting call))
  else none

def signal (s : Sys T) (k : Cond) : Option (Sys T) :=
  if s.blocks k then none
  else
    match s.waiter k with
    | none => some s
    | some w => (unblock s w).map fun s => s.setWaiter k none

/-- One turn of the loop in the `sema_down` of `lock_acquire`; if it is the last, `wait` follows. -/
def downLock (s : Sys T) (t : T) (call : Call) : Option (Sys T) :=
  let r := semaDown s.semaphore t
  if r.1 then wait { s with semaphore := r.2, holder := some t } t call
  else some ({ s with semaphore := r.2 }.move t (.locked call))

def lockRelease (s : Sys T) (t : T) : Option (Sys T) :=
  if s.holder = some t then
    let r := semaUp s.priority s.semaphore
    let s := { s with holder := none, semaphore := r.2 }
    match r.1 with
    | none => some s
    | some w => unblock s w
  else none

/-- What follows the loop in `intq_getc` and in `intq_putc`. -/
def operate (s : Sys T) : Call → Option (Sys T)
  | .getc => signal { s with queue := s.queue.pop, read := s.read ++ [s.queue.front] } .notFull
  | .putc byte => signal { s with queue := s.queue.push byte, written := s.written ++ [byte] } .notEmpty

/-- `intq_getc` or `intq_putc`, from the condition of the loop. -/
def loop (s : Sys T) (t : T) (call : Call) : Option (Sys T) :=
  if s.blocks call.cond then if s.holder = some t then none else downLock s t call
  else operate s call

/-- A thread goes on that had blocked. -/
def resume (s : Sys T) (t : T) : Option (Sys T) :=
  match s.place t with
  | .unlocked call => downLock (s.move t .running) t call
  | .signalled call => (lockRelease (s.move t .running) t).bind fun s => loop s t call
  | _ => none

end functions

/-! ### The system -/

inductive IntqAction (T : Type*)
  | call (t : T) (call : Call)
  | resume (t : T)
  /-- `intq_getc` or `intq_putc` in an interrupt handler. -/
  | interrupt (call : Call)
  /-- Donations and `thread_set_priority`. -/
  | setPriority (t : T) (p : ℤ)

variable {T : Type*} [DecidableEq T]

/-- Unblocked threads may go on, and handlers look at the queue first. -/
def Enabled (s : Sys T) : IntqAction T → Prop
  | .call t _ => s.place t = .running
  | .resume t => ∃ call, s.place t = .unlocked call ∨ s.place t = .signalled call
  | .interrupt call => s.blocks call.cond = false
  | .setPriority _ _ => True

def act (s : Sys T) : IntqAction T → Option (Sys T)
  | .call t call => loop s t call
  | .resume t => resume s t
  -- a handler must not wait
  | .interrupt call => if s.blocks call.cond then none else operate s call
  | .setPriority t p => some { s with priority := Function.update s.priority t p }

/-- The state after an action; a failed assertion stops the kernel. -/
def after (s : Sys T) (a : IntqAction T) : Sys T := (act s a).getD { s with panicked := true }

def Step (s : Sys T) (a : IntqAction T) (s' : Sys T) : Prop := s.panicked = false ∧ Enabled s a ∧ s' = after s a

/-- The queue as `intq_init` leaves it, which nobody has used yet. -/
structure Init (s : Sys T) : Prop where
  head : s.queue.head = 0
  tail : s.queue.tail = 0
  semaphore : s.semaphore = semaInit 1
  holder : s.holder = none
  waiter : ∀ k, s.waiter k = none
  place : ∀ t, s.place t = .running
  written : s.written = []
  read : s.read = []
  overwritten : s.overwritten = false
  panicked : s.panicked = false

/-- **The steps that go well**: a thread that has slept on the lock and now gets it finds the queue still empty in
`intq_getc`, or still full in `intq_putc`. -/
def Unchanged (s : Sys T) : IntqAction T → Prop
  | .resume t => ∀ call, s.place t = .unlocked call → s.semaphore.value ≠ 0 → s.blocks call.cond
  | _ => True

/-! ### The invariant -/

/-- The thread holds the lock. -/
def Place.holds : Place → Bool
  | waiting _ => true
  | signalled _ => true
  | _ => false

/-- The thread is on the list of the semaphore. -/
def Place.isLocked : Place → Bool
  | locked _ => true
  | _ => false

/-- The condition that the thread waits for. -/
def Place.cond? : Place → Option Cond
  | waiting call => some call.cond
  | _ => none

/-- Who waits holds the lock, so that one thread at most does; the bytes that have been written are those that
have been read and those in the queue. -/
structure Inv (s : Sys T) : Prop where
  panicked : s.panicked = false
  overwritten : s.overwritten = false
  fifo : s.read ++ s.queue.contents = s.written
  value : s.semaphore.value = if s.holder = none then 1 else 0
  holder : ∀ t, s.holder = some t ↔ (s.place t).holds
  waiter : ∀ k t, s.waiter k = some t ↔ (s.place t).cond? = some k
  waiters : ∀ t, t ∈ s.semaphore.waiters ↔ (s.place t).isLocked
  nodup : s.semaphore.waiters.Nodup

variable {s s' : Sys T} {t : T} {k : Cond} {call : Call} {a : IntqAction T}

omit [DecidableEq T] in
theorem Inv.of_init (h : Init s) : Inv s where
  panicked := h.panicked
  overwritten := h.overwritten
  fifo := by
    have hempty : s.queue.isEmpty := (Ring.isEmpty_iff _).mpr (h.head.trans h.tail.symm)
    rw [h.read, h.written, Ring.contents_of_isEmpty _ hempty]
    rfl
  value := by rw [h.semaphore, h.holder, if_pos rfl, semaInit]
  holder t := by simp [h.holder, h.place t, Place.holds]
  waiter k t := by simp [h.waiter k, h.place t, Place.cond?]
  waiters t := by simp [h.semaphore, semaInit, h.place t, Place.isLocked]
  nodup := by simp [h.semaphore, semaInit]

theorem place_move (s : Sys T) (t t' : T) (p : Place) : (s.move t p).place t' = if t' = t then p else s.place t' :=
  Function.update_apply ..

omit [DecidableEq T] in
theorem waiter_setWaiter (s : Sys T) (k k' : Cond) (w : Option T) :
    (s.setWaiter k w).waiter k' = if k' = k then w else s.waiter k' := Function.update_apply ..

/-- What does not change where `t` goes changes nowhere. -/
theorem map_place_move {β : Type*} (f : Place → β) {p : Place} (h : f p = f (s.place t)) (t' : T) :
    f ((s.move t p).place t') = f (s.place t') := by
  rw [place_move]
  split_ifs with heq
  · rw [h, heq]
  · rfl

/-- Where the thread is plays no role as long as it has neither the lock nor a place on a list. -/
theorem Inv.move {p : Place} (hs : Inv s) (hholds : p.holds = (s.place t).holds) (hcond : p.cond? = (s.place t).cond?)
    (hlocked : p.isLocked = (s.place t).isLocked) : Inv (s.move t p) := by
  exact
    { hs with
      holder := fun t' => by rw [map_place_move _ hholds]; exact hs.holder t'
      waiter := fun k t' => by rw [map_place_move _ hcond]; exact hs.waiter k t'
      waiters := fun t' => by rw [map_place_move _ hlocked]; exact hs.waiters t' }

/-- **`signal`** wakes up the thread that waits. -/
theorem signal_spec (hs : Inv s) (h : s.blocks k = false) :
    ∃ s', signal s k = some s' ∧ Inv s' ∧ ∀ t, s.place t = .running → s'.place t = .running := by
  unfold signal
  rw [if_neg (by simp [h])]
  cases hw : s.waiter k with
  | none => exact ⟨s, rfl, hs, fun t ht => ht⟩
  | some w =>
    have hcond := (hs.waiter k w).mp hw
    obtain ⟨call, hplace, hk⟩ : ∃ call, s.place w = .waiting call ∧ call.cond = k := by
      cases hp : s.place w <;> simp [hp, Place.cond?] at hcond
      exact ⟨_, rfl, hcond⟩
    refine ⟨(s.move w (.signalled call)).setWaiter k none,
      by simp [unblock, hplace, Place.unblock], ?_, fun t ht => ?_⟩
    · exact
        { hs with
          holder := fun t => by
            show s.holder = some t ↔ ((s.move w (.signalled call)).place t).holds
            rw [map_place_move Place.holds (by rw [hplace]; rfl), hs.holder]
          waiter := fun k' t => by
            show _ ↔ ((s.move w (.signalled call)).place t).cond? = some k'
            rw [waiter_setWaiter, place_move]
            split_ifs with hk' heq heq
            · simp [Place.cond?]
            · rw [hk', ← hs.waiter, hw]
              simpa using fun h => heq h.symm
            · show s.waiter k' = some t ↔ none = some k'
              rw [hs.waiter, heq, hcond]
              simpa using fun h => hk' h.symm
            · exact hs.waiter k' t
          waiters := fun t => by
            show t ∈ s.semaphore.waiters ↔ ((s.move w (.signalled call)).place t).isLocked
            rw [map_place_move Place.isLocked (by rw [hplace]; rfl), hs.waiters] }
    · show (s.move w (.signalled call)).place t = .running
      rw [place_move, if_neg, ht]
      rintro rfl
      rw [hplace] at ht
      cases ht

/-- **A byte comes or goes.** -/
theorem operate_spec (hs : Inv s) (h : s.blocks call.cond = false) :
    ∃ s', operate s call = some s' ∧ Inv s' := by
  cases call with
  | getc =>
    have hempty : ¬s.queue.isEmpty := by simpa [Call.cond, Sys.blocks] using h
    have hpop : Inv { s with queue := s.queue.pop, read := s.read ++ [s.queue.front] } :=
      { hs with
        fifo := by
          rw [← hs.fifo, s.queue.contents_pop hempty, List.append_assoc, List.singleton_append] }
    obtain ⟨s', hs', hinv, -⟩ := signal_spec (k := .notFull) hpop
      (by simpa [Sys.blocks] using s.queue.not_isFull_pop hempty)
    exact ⟨s', hs', hinv⟩
  | putc byte =>
    have hfull : ¬s.queue.isFull := by simpa [Call.cond, Sys.blocks] using h
    have hpush : Inv { s with queue := s.queue.push byte, written := s.written ++ [byte] } :=
      { hs with
        fifo := by
          rw [← hs.fifo, s.queue.contents_push byte hfull, List.append_assoc] }
    obtain ⟨s', hs', hinv, -⟩ :=
      signal_spec (k := .notEmpty) hpush (by simpa [Sys.blocks] using s.queue.not_isEmpty_push byte hfull)
    exact ⟨s', hs', hinv⟩

omit [DecidableEq T] in
/-- Nobody waits while nobody holds the lock. -/
theorem Inv.waiter_eq_none (hs : Inv s) (h : s.holder = none) (k : Cond) : s.waiter k = none := by
  by_contra hne
  obtain ⟨w, hw⟩ := Option.ne_none_iff_exists'.mp hne
  have hcond := (hs.waiter k w).mp hw
  have hholds : (s.place w).holds := by
    cases hp : s.place w <;> simp_all [Place.cond?, Place.holds]
  rw [← hs.holder, h] at hholds
  cases hholds

/-- **A thread gets the lock and waits**, if its condition still holds; or it sleeps on the lock. -/
theorem downLock_spec (hs : Inv s) (ht : s.place t = .running) (hok : s.semaphore.value ≠ 0 → s.blocks call.cond) :
    ∃ s', downLock s t call = some s' ∧ Inv s' := by
  have hnot : t ∉ s.semaphore.waiters := by
    rw [hs.waiters, ht]
    exact Bool.false_ne_true
  unfold downLock semaDown
  by_cases hvalue : s.semaphore.value = 0
  · rw [if_pos hvalue]
    refine ⟨{ s with semaphore := { s.semaphore with waiters := s.semaphore.waiters ++ [t] } }.move t (.locked call),
      rfl, ?_⟩
    exact
      { hs with
        holder := fun t' => by
          show s.holder = some t' ↔ ((s.move t (.locked call)).place t').holds
          rw [map_place_move Place.holds (by rw [ht]; rfl), hs.holder]
        waiter := fun k t' => by
          show s.waiter k = some t' ↔ ((s.move t (.locked call)).place t').cond? = some k
          rw [map_place_move Place.cond? (by rw [ht]; rfl), hs.waiter]
        waiters := fun t' => by
          show t' ∈ s.semaphore.waiters ++ [t] ↔ ((s.move t (.locked call)).place t').isLocked
          rw [List.mem_append, List.mem_singleton, hs.waiters, place_move]
          split_ifs with heq
          · simp [heq, Place.isLocked]
          · simp [heq]
        nodup := List.nodup_append.mpr ⟨hs.nodup, List.nodup_singleton t, fun a ha b hb => by
          rw [List.mem_singleton.mp hb]
          rintro rfl
          exact hnot ha⟩ }
  · have hfree : s.holder = none := by
      have hval := hs.value
      split_ifs at hval with h
      · exact h
      · exact absurd hval hvalue
    have hnone := hs.waiter_eq_none hfree
    have hone : s.semaphore.value = 1 := by rw [hs.value, if_pos hfree]
    rw [if_neg hvalue]
    refine ⟨_, if_pos (hok hvalue), ?_⟩
    exact
      { hs with
        overwritten := by
          show (s.overwritten || (s.waiter call.cond).isSome) = false
          rw [hs.overwritten, hnone call.cond]
          rfl
        value := by
          show s.semaphore.value - 1 = if some t = none then 1 else 0
          rw [hone]
          rfl
        holder := fun t' => by
          show some t = some t' ↔ ((s.move t (.waiting call)).place t').holds
          rw [place_move]
          split_ifs with heq
          · simp [heq, Place.holds]
          · rw [← hs.holder, hfree]
            simpa using fun h => heq h.symm
        waiter := fun k t' => by
          show (s.setWaiter call.cond (some t)).waiter k = some t' ↔
          ((s.move t (.waiting call)).place t').cond? = some k
          rw [waiter_setWaiter, place_move]
          split_ifs with hk heq heq
          · simp [hk, heq, Place.cond?]
          · rw [← hs.waiter, hnone k]
            simpa using fun h => heq h.symm
          · rw [hnone k]
            simpa [Place.cond?] using fun h => hk h.symm
          · exact hs.waiter k t'
        waiters := fun t' => by
          show t' ∈ s.semaphore.waiters ↔ ((s.move t (.waiting call)).place t').isLocked
          rw [map_place_move Place.isLocked (by rw [ht]; rfl), hs.waiters] }

/-- `sema_up` wakes up a thread that sleeps on the lock. -/
theorem unblock_spec {w : T} (hs : Inv s) (hw : w ∈ s.semaphore.waiters) :
    ∃ s', unblock { s with semaphore := { s.semaphore with waiters := s.semaphore.waiters.erase w } } w = some s' ∧
      Inv s' ∧ ∀ t, s.place t = .running → s'.place t = .running := by
  obtain ⟨call, hplace⟩ : ∃ call, s.place w = .locked call := by
    have hlocked := (hs.waiters w).mp hw
    cases hp : s.place w <;> simp [hp, Place.isLocked] at hlocked
    exact ⟨_, rfl⟩
  refine ⟨{ s with semaphore := { s.semaphore with waiters := s.semaphore.waiters.erase w } }.move w (.unlocked call),
    by simp [unblock, hplace, Place.unblock], ?_, fun t ht => ?_⟩
  · exact
      { hs with
        holder := fun t => by
          show s.holder = some t ↔ ((s.move w (.unlocked call)).place t).holds
          rw [map_place_move Place.holds (by rw [hplace]; rfl), hs.holder]
        waiter := fun k t => by
          show s.waiter k = some t ↔ ((s.move w (.unlocked call)).place t).cond? = some k
          rw [map_place_move Place.cond? (by rw [hplace]; rfl), hs.waiter]
        waiters := fun t => by
          show t ∈ s.semaphore.waiters.erase w ↔ ((s.move w (.unlocked call)).place t).isLocked
          rw [hs.nodup.mem_erase_iff, hs.waiters, place_move]
          split_ifs with heq
          · simp [heq, Place.isLocked]
          · simp [heq]
        nodup := hs.nodup.erase w }
  · show (s.move w (.unlocked call)).place t = .running
    rw [place_move, if_neg, ht]
    rintro rfl
    rw [hplace] at ht
    cases ht

/-- **A thread that `signal` has woken up releases the lock.** -/
theorem lockRelease_spec (hs : Inv s) (ht : s.place t = .signalled call) :
    ∃ s', lockRelease (s.move t .running) t = some s' ∧ Inv s' ∧ s'.place t = .running := by
  have hholder : s.holder = some t := by
    rw [hs.holder, ht]
    rfl
  have hzero : s.semaphore.value = 0 := by rw [hs.value, hholder, if_neg (Option.some_ne_none t)]
  -- the state after the release, if nobody is woken up
  have hfree : Inv { s.move t .running with holder := none, semaphore := ⟨1, s.semaphore.waiters⟩ } :=
    { hs with
      value := rfl
      holder := fun t' => by
        show none = some t' ↔ ((s.move t .running).place t').holds
        rw [place_move]
        split_ifs with heq
        · simp [Place.holds]
        · rw [← hs.holder, hholder]
          simpa using fun h => heq h.symm
      waiter := fun k t' => by
        show s.waiter k = some t' ↔ ((s.move t .running).place t').cond? = some k
        rw [map_place_move Place.cond? (by rw [ht]; rfl), hs.waiter]
      waiters := fun t' => by
        show t' ∈ s.semaphore.waiters ↔ ((s.move t .running).place t').isLocked
        rw [map_place_move Place.isLocked (by rw [ht]; rfl), hs.waiters] }
  have hrunning : (s.move t .running).place t = .running := by rw [place_move, if_pos rfl]
  have hone : (s.semaphore.value + 1) % unsignedSize = 1 := by
    rw [hzero]
    decide
  unfold lockRelease
  rw [if_pos (show (s.move t .running).holder = some t from hholder)]
  rcases semaUp_cases s.priority s.semaphore with ⟨hnone, hup⟩ | ⟨w, hw, hup⟩
  · refine ⟨_, ?_, hfree, hrunning⟩
    rw [show semaUp (s.move t .running).priority (s.move t .running).semaphore = _ from hup, hone]
  · obtain ⟨s', hs', hinv, hplace⟩ := unblock_spec hfree hw
    refine ⟨s', ?_, hinv, hplace t hrunning⟩
    rw [show semaUp (s.move t .running).priority (s.move t .running).semaphore = _ from hup, hone]
    exact hs'

/-- **`intq_getc` and `intq_putc`** of a thread that looks at the queue. -/
theorem loop_spec (hs : Inv s) (ht : s.place t = .running) : ∃ s', loop s t call = some s' ∧ Inv s' := by
  unfold loop
  split_ifs with hblocks hholder
  · rw [hs.holder, ht] at hholder
    cases hholder
  · exact downLock_spec hs ht fun _ => hblocks
  · exact operate_spec hs (Bool.eq_false_iff.mpr hblocks)

/-- **A step that goes well** keeps the invariant. -/
theorem act_spec (hs : Inv s) (h : Enabled s a) (hok : Unchanged s a) : ∃ s', act s a = some s' ∧ Inv s' := by
  cases a with
  | call t call => exact loop_spec hs h
  | resume t =>
    obtain ⟨call, ht | ht⟩ := h
    · simp only [act, resume, ht]
      have hmove : Inv (s.move t .running) := hs.move (by rw [ht]; rfl) (by rw [ht]; rfl) (by rw [ht]; rfl)
      exact downLock_spec hmove (by rw [place_move, if_pos rfl]) (hok call ht)
    · obtain ⟨s₁, hs₁, hinv, hrunning⟩ := lockRelease_spec hs ht
      simp only [act, resume, ht, hs₁, Option.bind_some]
      exact loop_spec hinv hrunning
  | interrupt call =>
    simp only [act, if_neg (show ¬s.blocks call.cond = true by simpa [Enabled] using h)]
    exact operate_spec hs h
  | setPriority t p => exact ⟨_, rfl, { hs with }⟩

/-- A thread that finds the queue changed fails. -/
theorem act_of_changed (h : Enabled s a) (hok : ¬Unchanged s a) : act s a = none := by
  cases a with
  | resume t =>
    simp only [Unchanged, not_forall] at hok
    obtain ⟨call, ht, hvalue, hblocks⟩ := hok
    have hdown : semaDown s.semaphore t = (true, { s.semaphore with value := s.semaphore.value - 1 }) := if_neg hvalue
    simp only [act, resume, ht, downLock]
    rw [show semaDown (s.move t .running).semaphore t = _ from hdown]
    exact if_neg hblocks
  | call t call => exact absurd trivial hok
  | interrupt call => exact absurd trivial hok
  | setPriority t p => exact absurd trivial hok

/-- Every run whose steps go well keeps the invariant. -/
theorem invariant : Invariant Init (Guarded Unchanged Step) (Inv (T := T)) where
  start := Inv.of_init
  step := by
    rintro s a s' hs ⟨hok, -, henabled, rfl⟩
    obtain ⟨s', hact, hinv⟩ := act_spec hs henabled hok
    rw [after, hact]
    exact hinv

/-- **The queue with any number of threads**: while every thread that has slept on the lock and gets it finds the
queue unchanged, no assertion fails, no waiting thread is overwritten, and the bytes are read in the order in which
they have been written. A step fails if and only if its thread finds the queue changed. -/
theorem reachable_exact (h : Reachable Init (Guarded Unchanged Step) s) :
    s.panicked = false ∧ s.overwritten = false ∧ s.read ++ s.queue.contents = s.written ∧
      ∀ a s', Step s a s' → (s'.panicked ↔ ¬Unchanged s a) := by
  have hs := h.of_invariant invariant
  refine ⟨hs.panicked, hs.overwritten, hs.fifo, ?_⟩
  rintro a s' ⟨-, henabled, rfl⟩
  by_cases hok : Unchanged s a
  · obtain ⟨s', hact, hinv⟩ := act_spec hs henabled hok
    rw [after, hact]
    simp [hinv.panicked, hok]
  · rw [after, act_of_changed henabled hok]
    simp [hok]

/-- A queue that nobody has used. -/
def initial (T : Type*) (byte : BitVec 8) (priority : T → ℤ) : Sys T where
  queue := ⟨fun _ => byte, 0, 0, bufSize_pos, bufSize_pos⟩
  semaphore := semaInit 1
  holder := none
  waiter _ := none
  place _ := .running
  priority := priority
  written := []
  read := []
  overwritten := false
  panicked := false

omit [DecidableEq T] in
theorem init_initial (byte : BitVec 8) (priority : T → ℤ) : Init (initial T byte priority) :=
  ⟨rfl, rfl, rfl, rfl, fun _ => rfl, fun _ => rfl, rfl, rfl, rfl, rfl⟩

omit [DecidableEq T] in
theorem unchanged_of_signalled (h : s.place t = .signalled call) : Unchanged s (.resume t) := by
  intro call' h'
  rw [h] at h'
  cases h'

omit [DecidableEq T] in
theorem unchanged_of_blocks (h : s.place t = .unlocked call) (hblocks : s.blocks call.cond) :
    Unchanged s (.resume t) := by
  intro call' h' _
  rw [h] at h'
  cases h'
  exact hblocks

theorem reachable_after {ok : Sys T → IntqAction T → Prop} (h : Reachable Init (Guarded ok Step) s) (hok : ok s a)
    (hpanicked : s.panicked = false) (henabled : Enabled s a) : Reachable Init (Guarded ok Step) (after s a) :=
  h.step ⟨hok, hpanicked, henabled, rfl⟩

/-- Two threads read, and one byte arrives: the first thread gets it, and the second one waits. -/
theorem reachable_exact_one : ∃ s : Sys Bool, s.read = [7] ∧ s.place true = .waiting .getc ∧
    s.panicked = false ∧ s.overwritten = false ∧ s.read ++ s.queue.contents = s.written := by
  have h₀ : Reachable Init (Guarded Unchanged Step) (initial Bool 0 fun _ => 31) := .start (init_initial 0 _)
  have h₁ := reachable_after h₀ (a := .call false .getc) trivial rfl rfl
  have h₂ := reachable_after h₁ (a := .call true .getc) trivial rfl rfl
  have h₃ := reachable_after h₂ (a := .interrupt (.putc 7)) trivial rfl rfl
  have h₄ := reachable_after h₃ (a := .resume false) (unchanged_of_signalled rfl) rfl ⟨.getc, .inr rfl⟩
  have h₅ := reachable_after h₄ (a := .resume true) (unchanged_of_blocks rfl rfl) rfl ⟨.getc, .inl rfl⟩
  obtain ⟨hpanicked, hoverwritten, hfifo, -⟩ := reachable_exact h₅
  exact ⟨_, rfl, rfl, hpanicked, hoverwritten, hfifo⟩

/-- Two threads read, and two bytes arrive before the first one runs: it leaves a byte in the queue, and the
second thread fails in `wait`. -/
theorem exists_panicked : ∃ s : Sys Bool, Reachable Init Step s ∧ s.panicked = true := by
  have h₀ : Reachable Init (Guarded (fun _ _ => True) Step) (initial Bool 0 fun _ => 31) := .start (init_initial 0 _)
  have h₁ := reachable_after h₀ (a := .call false .getc) trivial rfl rfl
  have h₂ := reachable_after h₁ (a := .call true .getc) trivial rfl rfl
  have h₃ := reachable_after h₂ (a := .interrupt (.putc 7)) trivial rfl rfl
  have h₄ := reachable_after h₃ (a := .interrupt (.putc 8)) trivial rfl rfl
  have h₅ := reachable_after h₄ (a := .resume false) trivial rfl ⟨.getc, .inr rfl⟩
  have h₆ := reachable_after h₅ (a := .resume true) trivial rfl ⟨.getc, .inl rfl⟩
  exact ⟨_, h₆.of_guarded, rfl⟩

end Pintos.Devices.Intq
