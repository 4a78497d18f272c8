import Pintos.Userprog.InfoLifetime

/-! # Signals

A process registers handlers with `sigaction`, a parent sends signals to its children with `sendsig`, and a process
handles what is pending whenever it is switched to. The processes run, start, wait for and end each other as they
do anyway. A thread is switched out between any two steps; a switch to a process while its parent is in
`list_push_back` on its list is `none`, since the list is not whole there. -/

namespace Pintos.Userprog.Signals

open Pintos.Lib.Runs Pintos.Userprog.Processes
open Pintos.Userprog.WaitProtocol (children_live findChild_eq)

/-- `struct signal_handler_info`, with the name of its memory. A handler is an address. -/
structure SignalHandlerInfo where
  block : ℕ
  signum : ℤ
  handler : ℕ
  deriving DecidableEq

/-- `struct pending_signal`, with the name of its memory. -/
structure PendingSignal where
  block : ℕ
  signum : ℤ
  deriving DecidableEq

/-- What has become of a signal. -/
inductive Fate
  /-- `pending_signal_handle` has printed it, with the handler. -/
  | shown (handler : ℕ)
  /-- There was no handler. -/
  | ignored
  /-- `process_exit` has freed it. -/
  | discarded
  deriving DecidableEq

/-- Where a block of memory is. -/
inductive Owner (T : Type*)
  | freed
  | pendingAt (t : T)
  | handlerOf (t : T)
  /-- In a `sys_sendsig` that has not linked it yet. -/
  | sentBy (t : T)
  /-- No pointer to it is left. -/
  | lost
  deriving DecidableEq

/-- The processes and their signals. -/
structure SigSys (T : Type*) where
  procs : Sys T
  signalHandlerInfos : T → List SignalHandlerInfo
  pendingSignals : T → List PendingSignal
  /-- The thread that holds `pending_signals_lock`. -/
  lockHolder : T → Option T
  /-- A thread in `sys_sendsig`, with the child and the signal. -/
  sending : T → Option (T × PendingSignal)
  /-- How many blocks have been allocated. -/
  allocated : ℕ
  owner : ℕ → Owner T
  /-- The blocks in the order of the calls of `free`. -/
  freed : List ℕ
  /-- The lines that have been printed, each with the process that it is printed for. -/
  output : List (T × ℤ × ℕ)
  /-- The signals to a process that have been linked, each with its sender. -/
  sent : T → List (T × ℤ)
  /-- The signals that have been taken from the list of a process. -/
  taken : T → List (ℤ × Fate)
  /-- The last handler that a process has registered. -/
  registered : T → ℤ → Option ℕ

inductive SigAction (T : Type*)
  | process (a : ProcAction T)
  /-- `sys_sigaction`; the flag is whether there is memory. -/
  | sigaction (t : T) (signum : ℤ) (handler : ℕ) (memory : Bool)
  /-- `sys_sendsig` up to `lock_acquire`. -/
  | sendsig (t : T) (pid : ℤ) (signum : ℤ) (memory : Bool)
  /-- `lock_acquire`, and into `list_push_back`. -/
  | acquire (t : T)
  /-- The end of `list_push_back`, and `lock_release`. -/
  | push (t : T)

variable {T : Type*} [DecidableEq T]

/-! ### The functions -/

/-- `get_signal_handler_info`. -/
def getSignalHandlerInfo (infos : List SignalHandlerInfo) (signum : ℤ) : Option SignalHandlerInfo :=
  infos.find? fun shi => shi.signum = signum

/-- `malloc` of a block for `o`. -/
def SigSys.malloc (s : SigSys T) (o : Owner T) : SigSys T :=
  { s with
    allocated := s.allocated + 1
    owner := Function.update s.owner s.allocated o }

/-- `free`. -/
def SigSys.free (s : SigSys T) (block : ℕ) : SigSys T :=
  { s with
    owner := Function.update s.owner block .freed
    freed := s.freed ++ [block] }

/-- `pending_signal_handle`. -/
def pendingSignalHandle (s : SigSys T) (t : T) (ps : PendingSignal) : SigSys T :=
  match getSignalHandlerInfo (s.signalHandlerInfos t) ps.signum with
  | some shi => { s with
      output := s.output ++ [(t, shi.signum, shi.handler)]
      taken := Function.update s.taken t (s.taken t ++ [(ps.signum, .shown shi.handler)]) }
  | none => { s with taken := Function.update s.taken t (s.taken t ++ [(ps.signum, .ignored)]) }

/-- `list_remove` and `pending_signal_release`. -/
def removePending (s : SigSys T) (t : T) (ps : PendingSignal) : SigSys T :=
  { s with pendingSignals := Function.update s.pendingSignals t ((s.pendingSignals t).erase ps) }.free ps.block

/-- The loop of `process_activate`. -/
def handlePending (s : SigSys T) (t : T) : SigSys T :=
  (s.pendingSignals t).foldl (fun s ps => removePending (pendingSignalHandle s t ps) t ps) s

/-- A signal that `process_exit` frees. -/
def discard (s : SigSys T) (t : T) (ps : PendingSignal) : SigSys T :=
  removePending { s with taken := Function.update s.taken t (s.taken t ++ [(ps.signum, .discarded)]) } t ps

/-- `list_remove` and `signal_handler_info_release`. -/
def removeHandler (s : SigSys T) (t : T) (shi : SignalHandlerInfo) : SigSys T :=
  { s with
    signalHandlerInfos :=
      Function.update s.signalHandlerInfos t ((s.signalHandlerInfos t).erase shi) }.free shi.block

/-- The two loops of `process_exit`. -/
def releaseSignals (s : SigSys T) (t : T) : SigSys T :=
  let s := (s.pendingSignals t).foldl (fun s ps => discard s t ps) s
  let s := (s.signalHandlerInfos t).foldl (fun s shi => removeHandler s t shi) s
  { s with registered := Function.update s.registered t fun _ => none }

/-- `list_init` in `process_info_allocate`. -/
def listInit (s : SigSys T) (t : T) : SigSys T :=
  { s with
    signalHandlerInfos := Function.update s.signalHandlerInfos t []
    pendingSignals := Function.update s.pendingSignals t [] }

/-- What a step of the processes does to the signals. -/
def signalPart (s : SigSys T) : ProcAction T → Option (SigSys T)
  | .execute t => some (if s.procs.processInfo t then s else listInit s t)
  | .run t =>
    match s.procs.place t with
    | .starting _ => some (listInit s t)
    | _ => some s
  | .exit t _ => some (releaseSignals s t)
  | .threadExit t => some (if s.procs.processInfo t then releaseSignals s t else s)
  | .activate t =>
    if s.procs.processInfo t then
      if (s.lockHolder t).isNone then some (handlePending s t) else none
    else some s
  | _ => some s

/-- The list with a new handler in `shi`. -/
def replaced (infos : List SignalHandlerInfo) (shi : SignalHandlerInfo) (handler : ℕ) :
    List SignalHandlerInfo :=
  infos.map fun x => if x = shi then { shi with handler := handler } else x

/-- `sys_sigaction`. -/
def sysSigaction (s : SigSys T) (t : T) (signum : ℤ) (handler : ℕ) (memory : Bool) : Option (SigSys T) :=
  if s.procs.Allocated t then
    match getSignalHandlerInfo (s.signalHandlerInfos t) signum with
    | some shi => some { s with
        signalHandlerInfos := Function.update s.signalHandlerInfos t
          (replaced (s.signalHandlerInfos t) shi handler)
        registered := Function.update s.registered t (Function.update (s.registered t) signum (some handler)) }
    | none =>
      if memory then
        some { s.malloc (.handlerOf t) with
          signalHandlerInfos := Function.update s.signalHandlerInfos t
            (s.signalHandlerInfos t ++ [⟨s.allocated, signum, handler⟩])
          registered := Function.update s.registered t (Function.update (s.registered t) signum (some handler)) }
      else some s
  else none

/-- `sys_sendsig` up to `lock_acquire`. -/
def sysSendsig (s : SigSys T) (t : T) (pid signum : ℤ) (memory : Bool) : Option (SigSys T) :=
  if s.procs.Allocated t then
    (findChild s.procs pid (s.procs.childrenPi t)).map fun pi =>
      match pi, memory with
      | some c, true => { s.malloc (.sentBy t) with
          sending := Function.update s.sending t (some (c, ⟨s.allocated, signum⟩)) }
      | none, true => s.malloc .lost
      | _, false => s
  else none

/-- The signal `x.2` of `t` is on the list of `x.1`, and the lock is released. -/
def SigSys.linked (s : SigSys T) (t : T) (x : T × PendingSignal) : SigSys T :=
  { s with
    pendingSignals := Function.update s.pendingSignals x.1 (s.pendingSignals x.1 ++ [x.2])
    lockHolder := Function.update s.lockHolder x.1 none
    sending := Function.update s.sending t none
    owner := Function.update s.owner x.2.block (.pendingAt x.1)
    sent := Function.update s.sent x.1 (s.sent x.1 ++ [(t, x.2.signum)]) }

def act (s : SigSys T) : SigAction T → Option (SigSys T)
  | .process a => (Processes.act s.procs a).bind fun procs =>
      (signalPart s a).map fun s => { s with procs := procs }
  | .sigaction t signum handler memory => sysSigaction s t signum handler memory
  | .sendsig t pid signum memory => sysSendsig s t pid signum memory
  | .acquire t => (s.sending t).bind fun x =>
      if s.procs.Allocated x.1 then some { s with lockHolder := Function.update s.lockHolder x.1 (some t) }
      else none
  | .push t => (s.sending t).bind fun x =>
      if s.procs.Allocated x.1 then some (s.linked t x) else none

/-- The thread whose step it is; a switch is nobody's. -/
def actor : ProcAction T → Option T
  | .execute t | .executeFails t | .create t _ | .createFails t | .load t | .loadFails t | .wait t _
  | .exit t _ | .threadExit t | .run t => some t
  | .activate _ => none

/-- The thread that is switched to. -/
def switched : ProcAction T → Option T
  | .activate t => some t
  | _ => none

/-- The process that exits. -/
def exiting : ProcAction T → Option T
  | .exit t _ | .threadExit t => some t
  | _ => none

/-- The thread is a user process that can make a system call. -/
def Calls (s : SigSys T) (t : T) : Prop :=
  s.procs.place t = .user ∧ s.procs.creator t ≠ none ∧ s.sending t = none

/-- A thread in `sys_sendsig` does nothing else, and a process that exits takes the lock of its list. -/
def Enabled (s : SigSys T) : SigAction T → Prop
  | .process a => Processes.Enabled s.procs a ∧ ((actor a).all fun t => (s.sending t).isNone) = true ∧
      ((exiting a).all fun t => (s.lockHolder t).isNone) = true
  | .sigaction t _ _ _ | .sendsig t _ _ _ => Calls s t
  | .acquire t => ((s.sending t).any fun x => (s.lockHolder x.1).isNone) = true
  | .push t => ((s.sending t).any fun x => s.lockHolder x.1 = some t) = true

/-- The steps that the lifetimes depend on, and no switch to a process while its list is being changed. -/
def Careful (s : SigSys T) : SigAction T → Prop
  | .process a => InfoLifetime.Careful s.procs a ∧
      ((switched a).all fun t => !s.procs.processInfo t || (s.lockHolder t).isNone) = true
  | _ => True

def Step (s : SigSys T) (a : SigAction T) (s' : SigSys T) : Prop := Enabled s a ∧ act s a = some s'

structure Init (s : SigSys T) : Prop where
  procs : Processes.Init s.procs
  signalHandlerInfos : ∀ t, s.signalHandlerInfos t = []
  pendingSignals : ∀ t, s.pendingSignals t = []
  lockHolder : ∀ t, s.lockHolder t = none
  sending : ∀ t, s.sending t = none
  allocated : s.allocated = 0
  freed : s.freed = []
  output : s.output = []
  sent : ∀ t, s.sent t = []
  taken : ∀ t, s.taken t = []
  registered : ∀ t n, s.registered t n = none

/-! ### What the loops do -/

variable {s s' : SigSys T} {t u : T} {l : List PendingSignal} {fate : PendingSignal → Fate}

/-- What becomes of a signal with the handlers that are there. -/
def fateOf (infos : List SignalHandlerInfo) (ps : PendingSignal) : Fate :=
  (getSignalHandlerInfo infos ps.signum).elim .ignored fun shi => .shown shi.handler

/-- The line that is printed for a signal. -/
def shownLine (x : ℤ × Fate) : Option (ℤ × ℕ) :=
  match x.2 with
  | .shown handler => some (x.1, handler)
  | _ => none

/-- The signals `l` have been taken from the front of the list. -/
def SigSys.took (s : SigSys T) (t : T) (l : List PendingSignal) (fate : PendingSignal → Fate) : SigSys T :=
  { s with
    pendingSignals := Function.update s.pendingSignals t ((s.pendingSignals t).drop l.length)
    owner := fun b => if b ∈ l.map (·.block) then .freed else s.owner b
    freed := s.freed ++ l.map (·.block)
    output := s.output ++ (l.filterMap fun ps => shownLine (ps.signum, fate ps)).map fun x => (t, x)
    taken := Function.update s.taken t (s.taken t ++ l.map fun ps => (ps.signum, fate ps)) }

theorem took_nil : s.took t [] fate = s := by
  simp [SigSys.took]

theorem took_cons {ps : PendingSignal} : s.took t (ps :: l) fate = (s.took t [ps] fate).took t l fate := by
  have howner : (fun b => if b ∈ (ps :: l).map (·.block) then Owner.freed else s.owner b) = fun b =>
      if b ∈ l.map (·.block) then Owner.freed
      else if b ∈ [ps].map (·.block) then Owner.freed else s.owner b := by
    funext b
    by_cases h1 : b ∈ l.map (·.block) <;> by_cases h2 : b = ps.block <;> simp_all
  unfold SigSys.took
  rw [howner]
  congr 1 <;> simp [List.filterMap_cons]
  cases shownLine (ps.signum, fate ps) <;> simp

/-- A loop that takes the pending signals one by one, with the same handlers. -/
theorem foldl_eq_took {f : SigSys T → PendingSignal → SigSys T} {infos : T → List SignalHandlerInfo}
    (hf : ∀ s ps rest, s.signalHandlerInfos = infos → s.pendingSignals t = ps :: rest →
      f s ps = s.took t [ps] fate) : ∀ {l rest : List PendingSignal} {s : SigSys T},
    s.signalHandlerInfos = infos → s.pendingSignals t = l ++ rest → l.foldl f s = s.took t l fate
  | [], _, _, _, _ => took_nil.symm
  | ps :: l, rest, s, hi, h => by
    rw [List.foldl_cons, hf s ps (l ++ rest) hi h]
    have hrest : (s.took t [ps] fate).pendingSignals t = l ++ rest := by simp [SigSys.took, h]
    have hinfos : (s.took t [ps] fate).signalHandlerInfos = infos := hi
    exact (foldl_eq_took hf hinfos hrest).trans took_cons.symm

theorem removePending_eq {ps : PendingSignal} {rest : List PendingSignal} (h : s.pendingSignals t = ps :: rest) :
    removePending { s with
      output := s.output ++ ([ps].filterMap fun ps => shownLine (ps.signum, fate ps)).map fun x => (t, x)
      taken := Function.update s.taken t (s.taken t ++ [(ps.signum, fate ps)]) } t ps = s.took t [ps] fate := by
  have howner : (fun b => if b ∈ [ps].map (·.block) then Owner.freed else s.owner b) =
      Function.update s.owner ps.block .freed := by
    funext b
    by_cases hb : b = ps.block <;> simp [hb]
  simp [removePending, SigSys.free, SigSys.took, h, ← howner]

/-- **A switch to a process** takes all its signals, in order. -/
theorem handlePending_eq (s : SigSys T) (t : T) :
    handlePending s t = s.took t (s.pendingSignals t) (fateOf (s.signalHandlerInfos t)) := by
  refine foldl_eq_took (fun s' ps rest hi h => ?_) rfl
    (List.append_nil _).symm
  rw [← removePending_eq h, pendingSignalHandle]
  cases hshi : getSignalHandlerInfo (s'.signalHandlerInfos t) ps.signum with
  | none => simp [← hi, fateOf, hshi, shownLine]
  | some shi =>
    have hnum : shi.signum = ps.signum := by simpa using List.find?_some hshi
    simp [← hi, fateOf, hshi, shownLine, hnum]

theorem discardAll_eq (s : SigSys T) (t : T) :
    (s.pendingSignals t).foldl (fun s ps => discard s t ps) s =
      s.took t (s.pendingSignals t) fun _ => .discarded := by
  refine foldl_eq_took (fun s' ps rest _ h => ?_) rfl
    (List.append_nil _).symm
  rw [← removePending_eq h, discard]
  simp [shownLine]

/-- The handlers `l` have been taken from the front of the list. -/
def SigSys.unhandled (s : SigSys T) (t : T) (l : List SignalHandlerInfo) : SigSys T :=
  { s with
    signalHandlerInfos := Function.update s.signalHandlerInfos t ((s.signalHandlerInfos t).drop l.length)
    owner := fun b => if b ∈ l.map (·.block) then .freed else s.owner b
    freed := s.freed ++ l.map (·.block) }

theorem removeAll_eq : ∀ {l rest : List SignalHandlerInfo} {s : SigSys T}, s.signalHandlerInfos t = l ++ rest →
    l.foldl (fun s shi => removeHandler s t shi) s = s.unhandled t l
  | [], _, _, _ => by simp [SigSys.unhandled]
  | shi :: l, rest, s, h => by
    have hrest : (removeHandler s t shi).signalHandlerInfos t = l ++ rest := by
      simp [removeHandler, SigSys.free, h]
    have howner : (fun b => if b ∈ (shi :: l).map (·.block) then Owner.freed else s.owner b) = fun b =>
        if b ∈ l.map (·.block) then Owner.freed else Function.update s.owner shi.block .freed b := by
      funext b
      by_cases h1 : b ∈ l.map (·.block) <;> by_cases h2 : b = shi.block <;> simp_all
    rw [List.foldl_cons, removeAll_eq hrest, SigSys.unhandled, SigSys.unhandled, howner]
    simp [removeHandler, SigSys.free, h]

theorem releaseSignals_eq (s : SigSys T) (t : T) : releaseSignals s t =
    { (s.took t (s.pendingSignals t) fun _ => .discarded).unhandled t (s.signalHandlerInfos t) with
      registered := Function.update s.registered t fun _ => none } := by
  have hinfos : (s.took t (s.pendingSignals t) fun _ => .discarded).signalHandlerInfos t =
    s.signalHandlerInfos t ++ [] := (List.append_nil _).symm
  unfold releaseSignals
  rw [discardAll_eq]
  dsimp only
  rw [show (s.took t (s.pendingSignals t) fun _ => .discarded).signalHandlerInfos t = s.signalHandlerInfos t from rfl,
    removeAll_eq hinfos]
  rfl

/-! ### What the processes do meanwhile -/

section Processes

variable {p p' : Sys T} {a : ProcAction T}

/-- A thread moves only itself, or one that is created. -/
theorem place_of_step (h : Processes.Step p a p') (hact : actor a ≠ some u) (hu : p.place u ≠ .unborn) :
    p'.place u = p.place u := by
  obtain ⟨he, h⟩ := h
  cases a with
  | run t => exact ReleaseLoop.place_of_run h fun hut => hact (by rw [hut]; rfl)
  | create t w =>
    obtain ⟨⟨n, ht⟩, hw⟩ := he
    have hut : u ≠ t := fun hut => hact (by rw [hut]; rfl)
    have huw : u ≠ w := fun huw => hu (by rw [huw, hw])
    simp only [Processes.act, ht, Option.some.injEq] at h
    rw [← h]
    simp [hut, huw]
  | createFails t =>
    obtain ⟨n, ht⟩ := he
    have hut : u ≠ t := fun hut => hact (by rw [hut]; rfl)
    simp only [Processes.act, ht] at h
    cases n with
    | true => exact ReleaseLoop.place_of_startRelease h hut rfl
    | false => rw [← Option.some.inj h]; simp [hut]
  | wait t pid =>
    have hut : u ≠ t := fun hut => hact (by rw [hut]; rfl)
    simp only [Processes.act] at h
    split at h
    · split at h
      · obtain ⟨d, -, rfl⟩ := Option.map_eq_some_iff.mp h
        cases d <;> simp [hut]
      · cases h
    · rw [← Option.some.inj h]
      simp [hut]
  | execute t | executeFails t | load t | loadFails t | exit t code | threadExit t | activate t =>
    simp only [Processes.act, actor] at h hact
    grind [processInfoAllocate, Sys.move_place, Sys.return_place, Sys.allocate_place]

/-- What is known of a child stays so while its parent does something else. -/
theorem kin_step (hs : ProcessInvariant.Inv p) (h : Effect p p') :
    (∀ c q, p.creator c = some q → p'.creator c = some q) ∧ (∀ c, p.onList c = true → p'.onList c = true) ∧
      ∀ t, p.place t = .user → p'.processInfo t = p.processInfo t ∧
        ∀ c, p.creator c = some t → p.reaped c = false → p'.reaped c = false := by
  cases h with
  | @create t w n ht hw =>
    have hnew : p.creator w = none := by
      have ho := hs.own w
      simp only [ProcessInvariant.Own, ProcessInvariant.view, hw] at ho
      exact ho.1
    refine ⟨fun c q hc => ?_, fun c hc => hc, fun t _ => ⟨rfl, fun c _ hc => hc⟩⟩
    have hcw : c ≠ w := fun hcw => by simp [hcw, hnew] at hc
    simpa [hcw] using hc
  | @waitDone t c ht hl hst =>
    refine ⟨fun c q hc => hc, fun c hc => hc, fun t' ht' => ⟨rfl, fun d hd hr => ?_⟩⟩
    have hcreator : p.creator c = some t := (hs.acts.waiting (by rw [ht]; rfl)).1
    have hdc : d ≠ c := fun hdc => by
      rw [hdc, hcreator, Option.some.injEq] at hd
      rw [← hd, ht] at ht'
      cases ht'
    simpa [hdc] using hr
  | @link t q ht hq =>
    refine ⟨fun c q hc => hc, fun c hc => ?_, fun t' ht' => ⟨?_, fun c _ hc => hc⟩⟩
    · by_cases hct : c = t <;> simp [hct, hc]
    · have htt : t' ≠ t := fun htt => by simp [htt, ht] at ht'
      simp [htt]
  | @executed t w n ht | @detach t ht | @clear t ht =>
    refine ⟨fun c q hc => hc, fun c hc => hc, fun t' ht' => ⟨?_, fun c _ hc => hc⟩⟩
    have htt : t' ≠ t := fun htt => by simp [htt, ht] at ht'
    simp [htt]
  | _ => exact ⟨fun c q hc => hc, fun c hc => hc, fun t _ => ⟨rfl, fun c _ hc => hc⟩⟩

end Processes

/-! ### The memory -/

/-- The block is found there. What is lost is found nowhere. -/
def Holds (s : SigSys T) : Owner T → ℕ → Prop
  | .freed, b => b ∈ s.freed
  | .pendingAt t, b => b ∈ (s.pendingSignals t).map (·.block)
  | .handlerOf t, b => b ∈ (s.signalHandlerInfos t).map (·.block)
  | .sentBy t, b => ∃ x, s.sending t = some x ∧ x.2.block = b
  | .lost, _ => False

/-- **Every block is in one place**, once. -/
structure Accounts (s : SigSys T) : Prop where
  holds : ∀ o b, o ≠ .lost → (Holds s o b ↔ b < s.allocated ∧ s.owner b = o)
  freed : s.freed.Nodup
  pending : ∀ u, ((s.pendingSignals u).map (·.block)).Nodup
  handlers : ∀ u, ((s.signalHandlerInfos u).map (·.block)).Nodup

section Memory

variable {o : Owner T} {blocks : List ℕ} {b : ℕ}

omit [DecidableEq T] in
theorem Accounts.owner_eq (h : Accounts s) (hb : Holds s o b) : b < s.allocated ∧ s.owner b = o :=
  (h.holds o b fun ho => by subst ho; exact hb).mp hb

omit [DecidableEq T] in
/-- Only the lists, the calls and the memory count. -/
theorem Accounts.congr (h : Accounts s) (h1 : s'.pendingSignals = s.pendingSignals)
    (h2 : ∀ u, (s'.signalHandlerInfos u).map (·.block) = (s.signalHandlerInfos u).map (·.block))
    (h3 : s'.sending = s.sending) (h4 : s'.freed = s.freed) (h5 : s'.owner = s.owner)
    (h6 : s'.allocated = s.allocated) : Accounts s' := by
  refine ⟨fun o b ho => ?_, by rw [h4]; exact h.freed, by rw [h1]; exact h.pending, fun u => by
    rw [h2]; exact h.handlers u⟩
  rw [h5, h6, ← h.holds o b ho]
  cases o <;> simp only [Holds, h1, h2, h3, h4]

omit [DecidableEq T] in
/-- All that is in one place is freed. -/
theorem Accounts.release (h : Accounts s) (ho : o ≠ .freed ∧ o ≠ .lost)
    (hblocks : ∀ b, b ∈ blocks ↔ Holds s o b) (hnodup : blocks.Nodup) (hempty : ∀ b, ¬Holds s' o b)
    (hother : ∀ o' b, o' ≠ o → o' ≠ .freed → (Holds s' o' b ↔ Holds s o' b))
    (hfreed : s'.freed = s.freed ++ blocks)
    (howner : ∀ b, s'.owner b = if b ∈ blocks then .freed else s.owner b)
    (hallocated : s'.allocated = s.allocated) :
    (∀ o b, o ≠ .lost → (Holds s' o b ↔ b < s'.allocated ∧ s'.owner b = o)) ∧ s'.freed.Nodup := by
  refine ⟨fun o' b ho' => ?_, ?_⟩
  · rw [howner b, hallocated]
    by_cases hb : b ∈ blocks
    · obtain ⟨hlt, hown⟩ := h.owner_eq ((hblocks b).mp hb)
      rw [if_pos hb]
      by_cases hof : o' = .freed
      · subst hof
        exact ⟨fun _ => ⟨hlt, rfl⟩, fun _ => by
          show b ∈ s'.freed
          rw [hfreed]
          exact List.mem_append_right _ hb⟩
      · refine ⟨fun hh => ?_, fun hh => absurd hh.2.symm hof⟩
        by_cases hoo : o' = o
        · exact absurd (hoo ▸ hh) (hempty b)
        · exact absurd ((h.owner_eq ((hother o' b hoo hof).mp hh)).2.symm.trans hown) hoo
    · rw [if_neg hb, ← h.holds o' b ho']
      by_cases hof : o' = .freed
      · subst hof
        show b ∈ s'.freed ↔ b ∈ s.freed
        rw [hfreed, List.mem_append, or_iff_left hb]
      · by_cases hoo : o' = o
        · subst hoo
          exact ⟨fun hh => absurd hh (hempty b), fun hh => absurd ((hblocks b).mpr hh) hb⟩
        · exact hother o' b hoo hof
  · rw [hfreed]
    refine List.nodup_append.mpr ⟨h.freed, hnodup, fun b hb c hc hbc => ?_⟩
    subst hbc
    exact ho.1 ((h.owner_eq ((hblocks b).mp hc)).2.symm.trans (h.owner_eq (o := .freed) hb).2)

omit [DecidableEq T] in
/-- A new block. -/
theorem Accounts.allocate (h : Accounts s)
    (hnew : o ≠ .lost → ∀ b, Holds s' o b ↔ Holds s o b ∨ b = s.allocated)
    (hother : ∀ o' b, o' ≠ o → (Holds s' o' b ↔ Holds s o' b))
    (howner : s'.owner = Function.update s.owner s.allocated o) (hallocated : s'.allocated = s.allocated + 1)
    (o' : Owner T) (b : ℕ) (ho' : o' ≠ .lost) : Holds s' o' b ↔ b < s'.allocated ∧ s'.owner b = o' := by
  rw [howner, hallocated]
  by_cases hb : b = s.allocated
  · subst hb
    have hnot : ¬Holds s o' s.allocated := fun hh => absurd (h.owner_eq hh).1 (lt_irrefl _)
    rw [Function.update_self]
    by_cases hoo : o' = o
    · subst hoo
      exact ⟨fun _ => ⟨Nat.lt_succ_self _, rfl⟩, fun _ => (hnew ho' _).mpr (Or.inr rfl)⟩
    · rw [hother o' _ hoo]
      exact ⟨fun hh => absurd hh hnot, fun hh => absurd hh.2.symm hoo⟩
  · have hlt : b < s.allocated + 1 ↔ b < s.allocated := by omega
    rw [Function.update_of_ne hb, hlt, ← h.holds o' b ho']
    by_cases hoo : o' = o
    · subst hoo
      rw [hnew ho', or_iff_left hb]
    · exact hother o' b hoo

end Memory

/-! ### The invariant -/

/-- What holds in every run. -/
structure Inv (s : SigSys T) : Prop where
  order : ∀ u, (s.sent u).map Prod.snd = (s.taken u).map Prod.fst ++ (s.pendingSignals u).map (·.signum)
  lines : ∀ u, (s.output.filter fun x => x.1 = u).map Prod.snd = (s.taken u).filterMap shownLine
  senders : ∀ u, ∀ x ∈ s.sent u, s.procs.creator u = some x.1 ∧ s.procs.onList u = true
  handlers : ∀ u n, (getSignalHandlerInfo (s.signalHandlerInfos u) n).map (·.handler) = s.registered u n
  users : ∀ u, s.signalHandlerInfos u ≠ [] → s.procs.creator u ≠ none ∧ s.procs.onList u = true
  callers : ∀ t x, s.sending t = some x → s.procs.place t = .user ∧ s.procs.processInfo t = true ∧
    s.procs.creator x.1 = some t ∧ s.procs.onList x.1 = true ∧ s.procs.reaped x.1 = false
  accounts : Accounts s

theorem Inv.of_init (h : Init s) : Inv s where
  order u := by rw [h.sent, h.taken, h.pendingSignals]; rfl
  lines u := by rw [h.output, h.taken]; rfl
  senders u x hx := by rw [h.sent] at hx; cases hx
  handlers u n := by rw [h.signalHandlerInfos, h.registered]; rfl
  users u hu := absurd (h.signalHandlerInfos u) hu
  callers t x hx := by rw [h.sending] at hx; cases hx
  accounts := by
    refine ⟨fun o b ho => ?_, by rw [h.freed]; exact .nil, fun u => by rw [h.pendingSignals]; exact .nil,
      fun u => by rw [h.signalHandlerInfos]; exact .nil⟩
    rw [h.allocated]
    refine ⟨fun hb => ?_, fun hb => absurd hb.1 (Nat.not_lt_zero b)⟩
    cases o <;> simp [Holds, h.freed, h.pendingSignals, h.signalHandlerInfos, h.sending] at hb

theorem Inv.took (h : Inv s) (t : T) (fate : PendingSignal → Fate) : Inv (s.took t (s.pendingSignals t) fate) where
  order u := by
    have ho := h.order u
    by_cases hu : u = t
    · subst hu
      simp [SigSys.took, ho, Function.comp_def]
    · simpa [SigSys.took, hu] using ho
  lines u := by
    have hl := h.lines u
    by_cases hu : u = t
    · subst hu
      simp [SigSys.took, hl, List.filter_map, Function.comp_def, List.filterMap_map]
    · have hut : ¬t = u := fun h => hu h.symm
      simpa [SigSys.took, hu, List.filter_map, Function.comp_def, hut] using hl
  senders := h.senders
  handlers := h.handlers
  users := h.users
  callers := h.callers
  accounts := by
    have hnodup := h.accounts.pending t
    have hrel := @Accounts.release _ s (s.took t (s.pendingSignals t) fate) (.pendingAt t)
      ((s.pendingSignals t).map (·.block)) h.accounts ⟨by simp, by simp⟩ (fun b => Iff.rfl) hnodup (fun b => ?_)
      (fun o' b ho hf => ?_) rfl (fun b => rfl) rfl
    · refine ⟨hrel.1, hrel.2, fun u => ?_, h.accounts.handlers⟩
      by_cases hu : u = t
      · subst hu
        simp [SigSys.took]
      · simpa [SigSys.took, hu] using h.accounts.pending u
    · simp [Holds, SigSys.took]
    · cases o' with
      | pendingAt u =>
        have hu : u ≠ t := fun hu => ho (by rw [hu])
        simp [Holds, SigSys.took, hu]
      | freed => exact absurd rfl hf
      | _ => exact Iff.rfl

/-- The handlers of a process are gone. -/
theorem Inv.unhandled (h : Inv s) (t : T) : Inv { s.unhandled t (s.signalHandlerInfos t) with
    registered := Function.update s.registered t fun _ => none } where
  order := h.order
  lines := h.lines
  senders := h.senders
  handlers u n := by
    have hh := h.handlers u n
    by_cases hu : u = t
    · subst hu
      simp [SigSys.unhandled, getSignalHandlerInfo]
    · simpa [SigSys.unhandled, hu] using hh
  users u hu := by
    refine h.users u fun hn => hu ?_
    by_cases hut : u = t <;> simp [SigSys.unhandled, hut, hn]
  callers := h.callers
  accounts := by
    have hrel := @Accounts.release _ s { s.unhandled t (s.signalHandlerInfos t) with
        registered := Function.update s.registered t fun _ => none } (.handlerOf t)
      ((s.signalHandlerInfos t).map (·.block)) h.accounts ⟨by simp, by simp⟩ (fun b => Iff.rfl)
      (h.accounts.handlers t) (fun b => ?_) (fun o' b ho hf => ?_) rfl (fun b => rfl) rfl
    · refine ⟨hrel.1, hrel.2, h.accounts.pending, fun u => ?_⟩
      by_cases hu : u = t
      · subst hu
        simp [SigSys.unhandled]
      · simpa [SigSys.unhandled, hu] using h.accounts.handlers u
    · simp [Holds, SigSys.unhandled]
    · cases o' with
      | handlerOf u =>
        have hu : u ≠ t := fun hu => ho (by rw [hu])
        simp [Holds, SigSys.unhandled, hu]
      | freed => exact absurd rfl hf
      | _ => exact Iff.rfl

theorem Inv.release (h : Inv s) (t : T) : Inv (releaseSignals s t) := by
  rw [releaseSignals_eq]
  exact (h.took t fun _ => .discarded).unhandled t

theorem Inv.handle (h : Inv s) (t : T) : Inv (handlePending s t) := by
  rw [handlePending_eq]
  exact h.took t _

/-- The lists of a process are empty before its `list_init`. -/
theorem Inv.listInit_eq (h : Inv s) (ht : s.procs.creator t = none ∨ s.procs.onList t = false) :
    listInit s t = s := by
  have hno : ¬(s.procs.creator t ≠ none ∧ s.procs.onList t = true) := by
    rintro ⟨h1, h2⟩
    rcases ht with ht | ht
    · exact h1 ht
    · simp [ht] at h2
  have hinfos : s.signalHandlerInfos t = [] := not_not.mp fun hn => hno (h.users t hn)
  have hsent : s.sent t = [] := by
    refine List.eq_nil_iff_forall_not_mem.mpr fun x hx => hno ?_
    obtain ⟨h1, h2⟩ := h.senders t x hx
    exact ⟨by simp [h1], h2⟩
  have hpending : s.pendingSignals t = [] := by
    have ho := h.order t
    rw [hsent] at ho
    simpa using (List.append_eq_nil_iff.mp ho.symm).2
  have h1 : Function.update s.signalHandlerInfos t [] = s.signalHandlerInfos := by
    rw [← hinfos, Function.update_eq_self]
  have h2 : Function.update s.pendingSignals t [] = s.pendingSignals := by
    rw [← hpending, Function.update_eq_self]
  rw [listInit, h1, h2]

/-- What a step of the processes leaves of the signals. -/
theorem Inv.part {a : ProcAction T} (h : Inv s) (hs : ProcessInvariant.Inv s.procs)
    (he : Processes.Enabled s.procs a) (ha : signalPart s a = some s') :
    Inv s' ∧ s'.procs = s.procs ∧ s'.sending = s.sending := by
  have hrelease : ∀ t, (releaseSignals s t).procs = s.procs ∧
      (releaseSignals s t).sending = s.sending := fun t => by
    rw [releaseSignals_eq]
    exact ⟨rfl, rfl⟩
  have hsame : some s = some s' → Inv s' ∧ s'.procs = s.procs ∧ s'.sending = s.sending := by
    rintro h'
    cases h'
    exact ⟨h, rfl, rfl⟩
  cases a with
  | execute t =>
    cases hp : s.procs.processInfo t with
    | true => exact hsame (by simpa [signalPart, hp] using ha)
    | false =>
      have hcreator : s.procs.creator t = none := by
        have ho := hs.own t
        have ht : s.procs.place t = .user := he
        simp only [ProcessInvariant.Own, ProcessInvariant.view, ht, ProcessInvariant.Runs, hp] at ho
        rcases ho with ⟨hbad, -⟩ | ⟨-, hnone, -⟩
        · exact absurd hbad (by decide)
        · exact hnone
      exact hsame (by simpa [signalPart, hp, h.listInit_eq (.inl hcreator)] using ha)
  | run t =>
    cases ht : s.procs.place t with
    | starting q =>
      have hfresh : s.procs.onList t = false := by
        have ho := hs.own t
        simp only [ProcessInvariant.Own, ProcessInvariant.view, ht] at ho
        exact ho.1.2.1
      exact hsame (by simpa [signalPart, ht, h.listInit_eq (.inr hfresh)] using ha)
    | _ => exact hsame (by simpa [signalPart, ht] using ha)
  | exit t code =>
    cases ha
    exact ⟨h.release t, hrelease t⟩
  | threadExit t =>
    cases hp : s.procs.processInfo t with
    | true =>
      obtain rfl : releaseSignals s t = s' := by simpa [signalPart, hp] using ha
      exact ⟨h.release t, hrelease t⟩
    | false => exact hsame (by simpa [signalPart, hp] using ha)
  | activate t =>
    simp only [signalPart] at ha
    split_ifs at ha
    · cases ha
      refine ⟨h.handle t, ?_⟩
      rw [handlePending_eq]
      exact ⟨rfl, rfl⟩
    · exact hsame ha
  | _ => exact hsame ha

/-- A step of the processes, once the signals have been dealt with. -/
theorem Inv.process {a : ProcAction T} {p : Sys T} (h : Inv s) (hs : ProcessInvariant.Inv s.procs)
    (hstep : Processes.Step s.procs a p) (hact : ((actor a).all fun t => (s.sending t).isNone) = true) :
    Inv { s with procs := p } := by
  obtain ⟨hcreator, hlist, hkin⟩ := kin_step hs (effect_of_step hstep)
  refine ⟨h.order, h.lines, fun u x hx => ?_, h.handlers, fun u hu => ?_, fun t x hx => ?_,
    h.accounts.congr rfl (fun _ => rfl) rfl rfl rfl rfl⟩
  · obtain ⟨h1, h2⟩ := h.senders u x hx
    exact ⟨hcreator u _ h1, hlist u h2⟩
  · obtain ⟨h1, h2⟩ := h.users u hu
    obtain ⟨q, hq⟩ := Option.ne_none_iff_exists'.mp h1
    exact ⟨by simp [hcreator u q hq], hlist u h2⟩
  · obtain ⟨hplace, hinfo, hchild, hon, hreaped⟩ := h.callers t x hx
    have hne : actor a ≠ some t := fun hat => by
      rw [hat, Option.all_some, show s.sending t = some x from hx] at hact
      cases hact
    obtain ⟨h1, h2⟩ := hkin t hplace
    exact ⟨(place_of_step hstep hne (by simp [hplace])).trans hplace, h1.trans hinfo, hcreator _ _ hchild,
      hlist _ hon, h2 _ hchild hreaped⟩

theorem getSignalHandlerInfo_append {infos : List SignalHandlerInfo} {shi : SignalHandlerInfo} {n : ℤ} :
    getSignalHandlerInfo (infos ++ [shi]) n =
      (getSignalHandlerInfo infos n).or (if shi.signum = n then some shi else none) := by
  simp [getSignalHandlerInfo, List.find?_append]

theorem map_block_replaced (infos : List SignalHandlerInfo) (shi : SignalHandlerInfo) (handler : ℕ) :
    (replaced infos shi handler).map (·.block) = infos.map (·.block) := by
  rw [replaced, List.map_map]
  refine List.map_congr_left fun x _ => ?_
  by_cases hx : x = shi <;> simp [hx]

theorem getSignalHandlerInfo_replaced {infos : List SignalHandlerInfo} {shi : SignalHandlerInfo} {signum : ℤ}
    (h : getSignalHandlerInfo infos signum = some shi) (handler : ℕ) (n : ℤ) :
    (getSignalHandlerInfo (replaced infos shi handler) n).map (·.handler) =
      if n = signum then some handler else (getSignalHandlerInfo infos n).map (·.handler) := by
  have hnum : shi.signum = signum := by simpa using List.find?_some h
  have hsame : ((fun x : SignalHandlerInfo => decide (x.signum = n)) ∘
      fun x => if x = shi then { shi with handler := handler } else x) = fun x => decide (x.signum = n) := by
    funext x
    by_cases hx : x = shi <;> simp [hx]
  rw [getSignalHandlerInfo, replaced, List.find?_map, hsame, ← getSignalHandlerInfo]
  split_ifs with hn
  · rw [hn, h]
    simp
  · cases hfind : getSignalHandlerInfo infos n with
    | none => rfl
    | some x =>
      have hxn : x.signum = n := by simpa using List.find?_some hfind
      have hxs : x ≠ shi := fun hxs => hn (by rw [← hxn, hxs, hnum])
      simp [hxs]

theorem nodup_new {l : List ℕ} {b : ℕ} (h : l.Nodup) (hb : b ∉ l) : (l ++ [b]).Nodup :=
  h.append (List.nodup_singleton b) (List.disjoint_singleton.mpr hb)

theorem Inv.sigaction {signum : ℤ} {handler : ℕ} {memory : Bool} (h : Inv s)
    (ht : s.procs.creator t ≠ none ∧ s.procs.onList t = true)
    (ha : sysSigaction s t signum handler memory = some s') : Inv s' := by
  unfold sysSigaction at ha
  by_cases hlive : s.procs.Allocated t
  swap
  · rw [if_neg hlive] at ha
    cases ha
  rw [if_pos hlive] at ha
  cases hshi : getSignalHandlerInfo (s.signalHandlerInfos t) signum with
  | some shi =>
    rw [hshi] at ha
    cases ha
    refine ⟨h.order, h.lines, h.senders, fun u n => ?_, fun u hu => ?_, h.callers,
      h.accounts.congr rfl (fun u => ?_) rfl rfl rfl rfl⟩
    · by_cases hut : u = t
      · subst hut
        have hnew := getSignalHandlerInfo_replaced hshi handler n
        rw [h.handlers] at hnew
        simp only [Function.update_self, hnew, Function.update_apply]
      · simpa [hut] using h.handlers u n
    · by_cases hut : u = t
      · exact hut ▸ ht
      · exact h.users u (by simpa [hut] using hu)
    · by_cases hut : u = t
      · subst hut
        simp only [Function.update_self, map_block_replaced]
      · simp [hut]
  | none =>
    rw [hshi] at ha
    cases memory with
    | false =>
      cases ha
      exact h
    | true =>
      cases ha
      refine ⟨h.order, h.lines, h.senders, fun u n => ?_, fun u hu => ?_, h.callers,
        h.accounts.allocate (o := .handlerOf t) (fun _ b => ?_) (fun o b ho => ?_) rfl rfl, h.accounts.freed,
        h.accounts.pending, fun u => ?_⟩
      · by_cases hut : u = t
        · subst hut
          have hold := h.handlers u n
          simp only [Function.update_self, getSignalHandlerInfo_append, Function.update_apply]
          by_cases hn : n = signum
          · simp [hn, hshi]
          · have hsn : ¬signum = n := fun h => hn h.symm
            simpa [hn, hsn] using hold
        · simpa [hut] using h.handlers u n
      · by_cases hut : u = t
        · exact hut ▸ ht
        · exact h.users u (by simpa [hut] using hu)
      · simp [Holds]
      · cases o with
        | handlerOf u =>
          have hu : u ≠ t := fun hu => ho (by rw [hu])
          simp [Holds, hu]
        | _ => exact Iff.rfl
      · by_cases hut : u = t
        · subst hut
          have hnew : s.allocated ∉ (s.signalHandlerInfos u).map (·.block) := fun hmem =>
            lt_irrefl _ (h.accounts.owner_eq (o := .handlerOf u) hmem).1
          simpa using nodup_new (h.accounts.handlers u) hnew
        · simpa [hut] using h.accounts.handlers u

theorem Inv.sendsig {pid signum : ℤ} {memory : Bool} (h : Inv s) (hs : ProcessInvariant.Inv s.procs)
    (ht : Calls s t) (hp : s.procs.processInfo t = true)
    (ha : sysSendsig s t pid signum memory = some s') : Inv s' := by
  unfold sysSendsig at ha
  split_ifs at ha
  obtain ⟨pi, hpi, ha⟩ := Option.map_eq_some_iff.mp ha
  cases memory with
  | false =>
    cases pi <;> exact ha ▸ h
  | true =>
    cases pi with
    | none =>
      subst ha
      refine ⟨h.order, h.lines, h.senders, h.handlers, h.users, h.callers,
        h.accounts.allocate (o := .lost) (fun ho => absurd rfl ho) (fun o b _ => ?_) rfl rfl, h.accounts.freed,
        h.accounts.pending, h.accounts.handlers⟩
      cases o <;> exact Iff.rfl
    | some c =>
      subst ha
      obtain ⟨hchild, hon, hreaped⟩ := hs.family.mem.mp (findChild_mem hpi).1
      refine ⟨h.order, h.lines, h.senders, h.handlers, h.users, fun t' x hx => ?_,
        h.accounts.allocate (o := .sentBy t) (fun _ b => ?_) (fun o b ho => ?_) rfl rfl, h.accounts.freed,
        h.accounts.pending, h.accounts.handlers⟩
      · by_cases htt : t' = t
        · subst htt
          obtain rfl : (c, ⟨s.allocated, signum⟩) = x := by simpa using hx
          exact ⟨ht.1, hp, hchild, hon, hreaped⟩
        · exact h.callers t' x (by simpa [htt] using hx)
      · simp [Holds, ht.2.2, eq_comm]
      · cases o with
        | sentBy u =>
          have hu : u ≠ t := fun hu => ho (by rw [hu])
          simp [Holds, hu]
        | _ => exact Iff.rfl

/-- The block of a signal that is sent goes to the list of the child. -/
theorem Inv.push {x : T × PendingSignal} (h : Inv s) (hx : s.sending t = some x) : Inv (s.linked t x) where
  order u := by
    have ho := h.order u
    by_cases hu : u = x.1
    · subst hu
      simp [SigSys.linked, ho]
    · simpa [SigSys.linked, hu] using ho
  lines := h.lines
  senders u y hy := by
    by_cases hu : u = x.1
    · subst hu
      obtain ⟨-, -, hchild, hon, -⟩ := h.callers t x hx
      simp only [SigSys.linked, Function.update_self, List.mem_append, List.mem_singleton] at hy
      rcases hy with hy | rfl
      · exact h.senders x.1 y hy
      · exact ⟨hchild, hon⟩
    · exact h.senders u y (by simpa [SigSys.linked, hu] using hy)
  handlers := h.handlers
  users := h.users
  callers t' y hy := by
    by_cases htt : t' = t
    · subst htt
      simp [SigSys.linked] at hy
    · exact h.callers t' y (by simpa [SigSys.linked, htt] using hy)
  accounts := by
    have hblock : Holds s (.sentBy t) x.2.block := ⟨x, hx, rfl⟩
    obtain ⟨hlt, howner⟩ := h.accounts.owner_eq hblock
    refine ⟨fun o b ho => ?_, h.accounts.freed, fun u => ?_, h.accounts.handlers⟩
    · have hold := h.accounts.holds o b ho
      by_cases hb : b = x.2.block
      · subst hb
        have hown : (s.linked t x).owner x.2.block = .pendingAt x.1 := Function.update_self _ _ _
        rw [hown]
        rw [howner] at hold
        cases o with
        | pendingAt u =>
          by_cases hu : u = x.1
          · subst hu
            simp [Holds, SigSys.linked, hlt]
          · have hxu : ¬x.1 = u := fun h => hu h.symm
            simpa [Holds, SigSys.linked, hu, hxu] using hold
        | sentBy u =>
          by_cases hu : u = t
          · subst hu
            simp [Holds, SigSys.linked]
          · have htu : ¬t = u := fun h => hu h.symm
            simpa [Holds, SigSys.linked, hu, htu] using hold
        | freed => simpa [Holds, SigSys.linked] using hold
        | handlerOf u => simpa [Holds, SigSys.linked] using hold
        | lost => exact absurd rfl ho
      · have hown : (s.linked t x).owner b = s.owner b := Function.update_of_ne hb _ _
        have hxb : ¬x.2.block = b := fun h => hb h.symm
        rw [hown, show (s.linked t x).allocated = s.allocated from rfl, ← hold]
        cases o with
        | pendingAt u =>
          by_cases hu : u = x.1
          · subst hu
            simp [Holds, SigSys.linked, hb]
          · simp [Holds, SigSys.linked, hu]
        | sentBy u =>
          by_cases hu : u = t
          · subst hu
            simp [Holds, SigSys.linked, hx, hxb]
          · simp [Holds, SigSys.linked, hu]
        | _ => exact Iff.rfl
    · by_cases hu : u = x.1
      · subst hu
        have hnew : x.2.block ∉ (s.pendingSignals x.1).map (·.block) := fun hmem => by
          have heq := (h.accounts.owner_eq (o := .pendingAt x.1) hmem).2
          rw [howner] at heq
          cases heq
        simpa [SigSys.linked] using nodup_new (h.accounts.pending x.1) hnew
      · simpa [SigSys.linked, hu] using h.accounts.pending u

/-! ### Every run -/

/-- A process in a system call has its `struct process_info`. -/
theorem Calls.processInfo (hs : ProcessInvariant.Inv s.procs) (h : Calls s t) :
    s.procs.processInfo t = true ∧ s.procs.onList t = true := by
  have ho := hs.own t
  simp only [ProcessInvariant.Own, ProcessInvariant.view, h.1, ProcessInvariant.Runs] at ho
  rcases ho with ⟨hp, -, -, -, ⟨hc, -⟩ | ⟨-, -, hl, -⟩⟩ | ⟨-, hc, -⟩
  · exact absurd hc h.2.1
  · exact ⟨hp, hl⟩
  · exact absurd hc h.2.1

theorem inv_step {a : SigAction T} (h : Inv s) (hs : ProcessInvariant.Inv s.procs) (hstep : Step s a s') :
    Inv s' := by
  obtain ⟨he, ha⟩ := hstep
  cases a with
  | process a =>
    obtain ⟨p, hp, ha⟩ := Option.bind_eq_some_iff.mp ha
    obtain ⟨s₁, hpart, rfl⟩ := Option.map_eq_some_iff.mp ha
    obtain ⟨hi, hprocs, hsending⟩ := h.part hs he.1 hpart
    refine hi.process (a := a) (by rwa [hprocs]) ?_ (by rw [hsending]; exact he.2.1)
    rw [hprocs]
    exact ⟨he.1, hp⟩
  | sigaction t signum handler memory =>
    have ht : Calls s t := he
    exact h.sigaction ⟨ht.2.1, (ht.processInfo hs).2⟩ ha
  | sendsig t pid signum memory =>
    have ht : Calls s t := he
    exact h.sendsig hs ht (ht.processInfo hs).1 ha
  | acquire t =>
    obtain ⟨x, -, ha⟩ := Option.bind_eq_some_iff.mp ha
    split_ifs at ha
    cases ha
    exact ⟨h.order, h.lines, h.senders, h.handlers, h.users, h.callers,
      h.accounts.congr rfl (fun _ => rfl) rfl rfl rfl rfl⟩
  | push t =>
    obtain ⟨x, hx, ha⟩ := Option.bind_eq_some_iff.mp ha
    split_ifs at ha
    cases ha
    exact h.push hx

/-- The processes of a run are a run of the processes. -/
theorem procs_step {a : SigAction T}
    (h : Reachable Processes.Init (Guarded InfoLifetime.Careful Processes.Step) s.procs)
    (hok : Careful s a) (hstep : Step s a s') :
    Reachable Processes.Init (Guarded InfoLifetime.Careful Processes.Step) s'.procs := by
  obtain ⟨he, ha⟩ := hstep
  cases a with
  | process a =>
    obtain ⟨p, hp, ha⟩ := Option.bind_eq_some_iff.mp ha
    obtain ⟨s₁, -, rfl⟩ := Option.map_eq_some_iff.mp ha
    exact h.step ⟨hok.1, he.1, hp⟩
  | sigaction t signum handler memory =>
    simp only [act, sysSigaction] at ha
    split at ha
    · split at ha
      · cases ha
        exact h
      · split at ha <;> cases ha <;> exact h
    · cases ha
  | sendsig t pid signum memory =>
    simp only [act, sysSendsig] at ha
    split at ha
    · obtain ⟨pi, -, rfl⟩ := Option.map_eq_some_iff.mp ha
      split <;> exact h
    · cases ha
  | acquire t =>
    obtain ⟨x, -, ha⟩ := Option.bind_eq_some_iff.mp ha
    split_ifs at ha
    cases ha
    exact h
  | push t =>
    obtain ⟨x, -, ha⟩ := Option.bind_eq_some_iff.mp ha
    split_ifs at ha
    cases ha
    exact h

theorem invariant : Invariant Init (Guarded Careful Step) fun s : SigSys T =>
    Inv s ∧ Reachable Processes.Init (Guarded InfoLifetime.Careful Processes.Step) s.procs where
  start h := ⟨Inv.of_init h, .start h.procs⟩
  step := by
    rintro s a s' ⟨hi, hp⟩ ⟨hok, hstep⟩
    exact ⟨inv_step hi (InfoLifetime.careful_reachable hp).1.1.1 hstep, procs_step hp hok hstep⟩

omit [DecidableEq T] in
theorem sending_of_any {f : T × PendingSignal → Bool} (h : (s.sending t).any f = true) :
    ∃ x, s.sending t = some x := by
  cases hx : s.sending t with
  | none =>
    rw [hx] at h
    cases h
  | some x => exact ⟨x, rfl⟩

/-- A switch that finds the list whole is dealt with. -/
theorem signalPart_defined {a : ProcAction T} (hok : Careful s (.process a)) : ∃ s', signalPart s a = some s' := by
  cases a with
  | activate t =>
    by_cases hp : s.procs.processInfo t = true
    · have hwhole : (s.lockHolder t).isNone = true := by simpa [switched, hp] using hok.2
      exact ⟨handlePending s t, by simp [signalPart, hp, hwhole]⟩
    · exact ⟨s, by simp [signalPart, hp]⟩
  | run t => cases ht : s.procs.place t <;> simp [signalPart, ht]
  | _ => exact ⟨_, rfl⟩

/-- The child of a `sys_sendsig` is there as long as the call lasts. -/
theorem Inv.target_allocated {x : T × PendingSignal} (h : Inv s) (hs : ProcessInvariant.Inv s.procs)
    (hx : s.sending t = some x) : s.procs.Allocated x.1 := by
  obtain ⟨hplace, hinfo, hchild, hon, hreaped⟩ := h.callers t x hx
  have hlive := (children_live hs hplace hinfo).2
  exact .inl (hlive _ (hs.family.mem.mpr ⟨hchild, hon, hreaped⟩))

/-- A step of the processes loses nothing. -/
theorem lost_of_part {a : ProcAction T} {b : ℕ} (h : signalPart s a = some s') (hb : s'.owner b = .lost) :
    s.owner b = .lost := by
  have hrelease : ∀ t, (releaseSignals s t).owner b = .lost → s.owner b = .lost := fun t ht => by
    rw [releaseSignals_eq] at ht
    simp only [SigSys.unhandled, SigSys.took] at ht
    split_ifs at ht
    exact ht
  cases a with
  | exit t code =>
    cases h
    exact hrelease t hb
  | threadExit t =>
    obtain rfl := Option.some.inj h
    split_ifs at hb
    · exact hrelease t hb
    · exact hb
  | execute t =>
    obtain rfl := Option.some.inj h
    split_ifs at hb <;> exact hb
  | run t =>
    cases ht : s.procs.place t <;> (simp only [signalPart, ht] at h; cases h; exact hb)
  | activate t =>
    simp only [signalPart] at h
    split_ifs at h <;> cases h
    · rw [handlePending_eq] at hb
      simp only [SigSys.took] at hb
      split_ifs at hb
      exact hb
    · exact hb
  | _ =>
    cases h
    exact hb

/-- A block is lost when the signal is for a process that is no child. -/
theorem lost_of_step {a : SigAction T} {b : ℕ} (hstep : Step s a s') (hb : s'.owner b = .lost)
    (hold : s.owner b ≠ .lost) : ∃ t pid signum, a = .sendsig t pid signum true ∧
      findChild s.procs pid (s.procs.childrenPi t) = some none := by
  obtain ⟨-, ha⟩ := hstep
  cases a with
  | process a =>
    obtain ⟨p, -, ha⟩ := Option.bind_eq_some_iff.mp ha
    obtain ⟨s₁, hpart, rfl⟩ := Option.map_eq_some_iff.mp ha
    exact absurd (lost_of_part hpart hb) hold
  | sigaction t signum handler memory =>
    simp only [act, sysSigaction] at ha
    have hkept : s'.owner b = .lost → s.owner b = .lost := by
      split at ha
      swap
      · cases ha
      cases hshi : getSignalHandlerInfo (s.signalHandlerInfos t) signum with
      | some shi =>
        rw [hshi] at ha
        cases ha
        exact id
      | none =>
        rw [hshi] at ha
        cases memory with
        | true =>
          cases ha
          by_cases hba : b = s.allocated <;> simp [SigSys.malloc, hba]
        | false =>
          cases ha
          exact id
    exact absurd (hkept hb) hold
  | sendsig t pid signum memory =>
    simp only [act, sysSendsig] at ha
    split_ifs at ha
    obtain ⟨pi, hpi, rfl⟩ := Option.map_eq_some_iff.mp ha
    cases memory with
    | false => cases pi <;> exact absurd hb hold
    | true =>
      cases pi with
      | none => exact ⟨t, pid, signum, rfl, hpi⟩
      | some c =>
        by_cases hba : b = s.allocated
        · simp [SigSys.malloc, hba] at hb
        · simp [SigSys.malloc, hba, hold] at hb
  | acquire t =>
    obtain ⟨x, -, ha⟩ := Option.bind_eq_some_iff.mp ha
    split_ifs at ha
    cases ha
    exact absurd hb hold
  | push t =>
    obtain ⟨x, -, ha⟩ := Option.bind_eq_some_iff.mp ha
    split_ifs at ha
    cases ha
    by_cases hbx : b = x.2.block
    · simp [SigSys.linked, hbx] at hb
    · simp [SigSys.linked, hbx, hold] at hb

instance (s : SigSys T) (t : T) : Decidable (Calls s t) :=
  inferInstanceAs (Decidable (_ ∧ _ ∧ _))

instance (s : SigSys T) : (a : SigAction T) → Decidable (Enabled s a)
  | .process a => inferInstanceAs (Decidable (Processes.Enabled s.procs a ∧
      ((actor a).all fun t => (s.sending t).isNone) = true ∧
      ((exiting a).all fun t => (s.lockHolder t).isNone) = true))
  | .sigaction t _ _ _ | .sendsig t _ _ _ => inferInstanceAs (Decidable (Calls s t))
  | .acquire t => inferInstanceAs (Decidable (((s.sending t).any fun x => (s.lockHolder x.1).isNone) = true))
  | .push t => inferInstanceAs (Decidable (((s.sending t).any fun x => s.lockHolder x.1 = some t) = true))

instance (s : SigSys T) : (a : SigAction T) → Decidable (Careful s a)
  | .process a => inferInstanceAs (Decidable (InfoLifetime.Careful s.procs a ∧
      ((switched a).all fun t => !s.procs.processInfo t || (s.lockHolder t).isNone) = true))
  | .sigaction _ _ _ _ | .sendsig _ _ _ _ | .acquire _ | .push _ => isTrue trivial

def initial (main : T) : SigSys T where
  procs := Processes.initial main
  signalHandlerInfos _ := []
  pendingSignals _ := []
  lockHolder _ := none
  sending _ := none
  allocated := 0
  owner _ := .freed
  freed := []
  output := []
  sent _ := []
  taken _ := []
  registered _ _ := none

theorem init_initial (main : T) : Init (initial main) :=
  ⟨Processes.init_initial main, fun _ => rfl, fun _ => rfl, fun _ => rfl, fun _ => rfl, rfl, rfl, rfl, fun _ => rfl,
    fun _ => rfl, fun _ _ => rfl⟩

/-- A careful step, if it can be done. -/
def next (s : SigSys T) (a : SigAction T) : Option (SigSys T) :=
  if Careful s a ∧ Enabled s a then act s a else none

theorem guarded_of_next {a : SigAction T} (h : next s a = some s') : Guarded Careful Step s a s' := by
  rw [next] at h
  split_ifs at h with hok
  exact ⟨hok.1, hok.2, h⟩

/-- A child registers a handler, and its parent sends two signals. -/
def sample (main t u : T) : List (SigAction T) :=
  (exec main t ++ exec t u).map .process ++
    [.sigaction u 5 77 true, .sendsig t 3 5 true, .acquire t, .push t, .sendsig t 3 6 true, .acquire t, .push t]

end Pintos.Userprog.Signals
