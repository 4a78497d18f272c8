import Pintos.Userprog.Exceptions
import Pintos.Userprog.StackGrowth
import Pintos.Userprog.WaitProtocol

/-! # What `process_wait` returns for a process that the kernel has ended

A run of processes in which the kernel may end a process: at an exception in user mode, or in a system call.
The exit code is `0` from `process_info_allocate` on, and it is stored once at most. A process that `sys_exit`
ends is reported as `-1`; one that `kill` ends is reported as `0`. -/

namespace Pintos.Userprog.KilledProcess

open Pintos.Lib.Runs Pintos.Lib.Stopping
open Pintos.Userprog.UserMem (CallState Services)
open Pintos.Userprog.Syscall Pintos.Userprog.Exceptions
open Pintos.Userprog.Processes Pintos.Userprog.ProcessInvariant
open Pintos.Userprog.ProcessFamily Pintos.Userprog.ReleaseLoop Pintos.Userprog.WaitProtocol

/-! ### Events -/

/-- Why the kernel has ended a process. -/
inductive Cause
  /-- An exception in user mode that `kill` handles. -/
  | exception
  | pageFault
  /-- A bad pointer in a system call. -/
  | badPointer
  deriving DecidableEq

/-- What takes a process from user mode to the kernel. -/
inductive Event (ν κ : Type)
  /-- An exception in user mode, and what `vm_handle_user_fault` is called with if it is a page fault. -/
  | exception (vec : ℕ) (fault : Fault)
  /-- A system call with `f->esp`. -/
  | syscall (esp : ℕ) (s : CallState ν κ)

variable {ν κ : Type}

/-- How an event ends for the process. -/
def Event.ending (S : Services ν κ) : Event ν κ → Ending
  | .exception vec fault => intrHandler vec fault.handled
  | .syscall esp s =>
    match (outcome (syscallHandler S esp) s).1 with
    | .ok _ => .resumes
    | .error (.exit exitCode) => .sysExit exitCode
    | .error _ => .panic

/-- The cause, where the process has not asked for its end. -/
def Event.cause (S : Services ν κ) : Event ν κ → Option Cause
  | .exception vec _ =>
    match intrHandlers vec with
    | some .kill => some .exception
    | some .pageFault => some .pageFault
    | none => none
  | .syscall esp s => if asksExit S esp s then none else some .badPointer

/-- The exit code with which the kernel ends a process. -/
def Cause.exitCode : Cause → ℤ
  | .exception => 0
  | .pageFault | .badPointer => -1

variable {T : Type*}

/-- What the thread `t` does at the end of an event. -/
def action (t : T) : Ending → Option (ProcAction T)
  | .sysExit exitCode => some (.exit t exitCode)
  | .threadExit => some (.threadExit t)
  | .resumes | .panic => none

/-- **The two ways out.** -/
theorem ending_of_cause {S : Services ν κ} (hS : Mild S) {e : Event ν κ} {c : Cause} (hc : e.cause S = some c)
    {t : T} {a : ProcAction T} (ha : action t (e.ending S) = some a) :
    a = .threadExit t ∧ c = .exception ∨ a = .exit t (-1) ∧ c ≠ .exception := by
  cases e with
  | exception vec fault =>
    dsimp only [Event.cause] at hc
    dsimp only [Event.ending, intrHandler] at ha
    split at hc <;> rename_i hv <;> rw [hv] at ha <;> cases hc
    · cases ha
      exact .inl ⟨rfl, rfl⟩
    · right
      rcases hf : fault.handled with _ | _ | _ <;> rw [hf] at ha <;> cases ha
      exact ⟨rfl, nofun⟩
  | syscall esp s =>
    dsimp only [Event.cause] at hc
    split_ifs at hc with hasks
    cases hc
    dsimp only [Event.ending] at ha
    have hfatal := handler_fatal hS (Bool.eq_false_iff.mpr hasks)
    rcases ho : outcome (syscallHandler S esp) s with ⟨stop | r, s'⟩
    · have hstop := hfatal stop s' ho
      rw [ho] at ha
      rcases stop with code | _ | _ <;> cases ha
      obtain rfl : code = -1 := hstop
      exact .inr ⟨rfl, nofun⟩
    · rw [ho] at ha
      cases ha

/-! ### Runs -/

/-- The processes, and which of them the kernel has ended. -/
structure KSys (T : Type*) where
  sys : Sys T
  killed : T → Option Cause

inductive KAction (T : Type*) (ν κ : Type)
  | proc (a : ProcAction T)
  /-- The event comes to the process of the thread. -/
  | event (t : T) (e : Event ν κ)

variable [DecidableEq T]

/-- **The transition relation.** An event that the process survives is no step. -/
def KStep (S : Services ν κ) (k : KSys T) : KAction T ν κ → KSys T → Prop
  | .proc a, k' => Step k.sys a k'.sys ∧ k'.killed = k.killed
  | .event t e, k' => k.sys.processInfo t = true ∧
      (∃ a, action t (e.ending S) = some a ∧ Step k.sys a k'.sys) ∧
      k'.killed = Function.update k.killed t (e.cause S)

def KInit (k : KSys T) : Prop := Init k.sys ∧ ∀ t, k.killed t = none

/-! ### The exit code -/

/-- The thread is on its way out of its process. -/
def Leaving : Place T → Bool
  | .exiting | .exitingChild | .statusSet | .detached | .orphaned | .dead => true
  | .releasing _ _ .orphan | .stepping _ _ _ .orphan => true
  | _ => false

variable {s s' : Sys T}

/-- **What is on its way out stays so**, with its exit code. -/
theorem leaving_step (h : Effect s s') {c : T} (hc : Leaving (s.place c) = true) :
    Leaving (s'.place c) = true ∧ s'.exitCode c = s.exitCode c ∧ s'.onList c = s.onList c := by
  cases h with
  | activate => exact ⟨hc, rfl, rfl⟩
  | @create t w n ht hw =>
    have hct : c ≠ t := fun h => by simp [h, ht, Leaving] at hc
    have hcw : c ≠ w := fun h => by simp [h, hw, Leaving] at hc
    simpa [hct, hcw] using hc
  | @releaseChild t o d rest k ht | @releaseNext t o d rest k ht =>
    by_cases hct : c = t
    · subst hct
      cases k <;> simp [ht, Leaving] at hc ⊢
    · simpa [hct] using hc
  | @execute t ht | @threadExit t ht | @threadDies t ht | @load t ht | @loadFailed t ht | @exitChild t p ht
  | @executeFailed t ht | @createFailedOld t ht | @noChild t ht | @exit t code ht | @detach t ht | @clear t ht
  | @notLoadedOld t w ht | @executed t w n ht | @failUp t v ht | @startUp t v ht | @exitUp t v ht
  | @wait t d ht | @execDown t w n v ht | @waitDown t d v ht | @executeNew t ht | @start t p ht | @link t p ht
  | @createFailed t ht | @failed t ht | @exitOrphan t ht | @notLoaded t w ht | @releasedWait t o v ht
  | @releasedExecute t o ht | @releasedFailed t o ht | @releasedOrphan t o ht | @setStatus t ht
  | @waitDone t d ht =>
    by_cases hct : c = t
    · subst hct
      simp [ht, Leaving] at hc ⊢
    · simpa [hct] using hc

/-- A process that is not on its way out has never stored an exit code. -/
def FreshCodes (s : Sys T) : Prop := ∀ c, Leaving (s.place c) = false → s.life c ≠ .unborn → s.exitCode c = 0

theorem freshCodes_step (hf : FreshCodes s) (h : Effect s s') : FreshCodes s' := by
  intro c hc hl
  have hcs : Leaving (s.place c) = false := by
    by_contra hcs
    rw [(leaving_step h (Bool.not_eq_false _ ▸ hcs)).1] at hc
    cases hc
  have hfc := hf c hcs
  cases h with
  | @executeNew t ht | @start t p ht | @exit t code ht =>
    by_cases hct : c = t
    · subst hct
      first
        | exact Function.update_self ..
        | simp [Leaving] at hc
    · simp [hct] at hl ⊢
      exact hfc hl
  | @createFailed t ht hlive | @failed t ht hlive | @exitOrphan t ht hp hlive | @notLoaded t w ht hc hlive
  | @releasedWait _ t _ ht hlive | @releasedExecute _ t ht hlive | @releasedFailed _ t ht hlive
  | @releasedOrphan _ t ht hlive | @waitDone _ t ht hlive =>
    by_cases hct : c = t
    · exact hfc (by simp [hct, hlive])
    · exact hfc (by simpa [hct] using hl)
  | _ => exact hfc hl

/-! ### What is reported -/

/-- **The exit codes**: of the processes that are not on their way out, and of those that the kernel has ended. -/
structure Codes (k : KSys T) : Prop where
  whole : Whole k.sys
  records : Records k.sys
  fresh : FreshCodes k.sys
  killed : ∀ {c cause}, k.killed c = some cause → Leaving (k.sys.place c) = true ∧
    k.sys.exitCode c = cause.exitCode ∧ (k.sys.creator c ≠ none → k.sys.onList c = true)

theorem creator_step (h : Effect s s') {c : T} (hc : Leaving (s.place c) = true) :
    s'.creator c = s.creator c := by
  cases h with
  | @create t w n ht hw =>
    have hcw : c ≠ w := fun h => by simp [h, hw, Leaving] at hc
    simp [hcw]
  | _ => rfl

theorem killed_step {k k' : KSys T} (hk : Codes k) (h : Effect k.sys k'.sys) {c : T} {cause : Cause}
    (hc : k.killed c = some cause) : Leaving (k'.sys.place c) = true ∧ k'.sys.exitCode c = cause.exitCode ∧
      (k'.sys.creator c ≠ none → k'.sys.onList c = true) := by
  obtain ⟨hl, hcode, hlist⟩ := hk.killed hc
  obtain ⟨hl', hcode', hlist'⟩ := leaving_step h hl
  rw [hcode', hlist', creator_step h hl]
  exact ⟨hl', hcode, hlist⟩

/-- **The step in which the kernel ends a process.** -/
theorem codes_event {S : Services ν κ} (hS : Mild S) {k k' : KSys T} (hk : Codes k) {t : T} {e : Event ν κ}
    (h : KStep S k (.event t e) k') {cause : Cause} (hc : e.cause S = some cause) :
    Leaving (k'.sys.place t) = true ∧ k'.sys.exitCode t = cause.exitCode ∧
      (k'.sys.creator t ≠ none → k'.sys.onList t = true) := by
  obtain ⟨hp, ⟨a, ha, hstep⟩, -⟩ := h
  have ht : k.sys.place t = .user := by
    obtain ⟨rfl, -⟩ | ⟨rfl, -⟩ := ending_of_cause hS hc ha
    · exact hstep.1
    · exact hstep.1.1
  have hlive := (children_live hk.whole.1 ht hp).1
  have hlist : k.sys.creator t ≠ none → k.sys.onList t = true := by
    have ho := hk.whole.1.own t
    simp only [Own, view, ht, hp] at ho
    grind [Runs]
  obtain ⟨rfl, rfl⟩ | ⟨rfl, hne⟩ := ending_of_cause hS hc ha
  · have hact := hstep.2
    simp only [act, hp, if_true, Option.some.injEq] at hact
    rw [← hact]
    have hcode := hk.fresh t (by rw [ht]; rfl) (by simp [hlive])
    exact ⟨by simp [Leaving], by simpa [Cause.exitCode] using hcode, by simpa using hlist⟩
  · have hact := hstep.2
    have hal : k.sys.Allocated t := .inl hlive
    simp only [act, hal, if_true, Option.some.injEq] at hact
    rw [← hact]
    refine ⟨by simp [Leaving], ?_, by simpa using hlist⟩
    cases cause <;> simp [Cause.exitCode] at hne ⊢

theorem codes_invariant {S : Services ν κ} (hS : Mild S) : Invariant (σ := KSys T) KInit (KStep S) Codes where
  start h := by
    obtain ⟨hi, hk⟩ := h
    exact ⟨whole.start hi, records_start hi, fun c _ hl => absurd (hi.life c) hl, fun hc => by simp [hk] at hc⟩
  step := by
    intro k a k' hk h
    rcases a with a | ⟨t, e⟩
    · obtain ⟨hstep, hkilled⟩ := h
      have he := effect_of_step hstep
      refine ⟨whole.step hk.whole hstep, records_step hk.whole.1 hk.records he, freshCodes_step hk.fresh he, ?_⟩
      intro c cause hc
      rw [hkilled] at hc
      exact killed_step hk he hc
    · have ⟨_, ⟨a, _, hstep⟩, hkilled⟩ := h
      have he := effect_of_step hstep
      refine ⟨whole.step hk.whole hstep, records_step hk.whole.1 hk.records he, freshCodes_step hk.fresh he, ?_⟩
      intro c cause hc
      rw [hkilled] at hc
      by_cases hct : c = t
      · subst hct
        rw [Function.update_self] at hc
        exact codes_event hS hk h hc
      · rw [Function.update_of_ne hct] at hc
        exact killed_step hk he hc

theorem returned_code (hw : Whole s) (hr : Records s) {t c : T} {v : ℤ} (h : s.returned = some (t, .exitCode c v)) :
    v = s.exitCode c := by
  obtain ⟨-, hstored, hreaped⟩ := hr.returned h
  have hcode := hr.code ((hw.1.own c).of_reaped hreaped).2.1
  exact Option.some.inj (hstored.symm.trans hcode)

/-! ### A wait that no other thread interrupts -/

/-- The `process_wait` of `t` for `c`, from the call to the return. -/
def WaitReturns (s : Sys T) (t c : T) (v : ℤ) : Prop :=
  ∃ n s', Run Step s (.wait t (s.pid c) :: List.replicate n (.run t)) s' ∧ s'.returned = some (t, .exitCode c v)

/-- The loop of `process_info_release`, by induction on the children that are left. -/
theorem release_returns {t c : T} {v : ℤ} : ∀ {rest : List T} {s : Sys T}, Whole s →
    s.place t = .releasing c rest (.wait v) →
    ∃ n s', Run Step s (List.replicate n (.run t)) s' ∧ s'.returned = some (t, .exitCode c v)
  | [], s, hw, ht => by
    have hlc := (hw.1.acts.releases (t := t) (by rw [ht]; rfl)).1
    refine ⟨1, { s with life := Function.update s.life c .freed }.return t (.exitCode c v), .cons ⟨?_, ?_⟩ .nil, rfl⟩
    · simp [Enabled, Runnable, ht]
    · simp [act, runThread, ht, endRelease, hlc]
  | d :: rest, s, hw, ht => by
    have ha : s.Allocated d := .inl (hw.2.ahead (t := t) (by rw [ht]; rfl) (by simp [ht, restOf])).2
    -- to the next element, while no other thread frees the child
    let s₁ := { s with parentPi := Function.update s.parentPi d none }.move t (.stepping c d rest (.wait v))
    have h1 : Step s (.run t) s₁ := by
      refine ⟨by simp [Enabled, Runnable, ht], ?_⟩
      simp [act, runThread, ht, ha, s₁]
    have ht1 : s₁.place t = .stepping c d rest (.wait v) := by simp [s₁]
    have ha1 : s₁.Allocated d := ha
    have h2 : Step s₁ (.run t) (s₁.move t (.releasing c rest (.wait v))) := by
      refine ⟨by simp [Enabled, Runnable, ht1], ?_⟩
      simp [act, runThread, ht1, ha1]
    have ht2 : (s₁.move t (.releasing c rest (.wait v))).place t = .releasing c rest (.wait v) := by simp
    obtain ⟨n, s', hrun, hret⟩ := release_returns (whole.step (whole.step hw h1) h2) ht2
    exact ⟨n + 2, s', .cons h1 (.cons h2 hrun), hret⟩

/-- **A wait for a dead child returns.** -/
theorem wait_returns (hw : Whole s) (hr : Records s) {t c : T} (ht : s.place t = .user) (hc : s.creator c = some t)
    (hl : s.onList c = true) (hre : s.reaped c = false) (hd : s.place c = .dead) : ∃ v, WaitReturns s t c v := by
  have h1 : Step s (.wait t (s.pid c)) (s.move t (.waiting c)) := ⟨ht, wait_child hw.1 hr ht hc hl hre⟩
  have hw1 := whole.step hw h1
  have hr1 := records_step hw.1 hr (effect_of_step h1)
  set s₁ := s.move t (.waiting c) with hs₁
  have hct : c ≠ t := fun h => by simp [h, ht] at hd
  have ht1 : s₁.place t = .waiting c := by simp [s₁]
  have hd1 : s₁.place c = .dead := by simp [s₁, hct, hd]
  obtain ⟨-, hlive, -⟩ := hw1.1.wait_child (t := t) (c := c) (by rw [ht1]; rfl)
  have hst1 : s₁.status c = .exited := by
    have ho := hw1.1.own c
    simp only [Own, view, hd1, hlive] at ho
    have hcr : s₁.creator c ≠ none := by simp [s₁, hc]
    grind [Exited]
  obtain ⟨v, hv, hiff⟩ := hw1.1.waiting_iff ht1
  have hv0 : v ≠ 0 := hiff.mpr ⟨hd1, hst1⟩
  have ha : s₁.Allocated c := .inl hlive
  have h2 : Step s₁ (.run t) ((s₁.setValue c (some (v - 1))).move t (.waited c)) := by
    refine ⟨by simp [Enabled, Runnable, ht1, hv, hv0], ?_⟩
    simp [act, runThread, ht1, ha, semaDown, hv]
  have hw2 := whole.step hw1 h2
  have hr2 := records_step hw1.1 hr1 (effect_of_step h2)
  obtain ⟨-, w, s₃, -, hact, -, ht3⟩ := wait_ends hw2.1 hr2 (t := t) (c := c) (by simp)
  have h3 : Step ((s₁.setValue c (some (v - 1))).move t (.waited c)) (.run t) s₃ :=
    ⟨by simp [Enabled, Runnable], hact⟩
  obtain ⟨n, s', hrun, hret⟩ := release_returns (whole.step hw2 h3) ht3
  exact ⟨w, n + 2, s', .cons h1 (.cons h2 (.cons h3 hrun)), hret⟩

/-- The exit code of a process that is on its way out is reported by every wait. -/
theorem run_code : ∀ {s s' : Sys T} {as : List (ProcAction T)} {c : T}, Whole s → Records s →
    Leaving (s.place c) = true → Run Step s as s' → Whole s' ∧ Records s' ∧ s'.exitCode c = s.exitCode c
  | _, _, _, _, hw, hr, _, .nil => ⟨hw, hr, rfl⟩
  | s, s', _, c, hw, hr, hl, .cons h hs => by
    obtain ⟨hl1, hcode, -⟩ := leaving_step (effect_of_step h) hl
    obtain ⟨hw', hr', hcode'⟩ := run_code (whole.step hw h) (records_step hw.1 hr (effect_of_step h)) hl1 hs
    exact ⟨hw', hr', hcode'.trans hcode⟩

theorem code_iff (cause : Cause) : cause.exitCode = -1 ↔ cause ≠ .exception := by
  cases cause <;> simp [Cause.exitCode]

/-- **How `process_wait` reports a process that the kernel has ended.** In every run: every wait that has
returned for it has returned `-1`, and every wait for it once it is dead returns `-1`, exactly if it was not
`kill` that ended it. -/
theorem reported_iff {S : Services ν κ} (hS : Mild S) {k : KSys T} (h : Reachable KInit (KStep S) k) {c : T}
    {cause : Cause} (hc : k.killed c = some cause) :
    (∀ t v, k.sys.returned = some (t, .exitCode c v) → (v = -1 ↔ cause ≠ .exception)) ∧
    ∀ t, k.sys.creator c = some t → k.sys.place t = .user → k.sys.place c = .dead → k.sys.reaped c = false →
      (∃ v, WaitReturns k.sys t c v) ∧ ∀ v, WaitReturns k.sys t c v → (v = -1 ↔ cause ≠ .exception) := by
  have hk := h.of_invariant (codes_invariant hS)
  obtain ⟨hl, hcode, hlist⟩ := hk.killed hc
  constructor
  · intro t v hret
    rw [returned_code hk.whole hk.records hret, hcode, code_iff]
  · intro t hcr ht hd hre
    refine ⟨wait_returns hk.whole hk.records ht hcr (hlist (by simp [hcr])) hre hd, ?_⟩
    rintro v ⟨n, s', hrun, hret⟩
    obtain ⟨hw', hr', hcode'⟩ := run_code hk.whole hk.records hl hrun
    rw [returned_code hw' hr' hret, hcode', hcode, code_iff]

/-! ### Two runs -/

/-- The next state of a run that is computed. -/
def nextK (S : Services ν κ) (k : KSys T) : KAction T ν κ → Option (KSys T)
  | .proc a => (next k.sys a).map fun s => { k with sys := s }
  | .event t e =>
    if k.sys.processInfo t then
      (action t (e.ending S)).bind fun a =>
        (next k.sys a).map fun s => ⟨s, Function.update k.killed t (e.cause S)⟩
    else none

theorem kstep_of_nextK {S : Services ν κ} {k k' : KSys T} {a : KAction T ν κ} (h : nextK S k a = some k') :
    KStep S k a k' := by
  rcases a with a | ⟨t, e⟩
  · obtain ⟨s, hs, rfl⟩ := Option.map_eq_some_iff.mp h
    exact ⟨step_of_next hs, rfl⟩
  · dsimp only [nextK] at h
    split_ifs at h with hp
    obtain ⟨a, ha, h⟩ := Option.bind_eq_some_iff.mp h
    obtain ⟨s, hs, rfl⟩ := Option.map_eq_some_iff.mp h
    exact ⟨hp, ⟨a, ha, step_of_next hs⟩, rfl⟩

/-- The main thread starts the process 1 and waits for it after the event. -/
def killedBy (e : Event ν κ) : List (KAction (Fin 2) ν κ) :=
  (exec 0 1).map .proc ++ [.event 1 e] ++
    [.run 1, .run 1, .run 1, .run 1, .wait 0 2, .run 0, .run 0, .run 0].map .proc

def killedInitial : KSys (Fin 2) := ⟨initial 0, fun _ => none⟩

theorem mild_oneDirectory : Mild UserPointers.oneDirectory := by
  constructor
  case vmHandleUserFault =>
    rintro addr write vm stop h
    cases h
    rfl
  all_goals
    intros
    intro s stop h
    cases h

/-- A read of the address 0, with the first stack page only. -/
def nullFault : Fault where
  pid := 1
  uaddr := 0
  esp := 0xbfffff00
  write := false
  env := StackGrowth.plenty
  envs _ := StackGrowth.plenty
  maps := StackGrowth.oneStackPage

theorem killed_reachable {S : Services ν κ} {e : Event ν κ} {r : Option (Fin 2 × Result (Fin 2))} {c : Option Cause}
    (h : ((killedBy e).foldlM (nextK S) killedInitial).map (fun k => (k.sys.returned, k.killed 1)) = some (r, c)) :
    ∃ k : KSys (Fin 2), Reachable KInit (KStep S) k ∧ k.sys.returned = r ∧ k.killed 1 = c := by
  obtain ⟨k, hk, h⟩ := Option.map_eq_some_iff.mp h
  obtain ⟨rfl, rfl⟩ := Prod.mk.inj h
  exact ⟨k, .of_foldlM kstep_of_nextK _ (.start ⟨init_initial 0, fun _ => rfl⟩) hk, rfl, rfl⟩

/-- A process divides by zero, and the wait for it returns `0`. -/
theorem killed_unreported : ¬∀ k : KSys (Fin 2), Reachable KInit (KStep UserPointers.oneDirectory) k →
    ∀ t c v cause, k.killed c = some cause → k.sys.returned = some (t, .exitCode c v) → v = -1 := by
  obtain ⟨k, hk, hr, hc⟩ := killed_reachable (S := UserPointers.oneDirectory) (e := .exception 0 nullFault)
    (r := some (0, .exitCode 1 0)) (c := some .exception) (by decide +kernel)
  intro hall
  have := hall k hk 0 1 0 .exception hc hr
  omega

/-- A process reads from the null pointer, and the wait for it returns `-1`. -/
theorem reported_iff_null : ∃ k : KSys (Fin 2), k.sys.returned = some (0, .exitCode 1 (-1)) ∧
    ((-1 : ℤ) = -1 ↔ Cause.pageFault ≠ .exception) := by
  obtain ⟨k, hk, hr, hc⟩ := killed_reachable (S := UserPointers.oneDirectory) (e := .exception 14 nullFault)
    (r := some (0, .exitCode 1 (-1))) (c := some .pageFault) (by decide +kernel)
  exact ⟨k, hr, (reported_iff mild_oneDirectory hk hc).1 0 (-1) hr⟩

end Pintos.Userprog.KilledProcess
