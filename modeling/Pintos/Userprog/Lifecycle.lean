import Pintos.Userprog.Load
import Pintos.Vm.Run

/-! # The life of a process

`process_execute`, `load`, page faults and `process_exit`, as far as virtual memory is concerned. A process
gets its pid when its thread starts; `thread->process_info` is set only when `load` has succeeded. A thread
that exits without it skips `vpage_info_release_all` and goes straight to `pagedir_destroy`. Between two
steps of one process any other process may run. -/

namespace Pintos.Userprog.Lifecycle

open Pintos.Lib.Ops Pintos.Filesys.Path Pintos.Vm.State Pintos.Vm.Vpage Pintos.Vm.Run
open Pintos.Userprog.Load

/-- Where a process is. The numbers count the vpages that `load` has registered. -/
inductive Phase
  | unborn
  /-- In `load`, with these steps to go. -/
  | loading (registered : ℕ) (rest : List LoadStep)
  /-- `load` has failed; the thread is about to exit without a `process_info`. -/
  | failed (registered : ℕ)
  | running
  /-- In `process_exit`, after `vpage_info_release_all`. -/
  | exiting
  | dead
  deriving DecidableEq

structure Sys where
  vm : VM
  phase : Pid → Phase
  /-- `pid_allocator.last_pid`. -/
  lastPid : Pid

def Sys.setPhase (s : Sys) (p : Pid) (ph : Phase) : Sys :=
  { s with phase := Function.update s.phase p ph }

/-- An operation on virtual memory. -/
def onVM {α : Type} (m : Op VM α) : Op Sys α := fun s =>
  (m s.vm).map fun r => (r.1, { s with vm := r.2 })

def setPhase (p : Pid) (ph : Phase) : Op Sys Unit := modify (·.setPhase p ph)

/-- The name of the executable is the command line up to its first space. -/
def fileNameLen (cmdLine : CStr) : ℕ := (cmdLine.takeWhile (· ≠ ' ')).length

/-- `sizeof (pi->file_name)`. -/
def sizeofFileName : ℕ := 20

/-- The page under `PHYS_BASE`. -/
def stackUpage : Upage := physBase - 1

/-! ### The steps -/

/-- `start_process` up to the open file: the new pid, the page directory `d` if there was memory for one, and
the executable that `filesys_open` found, if it found one. -/
def startProcess (cmdLine : CStr) (file : Option FileId) (d : Option PdId) : Op Sys Unit := do
  let s ← get
  let p := s.lastPid
  set { s with lastPid := p + 1 }
  match d with
  | none => setPhase p .dead
  | some d => do
    assert (s.vm.pagedirs d).isNone
    onVM (modify (createPagedir · p d))
    assert (fileNameLen cmdLine + 1 < sizeofFileName)
    match file with
    | none => setPhase p (.loading 0 [.fail])
    | some file => setPhase p (.loading 0 (loadSteps file (s.vm.files file) cmdLine))

/-- `palloc_free_page` of an address that `setup_stack` never set; a null pointer is not freed. -/
def freeUnset (kpage : Option Frame) : Op VM Unit :=
  match kpage with
  | some f => pallocFreePage f
  | none => return ()

/-- The next step of `load`, or its end. The address `kpage` is what the variable of that name in
`setup_stack` holds before it is set. -/
def loadNext (p : Pid) (env : Env) (kpage : Option Frame) : Op Sys Unit := do
  let s ← get
  match s.phase p with
  | .loading n (.segmentPage u i w :: rest) => do
    let ok ← onVM (lazyAllocate env u i p w)
    setPhase p (if ok then .loading (n + 1) rest else .failed n)
  | .loading n (.setupStack :: rest) => do
    match ← onVM (inmemAllocate p env stackUpage p true) with
    | some _ => setPhase p (.loading (n + 1) rest)
    | none => do
      onVM (freeUnset kpage)
      setPhase p (.failed n)
  | .loading n (.fail :: _) => setPhase p (.failed n)
  | .loading _ [] => setPhase p .running
  | _ => halt

/-- The calls and accesses that a running process makes for itself: faults, `mmap` and `munmap`, growth of
the stack, loads and stores. A process in `load` only writes its arguments to the stack; a fault would
follow its `process_info`, a null pointer. -/
def Own (p : Pid) : Phase → Action → Bool
  | .running, .fault q _ _ => q = p
  | .running, .lazyAllocate _ _ _ q _ => q = p
  | .running, .setWritable _ _ q _ => q = p
  | .running, .release k => k.pid = p
  | .running, .findAndRelease _ q => q = p
  | .running, .load q _ _ => q = p
  | .running, .store q _ _ _ => q = p
  | .running, .fileWrite _ _ => true
  | .loading _ _, .load q _ _ => q = p
  | .loading _ _, .store q _ _ _ => q = p
  | _, _ => false

/-- A step of the process `p` itself. -/
def own (p : Pid) (a : Action) : Op Sys Unit := do
  let s ← get
  assert (Own p (s.phase p) a)
  let _ ← onVM (act a)

/-- `process_exit` up to `vpage_info_release_all`, for a thread with a `process_info`. -/
def exitRunning (p : Pid) : Op Sys Unit := do
  let s ← get
  assert (s.phase p = .running)
  onVM (releaseAll p)
  setPhase p .exiting

/-- Whether the thread has reached `pagedir_destroy`. -/
def Phase.destroying : Phase → Bool
  | .failed _ => true
  | .exiting => true
  | _ => false

/-- The end of `process_exit`. -/
def destroyPagedir (p : Pid) : Op Sys Unit := do
  let s ← get
  assert (s.phase p).destroying
  onVM (exitPagedir p)
  setPhase p .dead

inductive LifeAction
  | start (cmdLine : CStr) (file : Option FileId) (d : Option PdId)
  | load (p : Pid) (env : Env) (kpage : Option Frame)
  | own (p : Pid) (a : Action)
  | exit (p : Pid)
  | destroy (p : Pid)
  /-- The hash table goes through its elements in another order from now on. -/
  | rehash (m : List VpageInfo)

def lifeAct : LifeAction → Op Sys Unit
  | .start cmdLine file d => startProcess cmdLine file d
  | .load p env kpage => loadNext p env kpage
  | .own p a => own p a
  | .exit p => exitRunning p
  | .destroy p => destroyPagedir p
  | .rehash m => do let _ ← onVM (act (.rehash m))

/-- **The transition relation.** -/
def LifeStep (s : Sys) (a : LifeAction) (s' : Sys) : Prop :=
  (∀ m, a = .rehash m → s.vm.map.Perm m) ∧ lifeAct a s = some ((), s')

/-- Before the first process: pids count from 1. -/
def LifeInit (s : Sys) : Prop := Init s.vm ∧ (∀ p, s.phase p = .unborn) ∧ s.lastPid = 1

end Pintos.Userprog.Lifecycle
