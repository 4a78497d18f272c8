import Pintos.Userprog.UserPointers
import Pintos.Userprog.Mmap

/-! # How the kernel ends a process

The interrupt handlers of exception.c and the system call handler, as far as they end the process that they
interrupt. `sys_exit` stores an exit code before it calls `thread_exit`; `kill` calls `thread_exit` only. All
the calls of `sys_exit` that the process has not asked for are `sys_exit (-1)`. -/

namespace Pintos.Userprog.Exceptions

open Pintos.Lib.Stopping
open Pintos.Filesys.Path
open Pintos.Filesys.DirState (DirEntry nameMax)
open Pintos.Vm.State Pintos.Vm.Vpage Pintos.Userprog.Mmap
open Pintos.Userprog.UserMem Pintos.Userprog.Syscall Pintos.Userprog.UserPointers

/-! ### Interrupts -/

/-- What a handler does with the thread that it interrupts. -/
inductive Ending
  | resumes
  | sysExit (exitCode : ℤ)
  /-- `thread_exit` without `sys_exit`. -/
  | threadExit
  | panic
  deriving DecidableEq

/-- `f->cs`. -/
inductive CodeSegment
  /-- `SEL_UCSEG`. -/
  | ucseg
  /-- `SEL_KCSEG`. -/
  | kcseg
  | unknown
  deriving DecidableEq

/-- `kill`. -/
def kill : CodeSegment → Ending
  | .ucseg => .threadExit
  | .kcseg => .panic
  | .unknown => .threadExit

/-- What `vm_handle_user_fault` ends with; it has no answer where an assertion fails. -/
def faultEnding : Option UserFaultType → Ending
  | some .kill => .sysExit (-1)
  | some .cont => .resumes
  | none => .panic

/-- `page_fault`, with `user`, `is_in_fault_region ()` and what `vm_handle_user_fault` answers. -/
def pageFault (user inFaultRegion : Bool) (cs : CodeSegment) (handled : Option UserFaultType) : Ending :=
  if user || inFaultRegion then faultEnding handled else kill cs

/-- The handlers that `exception_init` registers. -/
inductive Handler
  | kill
  | pageFault
  deriving DecidableEq

/-- The vectors of `kill` in `exception_init`. -/
def killVecs : List ℕ := [3, 4, 5, 0, 1, 6, 7, 11, 12, 13, 16, 19]

/-- `intr_handlers` as `exception_init` leaves it. -/
def intrHandlers (vec : ℕ) : Option Handler :=
  if vec ∈ killVecs then some .kill else if vec = 14 then some .pageFault else none

/-- `intr_handler` for an exception in user mode; one without a handler is counted and printed. -/
def intrHandler (vec : ℕ) (handled : Option UserFaultType) : Ending :=
  match intrHandlers vec with
  | some .kill => kill .ucseg
  | some .pageFault => pageFault true false .ucseg handled
  | none => .resumes

/-- A page fault as `vm_handle_user_fault` gets it, and the virtual memory at that time. -/
structure Fault where
  pid : Pid
  uaddr : ℕ
  esp : ℕ
  write : Bool
  env : Env
  envs : ℕ → Env
  maps : Maps

/-- What `vm_handle_user_fault` answers. -/
def Fault.handled (f : Fault) : Option UserFaultType :=
  (vmHandleUserFault f.pid f.env f.envs f.esp f.uaddr f.write f.maps).map (·.1)

/-! ### System calls -/

variable {ν κ α : Type} {S : Services ν κ} {s : CallState ν κ}

/-- A call of `sys_exit` stores `-1`. -/
def Fatal : Stop → Prop
  | .exit exitCode => exitCode = -1
  | .panic | .powerOff => True

def AsksFatal (m : Service ν κ α) : Prop := ∀ s stop, m s = .error stop → Fatal stop

/-- **The rest of the kernel**, where `sys_exit` is called by `vm_handle_user_fault` only, with `-1`. -/
structure Mild (S : Services ν κ) : Prop where
  vmHandleUserFault : ∀ addr write vm stop, S.vmHandleUserFault addr write vm = .error stop → Fatal stop
  malloc : ∀ n, AsksFatal (S.malloc n)
  filesysOpen : ∀ name, AsksFatal (S.filesysOpen name)
  filesysCreate : ∀ name size isDir, AsksFatal (S.filesysCreate name size isDir)
  filesysRemove : ∀ name, AsksFatal (S.filesysRemove name)
  changeDir : ∀ path, AsksFatal (S.changeDir path)
  dirClose : ∀ d, AsksFatal (S.dirClose d)
  fileClose : ∀ f, AsksFatal (S.fileClose f)
  fileReopen : ∀ f, AsksFatal (S.fileReopen f)
  fileRead : ∀ f size, AsksFatal (S.fileRead f size)
  fileWrite : ∀ f bytes, AsksFatal (S.fileWrite f bytes)
  fileSeek : ∀ f pos, AsksFatal (S.fileSeek f pos)
  fileLength : ∀ f, AsksFatal (S.fileLength f)
  inumber : ∀ inner, AsksFatal (S.inumber inner)
  inputGetc : AsksFatal S.inputGetc
  putbuf : ∀ bytes, AsksFatal (S.putbuf bytes)
  processExecute : ∀ cmdLine, AsksFatal (S.processExecute cmdLine)
  processWait : ∀ pid, AsksFatal (S.processWait pid)
  threadYield : AsksFatal S.threadYield
  sendSignal : ∀ pid signum, AsksFatal (S.sendSignal pid signum)
  setHandler : ∀ signum handler, AsksFatal (S.setHandler signum handler)
  mmapEntryAppend : ∀ f upage, AsksFatal (S.mmapEntryAppend f upage)
  mmapEntryRelease : ∀ mid, AsksFatal (S.mmapEntryRelease mid)

theorem stops_ask {m : Service ν κ α} (hm : AsksFatal m) : Stops Fatal (ask m) := by
  refine .bind .get fun t => ?_
  rcases h : m (t.vm, t.kernel) with stop | ⟨a, vm, kernel⟩
  · exact .throw (hm _ _ h)
  · exact .bind .set fun _ => .pure

theorem stops_assert (b : Bool) : Stops Fatal (UserMem.assert b : Sys ν κ Unit) := .ite .pure (.throw trivial)

section Mild

variable (hS : Mild S)
include hS

theorem stops_access (addr : ℕ) (write : Bool) : Stops Fatal (access S addr write) := by
  refine .bind .get fun t => .ite .pure (.ite ?_ (.throw trivial))
  rcases h : S.vmHandleUserFault addr write t.vm with stop | vm
  · exact .throw (hS.vmHandleUserFault _ _ _ _ h)
  · exact .set

theorem stops_loadBytes : ∀ src size, Stops Fatal (loadBytes S src size)
  | _, 0 => .pure
  | src, size + 1 => .bind (.bind (stops_access hS src false) fun _ => .bind .get fun _ => .pure) fun _ =>
      .bind (stops_loadBytes ((src + 1) % 2 ^ 32) size) fun _ => .pure

theorem stops_store (addr : ℕ) (byte : UInt8) : Stops Fatal (store S addr byte) :=
  .bind .modify fun _ => .bind (stops_access hS addr true) fun _ => .modify

theorem stops_storeBytes : ∀ dst bytes, Stops Fatal (storeBytes S dst bytes)
  | _, [] => .pure
  | dst, byte :: bytes => .bind (stops_store hS dst byte) fun _ =>
      stops_storeBytes ((dst + 1) % 2 ^ 32) bytes

theorem stops_memcpyFrom (src size : ℕ) : Stops Fatal (memcpyFrom S src size) :=
  .bind (stops_assert _) fun _ => stops_loadBytes hS src size

theorem stops_memcpyTo (dst : ℕ) (bytes : List UInt8) : Stops Fatal (memcpyTo S dst bytes) :=
  .bind (stops_assert _) fun _ => stops_storeBytes hS dst bytes

theorem stops_copyFromUser (uaddr length : ℕ) : Stops Fatal (copyFromUser S uaddr length) := by
  have hfail : Stops Fatal (do faultRegionExit; return none : Sys ν κ (Option (List UInt8))) :=
    .bind .modify fun _ => .pure
  refine .bind .modify fun _ => .ite hfail (.ite hfail ?_)
  exact .bind (stops_memcpyFrom hS uaddr length) fun _ => .bind .modify fun _ => .pure

theorem stops_copyToUser (uaddr : ℕ) (bytes : List UInt8) : Stops Fatal (copyToUser S uaddr bytes) := by
  have hfail : Stops Fatal (do faultRegionExit; return false : Sys ν κ Bool) := .bind .modify fun _ => .pure
  refine .bind .modify fun _ => .ite hfail (.ite hfail ?_)
  exact .bind (stops_memcpyTo hS uaddr bytes) fun _ => .bind .modify fun _ => .pure

theorem stops_userStrlen (str : ℕ) : ∀ left i, Stops Fatal (userStrlen S str left i)
  | 0, _ => .pure
  | left + 1, i => by
    refine .bind (stops_copyFromUser hS _ 1) fun r => ?_
    rcases r with _ | bytes
    · exact .pure
    · exact .ite .pure (stops_userStrlen str left (i + 1))

theorem stops_strdupUser (str : ℕ) : Stops Fatal (strdupUser S str) := by
  refine .bind (stops_userStrlen hS str _ 0) fun r => ?_
  rcases r with _ | length
  · exact .pure
  refine .bind (stops_ask (hS.malloc _)) fun ok => .ite (.bind (stops_copyFromUser hS str _) fun out => ?_) .pure
  rcases out with _ | out <;> exact .pure

/-- A bad string ends the process with `-1`. -/
theorem stops_withString (str : ℕ) (failed : ℤ) {call : CStr → Sys ν κ ℤ} (h : ∀ copy, Stops Fatal (call copy)) :
    Stops Fatal (withString S str failed call) := by
  refine .bind (stops_strdupUser hS str) fun r => ?_
  rcases r with copy | _ | _
  · exact .bind (h copy) fun _ => .pure
  · exact .throw rfl
  · exact .pure

theorem stops_append (inner : Inner) : Stops Fatal (append S inner) := by
  refine .bind (stops_ask (hS.malloc _)) fun ok => .ite (.bind .get fun _ => .bind .set fun _ => .pure) .pure

theorem stops_sysOpen (fileName : ℕ) : Stops Fatal (sysOpen S fileName) := by
  refine stops_withString hS fileName _ fun copy => .bind (stops_ask (hS.filesysOpen copy)) fun r => ?_
  rcases r with _ | inner
  · exact .pure
  refine .bind (stops_append hS inner) fun fd => ?_
  rcases fd with _ | fd <;> exact .pure

theorem stops_userFileRelease (f : UserFile) : Stops Fatal (userFileRelease S f) := by
  unfold userFileRelease
  rcases f.inner with _ | _ | file | d
  · exact .pure
  · exact .pure
  · exact stops_ask (hS.fileClose file)
  · exact stops_ask (hS.dirClose d)

theorem stops_sysClose (fd : ℤ) : Stops Fatal (sysClose S fd) := by
  refine .bind .get fun t => ?_
  rcases userFileGet t.userFiles fd with _ | f
  · exact .pure
  dsimp only
  rcases f.inner with _ | _ | file | d
  · exact .pure
  · exact .pure
  · exact .bind .set fun _ => .bind (stops_userFileRelease hS f) fun _ => .pure
  · exact .bind .set fun _ => .bind (stops_userFileRelease hS f) fun _ => .pure

/-- So does a buffer that cannot be written. -/
theorem stops_sysRead (fd : ℤ) (data dataLen : ℕ) : Stops Fatal (sysRead S fd data dataLen) := by
  refine .ite .pure (.bind (stops_ask (hS.malloc _)) fun ok => .ite (.bind .get fun t => ?_) .pure)
  rcases userFileGet t.userFiles fd with _ | f
  · exact .pure
  dsimp only
  rcases f.inner with _ | _ | file | d
  · exact .bind (.forM _ fun _ => .bind (stops_ask hS.inputGetc) fun _ => .pure) fun _ => .pure
  · exact .pure
  · refine .bind (stops_ask (hS.fileRead file _)) fun ⟨bytesRead, copy⟩ => .ite .pure ?_
    exact .bind (stops_copyToUser hS data _) fun done => .ite .pure (.throw rfl)
  · exact .pure

/-- And one that cannot be read. -/
theorem stops_sysWrite (fd : ℤ) (data dataLen : ℕ) : Stops Fatal (sysWrite S fd data dataLen) := by
  refine .ite .pure (.bind (stops_ask (hS.malloc _)) fun ok => .ite ?_ .pure)
  refine .bind (stops_copyFromUser hS data _) fun r => ?_
  rcases r with _ | copy
  · exact .throw rfl
  refine .bind .get fun t => ?_
  rcases userFileGet t.userFiles fd with _ | f
  · exact .pure
  dsimp only
  rcases f.inner with _ | _ | file | d
  · exact .pure
  · exact .bind (stops_ask (hS.putbuf _)) fun _ => .pure
  · exact .bind (stops_ask (hS.fileWrite file _)) fun _ => .pure
  · exact .pure

theorem stops_strlcpy (dst : ℕ) (src : CStr) (size : ℕ) : Stops Fatal (strlcpy S dst src size) :=
  .bind (stops_assert _) fun _ =>
    .ite (.bind (stops_memcpyTo hS dst _) fun _ => stops_store hS _ _) .pure

theorem stops_readdirFrom (d name : ℕ) : ∀ entries : List DirEntry, Stops Fatal (readdirFrom S d name entries)
  | [] => .pure
  | e :: entries => .bind .modify fun _ =>
      .ite (.bind (stops_strlcpy hS name e.name _) fun _ => .pure) (stops_readdirFrom d name entries)

theorem stops_sysReaddir (fd : ℤ) (name : ℕ) : Stops Fatal (sysReaddir S fd name) := by
  refine .bind .get fun t => ?_
  rcases userFileGet t.userFiles fd with _ | f
  · exact .pure
  dsimp only
  rcases f.inner with _ | _ | file | d
  · exact .pure
  · exact .pure
  · exact .pure
  · exact .bind (.bind .get fun t => stops_readdirFrom hS d name _) fun _ => .pure

theorem stops_sysInumber (fd : ℤ) : Stops Fatal (sysInumber S fd) := by
  refine .bind .get fun t => ?_
  rcases userFileGet t.userFiles fd with _ | f
  · exact .pure
  dsimp only
  rcases h : f.inner with _ | _ | file | d
  · exact .pure
  · exact .pure
  · exact .bind (stops_ask (hS.inumber _)) fun _ => .pure
  · exact .bind (stops_ask (hS.inumber _)) fun _ => .pure

omit hS in
theorem stops_sysIsdir (fd : ℤ) : Stops Fatal (sysIsdir fd : Sys ν κ (Option ℤ)) := by
  refine .bind .get fun t => ?_
  rcases userFileGet t.userFiles fd with _ | f
  · exact .pure
  dsimp only
  rcases f.inner with _ | _ | file | d <;> exact .pure

omit hS in
theorem stops_withFile (fd : ℤ) {call : ℕ → Sys ν κ ℤ} (h : ∀ file, Stops Fatal (call file)) :
    Stops Fatal (withFile fd call) := by
  refine .bind .get fun t => ?_
  rcases userFileGet t.userFiles fd with _ | f
  · exact .pure
  dsimp only
  rcases f.inner with _ | _ | file | d
  · exact .pure
  · exact .pure
  · exact .bind (h file) fun _ => .pure
  · exact .pure

theorem stops_sysMmap (fd : ℤ) (data : ℕ) : Stops Fatal (sysMmap S fd data) := by
  refine .ite .pure (stops_withFile fd fun file => .bind (stops_ask (hS.fileReopen file)) fun f => .ite .pure ?_)
  refine .bind (stops_ask (hS.mmapEntryAppend f _)) fun mid => ?_
  rcases mid with _ | mid <;> exact .pure

/-- **Every system call but `exit`** ends the process with `-1`, if it ends it. -/
theorem stops_dispatch (arg : ℕ → ℕ) (nr : Option SyscallNr) (hnr : nr ≠ some .exit) :
    Stops Fatal (dispatch S arg nr) := by
  rcases nr with _ | nr
  · exact .pure
  cases nr with
  | exit => exact absurd rfl hnr
  | halt => exact .throw trivial
  | exec => exact stops_withString hS _ _ fun copy => stops_ask (hS.processExecute copy)
  | wait => exact .bind (stops_ask (hS.processWait _)) fun _ => .pure
  | create =>
    exact stops_withString hS _ _ fun copy => .bind (stops_ask (hS.filesysCreate copy _ _)) fun _ => .pure
  | mkdir =>
    exact stops_withString hS _ _ fun copy => .bind (stops_ask (hS.filesysCreate copy _ _)) fun _ => .pure
  | remove => exact stops_withString hS _ _ fun copy => .bind (stops_ask (hS.filesysRemove copy)) fun _ => .pure
  | chdir => exact stops_withString hS _ _ fun copy => .bind (stops_ask (hS.changeDir copy)) fun _ => .pure
  | «open» => exact stops_sysOpen hS _
  | filesize => exact stops_withFile _ fun file => stops_ask (hS.fileLength file)
  | tell => exact stops_withFile _ fun file => stops_ask (hS.fileLength file)
  | read => exact stops_sysRead hS _ _ _
  | write => exact stops_sysWrite hS _ _ _
  | seek => exact stops_withFile _ fun file => .bind (stops_ask (hS.fileSeek file _)) fun _ => .pure
  | close => exact stops_sysClose hS _
  | sigaction => exact .bind (stops_ask (hS.setHandler _ _)) fun _ => .ite .pure .pure
  | sendsig => exact .bind (stops_ask (hS.sendSignal _ _)) fun _ => .ite .pure .pure
  | yield => exact .bind (stops_ask hS.threadYield) fun _ => .pure
  | mmap => exact stops_sysMmap hS _ _
  | munmap => exact .bind (stops_ask (hS.mmapEntryRelease _)) fun _ => .pure
  | readdir => exact stops_sysReaddir hS _ _
  | isdir => exact stops_sysIsdir _
  | inumber => exact stops_sysInumber hS _

/-- The process asks for `exit`: its words at `esp` can be read and say so. -/
def asksExit (S : Services ν κ) (esp : ℕ) (s : CallState ν κ) : Bool :=
  accessOk esp && accessOk ((esp + argsSize) % 2 ^ 32) && decide (esp ≠ 0) &&
    (readIn S esp argsSize s.vm).toBool && decide (syscallNrs[argWord s esp 0]? = some .exit)

/-- **A system call that the process has not asked to end it.** If it does, it is with `sys_exit (-1)`. -/
theorem handler_fatal {esp : ℕ} (hasks : asksExit S esp s = false) : StopsAt Fatal (syscallHandler S esp) s := by
  unfold syscallHandler
  split_ifs with hok
  · exact Stops.throw (R := Fatal) (e := .exit (-1)) rfl s
  refine Stops.bind_ends (Q := fun _ t => t = { s with faultAllowed := true }) .modify (.modify rfl) ?_
  rintro - _ rfl
  refine Stops.bind_ends (Q := fun bytes _ => bytes = bytesAt s.mem esp argsSize ∧ esp ≠ 0 ∧
    ∃ vm, readIn S esp argsSize s.vm = .ok vm) (stops_memcpyFrom hS esp argsSize) ?_ ?_
  · refine .bind (.ite (fun hesp => .pure ?_) fun _ => .throw trivial)
    refine (loadBytes_spec rfl).mono (fun bytes t ht => ?_) fun t _ => trivial
    obtain ⟨vm, hread, rfl, rfl⟩ := ht
    exact ⟨rfl, by simpa [argsSize] using hesp, vm, hread⟩
  · rintro bytes t ⟨rfl, hesp, vm, hread⟩
    refine (Stops.bind .modify fun _ => stops_dispatch hS _ _ fun hnr => ?_) t
    have htrue : asksExit S esp s = true := by
      obtain ⟨hok1, hok2⟩ : accessOk esp = true ∧ accessOk ((esp + argsSize) % 2 ^ 32) = true := by
        simpa [not_or] using hok
      have hnr : syscallNrs[argWord s esp 0]? = some .exit := hnr
      rw [asksExit, hok1, hok2, hread, hnr, decide_eq_true hesp]
      rfl
    rw [hasks] at htrue
    cases htrue

end Mild

end Pintos.Userprog.Exceptions
