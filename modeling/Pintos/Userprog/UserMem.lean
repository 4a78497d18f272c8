import Pintos.Lib.Stopping
import Pintos.Filesys.DirState

/-! # User memory from the kernel's side (userprog/usermem.c)

A system call of one process: the bytes of its address space, its open files, the flag
`kernel_fault_allowed`, and every store the kernel makes through an address the process handed in, with the
flag as it was when the store was issued. An address is a natural number that arithmetic takes modulo
`2 ^ 32`. The rest of the kernel is a parameter: `Services` has what a system call asks of it, all of it on
copies in kernel memory. No other thread runs during the call. -/

namespace Pintos.Userprog.UserMem

open Pintos.Lib.Stopping
open Pintos.Filesys.Path
open Pintos.Filesys.DirState (Dir DirEntry InodePtr)

/-- `PHYS_BASE`: user addresses are below it. -/
def physBase : ℕ := 0xc0000000

/-- `PGSIZE`. -/
def pgSize : ℕ := 4096

/-- Why a call does not come back to the process. -/
inductive Stop
  /-- `sys_exit`: this process ends. -/
  | exit (code : ℤ)
  /-- An assertion, or a fault of the kernel that is not allowed. -/
  | panic
  | powerOff
  deriving DecidableEq

/-- A store of the kernel through a user's address. -/
structure Store where
  addr : ℕ
  byte : UInt8
  /-- `kernel_fault_allowed` at the store. -/
  allowed : Bool
  deriving DecidableEq

/-- `struct user_file` without its `fd`; an open file is known by its address. -/
inductive Inner
  | stdin
  | stdout
  | file (f : ℕ)
  | dir (d : ℕ)
  deriving DecidableEq

/-- `struct user_file`. -/
structure UserFile where
  fd : ℤ
  inner : Inner
  deriving DecidableEq

/-- The state of a call; `ν` is the virtual memory and `κ` everything else the kernel keeps. -/
structure CallState (ν κ : Type) where
  vm : ν
  kernel : κ
  /-- The bytes of the address space. -/
  mem : ℕ → UInt8
  /-- `process_info->user_file_list`. -/
  userFiles : List UserFile
  /-- The `struct dir` of every open directory. -/
  dirs : ℕ → Dir
  /-- `kernel_fault_allowed`. -/
  faultAllowed : Bool
  stores : List Store

/-- A function of the kernel that sees no user address it could store through. -/
abbrev Service (ν κ α : Type) := StateT (ν × κ) (Except Stop) α

/-- What a system call asks of the rest of the kernel. -/
structure Services (ν κ : Type) where
  /-- The page of an address is there, and writable for a write. -/
  present : ν → ℕ → Bool → Bool
  /-- `vm_handle_user_fault`: back with the page in place, or the process is ended. -/
  vmHandleUserFault : ℕ → Bool → ν → Except Stop ν
  malloc : ℕ → Service ν κ Bool
  /-- The slots of a directory, as `inode_read_at` returns them. -/
  slots : κ → InodePtr → List DirEntry
  filesysOpen : CStr → Service ν κ (Option Inner)
  filesysCreate : CStr → (initialSize : ℕ) → (isDir : Bool) → Service ν κ Bool
  filesysRemove : CStr → Service ν κ Bool
  /-- `path_canonicalize`, `dir_open_canon_path` and the move of the current directory. -/
  changeDir : CStr → Service ν κ Bool
  dirClose : ℕ → Service ν κ Unit
  fileClose : ℕ → Service ν κ Unit
  fileReopen : ℕ → Service ν κ ℕ
  /-- `file_read` into a buffer: the result and what is in the buffer then. -/
  fileRead : ℕ → (size : ℕ) → Service ν κ (ℤ × List UInt8)
  fileWrite : ℕ → List UInt8 → Service ν κ ℤ
  fileSeek : ℕ → (newPos : ℤ) → Service ν κ Unit
  fileLength : ℕ → Service ν κ ℤ
  /-- `inode_get_inumber` of an open file or directory. -/
  inumber : Inner → Service ν κ ℤ
  inputGetc : Service ν κ UInt8
  putbuf : List UInt8 → Service ν κ Unit
  processExecute : CStr → Service ν κ ℤ
  processWait : ℤ → Service ν κ ℤ
  threadYield : Service ν κ Unit
  /-- `get_process_info`, `pending_signal_allocate` and the entry in the list of signals. -/
  sendSignal : (pid signum : ℤ) → Service ν κ Bool
  /-- `get_signal_handler_info` or a new entry, with the handler's address in it. -/
  setHandler : (signum : ℤ) → (handler : ℕ) → Service ν κ Bool
  /-- `mmap_entry_append`, which only notes the address. -/
  mmapEntryAppend : ℕ → (upage : ℕ) → Service ν κ (Option ℤ)
  /-- `mmap_entry_get` and `mmap_entry_release`, which reads the pages of the mapping. -/
  mmapEntryRelease : (mid : ℤ) → Service ν κ Unit

variable {ν κ α : Type}

/-- A step of a system call. -/
abbrev Sys (ν κ α : Type) := Call Stop (CallState ν κ) α

/-- Asks the rest of the kernel. -/
def ask (m : Service ν κ α) : Sys ν κ α := do
  let s ← get
  match m (s.vm, s.kernel) with
  | .ok (a, vm, kernel) => do
    set { s with vm := vm, kernel := kernel }
    return a
  | .error stop => throw stop

/-- `ASSERT`. -/
def assert (b : Bool) : Sys ν κ Unit := if b then pure () else throw .panic

/-! ### Single bytes -/

/-- An access of the kernel to a byte, and `page_fault` if its page is not there. -/
def access (S : Services ν κ) (addr : ℕ) (write : Bool) : Sys ν κ Unit := do
  let s ← get
  if S.present s.vm addr write then pure ()
  else if s.faultAllowed then
    match S.vmHandleUserFault addr write s.vm with
    | .ok vm => set { s with vm := vm }
    | .error stop => throw stop
  else throw .panic

def load (S : Services ν κ) (addr : ℕ) : Sys ν κ UInt8 := do
  access S addr false
  let s ← get
  return s.mem addr

def store (S : Services ν κ) (addr : ℕ) (byte : UInt8) : Sys ν κ Unit := do
  modify fun s => { s with stores := s.stores ++ [⟨addr, byte, s.faultAllowed⟩] }
  access S addr true
  modify fun s => { s with mem := Function.update s.mem addr byte }

/-- The loop of `memcpy` out of user memory. -/
def loadBytes (S : Services ν κ) : ℕ → ℕ → Sys ν κ (List UInt8)
  | _, 0 => return []
  | src, size + 1 => do
    let byte ← load S src
    let bytes ← loadBytes S ((src + 1) % 2 ^ 32) size
    return byte :: bytes

/-- The loop of `memcpy` into user memory. -/
def storeBytes (S : Services ν κ) : ℕ → List UInt8 → Sys ν κ Unit
  | _, [] => return ()
  | dst, byte :: bytes => do
    store S dst byte
    storeBytes S ((dst + 1) % 2 ^ 32) bytes

/-- `memcpy` from a user's address. -/
def memcpyFrom (S : Services ν κ) (src size : ℕ) : Sys ν κ (List UInt8) := do
  assert (src ≠ 0 ∨ size = 0)
  loadBytes S src size

/-- `memcpy` to a user's address. -/
def memcpyTo (S : Services ν κ) (dst : ℕ) (bytes : List UInt8) : Sys ν κ Unit := do
  assert (dst ≠ 0 ∨ bytes.length = 0)
  storeBytes S dst bytes

/-! ### usermem.c -/

/-- `access_ok`; only the address counts. -/
def accessOk (userptr : ℕ) : Bool := userptr < physBase

/-- `fault_region_enter`. -/
def faultRegionEnter : Sys ν κ Unit := modify fun s => { s with faultAllowed := true }

/-- `fault_region_exit`. -/
def faultRegionExit : Sys ν κ Unit := modify fun s => { s with faultAllowed := false }

/-- `pg_round_down`. -/
def pgRoundDown (addr : ℕ) : ℕ := addr / pgSize * pgSize

/-- The loop over `cnt` pages from `iterPg` on; it leaves at `PHYS_BASE`, before `iter_pg` wraps around. -/
def pagesOk : (cnt iterPg : ℕ) → Bool
  | 0, _ => true
  | cnt + 1, iterPg => accessOk iterPg && pagesOk cnt (iterPg + pgSize)

/-- The pages from `firstPg` to `lastPg`. -/
def pageCnt (firstPg lastPg : ℕ) : ℕ := if firstPg ≤ lastPg then (lastPg - firstPg) / pgSize + 1 else 0

/-- `copy_from_user`; `none` is `-1`. -/
def copyFromUser (S : Services ν κ) (uaddr length : ℕ) : Sys ν κ (Option (List UInt8)) := do
  faultRegionEnter
  let firstPg := pgRoundDown uaddr
  let lastPg := pgRoundDown ((uaddr + length + (2 ^ 32 - 1)) % 2 ^ 32)
  if (uaddr + length) % 2 ^ 32 ≤ uaddr then do
    faultRegionExit
    return none
  else if ¬pagesOk (pageCnt firstPg lastPg) firstPg then do
    faultRegionExit
    return none
  else do
    let bytes ← memcpyFrom S uaddr length
    faultRegionExit
    return some bytes

/-- `copy_to_user`; `false` is `-1`. -/
def copyToUser (S : Services ν κ) (uaddr : ℕ) (bytes : List UInt8) : Sys ν κ Bool := do
  faultRegionEnter
  let firstPg := pgRoundDown uaddr
  let lastPg := pgRoundDown ((uaddr + bytes.length) % 2 ^ 32)
  if (uaddr + bytes.length) % 2 ^ 32 < uaddr then do
    faultRegionExit
    return false
  else if ¬pagesOk (pageCnt firstPg lastPg) firstPg then do
    faultRegionExit
    return false
  else do
    memcpyTo S uaddr bytes
    faultRegionExit
    return true

end Pintos.Userprog.UserMem
