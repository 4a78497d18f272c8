import Pintos.Userprog.UserMem

/-! # System calls (userprog/syscall.c)

`syscall_handler` and the functions it calls, down to what `Services` answers. The value of a call is what
`f->eax` gets; `none` stands for no value or an indeterminate one, where the source returns nothing. Memory
that a call frees is not tracked. -/

namespace Pintos.Userprog.Syscall

open Pintos.Lib.Stopping
open Pintos.Filesys.Path
open Pintos.Filesys.DirState (DirEntry nameMax)
open Pintos.Userprog.UserMem

variable {ν κ : Type}

/-- A word as a C `int`. -/
def toInt (word : ℕ) : ℤ := if word < 2 ^ 31 then word else (word : ℤ) - 2 ^ 32

/-- Bytes as a C string, up to the first null byte. -/
def toCStr (bytes : List UInt8) : CStr :=
  (bytes.takeWhile (· ≠ 0)).map fun b => Char.ofNat b.toNat

/-- The bytes of a C string without the null byte. -/
def toBytes (str : CStr) : List UInt8 := str.map fun c => UInt8.ofNat c.toNat

/-! ### The open files of the process -/

/-- `user_file_get`. -/
def userFileGet (files : List UserFile) (fd : ℤ) : Option UserFile := files.find? (·.fd = fd)

/-- The loop of `fd_allocate`, with `new_fd` at `newFd`. -/
def fdAllocateFrom : ℤ → List UserFile → ℤ
  | newFd, [] => newFd
  | newFd, f :: fs => if f.fd = newFd then fdAllocateFrom (newFd + 1) fs else newFd

/-- `fd_allocate`. -/
def fdAllocate (files : List UserFile) : ℤ := fdAllocateFrom 0 files

/-- `list_insert_ordered` by `user_file_less`. -/
def insertOrdered (f : UserFile) : List UserFile → List UserFile
  | [] => [f]
  | e :: es => if f.fd < e.fd then f :: e :: es else e :: insertOrdered f es

/-- `append_file` and `append_dir`; the new descriptor, or `none` without memory. -/
def append (S : Services ν κ) (inner : Inner) : Sys ν κ (Option ℤ) := do
  if ← ask (S.malloc 20) then do
    let s ← get
    let fd := fdAllocate s.userFiles
    set { s with userFiles := insertOrdered ⟨fd, inner⟩ s.userFiles }
    return some fd
  else return none

/-- `user_file_release`. -/
def userFileRelease (S : Services ν κ) (f : UserFile) : Sys ν κ Unit :=
  match f.inner with
  | .dir d => ask (S.dirClose d)
  | .file f => ask (S.fileClose f)
  | _ => return ()

/-! ### Strings -/

/-- What `strdup_user` answers. -/
inductive Dup
  | copy (str : CStr)
  | fault
  | noMemory
  deriving DecidableEq

/-- The loop of `strdup_user` that looks for the null byte from index `i` on; the addresses run out at
`PHYS_BASE`. -/
def userStrlen (S : Services ν κ) (str : ℕ) : (left i : ℕ) → Sys ν κ (Option ℕ)
  | 0, _ => return none
  | left + 1, i => do
    match ← copyFromUser S ((str + i) % 2 ^ 32) 1 with
    | none => return none
    | some bytes => if bytes = [0] then return some i else userStrlen S str left (i + 1)

/-- `strdup_user`. -/
def strdupUser (S : Services ν κ) (str : ℕ) : Sys ν κ Dup := do
  match ← userStrlen S str (physBase + 1) 0 with
  | none => return .fault
  | some length =>
    if ← ask (S.malloc (length + 1)) then do
      match ← copyFromUser S str (length + 1) with
      | none => return .fault
      | some out => return .copy (toCStr out)
    else return .noMemory

/-- `sys_exit`. -/
def sysExit {α : Type} (exitCode : ℤ) : Sys ν κ α := throw (.exit exitCode)

/-- A call on a copied string: the process ends if the string is not readable, and `failed` is the answer
without memory. -/
def withString (S : Services ν κ) (str : ℕ) (failed : ℤ) (call : CStr → Sys ν κ ℤ) :
    Sys ν κ (Option ℤ) := do
  match ← strdupUser S str with
  | .fault => sysExit (-1)
  | .noMemory => return some failed
  | .copy copy => do
    let r ← call copy
    return some r

/-- The value of a `bool` as an `int`. -/
def ofBool (b : Bool) : ℤ := if b then 1 else 0

/-! ### Files by name -/

/-- `sys_open`. -/
def sysOpen (S : Services ν κ) (fileName : ℕ) : Sys ν κ (Option ℤ) :=
  withString S fileName (-1) fun copy => do
    match ← ask (S.filesysOpen copy) with
    | none => return -1
    | some inner =>
      match ← append S inner with
      | none => return -1
      | some fd => return fd

/-- `sys_create`. -/
def sysCreate (S : Services ν κ) (fileName initialSize : ℕ) : Sys ν κ (Option ℤ) :=
  withString S fileName 0 fun copy => do
    let success ← ask (S.filesysCreate copy initialSize false)
    return ofBool success

/-- `sys_mkdir`. -/
def sysMkdir (S : Services ν κ) (path : ℕ) : Sys ν κ (Option ℤ) :=
  withString S path 0 fun copy => do
    let success ← ask (S.filesysCreate copy 0 true)
    return ofBool success

/-- `sys_remove`. -/
def sysRemove (S : Services ν κ) (fileName : ℕ) : Sys ν κ (Option ℤ) :=
  withString S fileName 0 fun copy => do
    let success ← ask (S.filesysRemove copy)
    return ofBool success

/-- `sys_chdir`. -/
def sysChdir (S : Services ν κ) (path : ℕ) : Sys ν κ (Option ℤ) :=
  withString S path 0 fun copy => do
    let success ← ask (S.changeDir copy)
    return ofBool success

/-- `sys_exec`. -/
def sysExec (S : Services ν κ) (cmdLine : ℕ) : Sys ν κ (Option ℤ) :=
  withString S cmdLine (-1) fun copy => ask (S.processExecute copy)

/-! ### Files by descriptor -/

/-- `sys_close`; where a file is closed, `user_file_get_and_release` returns nothing. -/
def sysClose (S : Services ν κ) (fd : ℤ) : Sys ν κ (Option ℤ) := do
  let s ← get
  match userFileGet s.userFiles fd with
  | none => return some (-1)
  | some f =>
    match f.inner with
    | .stdin | .stdout => return some (-1)
    | _ => do
      set { s with userFiles := s.userFiles.eraseP (·.fd = fd) }
      userFileRelease S f
      return none

/-- The first `length` bytes of a buffer. -/
def bufferBytes (buffer : List UInt8) (length : ℕ) : List UInt8 :=
  (List.range length).map fun i => buffer.getD i 0

/-- `sys_read`; what the keyboard gives is dropped with the copy. -/
def sysRead (S : Services ν κ) (fd : ℤ) (data dataLen : ℕ) : Sys ν κ (Option ℤ) := do
  if dataLen = 0 then return some 0
  else if ← ask (S.malloc dataLen) then do
    let s ← get
    match userFileGet s.userFiles fd with
    | none => return some (-1)
    | some f =>
      match f.inner with
      | .stdin => do
        (List.range dataLen).forM fun _ => do
          let _ ← ask S.inputGetc
        return some (toInt dataLen)
      | .stdout => return some (-1)
      | .file file => do
        let (bytesRead, copy) ← ask (S.fileRead file dataLen)
        if bytesRead = -1 then return some (-1)
        else if ← copyToUser S data (bufferBytes copy (bytesRead % 2 ^ 32).toNat) then
          return some bytesRead
        else sysExit (-1)
      | .dir _ => return some (-1)
  else return some (-1)

/-- `sys_write`; for a descriptor that is not open, the value is never set. -/
def sysWrite (S : Services ν κ) (fd : ℤ) (data dataLen : ℕ) : Sys ν κ (Option ℤ) := do
  if dataLen = 0 then return some 0
  else if ← ask (S.malloc dataLen) then do
    match ← copyFromUser S data dataLen with
    | none => sysExit (-1)
    | some copy => do
      let s ← get
      match userFileGet s.userFiles fd with
      | none => return none
      | some f =>
        match f.inner with
        | .stdout => do
          ask (S.putbuf copy)
          return some (toInt dataLen)
        | .stdin => return some (-1)
        | .file file => do
          let written ← ask (S.fileWrite file copy)
          return some written
        | .dir _ => return some (-1)
  else return some (-1)

/-- A call on an open file; `-1` for any other descriptor. -/
def withFile (fd : ℤ) (call : ℕ → Sys ν κ ℤ) : Sys ν κ (Option ℤ) := do
  let s ← get
  match userFileGet s.userFiles fd with
  | none => return some (-1)
  | some f =>
    match f.inner with
    | .file file => do
      let r ← call file
      return some r
    | _ => return some (-1)

/-- `sys_seek`. -/
def sysSeek (S : Services ν κ) (fd : ℤ) (position : ℕ) : Sys ν κ (Option ℤ) :=
  withFile fd fun file => do
    ask (S.fileSeek file (toInt position))
    return 0

/-- `sys_filesize`. -/
def sysFilesize (S : Services ν κ) (fd : ℤ) : Sys ν κ (Option ℤ) :=
  withFile fd fun file => ask (S.fileLength file)

/-- `sys_isdir`. -/
def sysIsdir (fd : ℤ) : Sys ν κ (Option ℤ) := do
  let s ← get
  match userFileGet s.userFiles fd with
  | none => return some 0
  | some f =>
    match f.inner with
    | .dir _ => return some 1
    | _ => return some 0

/-- `sys_inumber`. -/
def sysInumber (S : Services ν κ) (fd : ℤ) : Sys ν κ (Option ℤ) := do
  let s ← get
  match userFileGet s.userFiles fd with
  | none => return some (-1)
  | some f =>
    match f.inner with
    | .dir _ | .file _ => do
      let r ← ask (S.inumber f.inner)
      return some r
    | _ => return some (-1)

/-! ### Directories by descriptor -/

/-- `strlcpy` to a user's address. -/
def strlcpy (S : Services ν κ) (dst : ℕ) (src : CStr) (size : ℕ) : Sys ν κ Unit := do
  assert (dst ≠ 0)
  if 0 < size then do
    let bytes := (toBytes src).take (size - 1)
    memcpyTo S dst bytes
    store S ((dst + bytes.length) % 2 ^ 32) 0
  else return ()

/-- The loop of `dir_readdir` over the slots that are left. -/
def readdirFrom (S : Services ν κ) (d name : ℕ) : List DirEntry → Sys ν κ Bool
  | [] => return false
  | e :: es => do
    modify fun s => { s with dirs := Function.update s.dirs d { s.dirs d with pos := (s.dirs d).pos + 1 } }
    if e.inUse then do
      strlcpy S name e.name (nameMax + 1)
      return true
    else readdirFrom S d name es

/-- The slots `dir_readdir` has still to read. -/
def slotsLeft (S : Services ν κ) (s : CallState ν κ) (d : ℕ) : List DirEntry :=
  (S.slots s.kernel (s.dirs d).inode).drop (s.dirs d).pos

/-- `dir_readdir`. -/
def dirReaddir (S : Services ν κ) (d name : ℕ) : Sys ν κ Bool := do
  let s ← get
  readdirFrom S d name (slotsLeft S s d)

/-- `sys_readdir`. -/
def sysReaddir (S : Services ν κ) (fd : ℤ) (name : ℕ) : Sys ν κ (Option ℤ) := do
  let s ← get
  match userFileGet s.userFiles fd with
  | none => return some 0
  | some f =>
    match f.inner with
    | .dir d => do
      let found ← dirReaddir S d name
      return some (ofBool found)
    | _ => return some 0

/-! ### Processes, signals and mappings -/

/-- `sys_wait`. -/
def sysWait (S : Services ν κ) (pid : ℤ) : Sys ν κ (Option ℤ) := do
  let r ← ask (S.processWait pid)
  return some r

/-- `sys_sendsig`. -/
def sysSendsig (S : Services ν κ) (pid signum : ℤ) : Sys ν κ (Option ℤ) := do
  if ← ask (S.sendSignal pid signum) then return some 0 else return some (-1)

/-- `sys_sigaction`; the handler is only noted. -/
def sysSigaction (S : Services ν κ) (signum : ℤ) (handler : ℕ) : Sys ν κ (Option ℤ) := do
  if ← ask (S.setHandler signum handler) then return some 0 else return some (-1)

/-- `sys_yield`. -/
def sysYield (S : Services ν κ) : Sys ν κ (Option ℤ) := do
  ask S.threadYield
  return some 0

/-- `sys_mmap`. -/
def sysMmap (S : Services ν κ) (fd : ℤ) (data : ℕ) : Sys ν κ (Option ℤ) :=
  if pgRoundDown data = 0 then return some (-1)
  else withFile fd fun file => do
    let mmapFile ← ask (S.fileReopen file)
    if pgRoundDown data ≠ data then return -1
    else
      match ← ask (S.mmapEntryAppend mmapFile (pgRoundDown data)) with
      | none => return -1
      | some mid => return mid

/-- `sys_munmap`, which returns nothing. -/
def sysMunmap (S : Services ν κ) (mid : ℤ) : Sys ν κ (Option ℤ) := do
  ask (S.mmapEntryRelease mid)
  return none

/-! ### The handler -/

/-- The numbers of `syscall-nr.h`. -/
inductive SyscallNr
  | halt | exit | exec | wait | create | remove | open | filesize | read | write | seek | tell | close
  | sigaction | sendsig | yield | mmap | munmap | chdir | mkdir | readdir | isdir | inumber
  deriving DecidableEq

open SyscallNr in
/-- The system calls in the order of their numbers. -/
def syscallNrs : List SyscallNr :=
  [halt, exit, exec, wait, create, remove, .open, filesize, read, write, seek, tell, close,
    sigaction, sendsig, yield, mmap, munmap, chdir, mkdir, readdir, isdir, inumber]

/-- The little-endian word `i` of a block of bytes. -/
def wordAt (bytes : List UInt8) (i : ℕ) : ℕ :=
  (bytes.getD (4 * i) 0).toNat + 2 ^ 8 * (bytes.getD (4 * i + 1) 0).toNat +
    2 ^ 16 * (bytes.getD (4 * i + 2) 0).toNat + 2 ^ 24 * (bytes.getD (4 * i + 3) 0).toNat

/-- The `switch` of `syscall_handler`. `SYS_TELL` is answered by `sys_filesize`; an unknown number is
printed. -/
def dispatch (S : Services ν κ) (arg : ℕ → ℕ) : Option SyscallNr → Sys ν κ (Option ℤ)
  | some .halt => throw .powerOff
  | some .exit => sysExit (toInt (arg 0))
  | some .open => sysOpen S (arg 0)
  | some .create => sysCreate S (arg 0) (arg 1)
  | some .remove => sysRemove S (arg 0)
  | some .close => sysClose S (toInt (arg 0))
  | some .write => sysWrite S (toInt (arg 0)) (arg 1) (arg 2)
  | some .read => sysRead S (toInt (arg 0)) (arg 1) (arg 2)
  | some .seek => sysSeek S (toInt (arg 0)) (arg 1)
  | some .tell => sysFilesize S (toInt (arg 0))
  | some .filesize => sysFilesize S (toInt (arg 0))
  | some .exec => sysExec S (arg 0)
  | some .wait => sysWait S (toInt (arg 0))
  | some .sigaction => sysSigaction S (toInt (arg 0)) (arg 1)
  | some .sendsig => sysSendsig S (toInt (arg 0)) (toInt (arg 1))
  | some .yield => sysYield S
  | some .mmap => sysMmap S (toInt (arg 0)) (arg 1)
  | some .munmap => sysMunmap S (toInt (arg 0))
  | some .chdir => sysChdir S (arg 0)
  | some .mkdir => sysMkdir S (arg 0)
  | some .readdir => sysReaddir S (toInt (arg 0)) (arg 1)
  | some .isdir => sysIsdir (toInt (arg 0))
  | some .inumber => sysInumber S (toInt (arg 0))
  | none => return none

/-- `sizeof (struct syscall_arguments)`: the number and five words. -/
def argsSize : ℕ := 24

/-- `syscall_handler` with `f->esp`. -/
def syscallHandler (S : Services ν κ) (esp : ℕ) : Sys ν κ (Option ℤ) :=
  if ¬accessOk esp ∨ ¬accessOk ((esp + argsSize) % 2 ^ 32) then sysExit (-1)
  else do
    faultRegionEnter
    let argsCopy ← memcpyFrom S esp argsSize
    faultRegionExit
    dispatch S (fun i => wordAt argsCopy (i + 1)) syscallNrs[wordAt argsCopy 0]?

end Pintos.Userprog.Syscall
