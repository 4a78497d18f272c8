import Pintos.Vm.Vpage

/-! # Memory-mapped files

`sys_mmap`, `sys_munmap` and the page fault handler of a process, with the list of its mappings. A file
position or a length is a natural number, an address one below `2 ^ 32`; what `user_file_get` finds for a file
descriptor is given. -/

namespace Pintos.Userprog.Mmap

open Pintos.Lib.Ops Pintos.Vm.State Pintos.Vm.Vpage

/-- `struct mmap_entry`. -/
structure MmapEntry where
  mid : ℕ
  file : FileId
  uaddr : Upage
  length : ℕ
  pageCnt : ℕ
  dirty : Bool
  deriving DecidableEq

structure Maps where
  vm : VM
  /-- `process_info->mmap_entries_list`. -/
  entries : Pid → List MmapEntry
  /-- `thread->mid_counter`. -/
  midCounter : Pid → ℕ
  /-- `inode->deny_write_cnt` is not zero. -/
  denied : FileId → Bool

def Maps.setEntries (s : Maps) (p : Pid) (mes : List MmapEntry) : Maps :=
  { s with entries := Function.update s.entries p mes }

/-- An operation on virtual memory. -/
def onVm {α : Type} (m : Op VM α) : Op Maps α := zoom Maps.vm (fun s vm => { s with vm := vm }) m

/-- The pages of the address space. -/
def pages : ℕ := 2 ^ 20

/-- The page `i` pages behind `upage`; addresses have 32 bits. -/
def pageAt (upage : Upage) (i : ℕ) : Upage := (upage + i) % pages

/-! ### mmap -/

/-- The loop that gives up the first `n` pages. -/
def releasePages (p : Pid) (upage : Upage) (n : ℕ) : Op VM Unit :=
  (List.range n).forM fun j => findAndRelease (pageAt upage j) p

/-- The loop of `mmap_entry_append` from page `i` on, with `left` rounds to go. -/
def mapPages (p : Pid) (envs : ℕ → Env) (file : FileId) (upage : Upage) :
    (left i remLength curOffset : ℕ) → Op VM Bool
  | 0, _, _, _ => return true
  | left + 1, i, remLength, curOffset => do
    let curLength := min remLength pgSize
    if ← lazyAllocate (envs i) (pageAt upage i)
      ⟨some file, curOffset, ⟨curLength, min_pgSize_lt remLength⟩⟩ p false then
      mapPages p envs file upage left (i + 1) (remLength - curLength) (curOffset + pgSize)
    else do
      releasePages p upage i
      return false

/-- What `sys_mmap` finds: whether `file_reopen` and the `malloc` of the `struct mmap_entry` succeed, and what
there is for each page. -/
structure MmapEnv where
  reopen : Bool
  entry : Bool
  pages : ℕ → Env

/-- `mmap_entry_append`; without the reopened file, `file_length` asserts one. -/
def mmapEntryAppend (p : Pid) (env : MmapEnv) (file : FileId) (upage : Upage) :
    Op Maps (Option MmapEntry) :=
  if env.entry then do
    assert env.reopen
    let s ← get
    let mid := s.midCounter p + 1
    set { s with midCounter := Function.update s.midCounter p mid }
    let length := (s.vm.files file).length
    let pageCnt := (length + pgSize - 1) / pgSize
    if ← onVm (mapPages p env.pages file upage pageCnt 0 length 0) then do
      let entry := ⟨mid, file, upage, length, pageCnt, false⟩
      modify fun s => s.setEntries p (s.entries p ++ [entry])
      return some entry
    else return none
  else return none

/-- `sys_mmap` of the file that the descriptor stands for, if it does; `none` is `-1`. -/
def sysMmap (p : Pid) (env : MmapEnv) (file : Option FileId) (data : ℕ) : Op Maps (Option ℕ) :=
  if data / pgSize = 0 then return none
  else
    match file with
    | none => return none
    | some file =>
      if data / pgSize * pgSize ≠ data then return none
      else do
        let entry ← mmapEntryAppend p env file (data / pgSize)
        return entry.map (·.mid)

/-! ### munmap -/

/-- A page that the kernel reads for a process. A fault brings a swapped page in. One of a lazy page or one
that kills the process does not return: `bcache_write_at` copies from the page while it holds the lock of the
entry it writes, which reading the same sector of the file, or closing a file, takes again. -/
def readUser (p : Pid) (env : Env) (upage : Upage) : Op VM Page := do
  let s ← get
  let d ← deref (s.pagedir p)
  match s.pte d upage with
  | some e => return s.mem e.frame
  | none => do
    let vpi ← deref (s.find ⟨p, upage⟩)
    match vpi.backend with
    | .swapped _ => do
      let _ ← handleUserFault p env upage
      let s ← get
      let e ← deref (s.pte d upage)
      return s.mem e.frame
    | _ => halt

/-- `page` at the page `i` of the file, up to `length` bytes of the file. -/
def writePage (f : FileData) (page : Page) (i length : ℕ) : FileData where
  length := max f.length (min ((i + 1) * pgSize) length)
  bytes k :=
    if i * pgSize ≤ k ∧ k < min ((i + 1) * pgSize) length then
      page ⟨k % pgSize, Nat.mod_lt _ (by decide)⟩
    else f.bytes k

/-- `file_write` from the mapped pages. -/
def fileWriteMapped (p : Pid) (envs : ℕ → Env) (me : MmapEntry) : Op VM Unit :=
  (List.range me.pageCnt).forM fun i => do
    let page ← readUser p (envs i) (pageAt me.uaddr i)
    modify fun s => { s with
      files := Function.update s.files me.file (writePage (s.files me.file) page i me.length) }

/-- The first loop of `mmap_entry_release`: every page up to the first that is not lazy is there. -/
def checkPages (p : Pid) (upage : Upage) : (left i : ℕ) → Op VM Unit
  | 0, _ => return ()
  | left + 1, i => do
    let s ← get
    let vpi ← deref (s.find ⟨p, pageAt upage i⟩)
    match vpi.backend with
    | .lazy _ => checkPages p upage left (i + 1)
    | _ => return ()

/-- The write-back of `mmap_entry_release`; `file_write` writes nothing to a file that may not be written. -/
def writeBack (p : Pid) (envs : ℕ → Env) (me : MmapEntry) : Op Maps Unit := do
  let s ← get
  if me.dirty && !s.denied me.file then onVm (fileWriteMapped p envs me) else return ()

/-- `mmap_entry_release`. -/
def mmapEntryRelease (p : Pid) (envs : ℕ → Env) (me : MmapEntry) : Op Maps Unit := do
  onVm (checkPages p me.uaddr me.pageCnt 0)
  writeBack p envs me
  onVm (releasePages p me.uaddr me.pageCnt)
  modify fun s => s.setEntries p ((s.entries p).erase me)

/-- `mmap_entry_get`. -/
def mmapEntryGet (s : Maps) (p : Pid) (mid : ℤ) : Option MmapEntry :=
  (s.entries p).find? (·.mid = mid)

/-- `sys_munmap`. The pointer that `mmap_entry_get` returns is not looked at. -/
def sysMunmap (p : Pid) (envs : ℕ → Env) (mid : ℤ) : Op Maps Unit := do
  let s ← get
  let me ← deref (mmapEntryGet s p mid)
  mmapEntryRelease p envs me

/-- The mappings that `process_exit` releases, one after the other. -/
def releaseEntries (p : Pid) (envs : ℕ → ℕ → Env) : Op Maps Unit := do
  let s ← get
  (s.entries p).zipIdx.forM fun me => mmapEntryRelease p (envs me.2) me.1

/-! ### vm_handle_user_fault -/

/-- `STACK_EXPANSION_RNG`. -/
def stackExpansionRng : ℕ := 0x100

/-- `STACK_MAX_GROWTH_PAGES`. -/
def stackMaxGrowthPages : ℕ := 0x20

/-- The loop that extends the stack from the page `cur` on, with `left` pages to go and `new` registered. -/
def growStack (p : Pid) (envs : ℕ → Env) : (left : ℕ) → (cur : Upage) → (new : List Upage) → Op VM Bool
  | 0, _, _ => return true
  | left + 1, cur, new =>
    if stackMaxGrowthPages ≤ new.length then return false
    else do
      let s ← get
      if (s.find ⟨p, cur⟩).isSome then growStack p envs left (cur + 1) new
      else if ← lazyAllocate (envs new.length) cur ⟨none, 0, 0⟩ p true then
        growStack p envs left (cur + 1) (new ++ [cur])
      else do
        new.forM fun u => release ⟨p, u⟩
        return false

/-- The address is near the stack pointer, as 32-bit addresses compare. -/
def nearStack (esp uaddr : ℕ) : Bool :=
  (esp + (2 ^ 32 - stackExpansionRng)) % 2 ^ 32 ≤ uaddr && uaddr ≤ (esp + stackExpansionRng) % 2 ^ 32

/-- `mmap_entry_get_by_addr`. -/
def mmapEntryGetByAddr (s : Maps) (p : Pid) (uaddr : ℕ) : Option MmapEntry :=
  (s.entries p).find? fun me =>
    me.uaddr * pgSize ≤ uaddr && uaddr < (me.uaddr * pgSize + me.length) % 2 ^ 32

/-- The mapping becomes dirty. -/
def Maps.markDirty (s : Maps) (p : Pid) (me : MmapEntry) : Maps :=
  s.setEntries p ((s.entries p).replace me { me with dirty := true })

/-- The stack expansion of `vm_handle_user_fault`; false kills the process. -/
def handleStack (p : Pid) (envs : ℕ → Env) (esp uaddr : ℕ) : Op VM Bool :=
  if nearStack esp uaddr then growStack p envs (physBase - 1 - uaddr / pgSize) (uaddr / pgSize) []
  else return true

/-- A store to a mapping makes it dirty and the page writable; true if the page is in memory. -/
def handleMmapDirty (p : Pid) (env : Env) (uaddr : ℕ) (write : Bool) : Op Maps Bool := do
  let s ← get
  match if write then mmapEntryGetByAddr s p uaddr else none with
  | some me => do
    modify (·.markDirty p me)
    onVm (setWritable env (uaddr / pgSize) p true)
  | none => return false

/-- `vm_handle_user_fault` at the address `uaddr`, with `f->esp` and `f->error_code & PF_W`. What kills the
process is left to the caller. -/
def vmHandleUserFault (p : Pid) (env : Env) (envs : ℕ → Env) (esp uaddr : ℕ) (write : Bool) :
    Op Maps UserFaultType := do
  if ← onVm (handleStack p envs esp uaddr) then do
    if ← handleMmapDirty p env uaddr write then return .cont
    else onVm (handleUserFault p env (uaddr / pgSize))
  else return .kill

end Pintos.Userprog.Mmap
