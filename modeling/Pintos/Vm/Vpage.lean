import Pintos.Vm.Swap

/-! # Vpages

`vm/vpage.c`, with what it uses of `threads/palloc.c` and `userprog/pagedir.c`. Every function runs under
`vm_lock` and is one step. A `struct vpage_info *` is the key of the vpage: the table holds one vpage for a
key (`hash_find` before `hash_insert`). What memory is free is up to the environment of a call, so that the
pool of user pages and the kernel pool may be exhausted at any time. -/

namespace Pintos.Vm.Vpage

open Pintos.Lib Pintos.Lib.Ops Pintos.Kernel.Bitmap Pintos.Vm.State Pintos.Vm.Swap

/-- What a call finds outside the tables of the kernel. -/
structure Env where
  /-- `palloc_get_page (PAL_USER | PAL_ZERO)` returns a null pointer whatever the pool holds. -/
  exhausted : Bool
  /-- The kernel pool has a page for a new page table. -/
  table : Bool
  /-- `malloc` and `file_reopen` succeed. -/
  malloc : Bool
  /-- `timer_ticks ()`. -/
  now : ℕ

/-! ### palloc.c -/

/-- `palloc_get_page (PAL_USER | PAL_ZERO)`. -/
def pallocGetPage (env : Env) : Op VM (Option Frame) := do
  let s ← get
  match if env.exhausted then none else bitmapScanAndFlip s.userPool 0 1 false with
  | none => return none
  | some (f, used) =>
    set { s with userPool := used, mem := Function.update s.mem f fun _ => 0 }
    return some f

/-- `palloc_free_page` of a user page. -/
def pallocFreePage (f : Frame) : Op VM Unit := do
  let s ← get
  let all ← deref (bitmapAll s.userPool f 1)
  assert all
  let used ← deref (bitmapSetMultiple s.userPool f 1 false)
  set { s with userPool := used, mem := Function.update s.mem f fun _ => 0xcc }

/-! ### pagedir.c -/

/-- `pagedir_set_page`, which returns false when a new page table is needed and `table` is false. -/
def pagedirSetPage (d : PdId) (upage : Upage) (kpage : Frame) (writable table : Bool) :
    Op VM Bool := do
  assert (upage < physBase)
  let s ← get
  let pd ← deref (s.pagedirs d)
  if pd.tables (pdNo upage) || table then do
    assert (pd.get upage).isNone
    set (s.setPagedir d (some (pd.set upage ⟨kpage, writable⟩)))
    return true
  else return false

/-- `pagedir_clear_page`. -/
def pagedirClearPage (d : PdId) (upage : Upage) : Op VM Unit := do
  assert (upage < physBase)
  let s ← get
  let pd ← deref (s.pagedirs d)
  set (s.setPagedir d (some (pd.clear upage)))

/-- `pagedir_destroy`. -/
def pagedirDestroy (d : PdId) : Op VM Unit := do
  let s ← get
  let pd ← deref (s.pagedirs d)
  pd.ptes.entries.forM fun e => pallocFreePage e.2.frame
  modify (·.setPagedir d none)

/-! ### file.c and string.c -/

/-- A page after up to `length` bytes of a file were read into it; a read stops at the end of the file. -/
def readInto (p : Page) (f : FileData) (length offset : ℕ) : Page := fun j =>
  if j < length ∧ offset + j < f.length then f.bytes (offset + j) else p j

/-- A page after its bytes from `start` on were set to zero. -/
def zeroFrom (p : Page) (start : ℕ) : Page := fun j => if start ≤ j then 0 else p j

/-- `file_read_at` into a user page. -/
def fileReadAt (file : FileId) (paddr : Frame) (length offset : ℕ) : Op VM Unit := do
  let s ← get
  let p := readInto (s.mem paddr) (s.files file) length offset
  set { s with mem := Function.update s.mem paddr p }

/-- `memset` of the bytes of a user page from `start` on to zero. -/
def memsetZero (paddr : Frame) (start : ℕ) : Op VM Unit := do
  let s ← get
  set { s with mem := Function.update s.mem paddr (zeroFrom (s.mem paddr) start) }

/-! ### Eviction -/

/-- The body of the loop of `evict_page`: the vpage in memory that was used longest ago so far. -/
def lruStep (lru : Option (VpageInfo × InfoInmem)) (vpi : VpageInfo) :
    Option (VpageInfo × InfoInmem) :=
  match vpi.backend with
  | .inmem i =>
    match lru with
    | some (_, l) => if i.lastUse < l.lastUse then some (vpi, i) else lru
    | none => some (vpi, i)
  | _ => lru

/-- `vpage_info_inmem_to_swap`. -/
def inmemToSwap (vpi : VpageInfo) (i : InfoInmem) : Op VM Unit := do
  pagedirClearPage i.pagedir vpi.uaddr
  let swapIdx ← swapOut i.paddr
  modify (·.replace (vpi.withBackend (.swapped ⟨swapIdx⟩)))

/-- `evict_page`. -/
def evictPage : Op VM Frame := do
  let s ← get
  let (vpi, i) ← deref (s.map.foldl lruStep none)
  inmemToSwap vpi i
  return i.paddr

/-- `palloc_get_page`, or else `evict_page`. -/
def getFrame (env : Env) : Op VM Frame := do
  match ← pallocGetPage env with
  | some paddr => return paddr
  | none => evictPage

/-! ### Faulting a page in -/

/-- The end of both ways in: the vpage is in memory, and the page directory of the thread maps it. That
`pagedir_set_page` may fail is not looked at. -/
def setInmem (self : Pid) (env : Env) (vpi : VpageInfo) (paddr : Frame) : Op VM Unit := do
  let s ← get
  let d ← deref (s.pagedir self)
  set (s.replace (vpi.withBackend (.inmem ⟨paddr, d, env.now⟩)))
  let _ ← pagedirSetPage d vpi.uaddr paddr vpi.writable env.table

/-- `vpage_info_lazy_to_inmem`. -/
def lazyToInmem (self : Pid) (env : Env) (vpi : VpageInfo) (i : InfoLazy) : Op VM Unit := do
  let paddr ← getFrame env
  match i.file with
  | some file => do
    fileReadAt file paddr i.length i.offset
    memsetZero paddr i.length
  | none => memsetZero paddr 0
  setInmem self env vpi paddr

/-- `vpage_info_swap_to_inmem`. -/
def swapToInmem (self : Pid) (env : Env) (vpi : VpageInfo) (i : InfoSwap) : Op VM Unit := do
  let paddr ← getFrame env
  swapIn i.swapIndex paddr
  setInmem self env vpi paddr

/-- `enum user_fault_type`. -/
inductive UserFaultType
  | kill
  | cont
  deriving DecidableEq

/-- `vpage_handle_user_fault`, for a thread that has a `process_info`. -/
def handleUserFault (self : Pid) (env : Env) (upage : Upage) : Op VM UserFaultType := do
  let s ← get
  match s.find ⟨self, upage⟩ with
  | none => return .kill
  | some vpi =>
    match vpi.backend with
    | .inmem _ => return .kill
    | .lazy i => do
      lazyToInmem self env vpi i
      return .cont
    | .swapped i => do
      swapToInmem self env vpi i
      return .cont

/-! ### Allocating and releasing -/

/-- `vpage_info_lazy_allocate`; false is a null pointer. -/
def lazyAllocate (env : Env) (uaddr : Upage) (i : InfoLazy) (pid : Pid) (writable : Bool) :
    Op VM Bool := do
  let s ← get
  if env.malloc && (s.find ⟨pid, uaddr⟩).isNone then do
    set { s with map := ⟨uaddr, writable, pid, .lazy i⟩ :: s.map }
    return true
  else return false

/-- `vpage_info_inmem_allocate`; `none` is a null pointer. A key that is there is `NOT_REACHED`. -/
def inmemAllocate (self : Pid) (env : Env) (uaddr : Upage) (pid : Pid) (writable : Bool) :
    Op VM (Option Frame) :=
  if env.malloc then do
    let paddr ← getFrame env
    let s ← get
    let d ← deref (s.pagedir self)
    assert (s.find ⟨pid, uaddr⟩).isNone
    set { s with map := ⟨uaddr, writable, pid, .inmem ⟨paddr, d, env.now⟩⟩ :: s.map }
    let _ ← pagedirSetPage d uaddr paddr writable env.table
    return some paddr
  else return none

/-- `vpage_info_release_inner`. -/
def releaseInner (vpi : VpageInfo) : Op VM Unit := do
  match vpi.backend with
  | .inmem i => do
    pagedirClearPage i.pagedir vpi.uaddr
    pallocFreePage i.paddr
  | .lazy _ => pure ()
  | .swapped i => swapFree i.swapIndex
  modify (·.erase vpi.key)

/-- `vpage_info_release`, of a vpage in the table. -/
def release (k : Key) : Op VM Unit := do
  let s ← get
  let vpi ← deref (s.find k)
  releaseInner vpi

/-- `vpage_info_find_and_release`. -/
def findAndRelease (upage : Upage) (pid : Pid) : Op VM Unit := do
  let s ← get
  match s.find ⟨pid, upage⟩ with
  | some vpi => releaseInner vpi
  | none => return ()

/-- `vpage_info_release_all`: one vpage of the process after the other, from the start of the table each
time. A table of `fuel` vpages is empty after `fuel` rounds. -/
def releaseAllLoop (pid : Pid) : ℕ → Op VM Unit
  | 0 => return ()
  | fuel + 1 => do
    let s ← get
    match s.map.find? (·.pid = pid) with
    | none => return ()
    | some vpi => do
      releaseInner vpi
      releaseAllLoop pid fuel

def releaseAll (pid : Pid) : Op VM Unit := do
  let s ← get
  releaseAllLoop pid s.map.length

/-- `vpage_info_set_writable`; it returns `*inmem`. -/
def setWritable (env : Env) (upage : Upage) (pid : Pid) (writable : Bool) : Op VM Bool := do
  let s ← get
  match s.find ⟨pid, upage⟩ with
  | none => return false
  | some vpi => do
    set (s.replace (vpi.withWritable writable))
    match vpi.backend with
    | .inmem i => do
      let e ← deref (s.pte i.pagedir upage)
      pagedirClearPage i.pagedir upage
      let _ ← pagedirSetPage i.pagedir upage e.frame writable env.table
      return true
    | _ => return false

/-! ### What the processor does -/

/-- A load of one byte by a process; a page that is not present faults. -/
def userLoad (self : Pid) (upage : Upage) (j : Fin pgSize) : Op VM UInt8 := do
  let s ← get
  let d ← deref (s.pagedir self)
  let e ← deref (s.pte d upage)
  return s.mem e.frame j

/-- A store of one byte by a process; a page that is not present or read-only faults. -/
def userStore (self : Pid) (upage : Upage) (j : Fin pgSize) (byte : UInt8) : Op VM Unit := do
  let s ← get
  let d ← deref (s.pagedir self)
  let e ← deref (s.pte d upage)
  assert e.writable
  set { s with mem := Function.update s.mem e.frame (Function.update (s.mem e.frame) j byte) }

end Pintos.Vm.Vpage
