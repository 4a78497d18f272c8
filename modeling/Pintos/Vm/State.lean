import Mathlib.Data.List.AList
import Pintos.Lib.Ops
import Pintos.Lib.Table
import Pintos.Kernel.Bitmap

/-! # The state of virtual memory

`vpage_info_map`, the page directories, the pool of user pages with the memory behind it, the swap device
with its free map, and the files that lazy pages are read from. A page-aligned user address is its page
number, and a user page of physical memory is its index in the user pool. A page directory lists its
present entries; an entry is present only under a page table, which its type says. -/

namespace Pintos.Vm.State

open Pintos.Lib Pintos.Kernel.Bitmap

abbrev Pid := ℕ

/-- A page-aligned user address, divided by `PGSIZE`. -/
abbrev Upage := ℕ

/-- A page of the user pool. -/
abbrev Frame := ℕ

/-- The address of a page directory. -/
abbrev PdId := ℕ

abbrev FileId := ℕ

/-- `PGSIZE`. -/
def pgSize : ℕ := 4096

instance (priority := high) : NeZero (pgSize + 1) := ⟨Nat.succ_ne_zero pgSize⟩

theorem min_pgSize_lt (n : ℕ) : min n pgSize < pgSize + 1 := Nat.lt_succ_of_le (Nat.min_le_right n pgSize)

/-- `BLOCK_SECTOR_SIZE`. -/
def blockSectorSize : ℕ := 512

/-- `PGSIZE / BLOCK_SECTOR_SIZE`, the sectors of a swapped page. -/
def pageSectors : ℕ := 8

/-- `PHYS_BASE` divided by `PGSIZE`; `is_user_vaddr` holds below it. -/
def physBase : ℕ := 0xc0000

/-- The bytes of a page. -/
abbrev Page := Fin pgSize → UInt8

/-- The bytes of a sector. -/
abbrev SectorData := Fin blockSectorSize → UInt8

/-! ### Vpages -/

/-- `struct info_lazy`. The callers pass lengths up to `PGSIZE`. -/
structure InfoLazy where
  file : Option FileId
  offset : ℕ
  length : Fin (pgSize + 1)
  deriving DecidableEq

/-- `struct info_inmem`. -/
structure InfoInmem where
  paddr : Frame
  pagedir : PdId
  lastUse : ℕ
  deriving DecidableEq

/-- `struct info_swap`. -/
structure InfoSwap where
  swapIndex : ℕ
  deriving DecidableEq

/-- `union vpage_info_backend` with `enum vpage_status`. -/
inductive Backend
  | lazy (i : InfoLazy)
  | inmem (i : InfoInmem)
  | swapped (i : InfoSwap)
  deriving DecidableEq

/-- What `vpage_less` compares. -/
structure Key where
  pid : Pid
  uaddr : Upage
  deriving DecidableEq

/-- `struct vpage_info`. -/
structure VpageInfo where
  uaddr : Upage
  writable : Bool
  pid : Pid
  backend : Backend
  deriving DecidableEq

def VpageInfo.key (v : VpageInfo) : Key := ⟨v.pid, v.uaddr⟩

/-- The same vpage with another backend. -/
def VpageInfo.withBackend (v : VpageInfo) (b : Backend) : VpageInfo := { v with backend := b }

/-- The same vpage with another permission. -/
def VpageInfo.withWritable (v : VpageInfo) (w : Bool) : VpageInfo := { v with writable := w }

@[simp] theorem VpageInfo.key_withWritable (v : VpageInfo) (w : Bool) :
    (v.withWritable w).key = v.key := rfl

@[simp] theorem VpageInfo.key_withBackend (v : VpageInfo) (b : Backend) :
    (v.withBackend b).key = v.key := rfl

@[simp] theorem VpageInfo.backend_withBackend (v : VpageInfo) (b : Backend) :
    (v.withBackend b).backend = b := rfl

/-- The frame of a vpage in memory. -/
def VpageInfo.frames (v : VpageInfo) : List Frame :=
  match v.backend with
  | .inmem i => [i.paddr]
  | _ => []

/-- The swap sectors of a swapped vpage. -/
def VpageInfo.slots (v : VpageInfo) : List ℕ :=
  match v.backend with
  | .swapped i => List.range' i.swapIndex pageSectors
  | _ => []

/-! ### Page directories -/

/-- A present page table entry. -/
structure Pte where
  frame : Frame
  writable : Bool
  deriving DecidableEq

/-- `pd_no`: the page table that a page is in. -/
def pdNo (upage : Upage) : ℕ := upage / 1024

/-- A page directory: its page tables, and its present entries. -/
structure PageDir where
  tables : ℕ → Bool
  ptes : AList fun _ : Upage => Pte
  backed : ∀ u, u ∈ ptes → tables (pdNo u) = true

namespace PageDir

/-- What `pagedir_create` returns: nothing is mapped below `PHYS_BASE`. -/
def empty : PageDir := ⟨fun _ => false, ∅, by simp⟩

def get (pd : PageDir) (u : Upage) : Option Pte := pd.ptes.lookup u

/-- The entry of `u` becomes present; its page table is there or is created. -/
def set (pd : PageDir) (u : Upage) (e : Pte) : PageDir where
  tables := Function.update pd.tables (pdNo u) true
  ptes := pd.ptes.insert u e
  backed := by
    intro v hv
    by_cases h : pdNo v = pdNo u
    · simp [h]
    · rcases AList.mem_insert _ |>.mp hv with rfl | hv'
      · exact absurd rfl h
      · simp [h, pd.backed v hv']

/-- The entry of `u` becomes not present. -/
def clear (pd : PageDir) (u : Upage) : PageDir where
  tables := pd.tables
  ptes := pd.ptes.erase u
  backed := fun v hv => pd.backed v (AList.mem_erase.mp hv).2

@[simp] theorem get_empty (u : Upage) : empty.get u = none := rfl

theorem get_set (pd : PageDir) (u v : Upage) (e : Pte) :
    (pd.set u e).get v = if v = u then some e else pd.get v := by
  split_ifs with h
  · subst h
    exact AList.lookup_insert pd.ptes
  · exact AList.lookup_insert_ne h

theorem get_clear (pd : PageDir) (u v : Upage) :
    (pd.clear u).get v = if v = u then none else pd.get v := by
  split_ifs with h
  · subst h
    exact AList.lookup_erase v pd.ptes
  · exact AList.lookup_erase_ne h

end PageDir

/-! ### The whole state -/

/-- A file as lazy pages see it. -/
structure FileData where
  length : ℕ
  bytes : ℕ → UInt8

structure VM where
  /-- `vpage_info_map`, in the order that `hash_next` goes through it. -/
  map : List VpageInfo
  /-- The live page directories. -/
  pagedirs : PdId → Option PageDir
  /-- `thread->pagedir` of the thread of a process. -/
  pagedir : Pid → Option PdId
  /-- `user_pool.used_map`. -/
  userPool : Bits
  mem : Frame → Page
  /-- `swap_free_map`. -/
  swapMap : Bits
  /-- `swap_block`. -/
  swapBlock : ℕ → SectorData
  files : FileId → FileData

namespace VM

/-- `hash_find`. -/
def find (s : VM) (k : Key) : Option VpageInfo := Table.find VpageInfo.key s.map k

/-- The vpage with the key of `v` becomes `v`. -/
def replace (s : VM) (v : VpageInfo) : VM := { s with map := Table.replace VpageInfo.key s.map v }

/-- `hash_delete`. -/
def erase (s : VM) (k : Key) : VM := { s with map := Table.erase VpageInfo.key s.map k }

def setPagedir (s : VM) (d : PdId) (pd : Option PageDir) : VM :=
  { s with pagedirs := Function.update s.pagedirs d pd }

/-- What the processor finds for the page `u` under the page directory `d`. -/
def pte (s : VM) (d : PdId) (u : Upage) : Option Pte := (s.pagedirs d).bind (·.get u)

/-- A page of the user pool is allocated. -/
def Allocated (s : VM) (f : Frame) : Prop := s.userPool[f]? = some true

/-- A swap sector is marked in the free map. -/
def Marked (s : VM) (n : ℕ) : Prop := s.swapMap[n]? = some true

end VM

end Pintos.Vm.State
