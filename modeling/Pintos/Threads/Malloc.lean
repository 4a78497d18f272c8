import Pintos.Userprog.PageEntries

/-! # The kernel heap

`threads/malloc.c`: blocks of seven sizes, cut out of pages, and groups of pages for what is larger. A page with
blocks, and the first page of a group, begin with a `struct arena`; memory is read at an address as such a structure.
The free lists are lists of addresses. The page allocator is the caller's: it answers a request for a number of
pages with an address or with a null pointer. The locks are left out. -/

namespace Pintos.Threads.Malloc

open Pintos.Lib.Ops Pintos.Userprog.PageEntries

/-- `struct desc`. -/
structure Desc where
  blockSize : Word
  blocksPerArena : Word
  freeList : List Word

/-- `struct arena`; a descriptor is given by its index, `none` is a null pointer. -/
structure Arena where
  magic : Word
  desc : Option ℕ
  freeCnt : Word

/-- The descriptors, memory, and the groups of pages that the heap has from the page allocator. -/
structure State where
  descs : List Desc
  arena : Word → Arena
  groups : List (Word × Word)

/-- `ARENA_MAGIC`. -/
def arenaMagic : Word := 0x9a548eed#32

/-- `sizeof (struct arena)`. -/
def arenaSize : Word := 12#32

/-- `PGSIZE`. -/
def pgSize : Word := 4096#32

/-- `pg_round_down`. -/
def pgRoundDown (va : Word) : Word := va &&& 0xfffff000#32

/-- `DIV_ROUND_UP`. -/
def divRoundUp (x step : Word) : Word := (x + step - 1) / step

/-- The bytes from `dst` meet a `struct arena` at `a`. -/
def Meets (dst size a : Word) : Prop := a.toNat < dst.toNat + size.toNat ∧ dst.toNat < a.toNat + arenaSize.toNat

instance (dst size a : Word) : Decidable (Meets dst size a) := inferInstanceAs (Decidable (_ ∧ _))

/-- `memset` with `0xcc`: no `struct arena` in the way survives. -/
def memset (dst size : Word) : Op State Unit := modify fun s =>
  { s with arena := fun a => if Meets dst size a then ⟨0xcccccccc#32, none, 0xcccccccc#32⟩ else s.arena a }

/-- Stores a `struct arena`. -/
def setArena (a : Word) (arena : Arena) : Op State Unit :=
  modify fun s => { s with arena := Function.update s.arena a arena }

/-- `palloc_get_multiple`, which returns `alloc pageCnt`. -/
def pallocGetMultiple (alloc : Word → Word) (pageCnt : Word) : Op State Word :=
  if alloc pageCnt = 0 then pure 0
  else do
    modify fun s => { s with groups := (alloc pageCnt, pageCnt) :: s.groups }
    pure (alloc pageCnt)

/-- `palloc_free_multiple`, for a group that was handed out. -/
def pallocFreeMultiple (a pageCnt : Word) : Op State Unit := do
  let s ← get
  assert ((a, pageCnt) ∈ s.groups)
  set { s with groups := s.groups.erase (a, pageCnt) }
  memset a (pgSize * pageCnt)

/-! ### Free lists -/

/-- The state with another free list of a descriptor. -/
def State.mapFree (s : State) (i : ℕ) (f : List Word → List Word) : State :=
  { s with descs := s.descs.modify i fun d => { d with freeList := f d.freeList } }

/-- Changes the free list of a descriptor. -/
def setFreeList (i : ℕ) (f : List Word → List Word) : Op State Unit := modify fun s => s.mapFree i f

/-- The descriptor with an index. -/
def getDesc (i : ℕ) : Op State Desc := do
  let s ← get
  deref s.descs[i]?

/-- `list_pop_front`. -/
def listPopFront (i : ℕ) : Op State Word := do
  let d ← getDesc i
  let b ← deref d.freeList.head?
  setFreeList i List.tail
  pure b

/-- `list_remove`, for an element of the list. -/
def listRemove (i : ℕ) (b : Word) : Op State Unit := do
  let d ← getDesc i
  assert (b ∈ d.freeList)
  setFreeList i (List.erase · b)

/-! ### Arenas and blocks -/

/-- The assertions of `block_to_arena` on the offset of a block. -/
def checkOffset (b : Word) : Option ℕ → Op State Unit
  | some i => do
    let d ← getDesc i
    assert ((pgOfs b - arenaSize) % d.blockSize = 0)
  | none => assert (pgOfs b = arenaSize)

/-- `block_to_arena`. -/
def blockToArena (b : Word) : Op State Word := do
  let a := pgRoundDown b
  assert (a ≠ 0)
  let s ← get
  assert ((s.arena a).magic = arenaMagic)
  checkOffset b (s.arena a).desc
  pure a

/-- `arena_to_block`. -/
def arenaToBlock (a : Word) (idx : ℕ) : Op State Word := do
  assert (a ≠ 0)
  let s ← get
  assert ((s.arena a).magic = arenaMagic)
  let d ← getDesc (← deref (s.arena a).desc)
  assert (idx < d.blocksPerArena.toNat)
  pure (a + arenaSize + BitVec.ofNat 32 idx * d.blockSize)

/-! ### The calls -/

/-- The loop of `malloc_init`. -/
def mallocInitLoop : ℕ → Word → Op State Unit
  | 0, _ => halt
  | fuel + 1, blockSize =>
    if blockSize < pgSize / 2 then do
      let s ← get
      assert (s.descs.length + 1 ≤ 10)
      modify fun s => { s with descs := s.descs ++ [⟨blockSize, (pgSize - arenaSize) / blockSize, []⟩] }
      mallocInitLoop fuel (blockSize * 2)
    else pure ()

/-- `malloc_init`. -/
def mallocInit : Op State Unit := mallocInitLoop 32 16

/-- The number of pages that `malloc` asks for. -/
def pageCnt (size : Word) : Word := divRoundUp (size + arenaSize) pgSize

/-- `malloc` of what is too big for a descriptor. -/
def mallocBig (alloc : Word → Word) (size : Word) : Op State Word := do
  let a ← pallocGetMultiple alloc (pageCnt size)
  if a = 0 then pure 0
  else do
    setArena a ⟨arenaMagic, none, pageCnt size⟩
    pure (a + arenaSize)

/-- A block from the free list. -/
def takeBlock (i : ℕ) : Op State Word := do
  let b ← listPopFront i
  let a ← blockToArena b
  let s ← get
  setArena a { s.arena a with freeCnt := (s.arena a).freeCnt - 1 }
  pure b

/-- A new arena, with its blocks on the free list. -/
def newArena (i : ℕ) (d : Desc) (a : Word) : Op State Unit := do
  setArena a ⟨arenaMagic, some i, d.blocksPerArena⟩
  (List.range d.blocksPerArena.toNat).forM fun k => do
    let b ← arenaToBlock a k
    setFreeList i (· ++ [b])

/-- `malloc` with a descriptor. -/
def mallocSmall (alloc : Word → Word) (i : ℕ) : Op State Word := do
  let d ← getDesc i
  if d.freeList = [] then do
    let a ← pallocGetMultiple alloc 1
    if a = 0 then pure 0
    else do
      newArena i d a
      takeBlock i
  else takeBlock i

/-- The index of the first descriptor with blocks of `size` bytes. -/
def State.findDesc (s : State) (size : Word) : Option ℕ := s.descs.findIdx? fun d => size ≤ d.blockSize

/-- `malloc`. -/
def malloc (alloc : Word → Word) (size : Word) : Op State Word :=
  if size = 0 then pure 0
  else do
    let s ← get
    match s.findDesc size with
    | some i => mallocSmall alloc i
    | none => mallocBig alloc size

/-- `calloc`; the zeros are not seen. -/
def calloc (alloc : Word → Word) (a b : Word) : Op State Word :=
  let size := a * b
  if size < a ∨ size < b then pure 0
  else malloc alloc size

/-- `block_size`. -/
def blockSize (block : Word) : Op State Word := do
  let a ← blockToArena block
  let s ← get
  match (s.arena a).desc with
  | some i => do
    let d ← getDesc i
    pure d.blockSize
  | none => pure (pgSize * (s.arena a).freeCnt - pgOfs block)

/-- The blocks of an arena are taken off the free list, and its page is freed. -/
def dissolve (i : ℕ) (a : Word) (blocksPerArena : Word) : Op State Unit := do
  (List.range blocksPerArena.toNat).forM fun k => do
    let b ← arenaToBlock a k
    listRemove i b
  pallocFreeMultiple a 1

/-- A block goes on the free list; an arena that is entirely unused is freed. -/
def putBlock (i : ℕ) (d : Desc) (a b : Word) : Op State Unit := do
  setFreeList i (b :: ·)
  let s ← get
  let freeCnt := (s.arena a).freeCnt + 1
  setArena a { s.arena a with freeCnt := freeCnt }
  if d.blocksPerArena ≤ freeCnt then do
    assert (freeCnt = d.blocksPerArena)
    dissolve i a d.blocksPerArena
  else pure ()

/-- `free` of a normal block. -/
def freeSmall (i : ℕ) (a b : Word) : Op State Unit := do
  let d ← getDesc i
  memset b d.blockSize
  putBlock i d a b

/-- `free`. -/
def free (p : Word) : Op State Unit :=
  if p = 0 then pure ()
  else do
    let a ← blockToArena p
    let s ← get
    match (s.arena a).desc with
    | some i => freeSmall i a p
    | none => pallocFreeMultiple a (s.arena a).freeCnt

end Pintos.Threads.Malloc
