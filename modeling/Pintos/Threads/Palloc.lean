import Mathlib.Data.Set.Pairwise.Basic
import Pintos.Kernel.BitmapGroups
import Pintos.Kernel.BitmapWords
import Pintos.Lib.Runs
import Pintos.Userprog.PageEntries
import Mathlib.Order.CompletePartialOrder

/-! # The page allocator

`threads/palloc.c`: two pools of pages, each with a bitmap at its start that says which of its pages are in
use. Memory is read and written by bytes; the bits of the bitmaps are kept apart from it, with the address at
which they are stored. Sizes are natural numbers, addresses are words. -/

namespace Pintos.Threads.Palloc

open Pintos.Lib.Ops Pintos.Lib.Runs Pintos.Kernel.Bitmap Pintos.Kernel.BitmapWords Pintos.Userprog.PageEntries

/-- `init_ram_pages`, from the number of kilobytes above the first megabyte: at most 64 MB are used. -/
def initRamPages (ax : BitVec 16) : ℕ :=
  let kb := ax.toNat + 1024
  if kb ≤ 0x10000 then kb / 4 else 0x10000 / 4

/-- `struct pool`; `buf` is the address of the bitmap. -/
structure Pool where
  buf : Word
  usedMap : Bits
  base : Word

/-- `enum palloc_flags`. -/
structure PallocFlags where
  assert : Bool
  zero : Bool
  user : Bool

/-- The pools, and memory. -/
structure State where
  kernelPool : Pool
  userPool : Pool
  mem : Word → UInt8

/-- The pool of user pages, or the one of kernel pages. -/
def State.pool (s : State) : Bool → Pool
  | true => s.userPool
  | false => s.kernelPool

/-- The state with another bitmap in a pool. -/
def State.setUsedMap (s : State) (user : Bool) (usedMap : Bits) : State :=
  match user with
  | true => { s with userPool := { s.userPool with usedMap } }
  | false => { s with kernelPool := { s.kernelPool with usedMap } }

/-- `memset`. -/
def memset (dst : Word) (value : UInt8) (size : ℕ) : Op State Unit := modify fun s =>
  { s with mem := fun a => if (a - dst).toNat < size then value else s.mem a }

/-- `bitmap_buf_size`. -/
def bitmapBufSize (bitCnt : ℕ) : ℕ := 8 + byteCnt bitCnt

/-- `bitmap_create_in_buf`. -/
def bitmapCreateInBuf (bitCnt blockSize : ℕ) : Op State Bits := do
  assert (bitmapBufSize bitCnt ≤ blockSize)
  pure (List.replicate bitCnt false)

/-- `init_pool`. -/
def initPool (base : Word) (pageCnt : ℕ) : Op State Pool :=
  let bmPages := (bitmapBufSize pageCnt + 4096 - 1) / 4096
  if bmPages > pageCnt then halt
  else do
    let usedMap ← bitmapCreateInBuf (pageCnt - bmPages) (bmPages * 4096)
    pure ⟨base, usedMap, base + BitVec.ofNat 32 (bmPages * 4096)⟩

/-- `palloc_init`. -/
def pallocInit (ramPages userPageLimit : ℕ) : Op State Unit := do
  let freeStart ← ptov (1024 * 1024)
  let freeEnd ← ptov (BitVec.ofNat 32 (ramPages * 4096))
  let freePages := ((freeEnd - freeStart).sdiv 4096).toNat
  let userPages := if freePages / 2 > userPageLimit then userPageLimit else freePages / 2
  let kernelPages := freePages - userPages
  let kernelPool ← initPool freeStart kernelPages
  let userPool ← initPool (freeStart + BitVec.ofNat 32 (kernelPages * 4096)) userPages
  modify fun s => { s with kernelPool, userPool }

/-- The pages of `palloc_get_multiple`, or a null pointer. -/
def takePages (user : Bool) (pageCnt : ℕ) : Op State Word := do
  let s ← get
  match bitmapScanAndFlip (s.pool user).usedMap 0 pageCnt false with
  | some (pageIdx, usedMap) => do
    set (s.setUsedMap user usedMap)
    pure ((s.pool user).base + 4096 * BitVec.ofNat 32 pageIdx)
  | none => pure 0

/-- `palloc_get_multiple`. -/
def pallocGetMultiple (flags : PallocFlags) (pageCnt : ℕ) : Op State Word :=
  if pageCnt = 0 then pure 0
  else do
    let pages ← takePages flags.user pageCnt
    if pages ≠ 0 then
      if flags.zero then do
        memset pages 0 (4096 * pageCnt)
        pure pages
      else pure pages
    else if flags.assert then halt else pure 0

/-- `page_from_pool`. -/
def pageFromPool (pool : Pool) (page : Word) : Bool :=
  pgNo pool.base ≤ pgNo page ∧ pgNo page < pgNo pool.base + pool.usedMap.length

/-- The pool of a page in `palloc_free_multiple`. -/
def poolOf (pages : Word) : Op State Bool := do
  let s ← get
  if pageFromPool s.kernelPool pages then pure false
  else if pageFromPool s.userPool pages then pure true
  else halt

/-- `palloc_free_multiple`. -/
def pallocFreeMultiple (pages : Word) (pageCnt : ℕ) : Op State Unit := do
  assert (pgOfs pages = 0)
  if pages = 0 ∨ pageCnt = 0 then pure ()
  else do
    let user ← poolOf pages
    let s ← get
    let pageIdx := pgNo pages - pgNo (s.pool user).base
    memset pages 0xcc (4096 * pageCnt)
    let s ← get
    let all ← deref (bitmapAll (s.pool user).usedMap pageIdx pageCnt)
    assert all
    let usedMap ← deref (bitmapSetMultiple (s.pool user).usedMap pageIdx pageCnt false)
    set (s.setUsedMap user usedMap)

/-! ### Pages -/

/-- The pages of a pool, by number. -/
def Pool.span (p : Pool) : Set ℕ := Set.Ico (pgNo p.base) (pgNo p.base + p.usedMap.length)

/-- The pages in which the bitmap of a pool is. -/
def Pool.bitmapSpan (p : Pool) : Set ℕ :=
  {n | ∃ a, p.buf.toNat ≤ a ∧ a < p.buf.toNat + bitmapBufSize p.usedMap.length ∧ a / 4096 = n}

/-- All pages of a pool. -/
def Pool.region (p : Pool) : Set ℕ := p.bitmapSpan ∪ p.span

/-- Free memory: the pages from the first megabyte to the end of memory. -/
def freeMemory (ramPages : ℕ) : Set ℕ := Set.Ico 0xc0100 (0xc0000 + ramPages)

/-- A group of pages that was handed out. -/
structure Grant where
  user : Bool
  pages : Word
  cnt : ℕ
  deriving DecidableEq

/-- The pages of a group. -/
def Grant.span (g : Grant) : Set ℕ := Set.Ico (pgNo g.pages) (pgNo g.pages + g.cnt)

/-- There are `cnt` pages in a row in a pool that are not handed out. -/
def FreeRun (s : State) (grants : List Grant) (user : Bool) (cnt : ℕ) : Prop :=
  ∃ first, Set.Ico first (first + cnt) ⊆ (s.pool user).span ∧ ∀ g ∈ grants,
    Disjoint (Set.Ico first (first + cnt)) g.span

/-! ### Runs -/

/-- A call of the allocator. -/
inductive Call where
  | get (flags : PallocFlags) (pageCnt : ℕ)
  | free (g : Grant)

/-- A call that returns; the groups that are outstanding are kept beside the state. -/
inductive Step : State × List Grant → Call → State × List Grant → Prop
  | get {s s' : State} {grants : List Grant} {flags : PallocFlags} {pageCnt : ℕ} {pages : Word}
      (h : pallocGetMultiple flags pageCnt s = some (pages, s')) :
      Step (s, grants) (.get flags pageCnt) (s', if pages = 0 then grants else ⟨flags.user, pages, pageCnt⟩ :: grants)
  | free {s s' : State} {grants rest : List Grant} {g : Grant} (hg : grants.Perm (g :: rest))
      (h : pallocFreeMultiple g.pages g.cnt s = some ((), s')) : Step (s, grants) (.free g) (s', rest)

/-- The states that `palloc_init` returns in. -/
def Initial (ramPages userPageLimit : ℕ) (x : State × List Grant) : Prop :=
  x.2 = [] ∧ ∃ s, pallocInit ramPages userPageLimit s = some ((), x.1)

/-- The memory has more than the first megabyte, and it ends before the last address. -/
def MemorySize (ramPages : ℕ) : Prop := 256 ≤ ramPages ∧ ramPages < 2 ^ 18

/-- `init_ram_pages` is such a size. -/
theorem memorySize_initRamPages (ax : BitVec 16) : MemorySize (initRamPages ax) := by
  unfold initRamPages MemorySize
  dsimp only
  split_ifs <;> omega

/-! ### The layout of a pool -/

/-- The pool takes the pages from `first` to `last`: its bitmap fits before its base. -/
structure PoolAt (p : Pool) (first last : ℕ) : Prop where
  buf : p.buf.toNat = 4096 * first
  base : p.base.toNat + 4096 * p.usedMap.length = 4096 * last
  room : p.buf.toNat + bitmapBufSize p.usedMap.length ≤ p.base.toNat
  last : last < 2 ^ 20

variable {p : Pool} {s s' : State} {grants rest : List Grant} {g : Grant} {user : Bool}
  {first last cnt n ramPages limit : ℕ} {m : Bits}

theorem bitmapBufSize_pos (n : ℕ) : 8 ≤ bitmapBufSize n := Nat.le_add_right ..

theorem bitmapBufSize_mono {n n' : ℕ} (h : n ≤ n') : bitmapBufSize n ≤ bitmapBufSize n' := by
  simp only [bitmapBufSize, byteCnt, elemCnt, elemBits]
  omega

namespace PoolAt

theorem pgNo_base (h : PoolAt p first last) :
    pgNo p.base + p.usedMap.length = last ∧ p.base.toNat = 4096 * pgNo p.base := by
  have hbase := h.base
  rw [pgNo_eq]
  omega

theorem first_lt (h : PoolAt p first last) : first < pgNo p.base := by
  have hbase := h.pgNo_base.2
  have hbuf := h.buf
  have hroom := h.room
  have hpos := bitmapBufSize_pos p.usedMap.length
  omega

theorem lt_of_mem_bitmapSpan (h : PoolAt p first last) (hn : n ∈ p.bitmapSpan) : first ≤ n ∧ n < pgNo p.base := by
  obtain ⟨a, hbuf, hroom, rfl⟩ := hn
  obtain ⟨-, hbase⟩ := h.pgNo_base
  have hb := h.buf
  have hr := h.room
  omega

theorem of_mem_region (h : PoolAt p first last) (hn : n ∈ p.region) : first ≤ n ∧ n < last := by
  have hlast := h.pgNo_base.1
  have hfirst := h.first_lt
  rcases hn with hn | hn
  · have hlt := h.lt_of_mem_bitmapSpan hn
    omega
  · have hlt : pgNo p.base ≤ n ∧ n < pgNo p.base + p.usedMap.length := hn
    omega

/-- The pages handed out are not those of the bitmap. -/
theorem disjoint_bitmapSpan (h : PoolAt p first last) : Disjoint p.span p.bitmapSpan := by
  refine Set.disjoint_left.mpr fun n hn hn' => ?_
  have hle : pgNo p.base ≤ n := hn.1
  have hlt := h.lt_of_mem_bitmapSpan hn'
  omega

end PoolAt

/-- **`init_pool`** puts the bitmap before the pages. -/
theorem initPool_ensures {base : Word} (hbase : base.toNat = 4096 * first) (hlast : first + n < 2 ^ 20) :
    Ensures (initPool base n) s fun p s' => s' = s ∧ PoolAt p first (first + n) ∧ Tracks p.usedMap [] := by
  refine Ensures.ite (fun _ => Ensures.halt) fun hle => Ensures.bind (Ensures.bind (Ensures.assert fun hfit => ?_))
  refine Ensures.pure (Ensures.pure ⟨rfl, ?_, tracks_replicate _⟩)
  have hfit' := of_decide_eq_true hfit
  set bmPages := (bitmapBufSize n + 4096 - 1) / 4096
  have hadd : (base + BitVec.ofNat 32 (bmPages * 4096)).toNat = base.toNat + bmPages * 4096 := by
    rw [BitVec.toNat_add, BitVec.toNat_ofNat]
    omega
  refine ⟨hbase, ?_, ?_, hlast⟩
  · show (base + BitVec.ofNat 32 (bmPages * 4096)).toNat + 4096 * (List.replicate (n - bmPages) false).length = _
    rw [hadd, List.length_replicate]
    omega
  · show base.toNat + bitmapBufSize (List.replicate (n - bmPages) false).length ≤ _
    rw [hadd, List.length_replicate]
    omega

/-! ### The invariant -/

/-- Where the groups of a pool begin in its bitmap, and their lengths. -/
def groups (s : State) (user : Bool) (grants : List Grant) : List (ℕ × ℕ) :=
  (grants.filter fun g => g.user = user).map fun g => (pgNo g.pages - pgNo (s.pool user).base, g.cnt)

/-- **The invariant**: the pools are laid out one after the other, and their bitmaps are set where the
outstanding groups are. -/
structure Inv (ramPages : ℕ) (x : State × List Grant) : Prop where
  layout : ∃ mid, PoolAt x.1.kernelPool 0xc0100 mid ∧ PoolAt x.1.userPool mid (0xc0000 + ramPages)
  pages : ∀ g ∈ x.2, g.pages.toNat = 4096 * pgNo g.pages ∧ pgNo (x.1.pool g.user).base ≤ pgNo g.pages
  tracks : ∀ user, Tracks (x.1.pool user).usedMap (groups x.1 user x.2)

@[simp] theorem pool_setUsedMap (s : State) (user user' : Bool) (m : Bits) : (s.setUsedMap user m).pool user' =
    if user' = user then { s.pool user with usedMap := m } else s.pool user' := by
  cases user <;> cases user' <;> rfl

@[simp] theorem pool_mem (s : State) (mem : Word → UInt8) : ({ s with mem } : State).pool user = s.pool user := by
  cases user <;> rfl

theorem base_setUsedMap (s : State) (user user' : Bool) (m : Bits) :
    ((s.setUsedMap user m).pool user').base = (s.pool user').base := by
  rw [pool_setUsedMap]
  split_ifs with h
  · rw [h]
  · rfl

theorem groups_setUsedMap (s : State) (user user' : Bool) (m : Bits) (grants : List Grant) :
    groups (s.setUsedMap user m) user' grants = groups s user' grants := by
  rw [groups, base_setUsedMap, groups]

theorem groups_cons (s : State) (user : Bool) (g : Grant) (grants : List Grant) : groups s user (g :: grants) =
    if g.user = user then (pgNo g.pages - pgNo (s.pool user).base,
      g.cnt) :: groups s user grants else groups s user grants := by
  unfold groups
  by_cases h : g.user = user
  · rw [if_pos h, List.filter_cons_of_pos (by simpa using h), List.map_cons]
  · rw [if_neg h, List.filter_cons_of_neg (by simpa using h)]

theorem PoolAt.setUsedMap (h : PoolAt p first last) (hm : m.length = p.usedMap.length) :
    PoolAt { p with usedMap := m } first last :=
  ⟨h.buf, hm ▸ h.base, hm ▸ h.room, h.last⟩

namespace Inv

theorem mem (h : Inv ramPages (s, grants)) (mem : Word → UInt8) : Inv ramPages ({ s with mem }, grants) where
  layout := h.layout
  pages g hg := by
    rw [pool_mem]
    exact h.pages g hg
  tracks user := by
    rw [groups, pool_mem]
    exact h.tracks user

theorem perm (h : Inv ramPages (s, grants)) (hp : grants.Perm rest) : Inv ramPages (s, rest) where
  layout := h.layout
  pages g hg := h.pages g (hp.mem_iff.mpr hg)
  tracks user := (h.tracks user).perm ((hp.filter _).map _)

/-- Where a pool is. -/
theorem poolAt (h : Inv ramPages (s, grants)) (user : Bool) :
    ∃ first last, PoolAt (s.pool user) first last ∧ 0xc0100 ≤ first ∧ last ≤ 0xc0000 + ramPages := by
  obtain ⟨mid, hk, hu⟩ := h.layout
  have hlastk := hk.pgNo_base.1
  have hfirstk := hk.first_lt
  have hlastu := hu.pgNo_base.1
  have hfirstu := hu.first_lt
  cases user with
  | true => exact ⟨_, _, hu, by omega, le_rfl⟩
  | false => exact ⟨_, _, hk, le_rfl, by omega⟩

/-- Another bitmap of the same length. -/
theorem setUsedMap (h : Inv ramPages (s, grants)) (hm : m.length = (s.pool user).usedMap.length)
    (hpages : ∀ g ∈ rest, g.pages.toNat = 4096 * pgNo g.pages ∧ pgNo (s.pool g.user).base ≤ pgNo g.pages)
    (htracks : Tracks m (groups s user rest)) (hother : ∀ user', user' ≠ user →
      groups s user' rest = groups s user' grants) :
    Inv ramPages (s.setUsedMap user m, rest) where
  layout := by
    obtain ⟨mid, hk, hu⟩ := h.layout
    cases user with
    | true => exact ⟨mid, hk, hu.setUsedMap hm⟩
    | false => exact ⟨mid, hk.setUsedMap hm, hu⟩
  pages g hg := by
    rw [base_setUsedMap]
    exact hpages g hg
  tracks user' := by
    rw [groups_setUsedMap, pool_setUsedMap]
    split_ifs with heq
    · rw [heq]
      exact htracks
    · rw [hother user' heq]
      exact h.tracks user'

/-- A group of a pool, as the bitmap has it. -/
theorem mem_groups (hg : g ∈ grants) : (pgNo g.pages - pgNo (s.pool g.user).base, g.cnt) ∈ groups s g.user grants :=
  List.mem_map.mpr ⟨g, List.mem_filter.mpr ⟨hg, decide_eq_true rfl⟩, rfl⟩

/-- An outstanding group lies in its pool. -/
theorem inside (h : Inv ramPages (s, grants)) (hg : g ∈ grants) :
    0 < g.cnt ∧ pgNo (s.pool g.user).base ≤ pgNo g.pages ∧
    pgNo g.pages + g.cnt ≤ pgNo (s.pool g.user).base + (s.pool g.user).usedMap.length := by
  obtain ⟨hpos, hle⟩ := (h.tracks g.user).inside _ (mem_groups hg)
  have hpages := (h.pages g hg).2
  have hle' : pgNo g.pages - pgNo (s.pool g.user).base + g.cnt ≤ (s.pool g.user).usedMap.length := hle
  refine ⟨hpos, hpages, ?_⟩
  have hpages' : pgNo (s.pool g.user).base ≤ pgNo g.pages := hpages
  omega

end Inv

/-- **`palloc_init`** lays out the pools, on a machine with memory above the first megabyte. -/
theorem pallocInit_ensures (hram : MemorySize ramPages) :
    Ensures (pallocInit ramPages limit) s fun _ s' => Inv ramPages (s', []) := by
  obtain ⟨hlow, hhigh⟩ := hram
  have hend : (BitVec.ofNat 32 (ramPages * 4096) + physBase).toNat = 0xc0000000 + 4096 * ramPages := by
    rw [BitVec.toNat_add, BitVec.toNat_ofNat]
    show (ramPages * 4096 % 2 ^ 32 + 0xc0000000) % 2 ^ 32 = _
    omega
  have hstart : ((1024 * 1024 : Word) + physBase).toNat = 4096 * 0xc0100 := by decide
  refine Ensures.bind (Ensures.bind (Ensures.assert fun _ => Ensures.pure ?_))
  refine Ensures.bind (Ensures.bind (Ensures.assert fun _ => Ensures.pure ?_))
  generalize (1024 * 1024 : Word) + physBase = freeStart at hstart
  generalize BitVec.ofNat 32 (ramPages * 4096) + physBase = freeEnd at hend
  have hfree : ((freeEnd - freeStart).sdiv 4096).toNat = ramPages - 256 := by
    have hsub : (freeEnd - freeStart).toNat = 4096 * (ramPages - 256) := by
      rw [BitVec.toNat_sub]
      omega
    have hmsb : (freeEnd - freeStart).msb = false := by
      rw [BitVec.msb_eq_false_iff_two_mul_lt, hsub]
      omega
    rw [BitVec.sdiv_eq, hmsb]
    show ((freeEnd - freeStart).udiv 4096).toNat = _
    rw [BitVec.udiv_eq, BitVec.toNat_udiv, hsub]
    exact Nat.mul_div_cancel_left _ (by decide)
  dsimp only
  rw [hfree]
  set userPages := if (ramPages - 256) / 2 > limit then limit else (ramPages - 256) / 2 with huser
  have hle : userPages ≤ ramPages - 256 := by
    rw [huser]
    split_ifs <;> omega
  refine Ensures.bind ((initPool_ensures hstart (by omega)).mono ?_)
  rintro kernelPool _ ⟨rfl, hkernel, hkmap⟩
  have hmid : (freeStart + BitVec.ofNat 32 ((ramPages - 256 - userPages) * 4096)).toNat =
      4096 * (0xc0100 + (ramPages - 256 - userPages)) := by
    rw [BitVec.toNat_add, BitVec.toNat_ofNat]
    omega
  refine Ensures.bind ((initPool_ensures hmid (by omega)).mono ?_)
  rintro userPool _ ⟨rfl, hupool, humap⟩
  have hlast : 0xc0100 + (ramPages - 256 - userPages) + userPages = 0xc0000 + ramPages := by omega
  rw [hlast] at hupool
  refine Ensures.modify ⟨⟨_, hkernel, hupool⟩, nofun, fun user => ?_⟩
  cases user with
  | true => exact humap
  | false => exact hkmap

/-! ### Single calls -/

/-- The pages that are taken are outside all groups, and where none are taken no run is free. -/
theorem Inv.takePages_yields (h : Inv ramPages (s, grants)) (hcnt : 0 < cnt) :
    Yields (takePages user cnt) s fun pages s' =>
    (pages ≠ 0 ∧ Inv ramPages (s', ⟨user, pages, cnt⟩ :: grants)) ∨
      (pages = 0 ∧ s' = s ∧ ¬FreeRun s grants user cnt) := by
  obtain ⟨first, last, hat, hfirst, -⟩ := h.poolAt user
  obtain ⟨hlast, hbase⟩ := hat.pgNo_base
  have htracks := h.tracks user
  have hbuf := hat.buf
  have hroom := hat.room
  have hend := hat.last
  refine Yields.bind (Yields.get ?_)
  cases hs : bitmapScanAndFlip (s.pool user).usedMap 0 cnt false with
  | some r =>
    obtain ⟨idx, m⟩ := r
    obtain ⟨-, hle, -⟩ := bitmapScanAndFlip_eq_some hs
    obtain ⟨htake, hlen⟩ := htracks.take hcnt hs
    have hpages : ((s.pool user).base + 4096 * BitVec.ofNat 32 idx).toNat =
      4096 * (pgNo (s.pool user).base + idx) := by
      rw [BitVec.toNat_add, BitVec.toNat_mul, BitVec.toNat_ofNat]
      show ((s.pool user).base.toNat + 4096 * (idx % 2 ^ 32) % 2 ^ 32) % 2 ^ 32 = _
      omega
    dsimp only
    generalize (s.pool user).base + 4096 * BitVec.ofNat 32 idx = pages at hpages ⊢
    have hno : pgNo pages = pgNo (s.pool user).base + idx := by
      rw [pgNo_eq]
      omega
    refine Yields.bind (Yields.set (Yields.pure (.inl ⟨fun hzero => ?_,
      h.setUsedMap hlen ?_ ?_ fun user' hne => ?_⟩)))
    · rw [hzero] at hpages
      have hzero' : (0 : ℕ) = 4096 * (pgNo (s.pool user).base + idx) := hpages
      omega
    · refine List.forall_mem_cons.mpr ⟨⟨by rw [hno]; exact hpages, by rw [hno]; exact Nat.le_add_right ..⟩, h.pages⟩
    · rw [groups_cons, if_pos rfl]
      show Tracks m ((pgNo pages - pgNo (s.pool user).base, cnt) :: _)
      rw [hno, Nat.add_sub_cancel_left]
      exact htake
    · rw [groups_cons, if_neg fun e : user = user' => hne e.symm]
  | none =>
    refine Yields.pure (.inr ⟨rfl, rfl, ?_⟩)
    rintro ⟨k, hk, hfree⟩
    have hfirst' : pgNo (s.pool user).base ≤ k ∧ k < pgNo (s.pool user).base + (s.pool user).usedMap.length :=
      hk (Set.left_mem_Ico.mpr (by omega))
    have hlast' : pgNo (s.pool user).base ≤ k + cnt - 1 ∧
      k + cnt - 1 < pgNo (s.pool user).base + (s.pool user).usedMap.length :=
      hk (Set.mem_Ico.mpr ⟨by omega, by omega⟩)
    obtain ⟨i, h1, h2, gr, hgr, h3, h4⟩ := htracks.meets_of_none hs
      (by omega : k - pgNo (s.pool user).base + cnt ≤ (s.pool user).usedMap.length)
    obtain ⟨g, hg, rfl⟩ := List.mem_map.mp hgr
    obtain ⟨hmem, huser⟩ := List.mem_filter.mp hg
    obtain rfl := of_decide_eq_true huser
    have hpages := (h.pages g hmem).2
    have h3' : pgNo g.pages - pgNo (s.pool g.user).base ≤ i := h3
    have h4' : i < pgNo g.pages - pgNo (s.pool g.user).base + g.cnt := h4
    have hpages' : pgNo (s.pool g.user).base ≤ pgNo g.pages := hpages
    refine Set.disjoint_left.mp (hfree g hmem) (Set.mem_Ico.mpr ⟨?_, ?_⟩ : pgNo (s.pool g.user).base + i ∈ _)
      (Set.mem_Ico.mpr ⟨?_, ?_⟩)
    all_goals omega

/-- **`palloc_get_multiple`** hands out pages that no outstanding group has. -/
theorem Inv.pallocGetMultiple_ensures {flags : PallocFlags} (h : Inv ramPages (s, grants)) :
    Ensures (pallocGetMultiple flags cnt) s fun pages s' =>
      Inv ramPages (s', if pages = 0 then grants else ⟨flags.user, pages, cnt⟩ :: grants) := by
  refine Ensures.ite (fun _ => Ensures.pure h) fun hcnt =>
    Ensures.bind ((h.takePages_yields (by omega)).ensures.mono ?_)
  rintro pages s' (⟨hne, hinv⟩ | ⟨rfl, rfl, -⟩)
  · rw [if_pos hne]
    refine Ensures.ite (fun _ => Ensures.bind (Ensures.modify (Ensures.pure ?_))) fun _ => Ensures.pure ?_
    · rw [if_neg hne]
      exact hinv.mem _
    · rw [if_neg hne]
      exact hinv
  · rw [if_neg (not_not_intro rfl)]
    exact Ensures.ite (fun _ => Ensures.halt) fun _ => Ensures.pure h

/-- **A request fails only where its pool has no run** of that many free pages. -/
theorem Inv.pallocGetMultiple_yields {flags : PallocFlags} (h : Inv ramPages (s, grants)) (hcnt : 0 < cnt)
    (hrun : FreeRun s grants flags.user cnt) : Yields (pallocGetMultiple flags cnt) s fun pages _ => pages ≠ 0 := by
  unfold pallocGetMultiple
  rw [if_neg hcnt.ne']
  refine Yields.bind ((h.takePages_yields hcnt).mono ?_)
  rintro pages s' (⟨hne, -⟩ | ⟨-, -, hno⟩)
  · rw [if_pos hne]
    split_ifs
    · exact Yields.bind (Yields.modify (Yields.pure hne))
    · exact Yields.pure hne
  · exact absurd hrun hno

/-- **`palloc_free_multiple`** finds the pool of an outstanding group, and all its pages are in use. -/
theorem Inv.pallocFreeMultiple_yields (h : Inv ramPages (s, g :: rest)) :
    Yields (pallocFreeMultiple g.pages g.cnt) s fun _ s' => Inv ramPages (s', rest) := by
  have hmem : g ∈ g :: rest := List.mem_cons_self
  obtain ⟨hpos, hbase, hlast⟩ := h.inside hmem
  have hpages := (h.pages g hmem).1
  have haligned : pgOfs g.pages = 0 := by
    apply BitVec.eq_of_toNat_eq
    rw [toNat_pgOfs, hpages]
    exact Nat.mul_mod_right ..
  have hnull : g.pages ≠ 0 := by
    obtain ⟨first, last, hat, -⟩ := h.poolAt g.user
    have hfirst : first < pgNo (s.pool g.user).base := hat.first_lt
    have hbase' : pgNo (s.pool g.user).base ≤ pgNo g.pages := hbase
    intro hzero
    have hzero' : g.pages.toNat = 0 := by
      rw [hzero]
      rfl
    omega
  obtain ⟨mid, hk, hu⟩ : ∃ mid, PoolAt s.kernelPool 0xc0100 mid ∧ PoolAt s.userPool mid (0xc0000 + ramPages) :=
    h.layout
  have hlastk := hk.pgNo_base.1
  have hfirstu := hu.first_lt
  have hpool : Yields (poolOf g.pages) s fun user s' => user = g.user ∧ s' = s := by
    have hin : ∀ p : Pool, pageFromPool p g.pages = true ↔
      pgNo p.base ≤ pgNo g.pages ∧ pgNo g.pages < pgNo p.base + p.usedMap.length :=
      fun p => decide_eq_true_iff
    refine Yields.bind (Yields.get ?_)
    simp only [hin]
    cases huser : g.user with
    | true =>
      rw [huser] at hbase hlast
      have hbase' : pgNo s.userPool.base ≤ pgNo g.pages := hbase
      have hlast' : pgNo g.pages + g.cnt ≤ pgNo s.userPool.base + s.userPool.usedMap.length := hlast
      rw [if_neg (by omega), if_pos (by omega)]
      exact Yields.pure ⟨rfl, rfl⟩
    | false =>
      rw [huser] at hbase hlast
      have hlast' : pgNo g.pages + g.cnt ≤ pgNo s.kernelPool.base + s.kernelPool.usedMap.length := hlast
      have hbase' : pgNo s.kernelPool.base ≤ pgNo g.pages := hbase
      rw [if_pos (by omega)]
      exact Yields.pure ⟨rfl, rfl⟩
  have htracks := h.tracks g.user
  rw [groups_cons, if_pos rfl] at htracks
  obtain ⟨hall, m, hset, htracks, hlen⟩ := htracks.release
  refine Yields.bind (Yields.assert (decide_eq_true haligned) ?_)
  rw [if_neg (not_or.mpr ⟨hnull, hpos.ne'⟩)]
  refine Yields.bind (hpool.mono ?_)
  rintro _ _ ⟨rfl, rfl⟩
  refine Yields.bind (Yields.get (Yields.bind (Yields.modify (Yields.bind (Yields.get ?_)))))
  rw [pool_mem]
  refine Yields.bind (Yields.deref hall (Yields.bind (Yields.assert rfl
    (Yields.bind (Yields.deref hset (Yields.set ?_))))))
  refine (h.mem _).setUsedMap ?_ ?_ ?_ fun user' hne => ?_
  · rw [pool_mem]
    exact hlen
  · intro g' hg'
    rw [pool_mem]
    exact h.pages g' (List.mem_cons_of_mem g hg')
  · rw [groups, pool_mem]
    exact htracks
  · rw [groups_cons, if_neg fun e : g.user = user' => hne e.symm]

/-! ### All runs -/

theorem inv_invariant (hram : MemorySize ramPages) : Invariant (Initial ramPages limit) Step (Inv ramPages) where
  start := by
    rintro ⟨s, _⟩ ⟨rfl, s₀, hinit⟩
    exact pallocInit_ensures hram _ _ hinit
  step := by
    rintro _ _ _ hinv (h | ⟨hg, h⟩)
    · exact hinv.pallocGetMultiple_ensures _ _ h
    · exact (hinv.perm hg).pallocFreeMultiple_yields.ensures _ _ h

/-- What holds of the outstanding groups and the pools between calls. -/
structure Sound (ramPages : ℕ) (s : State) (grants : List Grant) : Prop where
  disjoint : grants.Pairwise fun g h => Disjoint g.span h.span
  inPool : ∀ g ∈ grants, pgOfs g.pages = 0 ∧ g.span ⊆ (s.pool g.user).span
  offBitmaps : ∀ g ∈ grants, ∀ user, Disjoint g.span (s.pool user).bitmapSpan
  poolsApart : Disjoint s.kernelPool.region s.userPool.region
  poolsFree : ∀ user, (s.pool user).region ⊆ freeMemory ramPages
  gets : ∀ flags cnt, 0 < cnt → FreeRun s grants flags.user cnt →
    Yields (pallocGetMultiple flags cnt) s fun pages _ => pages ≠ 0
  frees : ∀ g ∈ grants, Yields (pallocFreeMultiple g.pages g.cnt) s fun _ _ => True

namespace Inv

theorem span_subset (h : Inv ramPages (s, grants)) (hg : g ∈ grants) : g.span ⊆ (s.pool g.user).span := by
  obtain ⟨-, hbase, hlast⟩ := h.inside hg
  exact Set.Ico_subset_Ico hbase hlast

theorem poolsApart (h : Inv ramPages (s, grants)) : Disjoint s.kernelPool.region s.userPool.region := by
  obtain ⟨mid, hk, hu⟩ := h.layout
  refine Set.disjoint_left.mpr fun n hn hn' => ?_
  have hlt := (hk.of_mem_region hn).2
  have hle := (hu.of_mem_region hn').1
  omega

/-- What is in both pools is nowhere. -/
theorem pool_eq (h : Inv ramPages (s, grants)) {user user' : Bool} (hn : n ∈ (s.pool user).region)
    (hn' : n ∈ (s.pool user').region) :
    user = user' := by
  have hdisjoint := h.poolsApart
  cases user <;> cases user'
  · rfl
  · exact (Set.disjoint_left.mp hdisjoint hn hn').elim
  · exact (Set.disjoint_left.mp hdisjoint hn' hn).elim
  · rfl

/-- Two groups of one pool are apart in its bitmap, two of different pools in memory. -/
theorem disjoint (h : Inv ramPages (s, g :: rest)) {g' : Grant} (hg' : g' ∈ rest) : Disjoint g.span g'.span := by
  have hmem : g ∈ g :: rest := List.mem_cons_self
  have hmem' : g' ∈ g :: rest := List.mem_cons_of_mem g hg'
  refine Set.disjoint_left.mpr fun n hn hn' => ?_
  have huser : g'.user = g.user := h.pool_eq (.inr (h.span_subset hmem' hn')) (.inr (h.span_subset hmem hn))
  have htracks := h.tracks g.user
  rw [groups_cons, if_pos rfl] at htracks
  have hgroup := mem_groups (s := s) hg'
  rw [huser] at hgroup
  have hapart := (List.pairwise_cons.mp htracks.apart).1 _ hgroup
  have hbase := (h.inside hmem).2.1
  have hbase' := (h.inside hmem').2.1
  rw [huser] at hbase'
  have hn₁ : pgNo g.pages ≤ n ∧ n < pgNo g.pages + g.cnt := hn
  have hn₂ : pgNo g'.pages ≤ n ∧ n < pgNo g'.pages + g'.cnt := hn'
  rcases hapart with hapart | hapart
  · have hapart' : pgNo g.pages - pgNo (s.pool g.user).base + g.cnt ≤ pgNo g'.pages - pgNo (s.pool g.user).base :=
      hapart
    omega
  · have hapart' : pgNo g'.pages - pgNo (s.pool g.user).base + g'.cnt ≤ pgNo g.pages - pgNo (s.pool g.user).base :=
      hapart
    omega

theorem pairwise_disjoint (h : Inv ramPages (s, grants)) : grants.Pairwise fun g h => Disjoint g.span h.span := by
  refine List.pairwise_iff_forall_sublist.mpr fun {g g'} hsub => ?_
  obtain ⟨rest, hperm⟩ := hsub.exists_perm_append
  exact (h.perm hperm).disjoint List.mem_cons_self

/-- A group has no page of a bitmap. -/
theorem offBitmap (h : Inv ramPages (s, grants)) (hg : g ∈ grants) (user : Bool) :
    Disjoint g.span (s.pool user).bitmapSpan := by
  refine Set.disjoint_left.mpr fun n hn hn' => ?_
  have hspan := h.span_subset hg hn
  obtain rfl := h.pool_eq (.inr hspan) (.inl hn')
  obtain ⟨first, last, hat, -⟩ := h.poolAt g.user
  exact Set.disjoint_left.mp hat.disjoint_bitmapSpan hspan hn'

theorem sound (h : Inv ramPages (s, grants)) : Sound ramPages s grants where
  disjoint := h.pairwise_disjoint
  inPool g hg := by
    refine ⟨BitVec.eq_of_toNat_eq ?_, h.span_subset hg⟩
    rw [toNat_pgOfs, (h.pages g hg).1]
    exact Nat.mul_mod_right ..
  offBitmaps g hg user := h.offBitmap hg user
  poolsApart := h.poolsApart
  poolsFree user := by
    obtain ⟨first, last, hat, hfirst, hlast⟩ := h.poolAt user
    intro n hn
    obtain ⟨hle, hlt⟩ := hat.of_mem_region hn
    exact Set.mem_Ico.mpr ⟨hfirst.trans hle, hlt.trans_le hlast⟩
  gets _ _ hcnt hrun := h.pallocGetMultiple_yields hcnt hrun
  frees g hg := (h.perm (List.perm_cons_erase hg)).pallocFreeMultiple_yields.mono fun _ _ _ => trivial

end Inv

/-- **The page allocator**: after any sequence of calls that free outstanding groups only, the outstanding
groups are disjoint, lie in their pools and off the bitmaps, the pools are disjoint and in free memory, a
request for at least one page fails only where its pool has no run of that many free pages, and an outstanding
group can be freed. -/
theorem palloc_sound (hram : MemorySize ramPages) (h : Reachable (Initial ramPages limit) Step (s, grants)) :
    Sound ramPages s grants :=
  (h.of_invariant (inv_invariant hram) : Inv ramPages (s, grants)).sound

/-- A group of two pages, in the state after a request for it. -/
theorem palloc_sound_two : ∃ s, Reachable (Initial (initRamPages 32) 4) Step (s, [⟨true, 0xc0105000#32, 2⟩]) ∧
    Sound (initRamPages 32) s [⟨true, 0xc0105000#32, 2⟩] := by
  have hrun : ((pallocInit (initRamPages 32) 4 ⟨⟨0, [], 0⟩, ⟨0, [], 0⟩, fun _ => 0⟩).bind fun r =>
      pallocGetMultiple ⟨false, false, true⟩ 2 r.2).map Prod.fst = some 0xc0105000#32 := by decide +kernel
  obtain ⟨⟨pages, s⟩, hget, rfl⟩ := Option.map_eq_some_iff.mp hrun
  obtain ⟨⟨⟨⟩, s₁⟩, hinit, hget⟩ := Option.bind_eq_some_iff.mp hget
  have h : Reachable (Initial (initRamPages 32) 4) Step (s, [⟨true, 0xc0105000#32, 2⟩]) :=
    (Reachable.start ⟨rfl, _, hinit⟩ : Reachable (Initial (initRamPages 32) 4) Step (s₁, [])).step (.get hget)
  exact ⟨s, h, palloc_sound (memorySize_initRamPages 32) h⟩

/-- A request for no page returns a null pointer, whatever is free. -/
theorem not_gets_of_no_page : ¬∀ ramPages limit s grants flags cnt, MemorySize ramPages →
    Reachable (Initial ramPages limit) Step (s, grants) → FreeRun s grants flags.user cnt →
    Yields (pallocGetMultiple flags cnt) s fun pages _ => pages ≠ 0 := by
  intro hall
  have hrun : ((pallocInit (initRamPages 32) 4 ⟨⟨0, [], 0⟩, ⟨0, [], 0⟩, fun _ => 0⟩).map Prod.fst).isSome := by
    decide +kernel
  rw [Option.isSome_map, Option.isSome_iff_exists] at hrun
  obtain ⟨⟨⟨⟩, s⟩, hinit⟩ := hrun
  obtain ⟨pages, s', hget, hne⟩ := hall (initRamPages 32) 4 s [] ⟨false, false, false⟩ 0 (memorySize_initRamPages 32)
    (.start ⟨rfl, _, hinit⟩) ⟨0, by simp, nofun⟩
  obtain ⟨rfl, -⟩ : 0 = pages ∧ s = s' := Prod.mk.inj (Option.some.inj hget)
  exact hne rfl

end Pintos.Threads.Palloc
