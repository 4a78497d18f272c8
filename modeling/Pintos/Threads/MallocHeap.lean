import Pintos.Lib.Runs
import Pintos.Lib.Slabs
import Pintos.Threads.Malloc

/-! # The invariant of the heap

The groups of pages that the heap owns are apart. The pages with blocks of a descriptor are a slab: their blocks are
on the free list of the descriptor or live. The groups of big blocks are a slab too, with one block each and none
free. -/

namespace Pintos.Threads.Malloc

open Pintos.Lib.Ops Pintos.Lib.Runs Pintos.Lib.Slabs Pintos.Userprog.PageEntries

/-! ### Blocks and pages -/

/-- The blocks of the arena at `p`. -/
def Desc.blocks (d : Desc) (p : Word) : List Word :=
  (List.range d.blocksPerArena.toNat).map fun k => p + arenaSize + BitVec.ofNat 32 k * d.blockSize

/-- The blocks of a descriptor fit into a page after the header. -/
structure DescOk (d : Desc) : Prop where
  blockSize : 0 < d.blockSize.toNat
  blocksPerArena : 0 < d.blocksPerArena.toNat
  fits : d.blocksPerArena.toNat * d.blockSize.toNat ≤ 4084

/-- A group of pages: its address is that of a page, and it ends in memory. -/
structure GroupOk (g : Word × Word) : Prop where
  aligned : pgOfs g.1 = 0
  nonnull : g.1 ≠ 0
  nonempty : 0 < g.2.toNat
  fits : g.1.toNat + 4096 * g.2.toNat ≤ 2 ^ 32

/-- Two groups have no page in common. -/
def Apart (g h : Word × Word) : Prop :=
  g.1.toNat + 4096 * g.2.toNat ≤ h.1.toNat ∨ h.1.toNat + 4096 * h.2.toNat ≤ g.1.toNat

variable {s s' : State} {live rest : List Word} {g : Word × Word} {d : Desc} {a b p : Word} {i k : ℕ} {o : Option ℕ}

instance : Std.Symm Apart := ⟨fun _ _ => Or.symm⟩

theorem Apart.ne {g h : Word × Word} (hgh : Apart g h) (hg : GroupOk g) (hh : GroupOk h) : g.1 ≠ h.1 := by
  have hg' := hg.nonempty
  have hh' := hh.nonempty
  intro e
  rcases hgh with hgh | hgh <;> rw [e] at hgh <;> omega

theorem toNat_pgRoundDown (a : Word) : (pgRoundDown a).toNat = a.toNat / 4096 * 4096 := by
  have hor : pgRoundDown a ||| pgOfs a = a := by
    rw [pgRoundDown, pgOfs, ← BitVec.and_or_distrib_left]
    exact BitVec.and_allOnes
  have hand : pgRoundDown a &&& pgOfs a = 0 := by
    have hac : pgRoundDown a &&& pgOfs a = (a &&& a) &&& (0xfffff000#32 &&& 0x00000fff#32) := by
      unfold pgRoundDown pgOfs
      ac_rfl
    rw [hac, show 0xfffff000#32 &&& 0x00000fff#32 = 0#32 from by decide]
    exact BitVec.and_zero
  have hadd := BitVec.toNat_add_of_and_eq_zero hand
  rw [BitVec.add_eq_or_of_and_eq_zero _ _ hand, hor, toNat_pgOfs] at hadd
  omega

theorem GroupOk.toNat_mod (h : GroupOk g) : g.1.toNat % 4096 = 0 := toNat_aligned h.aligned

/-- The address that is `n` bytes into the first page of a group. -/
theorem GroupOk.pgRoundDown_add (h : GroupOk g) (hb : b.toNat = g.1.toNat + k) (hk : k < 4096) :
    pgRoundDown b = g.1 := by
  have hmod := h.toNat_mod
  refine BitVec.eq_of_toNat_eq ?_
  rw [toNat_pgRoundDown, hb]
  omega

namespace DescOk

/-- A block lies in the page of its arena, behind the header. -/
theorem inside (h : DescOk d) (hk : k < d.blocksPerArena.toNat) :
    12 + k * d.blockSize.toNat + d.blockSize.toNat ≤ 4096 := by
  have hfits := h.fits
  have hle : (k + 1) * d.blockSize.toNat ≤ d.blocksPerArena.toNat * d.blockSize.toNat := Nat.mul_le_mul_right _ hk
  rw [Nat.add_mul, Nat.one_mul] at hle
  omega

theorem toNat_block (h : DescOk d) (hg : GroupOk g) (hk : k < d.blocksPerArena.toNat) :
    (g.1 + arenaSize + BitVec.ofNat 32 k * d.blockSize).toNat = g.1.toNat + (12 + k * d.blockSize.toNat) := by
  have hpos := h.blockSize
  have hgfits := hg.fits
  have hnonempty := hg.nonempty
  have hinside := h.inside hk
  have hmod : k % 2 ^ 32 = k := Nat.mod_eq_of_lt (hk.trans d.blocksPerArena.isLt)
  rw [BitVec.toNat_add, BitVec.toNat_add, BitVec.toNat_mul, BitVec.toNat_ofNat, hmod]
  show ((g.1.toNat + 12) % 2 ^ 32 + k * d.blockSize.toNat % 2 ^ 32) % 2 ^ 32 = _
  omega

/-- A block of an arena, by its address. -/
theorem mem_blocks (h : DescOk d) (hg : GroupOk g) (hb : b ∈ d.blocks g.1) :
    ∃ k < d.blocksPerArena.toNat, b.toNat = g.1.toNat + (12 + k * d.blockSize.toNat) := by
  obtain ⟨k, hk, rfl⟩ := List.mem_map.mp hb
  exact ⟨k, List.mem_range.mp hk, h.toNat_block hg (List.mem_range.mp hk)⟩

/-- The blocks of an arena are at different addresses. -/
theorem nodup_blocks (h : DescOk d) (hg : GroupOk g) : (d.blocks g.1).Nodup := by
  refine List.nodup_range.map_on fun k hk k' hk' heq => ?_
  have hnat := congrArg BitVec.toNat heq
  rw [h.toNat_block hg (List.mem_range.mp hk), h.toNat_block hg (List.mem_range.mp hk')] at hnat
  exact Nat.eq_of_mul_eq_mul_right h.blockSize (by omega)

end DescOk

theorem DescOk.pgRoundDown_block (h : DescOk d) (hg : GroupOk g) (hb : b ∈ d.blocks g.1) : pgRoundDown b = g.1 := by
  obtain ⟨k, hk, hb⟩ := h.mem_blocks hg hb
  have hinside := h.inside hk
  have hpos := h.blockSize
  exact hg.pgRoundDown_add hb (by omega)

/-- The offset of a block is the header and a number of blocks. -/
theorem DescOk.offset_block (h : DescOk d) (hg : GroupOk g) (hb : b ∈ d.blocks g.1) :
    (pgOfs b - arenaSize) % d.blockSize = 0 := by
  obtain ⟨k, hk, hb⟩ := h.mem_blocks hg hb
  have hinside := h.inside hk
  have hpos := h.blockSize
  have hmod := hg.toNat_mod
  have hofs : (pgOfs b).toNat = 12 + k * d.blockSize.toNat := by
    rw [toNat_pgOfs, hb]
    omega
  refine BitVec.eq_of_toNat_eq ?_
  have hsub : (pgOfs b - arenaSize).toNat = k * d.blockSize.toNat := by
    rw [BitVec.toNat_sub, hofs]
    show (2 ^ 32 - 12 + (12 + k * d.blockSize.toNat)) % 2 ^ 32 = _
    omega
  rw [BitVec.toNat_umod, hsub]
  exact Nat.mul_mod_left ..

/-! ### The invariant -/

/-- The pages that belong to a descriptor, or are first in a group of a big block. -/
def arenas (s : State) (o : Option ℕ) : List Word := (s.groups.filter fun g => (s.arena g.1).desc = o).map Prod.fst

/-- The live blocks of a descriptor, or the big ones. -/
def liveOf (s : State) (live : List Word) (o : Option ℕ) : List Word :=
  live.filter fun b => (s.arena (pgRoundDown b)).desc = o

/-- **What the heap keeps** at each point of a call: the groups are apart and their headers right, the number of free
blocks is that on the free list, and the blocks of the arenas are the free and the live ones. -/
structure Core (s : State) (live : List Word) : Prop where
  descs : ∀ d ∈ s.descs, DescOk d
  groups : ∀ g ∈ s.groups, GroupOk g
  apart : s.groups.Pairwise Apart
  magic : ∀ g ∈ s.groups, (s.arena g.1).magic = arenaMagic
  small : ∀ g ∈ s.groups, ∀ i, (s.arena g.1).desc = some i → g.2 = 1 ∧
    ∃ d, s.descs[i]? = some d ∧ (s.arena g.1).freeCnt.toNat = d.freeList.countP (pgRoundDown · = g.1)
  large : ∀ g ∈ s.groups, (s.arena g.1).desc = none → (s.arena g.1).freeCnt = g.2
  owned : ∀ b ∈ live, ∃ g ∈ s.groups, pgRoundDown b = g.1
  normal : ∀ i d, s.descs[i]? = some d → Slab pgRoundDown d.blocks (arenas s (some i)) d.freeList
    (liveOf s live (some i))
  big : Slab pgRoundDown (fun p => [p + arenaSize]) (arenas s none) [] (liveOf s live none)

/-- Each group has a live block. -/
def Used (s : State) (live : List Word) : Prop := ∀ g ∈ s.groups, ∃ b ∈ live, pgRoundDown b = g.1

/-- **The invariant** between calls. -/
structure Inv (x : State × List Word) : Prop where
  core : Core x.1 x.2
  used : Used x.1 x.2

theorem mem_arenas : p ∈ arenas s o ↔ ∃ g ∈ s.groups, g.1 = p ∧ (s.arena p).desc = o := by
  constructor
  · intro hp
    obtain ⟨g, hg, rfl⟩ := List.mem_map.mp hp
    obtain ⟨hg, ho⟩ := List.mem_filter.mp hg
    exact ⟨g, hg, rfl, of_decide_eq_true ho⟩
  · rintro ⟨g, hg, rfl, ho⟩
    exact List.mem_map.mpr ⟨g, List.mem_filter.mpr ⟨hg, decide_eq_true ho⟩, rfl⟩

theorem mem_liveOf : b ∈ liveOf s live o ↔ b ∈ live ∧ (s.arena (pgRoundDown b)).desc = o := by
  rw [liveOf, List.mem_filter, decide_eq_true_eq]

theorem liveOf_cons : liveOf s (b :: live) o =
    if (s.arena (pgRoundDown b)).desc = o then b :: liveOf s live o else liveOf s live o := by
  unfold liveOf
  split_ifs with h
  · exact List.filter_cons_of_pos (decide_eq_true h)
  · exact List.filter_cons_of_neg (by simpa using h)

theorem arenas_congr (hg : s'.groups = s.groups) (hd : ∀ g ∈ s.groups, (s'.arena g.1).desc = (s.arena g.1).desc) :
    arenas s' o = arenas s o := by
  unfold arenas
  rw [hg]
  exact congrArg (List.map Prod.fst) (List.filter_congr fun g hmem => by rw [hd g hmem])

theorem liveOf_congr (hd : ∀ b ∈ live, (s'.arena (pgRoundDown b)).desc = (s.arena (pgRoundDown b)).desc) :
    liveOf s' live o = liveOf s live o :=
  List.filter_congr fun b hb => by rw [hd b hb]

namespace Core

theorem perm (h : Core s live) (hp : live.Perm rest) : Core s rest :=
  { h with
    owned := fun b hb => h.owned b (hp.mem_iff.mpr hb)
    normal := fun i d hd => (h.normal i d hd).perm_live (hp.filter _)
    big := h.big.perm_live (hp.filter _) }

/-- **Memory outside the headers** may change. -/
theorem agree (h : Core s live) {arena : Word → Arena} (ha : ∀ g ∈ s.groups, arena g.1 = s.arena g.1) :
    Core { s with arena } live := by
  have harenas : ∀ o, arenas { s with arena } o = arenas s o := fun o =>
    arenas_congr rfl fun g hg => congrArg Arena.desc (ha g hg)
  have hlive : ∀ o, liveOf { s with arena } live o = liveOf s live o := fun o => liveOf_congr fun b hb => by
    obtain ⟨g, hg, hp⟩ := h.owned b hb
    rw [hp]
    exact congrArg Arena.desc (ha g hg)
  refine ⟨h.descs, h.groups, h.apart, fun g hg => ?_, fun g hg i hi => ?_, fun g hg hi => ?_, h.owned,
    fun i d hd => ?_, ?_⟩
  · exact (congrArg Arena.magic (ha g hg)).trans (h.magic g hg)
  · show g.2 = 1 ∧ ∃ d, s.descs[i]? = some d ∧ (arena g.1).freeCnt.toNat = _
    rw [ha g hg]
    exact h.small g hg i ((congrArg Arena.desc (ha g hg)).symm.trans hi)
  · show (arena g.1).freeCnt = g.2
    rw [ha g hg]
    exact h.large g hg ((congrArg Arena.desc (ha g hg)).symm.trans hi)
  · rw [harenas, hlive]
    exact h.normal i d hd
  · rw [harenas, hlive]
    exact h.big

theorem groups_nodup (h : Core s live) : s.groups.Nodup := by
  refine h.apart.imp_of_mem fun {g g'} hg hg' hapart e => ?_
  exact hapart.ne (h.groups g hg) (h.groups g' hg') (congrArg Prod.fst e)

/-- Two groups at one address are one. -/
theorem eq_of_fst (h : Core s live) {g g' : Word × Word} (hg : g ∈ s.groups) (hg' : g' ∈ s.groups)
    (heq : g.1 = g'.1) : g = g' := by
  by_contra hne
  exact (h.apart.forall hg hg' hne).ne (h.groups g hg) (h.groups g' hg') heq

theorem apart_of_ne (h : Core s live) {g g' : Word × Word} (hg : g ∈ s.groups) (hg' : g' ∈ s.groups)
    (hne : g.1 ≠ g'.1) : Apart g g' :=
  h.apart.forall hg hg' fun e => hne (congrArg Prod.fst e)

end Core

/-! ### Blocks of a group -/

/-- A block of a group: one of an arena, or the one that follows the header. -/
inductive BlockOf (s : State) (g : Word × Word) (b : Word) : Prop
  | normal {i : ℕ} {d : Desc} (hi : (s.arena g.1).desc = some i) (hd : s.descs[i]? = some d) (hb : b ∈ d.blocks g.1)
  | big (hi : (s.arena g.1).desc = none) (hb : b = g.1 + arenaSize)

theorem GroupOk.toNat_add_arenaSize (h : GroupOk g) : (g.1 + arenaSize).toNat = g.1.toNat + 12 := by
  have hfits := h.fits
  have hnonempty := h.nonempty
  rw [BitVec.toNat_add]
  show (g.1.toNat + 12) % 2 ^ 32 = _
  omega

theorem BlockOf.pgRoundDown_eq (hb : BlockOf s g b) (hdescs : ∀ d ∈ s.descs, DescOk d) (hok : GroupOk g) :
    pgRoundDown b = g.1 := by
  cases hb with
  | normal hi hd hb => exact (hdescs _ (List.mem_of_getElem? hd)).pgRoundDown_block hok hb
  | big hi hb => exact hok.pgRoundDown_add (hb ▸ hok.toNat_add_arenaSize) (by decide)

theorem getDesc_yields {Q : Desc → State → Prop} (hd : s.descs[i]? = some d) (hQ : Q d s) : Yields (getDesc i) s Q :=
  Yields.bind (Yields.get (Yields.deref hd hQ))

namespace Core

theorem descOk (h : Core s live) (hd : s.descs[i]? = some d) : DescOk d := h.descs d (List.mem_of_getElem? hd)

theorem blockOf_free (h : Core s live) (hd : s.descs[i]? = some d) (hb : b ∈ d.freeList) :
    ∃ g ∈ s.groups, pgRoundDown b = g.1 ∧ (s.arena g.1).desc = some i ∧ b ∈ d.blocks g.1 := by
  obtain ⟨hp, hmem⟩ := (h.normal i d hd).mem_blocks (List.mem_append_left _ hb)
  obtain ⟨g, hg, heq, hi⟩ := mem_arenas.mp hp
  rw [← heq] at hi hmem
  exact ⟨g, hg, heq.symm, hi, hmem⟩

theorem blockOf_live (h : Core s live) (hb : b ∈ live) : ∃ g ∈ s.groups, pgRoundDown b = g.1 ∧ BlockOf s g b := by
  obtain ⟨g, hg, hp⟩ := h.owned b hb
  refine ⟨g, hg, hp, ?_⟩
  cases hi : (s.arena g.1).desc with
  | some i =>
    obtain ⟨-, d, hd, -⟩ := h.small g hg i hi
    have hmem : b ∈ liveOf s live (some i) := mem_liveOf.mpr ⟨hb, hp ▸ hi⟩
    have hblock := ((h.normal i d hd).mem_blocks (List.mem_append_right _ hmem)).2
    exact .normal hi hd (hp ▸ hblock)
  | none =>
    have hmem : b ∈ liveOf s live none := mem_liveOf.mpr ⟨hb, hp ▸ hi⟩
    have hblock := (h.big.mem_blocks (List.mem_append_right _ hmem)).2
    rw [hp] at hblock
    exact .big hi (List.mem_singleton.mp hblock)

theorem pgRoundDown_block (h : Core s live) (hg : g ∈ s.groups) (hb : BlockOf s g b) : pgRoundDown b = g.1 :=
  hb.pgRoundDown_eq h.descs (h.groups g hg)

end Core

/-- **The assertions of `block_to_arena`** hold of a block. -/
theorem blockToArena_yields {Q : Word → State → Prop} (hdescs : ∀ d ∈ s.descs, DescOk d) (hok : GroupOk g)
    (hm : (s.arena g.1).magic = arenaMagic) (hb : BlockOf s g b) (hQ : Q g.1 s) : Yields (blockToArena b) s Q := by
  have hp : pgRoundDown b = g.1 := hb.pgRoundDown_eq hdescs hok
  have hcheck : Yields (checkOffset b (s.arena g.1).desc) s fun _ s' => s' = s := by
    cases hb with
    | normal hi hd hb =>
      rw [hi]
      have hofs := (hdescs _ (List.mem_of_getElem? hd)).offset_block hok hb
      exact Yields.bind (getDesc_yields hd (Yields.assert (decide_eq_true hofs) rfl))
    | big hi hb =>
      rw [hi]
      have hmod := hok.toNat_mod
      have hofs : pgOfs b = arenaSize := by
        refine BitVec.eq_of_toNat_eq ?_
        rw [toNat_pgOfs, hb, hok.toNat_add_arenaSize]
        show (g.1.toNat + 12) % 4096 = 12
        omega
      exact Yields.assert (decide_eq_true hofs) rfl
  unfold blockToArena
  rw [hp]
  refine Yields.bind (Yields.assert (decide_eq_true hok.nonnull) (Yields.bind (Yields.get ?_)))
  refine Yields.bind (Yields.assert (decide_eq_true hm) (Yields.bind (hcheck.mono ?_)))
  rintro _ _ rfl
  exact Yields.pure hQ

/-- The number of bytes of a block. -/
def State.roomOf (s : State) (b : Word) : ℕ :=
  match (s.arena (pgRoundDown b)).desc with
  | some i => (s.descs[i]?.map fun d => d.blockSize.toNat).getD 0
  | none => 4096 * (s.arena (pgRoundDown b)).freeCnt.toNat - (pgOfs b).toNat

theorem roomOf_normal (hp : pgRoundDown b = p) (hi : (s.arena p).desc = some i) (hd : s.descs[i]? = some d) :
    s.roomOf b = d.blockSize.toNat := by
  unfold State.roomOf
  simp only [hp, hi, hd, Option.map_some, Option.getD_some]

theorem roomOf_big (hp : pgRoundDown b = p) (hi : (s.arena p).desc = none) :
    s.roomOf b = 4096 * (s.arena p).freeCnt.toNat - b.toNat % 4096 := by
  unfold State.roomOf
  simp only [hp, hi, toNat_pgOfs]

namespace Core

/-- **A block lies in its group**, behind the header. -/
theorem room (h : Core s live) (hg : g ∈ s.groups) (hb : BlockOf s g b) :
    g.1.toNat + 12 ≤ b.toNat ∧ b.toNat + s.roomOf b ≤ g.1.toNat + 4096 * g.2.toNat := by
  have hok := h.groups g hg
  have hp := h.pgRoundDown_block hg hb
  have hmod := hok.toNat_mod
  have hnonempty := hok.nonempty
  cases hb with
  | @normal i d hi hd hb =>
    obtain ⟨k, hk, hat⟩ := (h.descOk hd).mem_blocks hok hb
    have hinside := (h.descOk hd).inside hk
    rw [roomOf_normal hp hi hd]
    omega
  | big hi hb =>
    have hat := hok.toNat_add_arenaSize
    rw [← hb] at hat
    rw [roomOf_big hp hi, h.large g hg hi]
    omega

theorem ne_zero (h : Core s live) (hb : b ∈ live) : b ≠ 0 := by
  obtain ⟨g, hg, -, hblock⟩ := h.blockOf_live hb
  have hroom := (h.room hg hblock).1
  intro e
  rw [e] at hroom
  exact absurd hroom (by simp)

/-- `block_size` returns this number. -/
theorem blockSize_yields (h : Core s live) (hg : g ∈ s.groups) (hb : BlockOf s g b) :
    Yields (blockSize b) s fun n s' => n.toNat = s.roomOf b ∧ s' = s := by
  have hok := h.groups g hg
  have hp := h.pgRoundDown_block hg hb
  refine Yields.bind (blockToArena_yields h.descs hok (h.magic g hg) hb (Yields.bind (Yields.get ?_)))
  cases hb with
  | @normal i d hi hd hb =>
    rw [roomOf_normal hp hi hd]
    simp only [hi]
    exact Yields.bind (getDesc_yields hd (Yields.pure ⟨rfl, rfl⟩))
  | big hi hb =>
    have hnull : g.1.toNat ≠ 0 := fun e => hok.nonnull (BitVec.eq_of_toNat_eq e)
    have hfits := hok.fits
    have hnonempty := hok.nonempty
    rw [roomOf_big hp hi, h.large g hg hi]
    simp only [hi]
    refine Yields.pure ⟨?_, rfl⟩
    rw [BitVec.toNat_sub, BitVec.toNat_mul, toNat_pgOfs]
    show (2 ^ 32 - b.toNat % 4096 + 4096 * g.2.toNat % 2 ^ 32) % 2 ^ 32 = _
    omega

end Core

/-! ### Taking and giving back a block -/

theorem getElem?_mapFree (s : State) (i : ℕ) (f : List Word → List Word) (j : ℕ) : (s.mapFree i f).descs[j]? =
    (s.descs[j]?).map fun d => if i = j then { d with freeList := f d.freeList } else d :=
  List.getElem?_modify ..

theorem getElem?_mapFree_self (hd : s.descs[i]? = some d) (f : List Word → List Word) :
    (s.mapFree i f).descs[i]? = some { d with freeList := f d.freeList } := by
  rw [getElem?_mapFree, hd, Option.map_some, if_pos rfl]

theorem mapFree_mapFree (s : State) (i : ℕ) (f f' : List Word → List Word) :
    (s.mapFree i f).mapFree i f' = s.mapFree i (f' ∘ f) := by
  unfold State.mapFree
  rw [List.modify_modify_eq]
  rfl

/-- Only the list that is there matters. -/
theorem mapFree_eq (hd : s.descs[i]? = some d) (f : List Word → List Word) :
    s.mapFree i f = s.mapFree i fun _ => f d.freeList := by
  unfold State.mapFree
  refine congrArg (fun descs => { s with descs }) (List.ext_getElem? fun j => ?_)
  rw [List.getElem?_modify, List.getElem?_modify]
  by_cases hij : i = j
  · subst hij
    simp [hd]
  · simp [hij]

theorem mapFree_self (hd : s.descs[i]? = some d) : s.mapFree i (fun _ => d.freeList) = s := by
  have hid := mapFree_eq hd id
  rw [id] at hid
  rw [← hid]
  exact congrArg (fun descs => { s with descs }) (List.modify_id ..)

theorem DescOk.withFree (h : DescOk d) (l : List Word) : DescOk { d with freeList := l } :=
  ⟨h.blockSize, h.blocksPerArena, h.fits⟩

theorem forall_descs_mapFree (h : ∀ d ∈ s.descs, DescOk d) (f : List Word → List Word) :
    ∀ d ∈ (s.mapFree i f).descs, DescOk d := by
  intro d hd
  obtain ⟨j, hj⟩ := List.getElem?_of_mem hd
  rw [getElem?_mapFree] at hj
  obtain ⟨d', hd', rfl⟩ := Option.map_eq_some_iff.mp hj
  have hok := h d' (List.mem_of_getElem? hd')
  split_ifs
  · exact hok.withFree _
  · exact hok

namespace Core

/-- **Blocks of one arena are taken or given back.** -/
theorem exchange (h : Core s live) {free' live' : List Word} {freeCnt : Word} (hi : (s.arena p).desc = some i)
    (hd : s.descs[i]? = some d)
    (hslab : Slab pgRoundDown d.blocks (arenas s (some i)) free' (liveOf s live' (some i)))
    (hother : ∀ o, o ≠ some i → liveOf s live' o = liveOf s live o)
    (howned : ∀ b ∈ live', ∃ g ∈ s.groups, pgRoundDown b = g.1)
    (hcnt : freeCnt.toNat = free'.countP (pgRoundDown · = p))
    (hcounts : ∀ q, q ≠ p → free'.countP (pgRoundDown · = q) = d.freeList.countP (pgRoundDown · = q)) :
    Core
      { s.mapFree i (fun _ => free') with arena := Function.update s.arena p { s.arena p with freeCnt } } live' := by
  set s' : State :=
    { s.mapFree i (fun _ => free') with arena := Function.update s.arena p { s.arena p with freeCnt } } with hs'
  have harena : ∀ a, s'.arena a = if a = p then { s.arena p with freeCnt } else s.arena a :=
    fun a => Function.update_apply ..
  have hdesc : ∀ a, (s'.arena a).desc = (s.arena a).desc := by
    intro a
    rw [harena]
    split_ifs with e
    · rw [e]
    · rfl
  have harenas : ∀ o, arenas s' o = arenas s o := fun o => arenas_congr rfl fun g _ => hdesc g.1
  have hlive : ∀ o, liveOf s' live' o = liveOf s live' o := fun o => liveOf_congr fun b _ => hdesc _
  have hdescs : ∀ j d', s'.descs[j]? = some d' → ∃ d₀, s.descs[j]? = some d₀ ∧ d'.blocks = d₀.blocks ∧
      d'.freeList = if i = j then free' else d₀.freeList := by
    intro j d' hj
    have hj' : (s.mapFree i fun _ => free').descs[j]? = some d' := hj
    rw [getElem?_mapFree] at hj'
    obtain ⟨d₀, hd₀, rfl⟩ := Option.map_eq_some_iff.mp hj'
    refine ⟨d₀, hd₀, ?_, ?_⟩ <;> split_ifs <;> rfl
  have hok : ∀ d ∈ s'.descs, DescOk d := forall_descs_mapFree (s := s) (i := i) h.descs fun _ => free'
  refine ⟨hok, h.groups, h.apart, fun g hg => ?_, fun g hg j hj => ?_, fun g hg hj => ?_, howned,
    fun j d' hj => ?_, ?_⟩
  · rw [harena]
    split_ifs with e
    · exact e ▸ h.magic g hg
    · exact h.magic g hg
  · rw [hdesc] at hj
    obtain ⟨hone, d₀, hd₀, hcnt₀⟩ := h.small g hg j hj
    have hget : s'.descs[j]? = some (if i = j then { d₀ with freeList := free' } else d₀) := by
      show (s.mapFree i fun _ => free').descs[j]? = _
      rw [getElem?_mapFree, hd₀, Option.map_some]
    refine ⟨hone, _, hget, ?_⟩
    rw [harena]
    by_cases hij : i = j
    · subst hij
      obtain rfl := Option.some.inj (hd.symm.trans hd₀)
      rw [if_pos rfl]
      split_ifs with e
      · rw [e]
        exact hcnt
      · exact hcnt₀.trans (hcounts _ e).symm
    · have hne : g.1 ≠ p := fun e => hij (Option.some.inj (hi.symm.trans (e ▸ hj)))
      rw [if_neg hij, if_neg hne]
      exact hcnt₀
  · rw [hdesc] at hj
    have hne : g.1 ≠ p := fun e => by
      rw [e, hi] at hj
      simp at hj
    rw [harena, if_neg hne]
    exact h.large g hg hj
  · obtain ⟨d₀, hd₀, hblocks, hfree⟩ := hdescs j d' hj
    rw [harenas, hlive, hblocks, hfree]
    split_ifs with e
    · subst e
      obtain rfl := Option.some.inj (hd.symm.trans hd₀)
      exact hslab
    · rw [hother _ fun e' => e (Option.some.inj e').symm]
      exact h.normal j d₀ hd₀
  · rw [harenas, hlive, hother none (Option.some_ne_none i).symm]
    exact h.big

/-- The number of free blocks of an arena. -/
theorem toNat_freeCnt (h : Core s live) (hg : g ∈ s.groups) (hi : (s.arena g.1).desc = some i)
    (hd : s.descs[i]? = some d) :
    g.2 = 1 ∧ (s.arena g.1).freeCnt.toNat = d.freeList.countP (pgRoundDown · = g.1) := by
  obtain ⟨hone, d₀, hd₀, hcnt⟩ := h.small g hg i hi
  obtain rfl := Option.some.inj (hd.symm.trans hd₀)
  exact ⟨hone, hcnt⟩

theorem countP_page_cons (b : Word) (l : List Word) (q : Word) : (b :: l).countP (pgRoundDown · = q) =
    l.countP (pgRoundDown · = q) + if pgRoundDown b = q then 1 else 0 := by
  rw [List.countP_cons]
  simp only [decide_eq_true_eq]

/-- **A block is taken** from a free list that has one. -/
theorem takeBlock_yields (h : Core s live) (hd : s.descs[i]? = some d) (hfree : d.freeList = b :: rest) :
    Yields (takeBlock i) s fun b' s' => b' = b ∧ s'.groups = s.groups ∧ s'.roomOf b = d.blockSize.toNat ∧
      Core s' (b :: live) := by
  obtain ⟨g, hg, hp, hi, hb⟩ := h.blockOf_free hd (hfree ▸ List.mem_cons_self)
  have hok := h.groups g hg
  have hd₁ := getElem?_mapFree_self hd List.tail
  refine Yields.bind (Yields.bind (getDesc_yields hd (Yields.bind (Yields.deref (by rw [hfree]; rfl) ?_))))
  refine Yields.bind (Yields.modify (Yields.pure (Yields.bind ?_)))
  refine blockToArena_yields (forall_descs_mapFree h.descs _) hok (h.magic g hg) (.normal hi hd₁ hb) ?_
  refine Yields.bind (Yields.get (Yields.bind (Yields.modify (Yields.pure ⟨rfl, rfl, ?_, ?_⟩))))
  · have hi₁ : (Function.update s.arena g.1 { s.arena g.1 with freeCnt := (s.arena g.1).freeCnt - 1 } g.1).desc =
      some i := by
      rw [Function.update_self]
      exact hi
    exact roomOf_normal (d := { d with freeList := d.freeList.tail }) hp hi₁ hd₁
  · rw [mapFree_eq hd, hfree]
    have hcnt := (h.toNat_freeCnt hg hi hd).2
    have hslab := h.normal i d hd
    rw [hfree] at hcnt hslab
    rw [countP_page_cons, if_pos hp] at hcnt
    have hdesc : (s.arena (pgRoundDown b)).desc = some i := by rw [hp, hi]
    refine h.exchange hi hd ?_ (fun o ho => ?_) ?_ ?_ fun q hq => ?_
    · rw [liveOf_cons, if_pos hdesc]
      exact hslab.take
    · rw [liveOf_cons, if_neg fun e => ho (e.symm.trans hdesc)]
    · exact List.forall_mem_cons.mpr ⟨⟨g, hg, hp⟩, h.owned⟩
    · rw [BitVec.toNat_sub]
      show (2 ^ 32 - 1 + (s.arena g.1).freeCnt.toNat) % 2 ^ 32 = rest.countP _
      have hlt := (s.arena g.1).freeCnt.isLt
      omega
    · rw [hfree, countP_page_cons, if_neg fun e => hq (e.symm.trans hp)]
      rfl

/-- The blocks of an arena are its free and its live ones. -/
theorem countP_arena (h : Core s live) (hg : g ∈ s.groups) (hi : (s.arena g.1).desc = some i)
    (hd : s.descs[i]? = some d) :
    d.freeList.countP (pgRoundDown · = g.1) + (liveOf s live (some i)).countP (pgRoundDown · = g.1) =
      d.blocksPerArena.toNat := by
  rw [(h.normal i d hd).countP_page (mem_arenas.mpr ⟨g, hg, rfl, hi⟩), Desc.blocks, List.length_map,
    List.length_range]

/-- A block is given back. -/
theorem giveBack (h : Core s (b :: rest)) (hg : g ∈ s.groups) (hp : pgRoundDown b = g.1)
    (hi : (s.arena g.1).desc = some i)
    (hd : s.descs[i]? = some d) : Core { s.mapFree i (b :: ·) with
      arena := Function.update s.arena g.1 { s.arena g.1 with freeCnt := (s.arena g.1).freeCnt + 1 } } rest := by
  rw [mapFree_eq hd]
  have hcnt := (h.toNat_freeCnt hg hi hd).2
  have hsum := h.countP_arena hg hi hd
  have hslab := h.normal i d hd
  have hdesc : (s.arena (pgRoundDown b)).desc = some i := by rw [hp, hi]
  rw [liveOf_cons, if_pos hdesc] at hslab hsum
  rw [countP_page_cons, if_pos hp] at hsum
  refine h.exchange hi hd hslab.put (fun o ho => ?_)
    (fun c hc => h.owned c (List.mem_cons_of_mem b hc)) ?_ fun q hq => ?_
  · rw [liveOf_cons, if_neg fun e => ho (e.symm.trans hdesc)]
  · rw [countP_page_cons, if_pos hp, BitVec.toNat_add]
    show ((s.arena g.1).freeCnt.toNat + 1) % 2 ^ 32 = _
    have hlt := d.blocksPerArena.isLt
    omega
  · rw [countP_page_cons, if_neg fun e => hq (e.symm.trans hp)]
    rfl

/-! ### Giving back a group -/

/-- The bytes of a group behind its header meet no header. -/
theorem not_meets (h : Core s live) (hg : g ∈ s.groups) {g' : Word × Word} (hg' : g' ∈ s.groups) {dst size : Word}
    (hlo : g.1.toNat + 12 ≤ dst.toNat ∨ g' ≠ g ∧ dst = g.1)
    (hhi : dst.toNat + size.toNat ≤ g.1.toNat + 4096 * g.2.toNat) :
    ¬Meets dst size g'.1 := by
  have hnonempty := (h.groups g' hg').nonempty
  rintro ⟨h1, h2⟩
  have h2' : dst.toNat < g'.1.toNat + 12 := h2
  by_cases heq : g' = g
  · subst heq
    rcases hlo with hlo | ⟨hne, -⟩
    · omega
    · exact hne rfl
  · have hle : g.1.toNat ≤ dst.toNat := by
      rcases hlo with hlo | ⟨-, rfl⟩ <;> omega
    rcases h.apart.forall hg hg' (Ne.symm heq) with hapart | hapart <;> omega

theorem arenas_erase (hg : g ∈ s.groups) (hgroups : s'.groups = s.groups.erase g)
    (harena : ∀ g' ∈ s.groups.erase g, s'.arena g'.1 = s.arena g'.1) (o : Option ℕ) :
    (arenas s o).Perm (if (s.arena g.1).desc = o then g.1 :: arenas s' o else arenas s' o) := by
  have hrest : arenas s' o = ((s.groups.erase g).filter fun g => (s.arena g.1).desc = o).map Prod.fst := by
    unfold arenas
    rw [hgroups]
    exact congrArg (List.map Prod.fst) (List.filter_congr fun g' hmem => by rw [harena g' hmem])
  have hperm := ((List.perm_cons_erase hg).filter fun g => (s.arena g.1).desc = o).map Prod.fst
  rw [hrest]
  split_ifs with ho
  · rwa [List.filter_cons, if_pos (decide_eq_true ho)] at hperm
  · rwa [List.filter_cons, if_neg (by simpa using ho)] at hperm

/-- A descriptor where only free lists have changed. -/
theorem exists_desc {F : ℕ → Desc → List Word}
    (hdescs : ∀ j : ℕ, s'.descs[j]? = (s.descs[j]?).map fun d : Desc => { d with freeList := F j d }) {j : ℕ}
    {d' : Desc} (hj : s'.descs[j]? = some d') :
    ∃ d : Desc, s.descs[j]? = some d ∧ d' = { d with freeList := F j d } := by
  rw [hdescs] at hj
  obtain ⟨d, hd, rfl⟩ := Option.map_eq_some_iff.mp hj
  exact ⟨d, hd, rfl⟩

/-- The descriptors stay well-formed where only free lists change. -/
theorem forall_descs_map (h : Core s live) {F : ℕ → Desc → List Word}
    (hdescs : ∀ j : ℕ, s'.descs[j]? = (s.descs[j]?).map fun d : Desc => { d with freeList := F j d }) :
    ∀ d ∈ s'.descs, DescOk d := by
  intro d' hd'
  obtain ⟨j, hj⟩ := List.getElem?_of_mem hd'
  obtain ⟨d, hd, rfl⟩ := exists_desc hdescs hj
  exact (h.descOk hd).withFree _

/-- **A group goes back**, with its blocks. -/
theorem remove (h : Core s live) (hg : g ∈ s.groups) {F : ℕ → Desc → List Word} {live' : List Word}
    (hgroups : s'.groups = s.groups.erase g) (harena : ∀ g' ∈ s.groups.erase g, s'.arena g'.1 = s.arena g'.1)
    (hdescs : ∀ j : ℕ, s'.descs[j]? = (s.descs[j]?).map fun d : Desc => { d with freeList := F j d })
    (hF : ∀ j d q, s.descs[j]? = some d → q ≠ g.1 → (F j d).countP (pgRoundDown · = q) =
      d.freeList.countP (pgRoundDown · = q))
    (howned : ∀ b ∈ live', b ∈ live ∧ pgRoundDown b ≠ g.1)
    (hnormal : ∀ j d, s.descs[j]? = some d →
      Slab pgRoundDown d.blocks (arenas s' (some j)) (F j d) (liveOf s live' (some j)))
    (hbig : Slab pgRoundDown (fun p => [p + arenaSize]) (arenas s' none) [] (liveOf s live' none)) :
      Core s' live' := by
  have hmem : ∀ g' ∈ s.groups.erase g, g' ∈ s.groups ∧ g'.1 ≠ g.1 := fun g' hg' => by
    obtain ⟨hne, hg'⟩ := h.groups_nodup.mem_erase_iff.mp hg'
    exact ⟨hg', fun e => hne (h.eq_of_fst hg' hg e)⟩
  have hback : ∀ b ∈ live', ∃ g' ∈ s.groups.erase g, pgRoundDown b = g'.1 := fun b hb => by
    obtain ⟨hb, hne⟩ := howned b hb
    obtain ⟨g', hg', hp⟩ := h.owned b hb
    exact ⟨g', h.groups_nodup.mem_erase_iff.mpr ⟨fun e => hne (e ▸ hp), hg'⟩, hp⟩
  have hlive : ∀ o, liveOf s' live' o = liveOf s live' o := fun o => liveOf_congr fun b hb => by
    obtain ⟨g', hg', hp⟩ := hback b hb
    rw [hp, harena g' hg']
  refine ⟨h.forall_descs_map hdescs, ?_, ?_, ?_, ?_, ?_, ?_, fun j d' hj => ?_, ?_⟩
  · rw [hgroups]
    exact fun g' hg' => h.groups g' (hmem g' hg').1
  · rw [hgroups]
    exact h.apart.sublist List.erase_sublist
  · rw [hgroups]
    intro g' hg'
    rw [harena g' hg']
    exact h.magic g' (hmem g' hg').1
  · rw [hgroups]
    intro g' hg' j hj
    rw [harena g' hg'] at hj ⊢
    obtain ⟨hg', hne⟩ := hmem g' hg'
    obtain ⟨hone, d, hd, hcnt⟩ := h.small g' hg' j hj
    exact ⟨hone, { d with freeList := F j d }, by rw [hdescs, hd]; rfl, hcnt.trans (hF j d _ hd hne).symm⟩
  · rw [hgroups]
    intro g' hg' hj
    rw [harena g' hg'] at hj ⊢
    exact h.large g' (hmem g' hg').1 hj
  · rw [hgroups]
    exact hback
  · obtain ⟨d, hd, rfl⟩ := exists_desc hdescs hj
    rw [hlive]
    exact hnormal j d hd
  · rw [hlive]
    exact hbig

end Core

/-- **The assertions of `arena_to_block`** hold of the header of an arena. -/
theorem arenaToBlock_yields {Q : Word → State → Prop} (hp : p ≠ 0) (hm : (s.arena p).magic = arenaMagic)
    (hi : (s.arena p).desc = some i)
    (hd : s.descs[i]? = some d) (hk : k < d.blocksPerArena.toNat)
    (hQ : Q (p + arenaSize + BitVec.ofNat 32 k * d.blockSize) s) :
    Yields (arenaToBlock p k) s Q := by
  refine Yields.bind (Yields.assert (decide_eq_true hp) (Yields.bind (Yields.get (Yields.bind ?_))))
  refine Yields.assert (decide_eq_true hm) (Yields.bind (Yields.deref hi (Yields.bind (getDesc_yields hd ?_))))
  exact Yields.bind (Yields.assert (decide_eq_true hk) (Yields.pure hQ))

/-- The first blocks of an arena are at different addresses too. -/
theorem DescOk.nodup_range (h : DescOk d) (hg : GroupOk g) (hk : k ≤ d.blocksPerArena.toNat) :
    ((List.range k).map fun k => g.1 + arenaSize + BitVec.ofNat 32 k * d.blockSize).Nodup :=
  (h.nodup_blocks hg).sublist ((List.range_sublist.mpr hk).map _)

namespace Core

/-- An arena goes back, and its blocks leave the free list. -/
theorem removeArena (h : Core s live) (hg : g ∈ s.groups) (hi : (s.arena g.1).desc = some i)
    (hd : s.descs[i]? = some d)
    (hno : ∀ b ∈ live, pgRoundDown b ≠ g.1) {l : List Word} (hperm : (d.blocks g.1 ++ l).Perm d.freeList)
    (hdescs : s'.descs = (s.mapFree i fun _ => l).descs) (hgroups : s'.groups = s.groups.erase g)
    (harena : ∀ g' ∈ s.groups.erase g, s'.arena g'.1 = s.arena g'.1) : Core s' live := by
  have hcount : ∀ q, q ≠ g.1 → l.countP (pgRoundDown · = q) = d.freeList.countP (pgRoundDown · = q) := by
    intro q hq
    have hzero : (d.blocks g.1).countP (pgRoundDown · = q) = 0 := List.countP_eq_zero.mpr fun b hb hp =>
      hq ((of_decide_eq_true hp).symm.trans ((h.descOk hd).pgRoundDown_block (h.groups g hg) hb))
    rw [← hperm.countP_eq, List.countP_append, hzero, Nat.zero_add]
  refine h.remove (F := fun j d => if i = j then l else d.freeList) hg hgroups harena (fun j => ?_)
    (fun j d' q hj hq => ?_)
    (fun b hb => ⟨hb, hno b hb⟩) (fun j d' hj => ?_) ?_
  · rw [hdescs, getElem?_mapFree]
    refine congrArg (fun f => (s.descs[j]?).map f) (funext fun d' => ?_)
    split_ifs <;> rfl
  · split_ifs with hij
    · subst hij
      obtain rfl := Option.some.inj (hd.symm.trans hj)
      exact hcount q hq
    · rfl
  · have herase := arenas_erase hg hgroups harena (some j)
    split_ifs with hij
    · subst hij
      obtain rfl := Option.some.inj (hd.symm.trans hj)
      rw [if_pos hi] at herase
      exact ((h.normal i d hd).perm_pages herase).shrink hperm
    · rw [if_neg fun e => hij (Option.some.inj (hi.symm.trans e))] at herase
      exact (h.normal j d' hj).perm_pages herase
  · have herase := arenas_erase hg hgroups harena none
    rw [if_neg fun e => Option.some_ne_none i (hi.symm.trans e)] at herase
    exact h.big.perm_pages herase

/-- **`palloc_free_multiple`** of a group leaves the other headers alone. -/
theorem pallocFree_yields {Q : Unit → State → Prop} (h : Core s live) (hg : g ∈ s.groups) {descs : List Desc}
    (hQ : ∀ s' : State,
      s'.descs = descs → s'.groups = s.groups.erase g → (∀ g' ∈ s.groups.erase g, s'.arena g'.1 = s.arena g'.1) →
      Q () s') :
    Yields (pallocFreeMultiple g.1 g.2) { s with descs } Q := by
  refine Yields.bind (Yields.get (Yields.bind (Yields.assert (decide_eq_true hg) ?_)))
  refine Yields.bind (Yields.set (Yields.modify (hQ _ rfl rfl fun g' hg' => if_neg ?_)))
  obtain ⟨hne, hg'⟩ := h.groups_nodup.mem_erase_iff.mp hg'
  refine h.not_meets hg hg' (.inr ⟨hne, rfl⟩) ?_
  have hfits := (h.groups g hg).fits
  have hnull : g.1.toNat ≠ 0 := fun e => (h.groups g hg).nonnull (BitVec.eq_of_toNat_eq e)
  rw [BitVec.toNat_mul]
  show g.1.toNat + 4096 * g.2.toNat % 2 ^ 32 ≤ _
  omega

/-- **An arena without live blocks is dissolved.** -/
theorem dissolve_yields (h : Core s live) (hg : g ∈ s.groups) (hi : (s.arena g.1).desc = some i)
    (hd : s.descs[i]? = some d)
    (hno : ∀ b ∈ live, pgRoundDown b ≠ g.1) : Yields (dissolve i g.1 d.blocksPerArena) s fun _ s' =>
      s'.groups = s.groups.erase g ∧ Core s' live := by
  have hok := h.groups g hg
  have hlive : (liveOf s live (some i)).countP (pgRoundDown · = g.1) = 0 :=
    List.countP_eq_zero.mpr fun b hb hp => hno b (mem_liveOf.mp hb).1 (of_decide_eq_true hp)
  have hfree := (h.normal i d hd).mem_free_of_no_live (mem_arenas.mpr ⟨g, hg, rfl, hi⟩) hlive
  -- After `k` rounds the first `k` blocks are off the list.
  have hloop : Yields ((List.range d.blocksPerArena.toNat).forM fun k => do
      let b ← arenaToBlock g.1 k
      listRemove i b) s fun _ s' => ∃ l, s' = s.mapFree i (fun _ => l) ∧ (d.blocks g.1 ++ l).Perm d.freeList := by
    refine Yields.forM_range (I := fun k s' => ∃ l, s' = s.mapFree i (fun _ => l) ∧
      (((List.range k).map fun k => g.1 + arenaSize + BitVec.ofNat 32 k * d.blockSize) ++ l).Perm d.freeList)
      ⟨d.freeList, ?_, .refl _⟩ ?_
    · exact (mapFree_self hd).symm
    · rintro k hk _ ⟨l, rfl, hperm⟩
      set b := g.1 + arenaSize + BitVec.ofNat 32 k * d.blockSize with hb
      have hd₁ := getElem?_mapFree_self hd fun _ => l
      refine Yields.bind (arenaToBlock_yields hok.nonnull (h.magic g hg) hi hd₁ hk ?_)
      have hmem : b ∈ l := by
        have hnodup := (h.descOk hd).nodup_range hok (Nat.succ_le_of_lt hk)
        rw [List.range_succ, List.map_append, List.nodup_append] at hnodup
        rcases List.mem_append.mp (hperm.mem_iff.mpr (hfree b (List.mem_map.mpr ⟨k, List.mem_range.mpr hk, rfl⟩)))
          with hmem | hmem
        · exact absurd rfl (hnodup.2.2 b hmem b List.mem_cons_self)
        · exact hmem
      refine Yields.bind (getDesc_yields hd₁ (Yields.bind (Yields.assert (decide_eq_true hmem)
        (Yields.modify ⟨l.erase b, ?_, ?_⟩))))
      · rw [mapFree_mapFree]
        rfl
      · rw [List.range_succ, List.map_append, List.append_assoc]
        exact ((List.perm_cons_erase hmem).symm.append_left _).trans hperm
  refine Yields.bind (hloop.mono ?_)
  rintro _ _ ⟨l, rfl, hperm⟩
  have hone : (1 : Word) = g.2 := (h.toNat_freeCnt hg hi hd).1.symm
  rw [hone]
  exact h.pallocFree_yields hg fun s' hdescs hgroups harena =>
    ⟨hgroups, h.removeArena hg hi hd hno hperm hdescs hgroups harena⟩

/-- **A block is given back**, and its arena if it was the last live block. -/
theorem putBlock_yields (h : Core s (b :: rest)) (hg : g ∈ s.groups) (hp : pgRoundDown b = g.1)
    (hi : (s.arena g.1).desc = some i)
    (hd : s.descs[i]? = some d) : Yields (putBlock i d g.1 b) s fun _ s' => Core s' rest ∧
      s'.groups = if ∃ c ∈ rest, pgRoundDown c = g.1 then s.groups else s.groups.erase g := by
  have h₂ := h.giveBack hg hp hi hd
  refine Yields.bind (Yields.modify (Yields.bind (Yields.get (Yields.bind (Yields.modify ?_)))))
  set s₂ : State := { s.mapFree i (b :: ·) with
    arena := Function.update s.arena g.1 { s.arena g.1 with freeCnt := (s.arena g.1).freeCnt + 1 } } with hs₂
  have harena : s₂.arena g.1 = { s.arena g.1 with freeCnt := (s.arena g.1).freeCnt + 1 } := Function.update_self ..
  have hd₂ : s₂.descs[i]? = some { d with freeList := b :: d.freeList } := getElem?_mapFree_self hd (b :: ·)
  have hi₂ : (s₂.arena g.1).desc = some i := by
    rw [harena]
    exact hi
  have hcnt : ((s.arena g.1).freeCnt + 1).toNat = (b :: d.freeList).countP (pgRoundDown · = g.1) :=
    (congrArg (fun a : Arena => a.freeCnt.toNat) harena).symm.trans (h₂.toNat_freeCnt hg hi₂ hd₂).2
  have hsum : (b :: d.freeList).countP (pgRoundDown · = g.1) +
      (liveOf s₂ rest (some i)).countP (pgRoundDown · = g.1) = d.blocksPerArena.toNat := h₂.countP_arena hg hi₂ hd₂
  have hlive : (∃ c ∈ rest, pgRoundDown c = g.1) ↔ 0 < (liveOf s₂ rest (some i)).countP (pgRoundDown · = g.1) := by
    rw [List.countP_pos_iff]
    constructor
    · rintro ⟨c, hc, hpc⟩
      exact ⟨c, mem_liveOf.mpr ⟨hc, by rw [hpc, hi₂]⟩, decide_eq_true hpc⟩
    · rintro ⟨c, hc, hpc⟩
      exact ⟨c, (mem_liveOf.mp hc).1, of_decide_eq_true hpc⟩
  show Yields (if d.blocksPerArena ≤ (s.arena g.1).freeCnt + 1 then _ else _) s₂ _
  by_cases hle : d.blocksPerArena ≤ (s.arena g.1).freeCnt + 1
  · have hno : ¬∃ c ∈ rest, pgRoundDown c = g.1 := by
      rw [hlive]
      have hle' := BitVec.le_def.mp hle
      omega
    have heq : (s.arena g.1).freeCnt + 1 = d.blocksPerArena := by
      have hle' := BitVec.le_def.mp hle
      exact BitVec.eq_of_toNat_eq (by omega)
    rw [if_pos hle, if_neg hno]
    refine Yields.bind (Yields.assert (decide_eq_true heq) ?_)
    refine (h₂.dissolve_yields hg hi₂ hd₂ fun c hc hpc => hno ⟨c, hc, hpc⟩).mono ?_
    rintro _ s' ⟨hgroups, hcore⟩
    exact ⟨hcore, hgroups⟩
  · have hsome : ∃ c ∈ rest, pgRoundDown c = g.1 := by
      rw [hlive]
      have hlt := BitVec.not_le.mp hle
      have hlt' := BitVec.lt_def.mp hlt
      omega
    rw [if_neg hle, if_pos hsome]
    exact Yields.pure ⟨h₂, rfl⟩

/-- **`free` of a normal block.** -/
theorem freeSmall_yields (h : Core s (b :: rest)) (hg : g ∈ s.groups) (hp : pgRoundDown b = g.1)
    (hi : (s.arena g.1).desc = some i) (hd : s.descs[i]? = some d) (hb : b ∈ d.blocks g.1) :
    Yields (freeSmall i g.1 b) s fun _ s' => Core s' rest ∧
      s'.groups = if ∃ c ∈ rest, pgRoundDown c = g.1 then s.groups else s.groups.erase g := by
  have hroom := h.room hg (.normal hi hd hb)
  rw [roomOf_normal hp hi hd] at hroom
  have hmeets : ∀ g' ∈ s.groups, ¬Meets b d.blockSize g'.1 := fun g' hg' => h.not_meets hg hg' (.inl hroom.1) hroom.2
  refine Yields.bind (getDesc_yields hd (Yields.bind (Yields.modify ?_)))
  refine (h.agree fun g' hg' => if_neg (hmeets g' hg')).putBlock_yields hg hp ?_ hd
  exact (congrArg Arena.desc (if_neg (hmeets g hg))).trans hi

/-- **`free` of a big block.** -/
theorem freeBig_yields (h : Core s (b :: rest)) (hg : g ∈ s.groups) (hi : (s.arena g.1).desc = none)
    (hb : b = g.1 + arenaSize) :
    Yields (pallocFreeMultiple g.1 (s.arena g.1).freeCnt) s fun _ s' => Core s' rest ∧
      s'.groups = if ∃ c ∈ rest, pgRoundDown c = g.1 then s.groups else s.groups.erase g := by
  have hp := h.pgRoundDown_block hg (.big hi hb)
  have hslab := h.big
  rw [liveOf_cons, if_pos (hp ▸ hi)] at hslab
  have hno : ∀ c ∈ rest, pgRoundDown c ≠ g.1 := by
    intro c hc hpc
    have hmem : c ∈ liveOf s rest none := mem_liveOf.mpr ⟨hc, hpc ▸ hi⟩
    have hblock := (hslab.mem_blocks (List.mem_append_right _ (List.mem_cons_of_mem b hmem))).2
    rw [hpc] at hblock
    have heq : c = b := (List.mem_singleton.mp hblock).trans hb.symm
    exact (List.nodup_cons.mp hslab.nodup_live).1 (heq ▸ hmem)
  rw [h.large g hg hi, if_neg fun ⟨c, hc, hpc⟩ => hno c hc hpc]
  refine h.pallocFree_yields hg fun s' hdescs hgroups harena => ⟨?_, hgroups⟩
  refine h.remove (F := fun _ d => d.freeList) hg hgroups harena (fun j => ?_) (fun _ _ _ _ _ => rfl)
    (fun c hc => ⟨List.mem_cons_of_mem b hc, hno c hc⟩) (fun j d hd => ?_) ?_
  · rw [hdescs]
    exact (congrFun Option.map_id _).symm
  · have herase := arenas_erase hg hgroups harena (some j)
    rw [if_neg fun e => Option.some_ne_none j (e.symm.trans hi)] at herase
    have hnormal := h.normal j d hd
    rw [liveOf_cons, if_neg fun e => Option.some_ne_none j (e.symm.trans (hp ▸ hi))] at hnormal
    exact hnormal.perm_pages herase
  · have herase := arenas_erase hg hgroups harena none
    rw [if_pos hi] at herase
    refine (hslab.put.perm_pages herase).shrink ?_
    rw [hb]
    exact .refl _

end Core

/-- **`free`** of a live block: its group goes back if it was the last live block in it. -/
theorem Inv.free_yields (h : Inv (s, b :: rest)) : Yields (free b) s fun _ s' => Inv (s', rest) ∧
    ∃ g ∈ s.groups, pgRoundDown b = g.1 ∧
      s'.groups = if ∃ c ∈ rest, pgRoundDown c = g.1 then s.groups else s.groups.erase g := by
  have hcore : Core s (b :: rest) := h.core
  obtain ⟨g, hg, hp, hblock⟩ := hcore.blockOf_live List.mem_cons_self
  have hnull := hcore.ne_zero List.mem_cons_self
  have hfree : Yields (free b) s fun _ s' => Core s' rest ∧
      s'.groups = if ∃ c ∈ rest, pgRoundDown c = g.1 then s.groups else s.groups.erase g := by
    unfold free
    rw [if_neg hnull]
    refine Yields.bind (blockToArena_yields hcore.descs (hcore.groups g hg) (hcore.magic g hg) hblock ?_)
    refine Yields.bind (Yields.get ?_)
    cases hblock with
    | normal hi hd hb =>
      simp only [hi]
      exact hcore.freeSmall_yields hg hp hi hd hb
    | big hi hb =>
      have hbig := hcore.freeBig_yields hg hi hb
      simp only [hi]
      exact hbig
  refine hfree.mono ?_
  rintro _ s' ⟨hcore', hgroups⟩
  refine ⟨⟨hcore', fun g' hg' => ?_⟩, g, hg, hp, hgroups⟩
  have hg'' : g' ∈ if ∃ c ∈ rest, pgRoundDown c = g.1 then s.groups else s.groups.erase g := hgroups ▸ hg'
  have hmem : g' ∈ s.groups := by
    split_ifs at hg''
    · exact hg''
    · exact List.mem_of_mem_erase hg''
  obtain ⟨c, hc, hpc⟩ := h.used g' hmem
  rcases List.mem_cons.mp hc with rfl | hc
  · obtain rfl := hcore.eq_of_fst hg hmem (hp.symm.trans hpc)
    split_ifs at hg'' with hsome
    · exact hsome
    · exact absurd rfl (hcore.groups_nodup.mem_erase_iff.mp hg'').1
  · exact ⟨c, hc, hpc⟩

/-! ### New groups -/

/-- What the page allocator keeps to: a group that it returns is apart from those that the heap has. -/
def AllocOk (s : State) (alloc : Word → Word) : Prop :=
  ∀ cnt, alloc cnt ≠ 0 → GroupOk (alloc cnt, cnt) ∧ ∀ g ∈ s.groups, Apart (alloc cnt, cnt) g

variable {alloc : Word → Word} {size : Word}

theorem arenas_cons (hgroups : s'.groups = g :: s.groups) (harena : ∀ g' ∈ s.groups, s'.arena g'.1 = s.arena g'.1)
    (o : Option ℕ) :
    arenas s' o = if (s'.arena g.1).desc = o then g.1 :: arenas s o else arenas s o := by
  have hrest : arenas s o = (s.groups.filter fun g => (s'.arena g.1).desc = o).map Prod.fst :=
    congrArg (List.map Prod.fst) (List.filter_congr fun g' hmem => by rw [harena g' hmem])
  unfold arenas at hrest ⊢
  rw [hgroups, hrest, List.filter_cons]
  simp only [decide_eq_true_eq]
  split_ifs <;> rfl

namespace Core

/-- **A new group**, with its blocks. -/
theorem add (h : Core s live) (hok : GroupOk g) (hapart : ∀ g' ∈ s.groups, Apart g g') {F : ℕ → Desc → List Word}
    {live' : List Word}
    (hgroups : s'.groups = g :: s.groups) (harena : ∀ g' ∈ s.groups, s'.arena g'.1 = s.arena g'.1)
    (hdescs : ∀ j : ℕ, s'.descs[j]? = (s.descs[j]?).map fun d : Desc => { d with freeList := F j d })
    (hF : ∀ j d q, s.descs[j]? = some d → q ≠ g.1 → (F j d).countP (pgRoundDown · = q) =
      d.freeList.countP (pgRoundDown · = q))
    (hm : (s'.arena g.1).magic = arenaMagic)
    (hsmall : ∀ i, (s'.arena g.1).desc = some i → g.2 = 1 ∧
      ∃ d, s'.descs[i]? = some d ∧ (s'.arena g.1).freeCnt.toNat = d.freeList.countP (pgRoundDown · = g.1))
    (hlarge : (s'.arena g.1).desc = none → (s'.arena g.1).freeCnt = g.2)
    (howned : ∀ b ∈ live', b ∈ live ∨ pgRoundDown b = g.1)
    (hnormal : ∀ j d, s.descs[j]? = some d →
      Slab pgRoundDown d.blocks (arenas s' (some j)) (F j d) (liveOf s' live' (some j)))
    (hbig : Slab pgRoundDown (fun p => [p + arenaSize]) (arenas s' none) [] (liveOf s' live' none)) :
      Core s' live' := by
  refine ⟨h.forall_descs_map hdescs, ?_, ?_, ?_, ?_, ?_, ?_, fun j d' hj => ?_, hbig⟩
  · rw [hgroups]
    exact List.forall_mem_cons.mpr ⟨hok, h.groups⟩
  · rw [hgroups]
    exact List.pairwise_cons.mpr ⟨hapart, h.apart⟩
  · rw [hgroups]
    refine List.forall_mem_cons.mpr ⟨hm, fun g' hg' => ?_⟩
    rw [harena g' hg']
    exact h.magic g' hg'
  · rw [hgroups]
    refine List.forall_mem_cons.mpr ⟨hsmall, fun g' hg' j hj => ?_⟩
    rw [harena g' hg'] at hj ⊢
    obtain ⟨hone, d, hd, hcnt⟩ := h.small g' hg' j hj
    have hne : g'.1 ≠ g.1 := ((hapart g' hg').ne hok (h.groups g' hg')).symm
    exact ⟨hone, { d with freeList := F j d }, by rw [hdescs, hd]; rfl, hcnt.trans (hF j d _ hd hne).symm⟩
  · rw [hgroups]
    refine List.forall_mem_cons.mpr ⟨hlarge, fun g' hg' hj => ?_⟩
    rw [harena g' hg'] at hj ⊢
    exact h.large g' hg' hj
  · rw [hgroups]
    intro b hb
    rcases howned b hb with hb | hp
    · obtain ⟨g', hg', hp⟩ := h.owned b hb
      exact ⟨g', List.mem_cons_of_mem g hg', hp⟩
    · exact ⟨g, List.mem_cons_self, hp⟩
  · obtain ⟨d, hd, rfl⟩ := exists_desc hdescs hj
    exact hnormal j d hd

/-- The live blocks are not in a new group. -/
theorem liveOf_add (h : Core s live) (harena : ∀ g' ∈ s.groups, s'.arena g'.1 = s.arena g'.1) :
    liveOf s' live o = liveOf s live o := liveOf_congr fun b hb => by
  obtain ⟨g', hg', hp⟩ := h.owned b hb
  rw [hp, harena g' hg']

/-- A new arena, with its blocks on the empty free list. -/
theorem addArena (h : Core s live) (hok : GroupOk (p, 1)) (hapart : ∀ g' ∈ s.groups, Apart (p, 1) g')
    (hd : s.descs[i]? = some d)
    (hempty : d.freeList = []) : Core ⟨(s.mapFree i (· ++ d.blocks p)).descs,
      Function.update s.arena p ⟨arenaMagic, some i, d.blocksPerArena⟩, (p, 1) :: s.groups⟩ live := by
  set s' : State := ⟨(s.mapFree i (· ++ d.blocks p)).descs,
      Function.update s.arena p ⟨arenaMagic, some i, d.blocksPerArena⟩, (p, 1) :: s.groups⟩ with hs'
  have hdok := h.descOk hd
  have hnew : s'.arena p = ⟨arenaMagic, some i, d.blocksPerArena⟩ := Function.update_self ..
  have hne : ∀ g' ∈ s.groups, g'.1 ≠ p := fun g' hg' => ((hapart g' hg').ne hok (h.groups g' hg')).symm
  have harena : ∀ g' ∈ s.groups, s'.arena g'.1 = s.arena g'.1 := fun g' hg' => Function.update_of_ne (hne g' hg') ..
  have hpage : ∀ b ∈ d.blocks p, pgRoundDown b = p := fun b hb => hdok.pgRoundDown_block hok hb
  refine h.add (F := fun j d' => if i = j then d'.freeList ++ d.blocks p else d'.freeList) hok hapart rfl harena
    (fun j => ?_)
    (fun j d' q hj hq => ?_) (by rw [hnew]) (fun j hj => ?_) (fun hj => ?_) (fun b hb => .inl hb)
      (fun j d' hj => ?_) ?_
  · refine (getElem?_mapFree s i (· ++ d.blocks p) j).trans
      (congrArg (fun f => (s.descs[j]?).map f) (funext fun d' => ?_))
    split_ifs <;> rfl
  · split_ifs with hij
    · have hzero : (d.blocks p).countP (pgRoundDown · = q) = 0 :=
        List.countP_eq_zero.mpr fun b hb hbq => hq ((of_decide_eq_true hbq).symm.trans (hpage b hb))
      rw [List.countP_append, hzero, Nat.add_zero]
    · rfl
  · rw [hnew] at hj ⊢
    obtain rfl := Option.some.inj hj
    refine ⟨rfl, _, getElem?_mapFree_self hd (· ++ d.blocks p), ?_⟩
    show d.blocksPerArena.toNat = (d.freeList ++ d.blocks p).countP (pgRoundDown · = p)
    rw [hempty, List.nil_append, List.countP_eq_length.mpr fun b hb => decide_eq_true (hpage b hb), Desc.blocks,
      List.length_map, List.length_range]
  · rw [hnew] at hj
    exact absurd hj (Option.some_ne_none i)
  · rw [arenas_cons rfl harena, h.liveOf_add harena, hnew]
    have hnormal := h.normal j d' hj
    split_ifs with hij hij' hij'
    · subst hij'
      obtain rfl := Option.some.inj (hd.symm.trans hj)
      refine hnormal.grow (fun hmem => ?_) (hdok.nodup_blocks hok) hpage
      obtain ⟨g', hg', hp, -⟩ := mem_arenas.mp hmem
      exact hne g' hg' hp
    · exact absurd (Option.some.inj hij) hij'
    · exact absurd (congrArg some hij') hij
    · exact hnormal
  · rw [arenas_cons rfl harena, h.liveOf_add harena, hnew, if_neg (Option.some_ne_none i)]
    exact h.big

/-- A new big block. -/
theorem addBig (h : Core s live) (hok : GroupOk g) (hapart : ∀ g' ∈ s.groups, Apart g g') :
    Core ⟨s.descs, Function.update s.arena g.1 ⟨arenaMagic, none, g.2⟩, g :: s.groups⟩
      ((g.1 + arenaSize) :: live) := by
  set s' : State := ⟨s.descs, Function.update s.arena g.1 ⟨arenaMagic, none, g.2⟩, g :: s.groups⟩ with hs'
  have hnew : s'.arena g.1 = ⟨arenaMagic, none, g.2⟩ := Function.update_self ..
  have hne : ∀ g' ∈ s.groups, g'.1 ≠ g.1 := fun g' hg' => ((hapart g' hg').ne hok (h.groups g' hg')).symm
  have harena : ∀ g' ∈ s.groups, s'.arena g'.1 = s.arena g'.1 := fun g' hg' => Function.update_of_ne (hne g' hg') ..
  have hpage : pgRoundDown (g.1 + arenaSize) = g.1 := hok.pgRoundDown_add hok.toNat_add_arenaSize (by decide)
  have hdesc : (s'.arena (pgRoundDown (g.1 + arenaSize))).desc = none := by rw [hpage, hnew]
  refine h.add (F := fun _ d => d.freeList) hok hapart rfl harena (fun j => (congrFun Option.map_id _).symm)
    (fun _ _ _ _ _ => rfl) (by rw [hnew]) (fun j hj => ?_) (fun _ => by rw [hnew]) (fun b hb => ?_)
      (fun j d hj => ?_) ?_
  · rw [hnew] at hj
    exact absurd hj.symm (Option.some_ne_none j)
  · rcases List.mem_cons.mp hb with rfl | hb
    · exact .inr hpage
    · exact .inl hb
  · rw [arenas_cons rfl harena, hnew, if_neg (Option.some_ne_none j).symm, liveOf_cons, hdesc,
      if_neg (Option.some_ne_none j).symm, h.liveOf_add harena]
    exact h.normal j d hj
  · rw [arenas_cons rfl harena, hnew, if_pos rfl, liveOf_cons, if_pos hdesc, h.liveOf_add harena]
    refine Slab.take (h.big.grow (fun hmem => ?_) (List.nodup_singleton _) fun b hb => ?_)
    · obtain ⟨g', hg', hp, -⟩ := mem_arenas.mp hmem
      exact hne g' hg' hp
    · rw [List.mem_singleton.mp hb]
      exact hpage

/-- **A new arena is made**: after `k` rounds of the loop, its first `k` blocks are on the free list. -/
theorem newArena_yields {s : State} (h : Core s live) (hok : GroupOk (p, 1))
    (hapart : ∀ g' ∈ s.groups, Apart (p, 1) g')
    (hd : s.descs[i]? = some d) (hempty : d.freeList = []) :
      Yields (newArena i d p) { s with groups := (p, 1) :: s.groups } fun _ s' =>
      s'.groups = (p, 1) :: s.groups ∧ s'.descs[i]? = some { d with freeList := d.blocks p } ∧ Core s' live := by
  set s₁ : State := ⟨s.descs, Function.update s.arena p ⟨arenaMagic, some i, d.blocksPerArena⟩,
    (p, 1) :: s.groups⟩ with hs₁
  have hd₁ : s₁.descs[i]? = some d := hd
  have hnew : s₁.arena p = ⟨arenaMagic, some i, d.blocksPerArena⟩ := Function.update_self ..
  have hloop : Yields ((List.range d.blocksPerArena.toNat).forM fun k => do
      let b ← arenaToBlock p k
      setFreeList i (· ++ [b])) s₁ fun _ s' => s' = s₁.mapFree i (· ++ d.blocks p) := by
    refine Yields.forM_range (I := fun k s' =>
      s' = s₁.mapFree i (· ++ (List.range k).map fun k => p + arenaSize + BitVec.ofNat 32 k * d.blockSize)) ?_ ?_
    · rw [List.range_zero, List.map_nil, mapFree_eq hd₁, List.append_nil, mapFree_self hd₁]
    · rintro k hk _ rfl
      have hm : (s₁.arena p).magic = arenaMagic := by rw [hnew]
      have hi : (s₁.arena p).desc = some i := by rw [hnew]
      refine Yields.bind (arenaToBlock_yields hok.nonnull hm hi (getElem?_mapFree_self hd₁ _) hk (Yields.modify ?_))
      rw [mapFree_mapFree, List.range_succ, List.map_append]
      refine congrArg (s₁.mapFree i) (funext fun l => ?_)
      exact List.append_assoc ..
  refine Yields.bind (Yields.modify (hloop.mono ?_))
  rintro _ _ rfl
  refine ⟨rfl, ?_, h.addArena hok hapart hd hempty⟩
  refine (getElem?_mapFree_self hd₁ (· ++ d.blocks p)).trans ?_
  rw [hempty, List.nil_append]

end Core

/-! ### `malloc` -/

/-- There is no memory for a request: the free list is empty, and the page allocator has no page; or it has no
group. -/
def NoMemory (s : State) (alloc : Word → Word) (size : Word) : Prop :=
  match s.findDesc size with
  | some i => (∀ d, s.descs[i]? = some d → d.freeList = []) ∧ alloc 1 = 0
  | none => alloc (pageCnt size) = 0

/-- A block that is returned: what it has room for, and what is kept. -/
structure Returned (s s' : State) (live : List Word) (b : Word) (room : ℕ) : Prop where
  nonnull : b ≠ 0
  room : s'.roomOf b = room
  groups : s'.groups = s.groups ∨ ∃ g, s'.groups = g :: s.groups
  inv : Inv (s', b :: live)

/-- **`malloc` with a descriptor** returns a block of its size. -/
theorem Inv.mallocSmall_yields (h : Inv (s, live)) (halloc : AllocOk s alloc) (hd : s.descs[i]? = some d) :
    Yields (mallocSmall alloc i) s fun b s' =>
      (b = 0 ∧ s' = s ∧ d.freeList = [] ∧ alloc 1 = 0) ∨ Returned s s' live b d.blockSize.toNat ∧
        ¬(d.freeList = [] ∧ alloc 1 = 0) := by
  have hcore : Core s live := h.core
  refine Yields.bind (getDesc_yields hd ?_)
  cases hfree : d.freeList with
  | nil =>
    rw [if_pos rfl]
    refine Yields.bind ?_
    unfold pallocGetMultiple
    split_ifs with hnull
    · exact Yields.pure (Yields.pure (.inl ⟨rfl, rfl, rfl, hnull⟩))
    · obtain ⟨hok, hapart⟩ := halloc 1 hnull
      refine Yields.bind (Yields.modify (Yields.pure ?_))
      rw [if_neg hnull]
      refine Yields.bind ((hcore.newArena_yields hok hapart hd hfree).mono ?_)
      rintro _ s₁ ⟨hgroups₁, hd₁, hcore₁⟩
      have hdok := hcore.descOk hd
      obtain ⟨b, rest, hblocks⟩ : ∃ b rest, d.blocks (alloc 1) = b :: rest := by
        refine List.exists_cons_of_length_pos ?_
        rw [Desc.blocks, List.length_map, List.length_range]
        exact hdok.blocksPerArena
      have hpage : pgRoundDown b = alloc 1 := hdok.pgRoundDown_block hok (hblocks ▸ List.mem_cons_self)
      refine (hcore₁.takeBlock_yields hd₁ hblocks).mono ?_
      rintro _ s' ⟨rfl, hgroups, hroom, hcore'⟩
      rw [hgroups₁] at hgroups
      refine .inr ⟨⟨hcore'.ne_zero List.mem_cons_self, hroom, .inr ⟨_, hgroups⟩, hcore', fun g hg => ?_⟩,
        fun hno => hnull hno.2⟩
      have hg' : g ∈ (alloc 1, 1) :: s.groups := hgroups ▸ hg
      rcases List.mem_cons.mp hg' with rfl | hg'
      · exact ⟨_, List.mem_cons_self, hpage⟩
      · obtain ⟨c, hc, hp⟩ := h.used g hg'
        exact ⟨c, List.mem_cons_of_mem _ hc, hp⟩
  | cons b rest =>
    rw [if_neg (List.cons_ne_nil b rest)]
    refine (hcore.takeBlock_yields hd hfree).mono ?_
    rintro _ s' ⟨rfl, hgroups, hroom, hcore'⟩
    refine .inr ⟨⟨hcore'.ne_zero List.mem_cons_self, hroom, .inl hgroups, hcore', fun g hg => ?_⟩,
      fun hno => List.cons_ne_nil _ _ hno.1⟩
    have hg' : g ∈ s.groups := hgroups ▸ hg
    obtain ⟨c, hc, hp⟩ := h.used g hg'
    exact ⟨c, List.mem_cons_of_mem _ hc, hp⟩

/-- **`malloc` of a big block** returns the pages behind a header. -/
theorem Inv.mallocBig_yields (h : Inv (s, live)) (halloc : AllocOk s alloc) :
    Yields (mallocBig alloc size) s fun b s' =>
    (b = 0 ∧ s' = s ∧ alloc (pageCnt size) = 0) ∨
      (Returned s s' live b (4096 * (pageCnt size).toNat - 12) ∧ 0 < (pageCnt size).toNat) ∧
        alloc (pageCnt size) ≠ 0 := by
  have hcore : Core s live := h.core
  refine Yields.bind ?_
  unfold pallocGetMultiple
  split_ifs with hnull
  · exact Yields.pure (Yields.pure (.inl ⟨rfl, rfl, hnull⟩))
  · obtain ⟨hok, hapart⟩ := halloc (pageCnt size) hnull
    have hcore' := hcore.addBig hok hapart
    have hpage : pgRoundDown (alloc (pageCnt size) + arenaSize) = alloc (pageCnt size) :=
      hok.pgRoundDown_add hok.toNat_add_arenaSize (by decide)
    refine Yields.bind (Yields.modify (Yields.pure ?_))
    rw [if_neg hnull]
    refine Yields.bind (Yields.modify (Yields.pure (.inr ⟨⟨⟨hcore'.ne_zero List.mem_cons_self, ?_, .inr ⟨_, rfl⟩,
      hcore', ?_⟩, hok.nonempty⟩, hnull⟩)))
    · have hmod := hok.toNat_mod
      have hat := hok.toNat_add_arenaSize
      have hnew : Function.update s.arena (alloc (pageCnt size)) ⟨arenaMagic, none, pageCnt size⟩
        (alloc (pageCnt size)) =
          ⟨arenaMagic, none, pageCnt size⟩ := Function.update_self ..
      rw [roomOf_big hpage (congrArg Arena.desc hnew)]
      show 4096 * (Function.update s.arena (alloc (pageCnt size)) _ (alloc (pageCnt size))).freeCnt.toNat - _ = _
      rw [hnew]
      dsimp only at hat hmod ⊢
      omega
    · refine List.forall_mem_cons.mpr ⟨⟨_, List.mem_cons_self, hpage⟩, fun g hg => ?_⟩
      obtain ⟨c, hc, hp⟩ := h.used g hg
      exact ⟨c, List.mem_cons_of_mem _ hc, hp⟩

theorem noMemory_some (hfind : s.findDesc size = some i) (hd : s.descs[i]? = some d) :
    NoMemory s alloc size ↔ d.freeList = [] ∧ alloc 1 = 0 := by
  simp only [NoMemory, hfind, hd, Option.some.injEq, forall_eq']

theorem noMemory_none (hfind : s.findDesc size = none) : NoMemory s alloc size ↔ alloc (pageCnt size) = 0 := by
  simp only [NoMemory, hfind]

/-- The descriptor that is found has blocks of that size. -/
theorem findDesc_some (hfind : s.findDesc size = some i) : ∃ d, s.descs[i]? = some d ∧ size ≤ d.blockSize := by
  obtain ⟨hlt, hle, -⟩ := List.findIdx?_eq_some_iff_getElem.mp hfind
  exact ⟨_, List.getElem?_eq_getElem hlt, of_decide_eq_true hle⟩

/-- A descriptor with blocks of that size is found. -/
theorem findDesc_none (hfind : s.findDesc size = none) (hd : d ∈ s.descs) : d.blockSize < size :=
  BitVec.not_le.mp (of_decide_eq_false (List.findIdx?_eq_none_iff.mp hfind d hd))

/-- The blocks of a descriptor are smaller than a page. -/
theorem DescOk.blockSize_lt (h : DescOk d) : d.blockSize.toNat < 2 ^ 12 := by
  have hfits := h.fits
  have hle := Nat.le_mul_of_pos_left d.blockSize.toNat h.blocksPerArena
  omega

/-- What `malloc` returns room for. -/
def RoomFor (s : State) (size : Word) (room : ℕ) : Prop :=
  match s.findDesc size with
  | some _ => size.toNat ≤ room ∧ room < 2 ^ 12
  | none => 0 < (pageCnt size).toNat ∧ room = 4096 * (pageCnt size).toNat - 12

/-- **`malloc`** returns a block, or a null pointer where there is no memory. -/
theorem Inv.malloc_yields (h : Inv (s, live)) (halloc : AllocOk s alloc) (size : Word) :
    Yields (malloc alloc size) s fun b s' =>
    (b = 0 ∧ s' = s ∧ (size = 0 ∨ NoMemory s alloc size)) ∨
      ∃ room, Returned s s' live b room ∧ RoomFor s size room ∧ size ≠ 0 ∧ ¬NoMemory s alloc size := by
  unfold malloc
  split_ifs with hzero
  · exact Yields.pure (.inl ⟨rfl, rfl, .inl hzero⟩)
  · refine Yields.bind (Yields.get ?_)
    cases hfind : s.findDesc size with
    | some i =>
      obtain ⟨d, hd, hle⟩ := findDesc_some hfind
      have hlt := (h.core.descOk hd).blockSize_lt
      refine (h.mallocSmall_yields halloc hd).mono ?_
      rintro b s' (⟨rfl, rfl, hno⟩ | ⟨hret, hno⟩)
      · exact .inl ⟨rfl, rfl, .inr ((noMemory_some hfind hd).mpr hno)⟩
      · refine .inr ⟨_, hret, ?_, hzero, fun hno' => hno ((noMemory_some hfind hd).mp hno')⟩
        simp only [RoomFor, hfind]
        exact ⟨BitVec.le_def.mp hle, hlt⟩
    | none =>
      refine (h.mallocBig_yields halloc).mono ?_
      rintro b s' (⟨rfl, rfl, hno⟩ | ⟨⟨hret, hpos⟩, hno⟩)
      · exact .inl ⟨rfl, rfl, .inr ((noMemory_none hfind).mpr hno)⟩
      · refine .inr ⟨_, hret, ?_, hzero, fun hno' => hno ((noMemory_none hfind).mp hno')⟩
        simp only [RoomFor, hfind]
        exact ⟨hpos, trivial⟩

end Pintos.Threads.Malloc
