import Pintos.Threads.MallocHeap
import Mathlib.Order.CompletePartialOrder

/-! # All runs of the heap

Calls of `malloc` and `free` in any order, with any answers of the page allocator and with writes of others in
between. -/

namespace Pintos.Threads.Malloc

open Pintos.Lib.Ops Pintos.Lib.Runs Pintos.Lib.Slabs Pintos.Userprog.PageEntries

variable {s s' : State} {live rest : List Word} {g : Word × Word} {d : Desc} {a b p : Word} {i k : ℕ}
  {alloc : Word → Word} {size : Word}

/-! ### All runs -/

/-- What happens to the heap: calls, and writes of others. -/
inductive Call where
  | malloc (size : Word)
  | free (b : Word)
  | write

/-- A step; the live blocks are kept beside the state. The pages that the page allocator returns are not in use,
and others do not write to headers. -/
inductive Step : State × List Word → Call → State × List Word → Prop
  | malloc {s s' : State} {live : List Word} {alloc : Word → Word} {size b : Word} (halloc : AllocOk s alloc)
      (h : malloc alloc size s = some (b, s')) : Step (s, live) (.malloc size) (s', if b = 0 then live else b :: live)
  | free {s s' : State} {live rest : List Word} {b : Word} (hb : live.Perm (b :: rest))
      (h : free b s = some ((), s')) :
      Step (s, live) (.free b) (s', rest)
  | write {s : State} {live : List Word} {arena : Word → Arena} (h : ∀ g ∈ s.groups, arena g.1 = s.arena g.1) :
      Step (s, live) .write ({ s with arena }, live)

/-- The heap after `malloc_init`. -/
def Initial (x : State × List Word) : Prop :=
  x.2 = [] ∧ ∃ s : State, s.descs = [] ∧ s.groups = [] ∧ mallocInit s = some ((), x.1)

/-- The descriptors. -/
def sizeClasses : List Desc :=
  [⟨16, 255, []⟩, ⟨32, 127, []⟩, ⟨64, 63, []⟩, ⟨128, 31, []⟩, ⟨256, 15, []⟩, ⟨512, 7, []⟩, ⟨1024, 3, []⟩]

/-- **`malloc_init`** makes seven descriptors. -/
theorem mallocInit_eq (arena : Word → Arena) (groups : List (Word × Word)) :
    mallocInit ⟨[], arena, groups⟩ = some ((), ⟨sizeClasses, arena, groups⟩) := rfl

theorem forall_sizeClasses : ∀ d ∈ sizeClasses, DescOk d ∧ d.freeList = [] := by
  have h : ∀ d ∈ sizeClasses, 0 < d.blockSize.toNat ∧ 0 < d.blocksPerArena.toNat ∧
      d.blocksPerArena.toNat * d.blockSize.toNat ≤ 4084 ∧ d.freeList = [] := by decide
  intro d hd
  obtain ⟨hsize, hcnt, hfits, hfree⟩ := h d hd
  exact ⟨⟨hsize, hcnt, hfits⟩, hfree⟩

theorem core_initial (arena : Word → Arena) : Core ⟨sizeClasses, arena, []⟩ [] where
  descs d hd := (forall_sizeClasses d hd).1
  groups := nofun
  apart := .nil
  magic := nofun
  small := nofun
  large := nofun
  owned := nofun
  normal i d hd := by
    rw [(forall_sizeClasses d (List.mem_of_getElem? hd)).2]
    exact .nil
  big := .nil

theorem inv_invariant : Invariant Initial Step Inv where
  start := by
    rintro ⟨s, _⟩ ⟨rfl, ⟨_, arena, _⟩, rfl, rfl, hinit⟩
    obtain rfl : _ = s := (Prod.mk.inj (Option.some.inj ((mallocInit_eq arena []).symm.trans hinit))).2
    exact ⟨core_initial arena, nofun⟩
  step := by
    rintro _ _ _ hinv (⟨halloc, h⟩ | ⟨hb, h⟩ | h)
    · rcases (hinv.malloc_yields halloc _).ensures _ _ h with ⟨rfl, rfl, -⟩ | ⟨room, hret, -⟩
      · exact hinv
      · rw [if_neg hret.nonnull]
        exact hret.inv
    · have hinv' : Inv (_, _ :: _) := ⟨hinv.core.perm hb, fun g hg => ?_⟩
      · exact (hinv'.free_yields.ensures _ _ h).1
      · obtain ⟨c, hc, hp⟩ := hinv.used g hg
        exact ⟨c, hb.mem_iff.mp hc, hp⟩
    · exact ⟨hinv.core.agree h, hinv.used⟩

/-! ### What holds between calls -/

/-- The bytes of a block. -/
def State.extent (s : State) (b : Word) : Set ℕ := Set.Ico b.toNat (b.toNat + s.roomOf b)

/-- The bytes of a group of pages. -/
def groupBytes (g : Word × Word) : Set ℕ := Set.Ico g.1.toNat (g.1.toNat + 4096 * g.2.toNat)

/-- The bytes of the header of a group. -/
def headerBytes (g : Word × Word) : Set ℕ := Set.Ico g.1.toNat (g.1.toNat + arenaSize.toNat)

/-- **What holds of the heap** between calls. -/
structure Sound (s : State) (live : List Word) : Prop where
  sizes : ∀ b ∈ live, Yields (blockSize b) s fun n s' => n.toNat = s.roomOf b ∧ s' = s
  disjoint : live.Pairwise fun b c => Disjoint (s.extent b) (s.extent c)
  inGroups : ∀ b ∈ live, ∃ g ∈ s.groups, s.extent b ⊆ groupBytes g
  offHeaders : ∀ b ∈ live, ∀ g ∈ s.groups, Disjoint (s.extent b) (headerBytes g)
  freeLists : ∀ i d, s.descs[i]? = some d → d.freeList.Nodup ∧
    ∀ b, b ∈ d.freeList ↔ b ∉ live ∧ ∃ g ∈ s.groups, (s.arena g.1).desc = some i ∧ b ∈ d.blocks g.1
  freeCnts : ∀ g ∈ s.groups, ∀ i d, (s.arena g.1).desc = some i → s.descs[i]? = some d →
    (s.arena g.1).freeCnt.toNat = (d.blocks g.1).countP (· ∈ d.freeList)
  mallocs : ∀ alloc size, AllocOk s alloc → Yields (malloc alloc size) s fun _ s' => s.groups ⊆ s'.groups
  frees : ∀ b ∈ live, Yields (free b) s fun _ s' => ∃ g ∈ s.groups, s.extent b ⊆ groupBytes g ∧
    ((s'.groups = s.groups ∧ ∃ c ∈ live.erase b, s.extent c ⊆ groupBytes g) ∨
      (s'.groups = s.groups.erase g ∧ ∀ c ∈ live.erase b, ¬s.extent c ⊆ groupBytes g))

namespace Core

theorem extent_subset (h : Core s live) (hg : g ∈ s.groups) (hb : BlockOf s g b) : s.extent b ⊆ groupBytes g := by
  obtain ⟨hlo, hhi⟩ := h.room hg hb
  exact Set.Ico_subset_Ico (by omega) hhi

theorem roomOf_pos (h : Core s live) (hg : g ∈ s.groups) (hb : BlockOf s g b) : 0 < s.roomOf b := by
  have hp := h.pgRoundDown_block hg hb
  cases hb with
  | normal hi hd hb =>
    rw [roomOf_normal hp hi hd]
    exact (h.descOk hd).blockSize
  | big hi hb =>
    have hnonempty := (h.groups g hg).nonempty
    rw [roomOf_big hp hi, h.large g hg hi]
    omega

/-- A live block lies in no group but its own. -/
theorem extent_subset_iff (h : Core s live) (hb : b ∈ live) (hg : g ∈ s.groups) :
    s.extent b ⊆ groupBytes g ↔ pgRoundDown b = g.1 := by
  obtain ⟨g', hg', hp, hblock⟩ := h.blockOf_live hb
  constructor
  · intro hsub
    by_contra hne
    have hpos := h.roomOf_pos hg' hblock
    have hmem : b.toNat ∈ s.extent b := Set.left_mem_Ico.mpr (by omega)
    obtain ⟨hlo, hhi⟩ := h.extent_subset hg' hblock hmem
    obtain ⟨hlo', hhi'⟩ := hsub hmem
    rcases h.apart_of_ne hg hg' fun e => hne (hp.trans e.symm) with hapart | hapart <;> omega
  · intro hp'
    obtain rfl := h.eq_of_fst hg' hg (hp.symm.trans hp')
    exact h.extent_subset hg hblock

/-- No block is live twice. -/
theorem nodup_live (h : Core s live) : live.Nodup := by
  refine List.nodup_iff_count_le_one.mpr fun b => ?_
  by_cases hb : b ∈ live
  · have hnodup : (liveOf s live (s.arena (pgRoundDown b)).desc).Nodup := by
      obtain ⟨g, hg, hp, hblock⟩ := h.blockOf_live hb
      rw [hp]
      cases hblock with
      | normal hi hd => exact hi ▸ (h.normal _ _ hd).nodup_live
      | big hi => exact hi ▸ h.big.nodup_live
    have hcount : (liveOf s live (s.arena (pgRoundDown b)).desc).count b = live.count b :=
      List.count_filter (decide_eq_true rfl)
    exact hcount ▸ List.nodup_iff_count_le_one.mp hnodup b
  · rw [List.count_eq_zero_of_not_mem hb]
    exact Nat.zero_le 1

/-- **Two live blocks are disjoint.** -/
theorem disjoint_extent {c : Word} (h : Core s (b :: c :: rest)) : Disjoint (s.extent b) (s.extent c) := by
  have hmem : c ∈ b :: c :: rest := List.mem_cons_of_mem b List.mem_cons_self
  obtain ⟨g, hg, hp, hb⟩ := h.blockOf_live List.mem_cons_self
  obtain ⟨g', hg', hp', hc⟩ := h.blockOf_live hmem
  have hne : b ≠ c := fun e => (List.nodup_cons.mp h.nodup_live).1 (e ▸ List.mem_cons_self)
  refine Set.disjoint_left.mpr fun x hx hx' => ?_
  have hx₁ : b.toNat ≤ x ∧ x < b.toNat + s.roomOf b := hx
  have hx₂ : c.toNat ≤ x ∧ x < c.toNat + s.roomOf c := hx'
  by_cases heq : g.1 = g'.1
  · obtain rfl := h.eq_of_fst hg hg' heq
    cases hb with
    | @normal i d hi hd hb =>
      cases hc with
      | @normal i' d' hi' hd' hc =>
        obtain rfl := Option.some.inj (hi.symm.trans hi')
        obtain rfl := Option.some.inj (hd.symm.trans hd')
        rw [roomOf_normal hp hi hd] at hx₁
        rw [roomOf_normal hp' hi hd] at hx₂
        obtain ⟨k, -, hk⟩ := (h.descOk hd).mem_blocks (h.groups g hg) hb
        obtain ⟨k', -, hk'⟩ := (h.descOk hd).mem_blocks (h.groups g hg) hc
        rcases lt_trichotomy k k' with hlt | rfl | hlt
        · have hle : (k + 1) * d.blockSize.toNat ≤ k' * d.blockSize.toNat := Nat.mul_le_mul_right _ hlt
          rw [Nat.add_mul, Nat.one_mul] at hle
          omega
        · exact hne (BitVec.eq_of_toNat_eq (hk.trans hk'.symm))
        · have hle : (k' + 1) * d.blockSize.toNat ≤ k * d.blockSize.toNat := Nat.mul_le_mul_right _ hlt
          rw [Nat.add_mul, Nat.one_mul] at hle
          omega
      | big hi' => exact absurd (hi.symm.trans hi') (Option.some_ne_none i)
    | big hi hb =>
      cases hc with
      | normal hi' => exact absurd (hi'.symm.trans hi) (Option.some_ne_none _)
      | big hi' hc => exact hne (hb.trans hc.symm)
  · obtain ⟨hlo, hhi⟩ := h.room hg hb
    obtain ⟨hlo', hhi'⟩ := h.room hg' hc
    rcases h.apart_of_ne hg hg' heq with hapart | hapart <;> omega

/-- The free blocks of an arena. -/
theorem countP_blocks (h : Core s live) (hg : g ∈ s.groups) (hi : (s.arena g.1).desc = some i)
    (hd : s.descs[i]? = some d) :
    (s.arena g.1).freeCnt.toNat = (d.blocks g.1).countP (· ∈ d.freeList) := by
  rw [(h.toNat_freeCnt hg hi hd).2, List.countP_eq_length_filter, List.countP_eq_length_filter]
  refine List.Perm.length_eq ((List.perm_ext_iff_of_nodup ((h.normal i d hd).nodup_free.filter _)
    (((h.descOk hd).nodup_blocks (h.groups g hg)).filter _)).mpr fun b => ?_)
  rw [List.mem_filter, List.mem_filter, decide_eq_true_eq, decide_eq_true_eq]
  constructor
  · rintro ⟨hb, hp⟩
    obtain ⟨g', hg', hp', -, hblock⟩ := h.blockOf_free hd hb
    obtain rfl := h.eq_of_fst hg hg' (hp.symm.trans hp')
    exact ⟨hblock, hb⟩
  · rintro ⟨hblock, hb⟩
    exact ⟨hb, (h.descOk hd).pgRoundDown_block (h.groups g hg) hblock⟩

end Core

/-- The free blocks of a descriptor. -/
theorem Core.mem_freeList (h : Core s live) (hd : s.descs[i]? = some d) :
    b ∈ d.freeList ↔ b ∉ live ∧ ∃ g ∈ s.groups, (s.arena g.1).desc = some i ∧ b ∈ d.blocks g.1 := by
  rw [(h.normal i d hd).mem_free]
  constructor
  · rintro ⟨hlive, p, hp, hb⟩
    obtain ⟨g, hg, rfl, hi⟩ := mem_arenas.mp hp
    have hpage := (h.descOk hd).pgRoundDown_block (h.groups g hg) hb
    exact ⟨fun hmem => hlive (mem_liveOf.mpr ⟨hmem, hpage ▸ hi⟩), g, hg, hi, hb⟩
  · rintro ⟨hlive, g, hg, hi, hb⟩
    exact ⟨fun hmem => hlive (mem_liveOf.mp hmem).1, g.1, mem_arenas.mpr ⟨g, hg, rfl, hi⟩, hb⟩

/-- A live block has no byte of a header. -/
theorem Core.disjoint_header (h : Core s live) (hb : b ∈ live) (hg : g ∈ s.groups) :
    Disjoint (s.extent b) (headerBytes g) := by
  obtain ⟨g', hg', -, hblock⟩ := h.blockOf_live hb
  obtain ⟨hlo, hhi⟩ := h.room hg' hblock
  have hnonempty := (h.groups g hg).nonempty
  refine Set.disjoint_left.mpr fun x hx hx' => ?_
  have hx₁ : b.toNat ≤ x ∧ x < b.toNat + s.roomOf b := hx
  have hx₂ : g.1.toNat ≤ x ∧ x < g.1.toNat + 12 := hx'
  by_cases heq : g'.1 = g.1
  · rw [heq] at hlo
    omega
  · rcases h.apart_of_ne hg' hg heq with hapart | hapart <;> omega

theorem Inv.sound (h : Inv (s, live)) : Sound s live where
  sizes b hb := by
    obtain ⟨g, hg, -, hblock⟩ := h.core.blockOf_live hb
    exact h.core.blockSize_yields hg hblock
  disjoint := by
    refine List.pairwise_iff_forall_sublist.mpr fun {b c} hsub => ?_
    obtain ⟨rest, hperm⟩ := hsub.exists_perm_append
    exact (h.core.perm hperm : Core s (b :: c :: rest)).disjoint_extent
  inGroups b hb := by
    obtain ⟨g, hg, -, hblock⟩ := h.core.blockOf_live hb
    exact ⟨g, hg, h.core.extent_subset hg hblock⟩
  offHeaders _ hb _ hg := h.core.disjoint_header hb hg
  freeLists i d hd := ⟨(h.core.normal i d hd).nodup_free, fun _ => h.core.mem_freeList hd⟩
  freeCnts g hg i d hi hd := h.core.countP_blocks hg hi hd
  mallocs alloc size halloc := by
    refine (h.malloc_yields halloc size).mono ?_
    rintro b s' (⟨-, rfl, -⟩ | ⟨room, hret, -⟩)
    · exact fun _ => id
    · rcases hret.groups with hgroups | ⟨g, hgroups⟩
      · exact hgroups ▸ fun _ => id
      · exact hgroups ▸ List.subset_cons_self g s.groups
  frees b hb := by
    have hperm := List.perm_cons_erase hb
    have hcore : Core s live := h.core
    have h' : Inv (s, b :: live.erase b) := ⟨hcore.perm hperm, fun g hg => by
      obtain ⟨c, hc, hp⟩ := h.used g hg
      exact ⟨c, hperm.mem_iff.mp hc, hp⟩⟩
    refine h'.free_yields.mono ?_
    rintro _ s' ⟨-, g, hg, hp, hgroups⟩
    have hiff : ∀ c ∈ live.erase b, s.extent c ⊆ groupBytes g ↔ pgRoundDown c = g.1 := fun c hc =>
      hcore.extent_subset_iff (List.mem_of_mem_erase hc) hg
    refine ⟨g, hg, (hcore.extent_subset_iff hb hg).mpr hp, ?_⟩
    split_ifs at hgroups with hsome
    · obtain ⟨c, hc, hpc⟩ := hsome
      exact .inl ⟨hgroups, c, hc, (hiff c hc).mpr hpc⟩
    · exact .inr ⟨hgroups, fun c hc hsub => hsome ⟨c, hc, (hiff c hc).mp hsub⟩⟩

/-- **The kernel heap**: in every sequence of calls, with any answers of the page allocator, the live blocks are
disjoint, lie in the heap's pages and off all headers; a free list has no duplicates and is what is not live of
its arenas; the header of an arena has the number of its free blocks; a group of pages is returned by the call
that frees its last live block; and all calls return. -/
theorem heap_sound (h : Reachable Initial Step (s, live)) : Sound s live :=
  (h.of_invariant inv_invariant).sound

/-- The heap before its first call, in a memory of zeros. -/
def firstHeap : State := ⟨sizeClasses, fun _ => ⟨0, none, 0⟩, []⟩

theorem initial_firstHeap : Initial (firstHeap, []) := ⟨rfl, ⟨[], fun _ => ⟨0, none, 0⟩, []⟩, rfl, rfl, rfl⟩

/-- A page allocator that has the pages from `0xc0101000`. -/
theorem allocOk_firstHeap {pages : ℕ} (hpages : pages ≤ 0x3000) :
    AllocOk firstHeap fun cnt => if 0 < cnt.toNat ∧ cnt.toNat ≤ pages then 0xc0101000#32 else 0 := by
  intro cnt hne
  dsimp only at hne ⊢
  split_ifs at hne ⊢ with hcnt
  · have haligned : pgOfs 0xc0101000#32 = 0 := by decide
    have hnull : 0xc0101000#32 ≠ 0 := by decide
    have hfits : 0xc0101000 + 4096 * cnt.toNat ≤ 2 ^ 32 := by omega
    exact ⟨⟨haligned, hnull, hcnt.1, hfits⟩, nofun⟩
  · exact absurd rfl hne

/-- A block of 100 bytes. -/
theorem heap_sound_one : ∃ s, Reachable Initial Step (s, [0xc010100c#32]) ∧ Sound s [0xc010100c#32] := by
  have hrun :
      (malloc (fun cnt => if 0 < cnt.toNat ∧ cnt.toNat ≤ 64 then 0xc0101000#32 else 0) 100 firstHeap).map Prod.fst =
        some 0xc010100c#32 := by decide +kernel
  obtain ⟨⟨b, s⟩, hmalloc, rfl⟩ := Option.map_eq_some_iff.mp hrun
  have h : Reachable Initial Step (s, [0xc010100c#32]) :=
    (Reachable.start initial_firstHeap : Reachable Initial Step (firstHeap, [])).step
      (.malloc (allocOk_firstHeap (by decide)) hmalloc)
  exact ⟨s, h, heap_sound h⟩

end Pintos.Threads.Malloc
