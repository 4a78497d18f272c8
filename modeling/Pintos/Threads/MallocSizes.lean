import Pintos.Threads.MallocRuns

/-! # What a block has room for

`malloc` adds the header to the size and rounds up to pages, and both sums wrap around; `calloc` compares the
wrapped product with its factors. From `2 ^ 32 - 11` bytes on, and for products that wrap past that test, the
block is too small. -/

namespace Pintos.Threads.Malloc

open Pintos.Lib.Ops Pintos.Lib.Runs Pintos.Userprog.PageEntries

variable {s s' : State} {live : List Word} {alloc : Word → Word} {size a b : Word} {room : ℕ}

theorem toNat_pageCnt (size : Word) : (pageCnt size).toNat = (size.toNat + 4107) % 2 ^ 32 / 4096 := by
  have hsum : size + arenaSize + pgSize - 1 = size + 4107#32 := by
    unfold arenaSize pgSize
    bv_omega
  unfold pageCnt divRoundUp
  rw [hsum, BitVec.toNat_udiv, BitVec.toNat_add]
  rfl

/-- **A block that is returned has room** for its request unless the request is among the last eleven sizes. -/
theorem RoomFor.le_iff (h : RoomFor s size room) :
    (size.toNat ≤ room ↔ size.toNat < 2 ^ 32 - 11) ∧ room < 2 ^ 32 := by
  unfold RoomFor at h
  have hpages := toNat_pageCnt size
  have hlt := size.isLt
  cases hfind : s.findDesc size with
  | some i =>
    simp only [hfind] at h
    omega
  | none =>
    simp only [hfind] at h
    obtain ⟨hpos, rfl⟩ := h
    omega

/-- An operation that returns ends where it returns. -/
theorem ensures_iff {α : Type} {m : Op State α} {x : α} {Q : α → State → Prop} (h : m s = some (x, s')) :
    Ensures m s Q ↔ Q x s' := by
  refine ⟨fun hm => hm x s' h, fun hQ y t hy => ?_⟩
  obtain ⟨rfl, rfl⟩ := Prod.mk.inj (Option.some.inj (h.symm.trans hy))
  exact hQ

/-- What `malloc` returns has room for a number of bytes if there is no memory, or if its block has. -/
theorem Inv.malloc_room (h : Inv (s, live)) (halloc : AllocOk s alloc) (size : Word) (bytes : ℕ) :
    ((size = 0 ∨ NoMemory s alloc size) ∧ Ensures (malloc alloc size) s fun p s' => p ≠ 0 → bytes ≤ s'.roomOf p) ∨
    ∃ room, RoomFor s size room ∧ size ≠ 0 ∧ ¬NoMemory s alloc size ∧
      (Ensures (malloc alloc size) s (fun p s' => p ≠ 0 → bytes ≤ s'.roomOf p) ↔ bytes ≤ room) := by
  obtain ⟨p, s', hrun, ⟨rfl, rfl, hno⟩ | ⟨room, hret, hroom, hzero, hmem⟩⟩ := h.malloc_yields halloc size
  · exact .inl ⟨hno, (ensures_iff hrun).mpr fun hne => absurd rfl hne⟩
  · refine .inr ⟨room, hroom, hzero, hmem, (ensures_iff hrun).trans ?_⟩
    rw [hret.room]
    exact forall_prop_of_true hret.nonnull

/-- **When `malloc` returns enough**: for fewer than `2 ^ 32 - 11` bytes, or if there is no memory. -/
theorem Inv.malloc_room_iff (h : Inv (s, live)) (halloc : AllocOk s alloc) :
    Ensures (malloc alloc size) s (fun p s' => p ≠ 0 → size.toNat ≤ s'.roomOf p) ↔
      size.toNat < 2 ^ 32 - 11 ∨ NoMemory s alloc size := by
  rcases h.malloc_room halloc size size.toNat with ⟨hzero | hno, hensures⟩ | ⟨room, hroom, -, hno, hiff⟩
  · refine iff_of_true hensures (.inl ?_)
    rw [hzero]
    decide
  · exact iff_of_true hensures (.inr hno)
  · rw [hiff, hroom.le_iff.1, or_iff_left hno]

/-- **When `calloc` returns enough**: for fewer than `2 ^ 32 - 11` bytes, or if it sees the overflow, or if
there is no memory for the wrapped product. -/
theorem Inv.calloc_room_iff (h : Inv (s, live)) (halloc : AllocOk s alloc) :
    Ensures (calloc alloc a b) s (fun p s' => p ≠ 0 → a.toNat * b.toNat ≤ s'.roomOf p) ↔
      a.toNat * b.toNat < 2 ^ 32 - 11 ∨ (a * b < a ∨ a * b < b) ∨ NoMemory s alloc (a * b) := by
  have hmul : (a * b).toNat = a.toNat * b.toNat % 2 ^ 32 := BitVec.toNat_mul ..
  unfold calloc
  dsimp only
  split_ifs with hseen
  · exact iff_of_true (Ensures.pure fun hne => absurd rfl hne) (.inr (.inl hseen))
  · rw [or_iff_right hseen]
    rcases h.malloc_room halloc (a * b) (a.toNat * b.toNat) with ⟨hzero | hno, hensures⟩ | ⟨room, hroom, -, hno, hiff⟩
    · refine iff_of_true hensures (.inl ?_)
      -- Neither factor is above a product of zero.
      rw [hzero, not_or, BitVec.not_lt, BitVec.not_lt, BitVec.le_def, BitVec.le_def] at hseen
      have ha : a.toNat = 0 := Nat.le_zero.mp hseen.1
      rw [ha, Nat.zero_mul]
      decide
    · exact iff_of_true hensures (.inr hno)
    · obtain ⟨hle, hlt⟩ := hroom.le_iff
      rw [hiff, or_iff_left hno]
      omega

/-- **Sizes of allocations**: `malloc` and `calloc` return a null pointer or enough room for exactly these
requests. -/
theorem heap_room_iff (h : Reachable Initial Step (s, live)) (halloc : AllocOk s alloc) (size a b : Word) :
    (Ensures (malloc alloc size) s (fun p s' => p ≠ 0 → size.toNat ≤ s'.roomOf p) ↔
      size.toNat < 2 ^ 32 - 11 ∨ NoMemory s alloc size) ∧
    (Ensures (calloc alloc a b) s (fun p s' => p ≠ 0 → a.toNat * b.toNat ≤ s'.roomOf p) ↔
      a.toNat * b.toNat < 2 ^ 32 - 11 ∨ (a * b < a ∨ a * b < b) ∨ NoMemory s alloc (a * b)) := by
  have hinv : Inv (s, live) := h.of_invariant inv_invariant
  exact ⟨hinv.malloc_room_iff halloc, hinv.calloc_room_iff halloc⟩

/-- A page allocator with 64 pages. -/
def sixtyFourPages (cnt : Word) : Word := if 0 < cnt.toNat ∧ cnt.toNat ≤ 64 then 0xc0101000#32 else 0

/-- Requests that are served in full. -/
theorem heap_room_iff_first :
    (Ensures (malloc sixtyFourPages 5000) firstHeap fun p s' => p ≠ 0 → 5000 ≤ s'.roomOf p) ∧
      Ensures (calloc sixtyFourPages 100 50) firstHeap fun p s' => p ≠ 0 → 100 * 50 ≤ s'.roomOf p := by
  have h := heap_room_iff (.start initial_firstHeap)
    (allocOk_firstHeap (by decide) : AllocOk firstHeap sixtyFourPages) 5000 100 50
  exact ⟨h.1.mpr (.inl (by decide)), h.2.mpr (.inl (by decide))⟩

/-- A result with too little room. -/
theorem not_ensures_room {m : Op State Word} {p : Word} {room bytes : ℕ}
    (hrun : (m firstHeap).map (fun r => (r.1, r.2.roomOf r.1)) = some (p, room)) (hp : p ≠ 0) (hlt : room < bytes) :
    ¬Ensures m firstHeap fun p s' => p ≠ 0 → bytes ≤ s'.roomOf p := by
  intro hensures
  obtain ⟨⟨q, s'⟩, hm, hq⟩ := Option.map_eq_some_iff.mp hrun
  obtain ⟨rfl, rfl⟩ := Prod.mk.inj hq
  exact absurd (hensures _ _ hm hp) (Nat.not_le.mpr hlt)

/-- The last sizes get one page, and `0x10001 * 0x10001` bytes get the pages of `0x20001`. -/
theorem not_room_for : Reachable Initial Step (firstHeap, []) ∧ AllocOk firstHeap sixtyFourPages ∧
    (¬Ensures (malloc sixtyFourPages 0xfffffff5#32) firstHeap fun p s' => p ≠ 0 →
      (0xfffffff5#32).toNat ≤ s'.roomOf p) ∧
    ¬Ensures (calloc sixtyFourPages 0x10001#32 0x10001#32) firstHeap fun p s' =>
      p ≠ 0 → (0x10001#32).toNat * (0x10001#32).toNat ≤ s'.roomOf p := by
  refine ⟨.start initial_firstHeap, allocOk_firstHeap (by decide), ?_, ?_⟩
  · have hrun : (malloc sixtyFourPages 0xfffffff5#32 firstHeap).map (fun r => (r.1, r.2.roomOf r.1)) =
        some (0xc010100c#32, 4084) := by decide +kernel
    exact not_ensures_room hrun (by decide) (by decide)
  · have hrun : (calloc sixtyFourPages 0x10001#32 0x10001#32 firstHeap).map (fun r => (r.1, r.2.roomOf r.1)) =
        some (0xc010100c#32, 135156) := by decide +kernel
    exact not_ensures_room hrun (by decide) (by decide)

end Pintos.Threads.Malloc
