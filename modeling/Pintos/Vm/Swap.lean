import Pintos.Vm.State

/-! # The swap device

`vm/swap.c`. A page takes `PGSIZE / BLOCK_SECTOR_SIZE` sectors in a row; `swap_in` reads back what
`swap_out` wrote (`slotPage_blockWrites`), and a page swapped out elsewhere leaves it alone
(`slotPage_blockWrites_of_disjoint`). `block_write` and `block_read` check that the sector is on the
device; the free map has one bit a sector, so its own assertions cover these. -/

namespace Pintos.Vm.Swap

open Pintos.Lib.Ops Pintos.Kernel.Bitmap Pintos.Vm.State

/-- The bytes at `&paddr[i * BLOCK_SECTOR_SIZE]`. -/
def sectorOf (p : Page) (i : ℕ) : SectorData := fun j =>
  if h : i * blockSectorSize + j < pgSize then p ⟨_, h⟩ else 0

/-- The `block_write` loop of `swap_out`. -/
def blockWrites (b : ℕ → SectorData) (swapIdx : ℕ) (p : Page) : ℕ → ℕ → SectorData
  | 0 => b
  | i + 1 => Function.update (blockWrites b swapIdx p i) (swapIdx + i) (sectorOf p i)

/-- Byte `j` of a sector. -/
def byteOf (d : SectorData) (j : ℕ) : UInt8 := d ⟨j % blockSectorSize, Nat.mod_lt _ (by decide)⟩

/-- The `block_read` loop of `swap_in`. -/
def blockReads (b : ℕ → SectorData) (swapIdx : ℕ) (p : Page) : ℕ → Page
  | 0 => p
  | i + 1 => fun j =>
    if j / blockSectorSize = i then byteOf (b (swapIdx + i)) j else blockReads b swapIdx p i j

/-- The page in the swap sectors from `swapIdx` on. -/
def slotPage (b : ℕ → SectorData) (swapIdx : ℕ) : Page := fun j =>
  byteOf (b (swapIdx + j / blockSectorSize)) j

/-! ### swap.c -/

/-- `swap_in`. -/
def swapIn (swapIdx : ℕ) (paddr : Frame) : Op VM Unit := do
  let s ← get
  let freeMap ← deref (bitmapSetMultiple s.swapMap swapIdx pageSectors false)
  let p := blockReads s.swapBlock swapIdx (s.mem paddr) pageSectors
  set { s with swapMap := freeMap, mem := Function.update s.mem paddr p }

/-- `swap_out`. It panics when no eight free sectors are in a row. -/
def swapOut (paddr : Frame) : Op VM ℕ := do
  let s ← get
  let free ← deref (bitmapCount s.swapMap 0 s.swapMap.length false)
  assert (pageSectors ≤ free)
  let (swapIdx, freeMap) ← deref (bitmapScanAndFlip s.swapMap 0 pageSectors false)
  let b := blockWrites s.swapBlock swapIdx (s.mem paddr) pageSectors
  set { s with swapMap := freeMap, swapBlock := b }
  return swapIdx

/-- `swap_free`. -/
def swapFree (swapIdx : ℕ) : Op VM Unit := do
  let s ← get
  let freeMap ← deref (bitmapSetMultiple s.swapMap swapIdx pageSectors false)
  set { s with swapMap := freeMap }

/-! ### What the sectors hold -/

variable {b : ℕ → SectorData} {p q : Page} {i n m k : ℕ}

theorem blockWrites_apply (n : ℕ) :
    blockWrites b i p n m = if i ≤ m ∧ m < i + n then sectorOf p (m - i) else b m := by
  induction n with
  | zero => rw [if_neg (by omega), blockWrites]
  | succ n ih =>
    rw [blockWrites]
    by_cases hm : m = i + n
    · subst hm
      rw [Function.update_self, if_pos (by omega), Nat.add_sub_cancel_left]
    · rw [Function.update_of_ne hm, ih]
      exact if_congr (by omega) rfl rfl

theorem blockReads_apply (j : Fin pgSize) (n : ℕ) :
    blockReads b i p n j = if j / blockSectorSize < n then slotPage b i j else p j := by
  induction n with
  | zero => rfl
  | succ n ih =>
    have hstep : blockReads b i p (n + 1) j =
        if j / blockSectorSize = n then byteOf (b (i + n)) j else blockReads b i p n j := rfl
    rw [hstep]
    by_cases hj : j / blockSectorSize = n
    · rw [if_pos hj, if_pos (by omega), slotPage, hj]
    · rw [if_neg hj, ih]
      exact if_congr (by omega) rfl rfl

theorem sector_lt_pageSectors (j : Fin pgSize) : (j : ℕ) / blockSectorSize < pageSectors := by
  have hj := j.isLt
  simp only [pgSize, blockSectorSize, pageSectors] at hj ⊢
  omega

/-- `swap_in` reads a whole page. -/
theorem blockReads_pageSectors : blockReads b i p pageSectors = slotPage b i := by
  funext j
  rw [blockReads_apply, if_pos (sector_lt_pageSectors j)]

/-- **What was swapped out is what is swapped in.** -/
theorem slotPage_blockWrites : slotPage (blockWrites b i p pageSectors) i = p := by
  funext j
  have hj := j.isLt
  have hs := sector_lt_pageSectors j
  have hbyte : (j : ℕ) / blockSectorSize * blockSectorSize + (j : ℕ) % blockSectorSize = j :=
    Nat.div_add_mod' (j : ℕ) blockSectorSize
  rw [slotPage, blockWrites_apply, if_pos ⟨Nat.le_add_right .., Nat.add_lt_add_left hs i⟩,
    Nat.add_sub_cancel_left, byteOf, sectorOf]
  simp only [hbyte, hj, dite_true]

/-- A page swapped out to other sectors leaves a slot alone. -/
theorem slotPage_blockWrites_of_disjoint
    (h : ∀ m ∈ List.range' k pageSectors, m ∉ List.range' i pageSectors) :
    slotPage (blockWrites b i p pageSectors) k = slotPage b k := by
  funext j
  have hs := sector_lt_pageSectors j
  have hm : k + (j : ℕ) / blockSectorSize ∉ List.range' i pageSectors :=
    h _ (List.mem_range'_1.mpr ⟨Nat.le_add_right .., Nat.add_lt_add_left hs k⟩)
  rw [slotPage, blockWrites_apply, if_neg (fun h => hm (List.mem_range'_1.mpr h)), slotPage]

/-! ### What the functions do -/

variable {s : VM} {Q : Unit → VM → Prop}

theorem swapIn_ensures {f : Frame}
    (h : i + pageSectors ≤ s.swapMap.length →
      Q () { s with swapMap := setBits s.swapMap i false pageSectors,
                    mem := Function.update s.mem f (slotPage s.swapBlock i) }) :
    Ensures (swapIn i f) s Q := by
  refine .bind (.get (.bind (.deref fun map hmap => .set ?_)))
  obtain ⟨hlen, rfl⟩ := bitmapSetMultiple_eq_some hmap
  rw [blockReads_pageSectors]
  exact h hlen

theorem swapFree_ensures
    (h : i + pageSectors ≤ s.swapMap.length →
      Q () { s with swapMap := setBits s.swapMap i false pageSectors }) :
    Ensures (swapFree i) s Q := by
  refine .bind (.get (.bind (.deref fun map hmap => .set ?_)))
  obtain ⟨hlen, rfl⟩ := bitmapSetMultiple_eq_some hmap
  exact h hlen

theorem swapOut_ensures {f : Frame} {Q : ℕ → VM → Prop}
    (h : ∀ i, i + pageSectors ≤ s.swapMap.length → Group s.swapMap i pageSectors false →
      Q i { s with swapMap := setBits s.swapMap i true pageSectors,
                   swapBlock := blockWrites s.swapBlock i (s.mem f) pageSectors }) :
    Ensures (swapOut f) s Q := by
  refine .bind (.get (.bind (.deref fun free _ => .bind (.assert fun _ =>
    .bind (.deref ?_)))))
  rintro ⟨i, map⟩ hscan
  obtain ⟨-, hlen, hfree, rfl⟩ := bitmapScanAndFlip_eq_some hscan
  exact .bind (.set (.pure (h i hlen hfree)))

end Pintos.Vm.Swap
