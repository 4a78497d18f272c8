import Pintos.Kernel.BitmapWords
import Pintos.Filesys.DirState
import Pintos.Filesys.InodeLayout
import Pintos.Lib.Ownership
import Pintos.Lib.Runs

/-! # The free map and its file

Runs of `free_map_allocate` and `free_map_release` on a formatted device, with the words of the free map and the
bytes of its file. A write to the file lays bytes over those of the file; how the file lies on the device is not
part of this module. -/

namespace Pintos.Filesys.FreeMapFile

open Pintos.Kernel.Bitmap Pintos.Kernel.BitmapWords Pintos.Lib.Overlay Pintos.Lib.Ownership Pintos.Lib.Runs
open Pintos.Filesys.DirState (rootDirSector freeMapSector)
open Pintos.Filesys.InodeLayout Pintos.Filesys.Sector
open Pintos.Filesys.Bcache (blockSectorSize)

/-! ### free-map.c -/

structure FreeMap where
  freeMap : Bitmap
  /-- The bytes of `free_map_file`, unless that is a null pointer. -/
  file : Option (ℕ → UInt8)

/-- `free_map_allocate`, where the file takes `written` bytes. -/
def freeMapAllocate (s : FreeMap) (cnt written : ℕ) : Option ℕ × FreeMap :=
  match bitmapScan s.freeMap.toBits 0 cnt false with
  | none => (none, s)
  | some sector =>
    let freeMap := s.freeMap.setWords sector true cnt
    match s.file with
    | none => (some sector, { s with freeMap := freeMap })
    | some file =>
      match bitmapWrite freeMap file written with
      | (file, true) => (some sector, ⟨freeMap, some file⟩)
      | (file, false) => (none, ⟨freeMap.setWords sector false cnt, some file⟩)

/-- `free_map_release`; a null pointer is followed if there is no file. -/
def freeMapRelease (s : FreeMap) (sector cnt written : ℕ) : Option FreeMap := do
  let all ← bitmapAll s.freeMap.toBits sector cnt
  if all then
    let file ← s.file
    let freeMap := s.freeMap.setWords sector false cnt
    return ⟨freeMap, some (bitmapWrite freeMap file written).1⟩
  else none

/-- `free_map_init` for a device of `size` sectors. -/
def freeMapInit (size : ℕ) (junk : ℕ → Elem) : Option FreeMap := do
  let freeMap ← bitmapMark (bitmapCreate size junk) freeMapSector
  let freeMap ← bitmapMark freeMap rootDirSector
  return ⟨freeMap, none⟩

/-- `free_map_open`. -/
def freeMapOpen (s : FreeMap) : Option FreeMap := do
  let file ← s.file
  return ⟨bitmapRead s.freeMap file, some file⟩

/-! ### Formatting -/

/-- The file takes every byte of the free map. -/
def FreeMap.Writable (s : FreeMap) (written : ℕ) : Prop := byteCnt s.freeMap.bitCnt ≤ written

/-- The requests of `inode_create` for a file of `length` bytes, as long as they are granted. -/
def inodeRequests (length : ℕ) : Option (List ℕ) :=
  if length ≤ blockSectorSize * inodeSmallSectors then some [bytesToSectors length]
  else if length ≤ blockSectorSize * inodeLargeSectors then
    some (List.replicate (1 + bytesToSectors length) 1)
  else if length ≤ blockSectorSize * inodeHugeSectors then
    some (List.replicate (1 + divRoundUp (bytesToSectors length) sectorsPerArray + bytesToSectors length) 1)
  else none

/-- `inode_create` as far as the free map goes: the sectors it takes. Formatting panics if it fails. -/
def allocateAll (s : FreeMap) : List ℕ → Option (FreeMap × List (ℕ × ℕ))
  | [] => some (s, [])
  | cnt :: cnts =>
    match freeMapAllocate s cnt (byteCnt s.freeMap.bitCnt) with
    | (none, _) => none
    | (some sector, s) => (allocateAll s cnts).map fun r => (r.1, (sector, cnt) :: r.2)

/-- The length of a root directory of 16 entries. -/
def rootLength : ℕ := 16 * 20

/-- The start of the file system: `free_map_init`, `do_format` and `free_map_open`, with the sectors that were
taken. -/
def format (size : ℕ) (junk : ℕ → Elem) : Option (FreeMap × List (ℕ × ℕ)) := do
  let s ← freeMapInit size junk
  let (s, mapRanges) ← allocateAll s (← inodeRequests (byteCnt size))
  let s := ⟨s.freeMap, some (bitmapWrite s.freeMap (fun _ => 0) (byteCnt size)).1⟩
  let (s, rootRanges) ← allocateAll s (← inodeRequests rootLength)
  let s ← freeMapOpen s
  return (s, (freeMapSector, 1) :: (rootDirSector, 1) :: (mapRanges ++ rootRanges))

/-! ### The system -/

structure Disk where
  map : FreeMap
  /-- What was taken when the device was formatted. -/
  system : List (ℕ × ℕ)
  /-- What was handed out and not given back: first sectors and counts. -/
  out : List (ℕ × ℕ)

inductive MapAction
  | allocate (cnt : ℕ)
  | release (range : ℕ × ℕ)

/-- A call that returns, with the file taking every byte. -/
inductive MapStep (s : Disk) : MapAction → Disk → Prop
  | allocated {cnt written sector : ℕ} {m : FreeMap} (hw : s.map.Writable written)
      (h : freeMapAllocate s.map cnt written = (some sector, m)) :
      MapStep s (.allocate cnt) ⟨m, s.system, (sector, cnt) :: s.out⟩
  | refused {cnt written : ℕ} {m : FreeMap} (hw : s.map.Writable written)
      (h : freeMapAllocate s.map cnt written = (none, m)) :
      MapStep s (.allocate cnt) ⟨m, s.system, s.out⟩
  | released {x : ℕ × ℕ} {written : ℕ} {m : FreeMap} (hw : s.map.Writable written) (hx : x ∈ s.out)
      (h : freeMapRelease s.map x.1 x.2 written = some m) :
      MapStep s (.release x) ⟨m, s.system, s.out.erase x⟩

/-- A device of any size, just formatted. -/
def DiskInit (s : Disk) : Prop :=
  s.out = [] ∧ ∃ size junk, format size junk = some (s.map, s.system)

/-! ### The invariant -/

/-- The sectors of a range. -/
def sectors (x : ℕ × ℕ) : List ℕ := List.range' x.1 x.2

def FreeMap.Used (s : FreeMap) (k : ℕ) : Prop := s.freeMap.toBits[k]? = some true

/-- The file starts with the words of the free map. -/
def FreeMap.Saved (s : FreeMap) : Prop :=
  ∃ file, s.file = some file ∧ slice file 0 (byteCnt s.freeMap.bitCnt) = s.freeMap.bytes

/-- The file starts with the words of the free map, up to the bits behind the last sector. -/
def FreeMap.SavedBits (s : FreeMap) : Prop :=
  ∃ file, s.file = some file ∧
    clearTail s.freeMap.bitCnt (fileElems file (elemCnt s.freeMap.bitCnt)) =
      clearTail s.freeMap.bitCnt s.freeMap.bits

/-- **The ranges are what the map has set**, and lie inside the device. -/
structure Tiled (s : FreeMap) (ranges : List (ℕ × ℕ)) : Prop where
  exact : Exact sectors s.Used ranges
  inside : ∀ x ∈ ranges, x.1 + x.2 ≤ s.freeMap.bitCnt

variable {s : FreeMap} {m : FreeMap} {cnt written sector k : ℕ} {ranges : List (ℕ × ℕ)} {x : ℕ × ℕ}

theorem mem_sectors : k ∈ sectors x ↔ x.1 ≤ k ∧ k < x.1 + x.2 := List.mem_range'_1

/-- What `free_map_allocate` does when it returns a sector: the first group that fits. -/
theorem freeMapAllocate_eq_some (hw : s.Writable written)
    (h : freeMapAllocate s cnt written = (some sector, m)) :
    bitmapScan s.freeMap.toBits 0 cnt false = some sector ∧
      m.freeMap = s.freeMap.setWords sector true cnt ∧ (s.file.isSome → m.Saved) := by
  unfold freeMapAllocate at h
  rcases hscan : bitmapScan s.freeMap.toBits 0 cnt false with _ | i
  · rw [hscan] at h
    cases h
  rw [hscan] at h
  rcases hfile : s.file with _ | file
  · rw [hfile] at h
    cases h
    exact ⟨rfl, rfl, fun hsome => by cases hsome⟩
  rw [hfile] at h
  have hw' : byteCnt (s.freeMap.setWords i true cnt).bitCnt ≤ written := by
    rw [bitCnt_setWords]
    exact hw
  simp only [bitmapWrite_eq hw'] at h
  cases h
  exact ⟨rfl, rfl, fun _ => ⟨_, rfl, slice_overlay_bytes _ _⟩⟩

/-- **A refusal changes nothing**, and there is no group that fits. -/
theorem freeMapAllocate_eq_none (hw : s.Writable written)
    (h : freeMapAllocate s cnt written = (none, m)) :
    m = s ∧ bitmapScan s.freeMap.toBits 0 cnt false = none := by
  unfold freeMapAllocate at h
  rcases hscan : bitmapScan s.freeMap.toBits 0 cnt false with _ | i
  · rw [hscan] at h
    cases h
    exact ⟨rfl, rfl⟩
  rw [hscan] at h
  rcases hfile : s.file with _ | file
  · rw [hfile] at h
    cases h
  rw [hfile] at h
  have hw' : byteCnt (s.freeMap.setWords i true cnt).bitCnt ≤ written := by
    rw [bitCnt_setWords]
    exact hw
  simp only [bitmapWrite_eq hw'] at h
  cases h

/-- What `free_map_release` does when it returns. -/
theorem freeMapRelease_eq_some (hw : s.Writable written) (h : freeMapRelease s sector cnt written = some m) :
    m.freeMap = s.freeMap.setWords sector false cnt ∧ m.Saved := by
  simp only [freeMapRelease, Option.bind_eq_bind, Option.bind_eq_some_iff] at h
  obtain ⟨all, -, h⟩ := h
  split_ifs at h
  obtain ⟨file, -, h⟩ := Option.bind_eq_some_iff.mp h
  have hw' : byteCnt (s.freeMap.setWords sector false cnt).bitCnt ≤ written := by
    rw [bitCnt_setWords]
    exact hw
  rw [bitmapWrite_eq hw'] at h
  cases h
  exact ⟨rfl, _, rfl, slice_overlay_bytes _ _⟩

/-- **The assertion of `free_map_release` holds** for a range whose bits are set. -/
theorem freeMapRelease_isSome (hfile : s.file.isSome) (hin : sector + cnt ≤ s.freeMap.bitCnt)
    (hall : ∀ k ∈ sectors (sector, cnt), s.Used k) : ∃ m, freeMapRelease s sector cnt written = some m := by
  obtain ⟨file, hfile⟩ := Option.isSome_iff_exists.mp hfile
  have hno : bitmapContains s.freeMap.toBits sector cnt false = false := by
    refine bitmapContains_eq_false.mpr fun i hi => ?_
    exact bitmapTest_eq_true.mpr (hall _ (mem_sectors.mpr ⟨Nat.le_add_right _ _, by simpa using hi⟩))
  have hb : bitmapAll s.freeMap.toBits sector cnt = some true := by
    rw [bitmapAll, if_pos (by rw [length_toBits]; exact hin), hno]
    rfl
  exact ⟨_, by simp only [freeMapRelease, hb, hfile]; rfl⟩

theorem FreeMap.Saved.bits (h : s.Saved) : s.SavedBits := by
  obtain ⟨file, hf, hs⟩ := h
  exact ⟨file, hf, congrArg _ (fileElems_of_slice hs)⟩

/-! ### Tilings -/

/-- A free group is taken. -/
theorem Tiled.cons (h : Tiled s ranges) (hlen : sector + cnt ≤ s.freeMap.bitCnt)
    (hg : Group s.freeMap.toBits sector cnt false) (hm : m.freeMap = s.freeMap.setWords sector true cnt) :
    Tiled m ((sector, cnt) :: ranges) := by
  have hcnt : m.freeMap.bitCnt = s.freeMap.bitCnt := by rw [hm, bitCnt_setWords]
  have hfree : ∀ k ∈ sectors (sector, cnt), ¬s.Used k := by
    intro k hk hu
    obtain ⟨h1, h2⟩ := mem_sectors.mp hk
    rw [FreeMap.Used, hg k h1 h2] at hu
    cases hu
  refine ⟨h.exact.cons List.nodup_range' hfree fun k => ?_, fun x hx => ?_⟩
  · rw [FreeMap.Used, hm, toBits_setWords hlen, getElem?_setBits (by rw [length_toBits]; exact hlen),
      mem_sectors]
    split_ifs with hk
    · exact ⟨fun _ => .inr hk, fun _ => rfl⟩
    · exact ⟨.inl, fun hu => hu.resolve_right hk⟩
  · rw [hcnt]
    rcases List.mem_cons.mp hx with rfl | hx
    · exact hlen
    · exact h.inside x hx

/-- An allocation. -/
theorem Tiled.scanned (h : Tiled s ranges) (hscan : bitmapScan s.freeMap.toBits 0 cnt false = some sector)
    (hm : m.freeMap = s.freeMap.setWords sector true cnt) : Tiled m ((sector, cnt) :: ranges) := by
  obtain ⟨-, hlen, hg⟩ := bitmapScan_eq_some hscan
  rw [length_toBits] at hlen
  exact h.cons hlen hg hm

/-- A release. -/
theorem Tiled.tail (h : Tiled s (x :: ranges)) (hm : m.freeMap = s.freeMap.setWords x.1 false x.2) :
    Tiled m ranges := by
  have hlen : x.1 + x.2 ≤ s.freeMap.bitCnt := h.inside x List.mem_cons_self
  have hcnt : m.freeMap.bitCnt = s.freeMap.bitCnt := by rw [hm, bitCnt_setWords]
  refine ⟨h.exact.tail fun k => ?_, fun y hy => ?_⟩
  · rw [FreeMap.Used, hm, toBits_setWords hlen, getElem?_setBits (by rw [length_toBits]; exact hlen),
      mem_sectors]
    split_ifs with hk
    · simp [hk]
    · exact ⟨fun hu => ⟨hu, hk⟩, fun hu => hu.1⟩
  · rw [hcnt]
    exact h.inside y (List.mem_cons_of_mem x hy)

theorem Tiled.perm {ranges' : List (ℕ × ℕ)} (h : Tiled s ranges) (hp : ranges.Perm ranges') :
    Tiled s ranges' :=
  ⟨h.exact.perm hp, fun x hx => h.inside x (hp.mem_iff.mpr hx)⟩

/-- Only the bits inside the device count. -/
theorem Tiled.congr (h : Tiled s ranges) (hbits : m.freeMap.toBits = s.freeMap.toBits) : Tiled m ranges := by
  have hcnt : m.freeMap.bitCnt = s.freeMap.bitCnt := by
    rw [← length_toBits, ← length_toBits, hbits]
  refine ⟨h.exact.congr fun k => ?_, fun x hx => ?_⟩
  · rw [FreeMap.Used, FreeMap.Used, hbits]
  · rw [hcnt]
    exact h.inside x hx

/-! ### The formatted device -/

theorem tiled_allocateAll : ∀ (cnts : List ℕ) {s t : FreeMap} {ranges rs : List (ℕ × ℕ)}, Tiled s ranges →
    allocateAll s cnts = some (t, rs) →
    Tiled t (rs ++ ranges) ∧ t.freeMap.bitCnt = s.freeMap.bitCnt ∧ (s.Saved → t.Saved)
  | [], s, t, ranges, rs, h, he => by
    cases he
    exact ⟨h, rfl, id⟩
  | cnt :: cnts, s, t, ranges, rs, h, he => by
    rw [allocateAll] at he
    split at he
    · cases he
    · rename_i sector m hm
      obtain ⟨⟨t', rs'⟩, hrest, he⟩ := Option.map_eq_some_iff.mp he
      cases he
      obtain ⟨hscan, hmap, hsaved⟩ := freeMapAllocate_eq_some le_rfl hm
      obtain ⟨h1, h2, h3⟩ := tiled_allocateAll cnts (h.scanned hscan hmap) hrest
      refine ⟨h1.perm List.perm_middle, ?_, fun hs => h3 (hsaved ?_)⟩
      · rw [h2, hmap, bitCnt_setWords]
      · obtain ⟨file, hf, -⟩ := hs
        rw [hf]
        rfl

/-- What `free_map_init` leaves. -/
theorem freeMapInit_eq_some {size : ℕ} {junk : ℕ → Elem} (h : freeMapInit size junk = some s) :
    0 < size ∧ s = ⟨((bitmapCreate size junk).set freeMapSector true).set rootDirSector true, none⟩ := by
  simp only [freeMapInit, Option.bind_eq_bind, Option.bind_eq_some_iff] at h
  obtain ⟨b, h0, c, h1, h2⟩ := h
  obtain ⟨hlt, rfl⟩ := bitmapMark_eq_some h0
  obtain ⟨-, rfl⟩ := bitmapMark_eq_some h1
  refine ⟨?_, (Option.some.inj h2).symm⟩
  rw [(bitmapCreate size junk).size, bitmapCreate, bitCnt_setWords] at hlt
  show 0 < size
  unfold elemIdx elemCnt elemBits at hlt
  dsimp only at hlt
  omega

/-- What `free_map_init` has set, on a device of two sectors at least. -/
theorem tiled_freeMapInit {size : ℕ} {junk : ℕ → Elem} (hsize : 1 < size)
    (h : freeMapInit size junk = some s) :
    Tiled s [(rootDirSector, 1), (freeMapSector, 1)] ∧ s.freeMap.bitCnt = size := by
  obtain ⟨-, rfl⟩ := freeMapInit_eq_some h
  have hcnt : (bitmapCreate size junk).bitCnt = size := bitCnt_setWords
  have hbits : (bitmapCreate size junk).toBits = List.replicate size false := toBits_bitmapCreate size junk
  have hzero : Tiled ⟨bitmapCreate size junk, none⟩ [] := by
    refine ⟨⟨.nil, fun k hk => ?_⟩, fun x hx => by cases hx⟩
    rw [FreeMap.Used, hbits] at hk
    cases List.eq_of_mem_replicate (List.mem_of_getElem? hk)
  have hclear : ∀ k < size, (bitmapCreate size junk).test k = false := by
    intro k hk
    have hget := getElem?_toBits (b := bitmapCreate size junk) (hcnt.symm ▸ hk)
    rw [hbits, List.getElem?_replicate, if_pos hk] at hget
    exact (Option.some.inj hget).symm
  have h0 : Tiled ⟨(bitmapCreate size junk).set freeMapSector true, none⟩ [(freeMapSector, 1)] := by
    refine hzero.cons (by show 0 + 1 ≤ (bitmapCreate size junk).bitCnt; omega) (fun i h1 h2 => ?_) rfl
    have hi : i < size := by
      have : i < 0 + 1 := h2
      omega
    show (bitmapCreate size junk).toBits[i]? = _
    rw [getElem?_toBits (by omega), hclear i hi]
  refine ⟨h0.cons (by show 1 + 1 ≤ (bitmapCreate size junk).bitCnt; omega) (fun i h1 h2 => ?_) rfl, hcnt⟩
  have hi : i = 1 := by
    have h3 : 1 ≤ i := h1
    have h4 : i < 1 + 1 := h2
    omega
  subst hi
  have hin : (1 : ℕ) < ((bitmapCreate size junk).set freeMapSector true).bitCnt := by
    show 1 < (bitmapCreate size junk).bitCnt
    omega
  have hlt : elemIdx freeMapSector < (bitmapCreate size junk).bits.length :=
    elemIdx_lt (by show 0 < (bitmapCreate size junk).bitCnt; omega)
  show ((bitmapCreate size junk).set freeMapSector true).toBits[1]? = _
  rw [getElem?_toBits hin, test_set hlt, if_neg (by decide), hclear 1 hsize]

/-- A device of one sector cannot be formatted. -/
theorem one_lt_of_format {size : ℕ} {junk : ℕ → Elem} {r : FreeMap × List (ℕ × ℕ)}
    (h : format size junk = some r) : 1 < size := by
  simp only [format, Option.bind_eq_bind, Option.bind_eq_some_iff] at h
  obtain ⟨s₀, h0, mapCnts, hreq, ⟨s₁, mapRanges⟩, h1, -⟩ := h
  obtain ⟨hpos, rfl⟩ := freeMapInit_eq_some h0
  by_contra hle
  obtain rfl : size = 1 := by omega
  -- its only bit is set, and the file of the free map takes a sector
  obtain rfl : mapCnts = [1] := (Option.some.inj hreq).symm
  have hfull : (((bitmapCreate 1 junk).set freeMapSector true).set rootDirSector true).toBits = [true] := by
    have hcnt : (bitmapCreate 1 junk).bitCnt = 1 := bitCnt_setWords
    have hlt : elemIdx freeMapSector < (bitmapCreate 1 junk).bits.length :=
      elemIdx_lt (by rw [hcnt]; exact Nat.one_pos)
    have hlt' : elemIdx rootDirSector < ((bitmapCreate 1 junk).set freeMapSector true).bits.length := by
      rw [((bitmapCreate 1 junk).set freeMapSector true).size]
      show 1 / 32 < elemCnt (bitmapCreate 1 junk).bitCnt
      rw [hcnt]
      decide
    have hone : (((bitmapCreate 1 junk).set freeMapSector true).set rootDirSector true).test 0 = true := by
      rw [test_set hlt', if_neg (by decide), test_set hlt, if_pos (by decide)]
    rw [Bitmap.toBits]
    show (List.range (bitmapCreate 1 junk).bitCnt).map _ = _
    rw [hcnt]
    exact congrArg (fun x => [x]) hone
  have hscan : bitmapScan [true] 0 1 false = none := by decide
  simp only [allocateAll, freeMapAllocate, hfull, hscan] at h1
  cases h1

/-- `free_map_open` keeps the bits of the sectors. -/
theorem freeMapOpen_spec (h : s.SavedBits) (ho : freeMapOpen s = some m) :
    m.freeMap.toBits = s.freeMap.toBits ∧ m.SavedBits := by
  obtain ⟨file, hf, hbits⟩ := h
  simp only [freeMapOpen, Option.bind_eq_bind, Option.bind_eq_some_iff] at ho
  obtain ⟨file', hf', ho⟩ := ho
  obtain rfl : file = file' := Option.some.inj (hf.symm.trans hf')
  obtain rfl := Option.some.inj ho
  refine ⟨toBits_bitmapRead rfl hbits, file, rfl, ?_⟩
  show clearTail s.freeMap.bitCnt _ = clearTail s.freeMap.bitCnt (clearTail s.freeMap.bitCnt _)
  rw [clearTail_clearTail]
  exact rfl

theorem tiled_format {size : ℕ} {junk : ℕ → Elem} (h : format size junk = some (s, ranges)) :
    Tiled s ranges ∧ s.SavedBits ∧ (freeMapSector, 1) ∈ ranges ∧ (rootDirSector, 1) ∈ ranges := by
  have hsize := one_lt_of_format h
  simp only [format, Option.bind_eq_bind, Option.bind_eq_some_iff] at h
  obtain ⟨s₀, h0, mapCnts, -, ⟨s₁, mapRanges⟩, h1, rootCnts, -, ⟨s₂, rootRanges⟩, h2, s₃, h3, h4⟩ := h
  cases h4
  obtain ⟨ht0, hcnt0⟩ := tiled_freeMapInit hsize h0
  obtain ⟨ht1, hcnt1, -⟩ := tiled_allocateAll mapCnts ht0 h1
  have hsaved : FreeMap.Saved ⟨s₁.freeMap, some (bitmapWrite s₁.freeMap (fun _ => 0) (byteCnt size)).1⟩ := by
    rw [bitmapWrite_eq (by rw [hcnt1, hcnt0])]
    exact ⟨_, rfl, slice_overlay_bytes _ _⟩
  have ht1' : Tiled ⟨s₁.freeMap, some (bitmapWrite s₁.freeMap (fun _ => 0) (byteCnt size)).1⟩
      (mapRanges ++ [(rootDirSector, 1), (freeMapSector, 1)]) := ht1.congr rfl
  obtain ⟨ht2, hcnt2, hsaved2⟩ := tiled_allocateAll rootCnts ht1' h2
  obtain ⟨hread, hbits⟩ := freeMapOpen_spec (hsaved2 hsaved).bits h3
  refine ⟨(ht2.congr hread).perm ?_, hbits, List.mem_cons_self, List.mem_cons_of_mem _ List.mem_cons_self⟩
  refine List.perm_iff_count.mpr fun x => ?_
  simp only [List.count_append, List.count_cons, List.count_nil]
  omega

/-! ### Steps -/

structure DiskOk (s : Disk) : Prop where
  tiled : Tiled s.map (s.out ++ s.system)
  saved : s.map.SavedBits
  freeMapSector : (freeMapSector, 1) ∈ s.system
  rootDirSector : (rootDirSector, 1) ∈ s.system

variable {d d' : Disk}

theorem diskOk_init (h : DiskInit d) : DiskOk d := by
  obtain ⟨hout, size, junk, hf⟩ := h
  obtain ⟨h1, h2, h3, h4⟩ := tiled_format hf
  refine ⟨?_, h2, h3, h4⟩
  rw [hout]
  exact h1

theorem FreeMap.SavedBits.file (h : s.SavedBits) : s.file.isSome := by
  obtain ⟨file, hf, -⟩ := h
  rw [hf]
  rfl

theorem diskOk_step {a : MapAction} (h : DiskOk d) (hstep : MapStep d a d') : DiskOk d' := by
  cases hstep with
  | allocated hw ha =>
    obtain ⟨hscan, hm, hsaved⟩ := freeMapAllocate_eq_some hw ha
    exact ⟨h.tiled.scanned hscan hm, (hsaved h.saved.file).bits, h.freeMapSector, h.rootDirSector⟩
  | refused hw ha =>
    obtain ⟨rfl, -⟩ := freeMapAllocate_eq_none hw ha
    exact ⟨h.tiled, h.saved, h.freeMapSector, h.rootDirSector⟩
  | @released x written m hw hx hr =>
    obtain ⟨hm, hsaved⟩ := freeMapRelease_eq_some hw hr
    have hp : (d.out ++ d.system).Perm (x :: (d.out.erase x ++ d.system)) :=
      (List.perm_cons_erase hx).append_right d.system
    exact ⟨(h.tiled.perm hp).tail hm, hsaved.bits, h.freeMapSector, h.rootDirSector⟩

theorem diskOk_invariant : Invariant DiskInit MapStep DiskOk := ⟨diskOk_init, diskOk_step⟩

/-! ### The result -/

/-- **The allocator**: in every state that is reached, the bits that are set are those of the system's ranges and of
the outstanding ones, which are disjoint and inside the device; an allocation takes the first group that fits,
a refusal changes nothing, and a release passes its assertion. What an allocation or a release leaves in the
file are the words of the free map; after a refusal the file may differ in the bits behind the last sector. -/
theorem freeMap_exact (h : Reachable DiskInit MapStep d) :
    ((freeMapSector, 1) ∈ d.system ∧ (rootDirSector, 1) ∈ d.system) ∧
      (∀ k, d.map.Used k ↔ ∃ x ∈ d.out ++ d.system, k ∈ sectors x) ∧
      (d.out ++ d.system).Pairwise (fun x y => List.Disjoint (sectors x) (sectors y)) ∧
      (∀ x ∈ d.out ++ d.system, x.1 + x.2 ≤ d.map.freeMap.bitCnt) ∧ d.map.SavedBits ∧
      ∀ written, d.map.Writable written →
        (∀ cnt sector m, freeMapAllocate d.map cnt written = (some sector, m) →
          Group d.map.freeMap.toBits sector cnt false ∧
            (∀ k < sector, ¬Group d.map.freeMap.toBits k cnt false) ∧ m.Saved) ∧
        (∀ cnt m, freeMapAllocate d.map cnt written = (none, m) → m = d.map ∧
          ∀ k, k + cnt ≤ d.map.freeMap.bitCnt → ¬Group d.map.freeMap.toBits k cnt false) ∧
        ∀ x ∈ d.out, ∃ m, freeMapRelease d.map x.1 x.2 written = some m ∧ m.Saved := by
  have hd : DiskOk d := h.of_invariant diskOk_invariant
  have hexact := hd.tiled.exact
  refine ⟨⟨hd.freeMapSector, hd.rootDirSector⟩, fun k => hexact.used_iff,
    (List.nodup_flatMap.mp hexact.exclusive.nodup).2, hd.tiled.inside, hd.saved, fun written hw => ⟨?_, ?_, ?_⟩⟩
  · intro cnt sector m ha
    obtain ⟨hscan, -, hsaved⟩ := freeMapAllocate_eq_some hw ha
    exact ⟨(bitmapScan_eq_some hscan).2.2, fun k hk => bitmapScan_first hscan (Nat.zero_le k) hk,
      hsaved hd.saved.file⟩
  · intro cnt m ha
    obtain ⟨rfl, hscan⟩ := freeMapAllocate_eq_none hw ha
    refine ⟨rfl, fun k hk => bitmapScan_eq_none hscan (Nat.zero_le k) ?_⟩
    rw [length_toBits]
    exact hk
  · intro x hx
    have hmem : x ∈ d.out ++ d.system := List.mem_append_left _ hx
    have hsome : ∃ m, freeMapRelease d.map x.1 x.2 written = some m :=
      freeMapRelease_isSome hd.saved.file (hd.tiled.inside x hmem) fun k hk =>
        hexact.exclusive.used x hmem k hk
    obtain ⟨m, hm⟩ := hsome
    exact ⟨m, hm, (freeMapRelease_eq_some hw hm).2⟩

/-- A device of 40 sectors whose free map was allocated where all bits were set. -/
def smallFormat : Option (FreeMap × List (ℕ × ℕ)) := format 40 fun _ => BitVec.allOnes 32

theorem smallFormat_isSome : smallFormat.isSome = true := by decide +kernel

/-- The device, just formatted. -/
def smallDisk : Disk :=
  ⟨(smallFormat.get smallFormat_isSome).1, (smallFormat.get smallFormat_isSome).2, []⟩

theorem smallDisk_init : DiskInit smallDisk :=
  ⟨rfl, 40, fun _ => BitVec.allOnes 32, (Option.some_get smallFormat_isSome).symm⟩

/-- On it the sectors 0 to 3 are taken, and the next one is free. -/
theorem freeMap_exact_smallDisk : (∃ x ∈ smallDisk.out ++ smallDisk.system, 3 ∈ sectors x) ∧
    ¬∃ x ∈ smallDisk.out ++ smallDisk.system, 4 ∈ sectors x := by
  have h := (freeMap_exact (.start smallDisk_init)).2.1
  have h3 : smallDisk.map.freeMap.toBits[3]? = some true := by decide +kernel
  have h4 : smallDisk.map.freeMap.toBits[4]? ≠ some true := by decide +kernel
  exact ⟨(h 3).mp h3, fun hx => h4 ((h 4).mpr hx)⟩

/-- **After a refusal the file need not start with the words**: `free_map_open` has cleared the bits behind the last
sector in memory only. -/
theorem not_saved : ¬∀ (d : Disk) (a : MapAction) (d' : Disk), Reachable DiskInit MapStep d → MapStep d a d' →
    d'.map.Saved := by
  intro h
  have hcnt : byteCnt smallDisk.map.freeMap.bitCnt = 8 := by decide +kernel
  have hw : smallDisk.map.Writable 8 := hcnt.le
  have hscan : bitmapScan smallDisk.map.freeMap.toBits 0 1000 false = none := by decide +kernel
  have hrefused : freeMapAllocate smallDisk.map 1000 8 = (none, smallDisk.map) := by
    rw [freeMapAllocate, hscan]
  obtain ⟨file, hf, hs⟩ := h smallDisk (.allocate 1000) _ (.start smallDisk_init) (.refused hw hrefused)
  have hfile : smallDisk.map.file.map (fun f => f 5) = some 255 := by decide +kernel
  have hbyte : smallDisk.map.freeMap.bytes[5]? = some 0 := by decide +kernel
  have hf' : smallDisk.map.file = some file := hf
  rw [hf'] at hfile
  have hget : (slice file 0 (byteCnt smallDisk.map.freeMap.bitCnt))[5]? = some (file (0 + 5)) :=
    getElem?_slice (by rw [hcnt]; omega)
  have hs' : slice file 0 (byteCnt smallDisk.map.freeMap.bitCnt) = smallDisk.map.freeMap.bytes := hs
  rw [hs', hbyte, Nat.zero_add] at hget
  rw [Option.map_some, ← Option.some.inj hget] at hfile
  exact absurd hfile (by decide)

end Pintos.Filesys.FreeMapFile
