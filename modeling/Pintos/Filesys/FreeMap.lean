import Pintos.Filesys.BcacheRefinement
import Pintos.Filesys.Sector
import Pintos.Kernel.Bitmap
import Pintos.Lib.Stopping

/-! # The free map and the device under it

`free-map.c`, and what the inode layer uses of the buffer cache and of the heap. Whether a `calloc` succeeds,
and whether the file of the free map can be written, is decided by a stream of answers; the sectors of that
file are not modelled. Beside the program's data the state counts the requests that were refused and lists the
sectors that were written. -/

namespace Pintos.Filesys.FreeMap

open Pintos.Filesys.Bcache Pintos.Filesys.BcacheRefinement Pintos.Filesys.Sector Pintos.Kernel.Bitmap
open Pintos.Lib.Stopping

/-- Why a call does not return. -/
inductive Stop
  /-- An `ASSERT` fails, or `NOT_REACHED` is. -/
  | assertion
  /-- The device panics on a sector past its end. -/
  | badSector
  /-- An index past the end of an array, or a copy past the end of a sector. -/
  | overrun
  /-- `lock_acquire` on a lock that the thread holds. -/
  | relock

structure Fs where
  blocks : ℕ → SectorData
  /-- `free_map`, one bit for each sector of the device. -/
  freeMap : Bits
  /-- What a local variable holds that nothing has been stored in. -/
  junk : ℕ
  answers : ℕ → Bool
  asked : ℕ
  refused : ℕ
  written : List ℕ

abbrev FsCall (α : Type) := Call Stop Fs α

/-! ### Requests -/

def request : FsCall Bool := do
  let s ← get
  let answer := s.answers s.asked
  set { s with asked := s.asked + 1, refused := if answer then s.refused else s.refused + 1 }
  return answer

/-- `calloc (…) != NULL`. -/
def calloc : FsCall Bool := request

/-- `free_map_allocate`. -/
def freeMapAllocate (cnt : ℕ) : FsCall (Option ℕ) := do
  let s ← get
  match bitmapScanAndFlip s.freeMap 0 cnt false with
  | none =>
    set { s with refused := s.refused + 1 }
    return none
  | some (sector, freeMap) =>
    set { s with freeMap := freeMap }
    -- `bitmap_write`
    if ← request then return some sector
    else
      modify fun s => { s with freeMap := setBits s.freeMap sector false cnt }
      return none

/-! ### The buffer cache -/

def bcacheRead (sector : ℕ) : FsCall SectorData := do
  let s ← get
  if sector ≥ s.freeMap.length then throw .badSector
  else return s.blocks sector

def bcacheWriteAt (sector : ℕ) (bytes : List UInt8) (offset : ℕ) : FsCall Unit := do
  let s ← get
  if offset + bytes.length > blockSectorSize then throw .overrun
  else if sector ≥ s.freeMap.length then throw .badSector
  else
    set { s with blocks := Function.update s.blocks sector (memcpyAt (s.blocks sector) offset bytes)
                 written := sector :: s.written }

def bcacheWrite (sector : ℕ) (data : SectorData) : FsCall Unit :=
  bcacheWriteAt sector (List.ofFn data) 0

/-! ### Arrays of sector numbers -/

def readArray (sector : ℕ) : FsCall SectorArray := do
  return wordAt (← bcacheRead sector)

def writeArray (sector : ℕ) (a : SectorArray) : FsCall Unit := bcacheWrite sector (ofWords a)

/-- `sector_array[i]`. -/
def load (a : SectorArray) (i : ℕ) : FsCall ℕ :=
  if i < sectorsPerArray then return a i else throw .overrun

/-- `sector_array[i] = sector`. -/
def store (a : SectorArray) (i sector : ℕ) : FsCall SectorArray :=
  if i < sectorsPerArray then return Function.update a i sector else throw .overrun

variable {s s' s'' : Fs} {α : Type} {E : Fs → Prop} {x y cnt i : ℕ}

/-- **The calls of the buffer cache are those of a plain array of sectors**, which the cache refines. -/
theorem bcacheWriteAt_eq {bytes : List UInt8} {ofs : ℕ}
    (h : BcacheOp.InRange s.freeMap.length (.writeAt x bytes ofs)) :
    outcome (bcacheWriteAt x bytes ofs) s = (.ok (),
      { s with blocks := (performPlain s.blocks (.writeAt x bytes ofs)).1, written := x :: s.written }) := by
  have hn : ¬x ≥ s.freeMap.length := not_le.mpr h.1
  have hb : ¬ofs + bytes.length > blockSectorSize := not_lt.mpr h.2
  have hm : memcpyAt (s.blocks x) ofs bytes = fun j : Fin blockSectorSize =>
      if ofs ≤ j ∧ j < ofs + bytes.length then (bytes[j.val - ofs]?).getD 0 else s.blocks x j :=
    funext fun j => memcpyAt_apply _ _ _ _
  have hget : outcome (get : FsCall Fs) s = (.ok s, s) := rfl
  unfold bcacheWriteAt
  rw [outcome_bind, hget]
  simp only [if_neg hb, if_neg hn, performPlain, hm]
  rfl

/-! ### Rules of the calls -/

/-- Only requests were made. -/
structure Quiet (s s' : Fs) : Prop where
  blocks : s'.blocks = s.blocks
  freeMap : s'.freeMap = s.freeMap
  junk : s'.junk = s.junk
  answers : s'.answers = s.answers
  written : s'.written = s.written
  refused : s.refused ≤ s'.refused

theorem Quiet.refl (s : Fs) : Quiet s s := ⟨rfl, rfl, rfl, rfl, rfl, le_rfl⟩

theorem Quiet.trans (h : Quiet s s') (h' : Quiet s' s'') : Quiet s s'' :=
  ⟨h'.blocks.trans h.blocks, h'.freeMap.trans h.freeMap, h'.junk.trans h.junk,
    h'.answers.trans h.answers, h'.written.trans h.written, h.refused.trans h'.refused⟩

/-- The state after one more request. -/
def Fs.requested (s : Fs) : Fs :=
  { s with asked := s.asked + 1, refused := if s.answers s.asked then s.refused else s.refused + 1 }

theorem quiet_requested (s : Fs) : Quiet s s.requested := by
  refine ⟨rfl, rfl, rfl, rfl, rfl, ?_⟩
  show s.refused ≤ if s.answers s.asked then s.refused else s.refused + 1
  split_ifs <;> omega

theorem ends_request {Q : Bool → Fs → Prop} (h : Q (s.answers s.asked) s.requested) :
    Ends request s Q E :=
  .bind (.get (.bind (.set (.pure h))))

/-- A `calloc` succeeds or is counted as refused. -/
theorem ends_calloc {Q : Bool → Fs → Prop}
    (hok : ∀ s', Quiet s s' → s'.refused = s.refused → Q true s')
    (hno : ∀ s', Quiet s s' → s.refused < s'.refused → Q false s') : Ends calloc s Q E := by
  refine ends_request ?_
  rcases ha : s.answers s.asked with _ | _
  · refine hno _ (quiet_requested s) ?_
    simp [Fs.requested, ha]
  · refine hok _ (quiet_requested s) ?_
    simp [Fs.requested, ha]

theorem ends_bcacheRead {Q : SectorData → Fs → Prop} (hx : x < s.freeMap.length)
    (h : Q (s.blocks x) s) : Ends (bcacheRead x) s Q E := by
  refine .bind (.get ?_)
  rw [if_neg (by omega)]
  exact .pure h

theorem ends_readArray {Q : SectorArray → Fs → Prop} (hx : x < s.freeMap.length)
    (h : Q (wordAt (s.blocks x)) s) : Ends (readArray x) s Q E :=
  .bind (ends_bcacheRead hx (.pure h))

/-- The state after a write. -/
def Fs.put (s : Fs) (x : ℕ) (data : SectorData) : Fs :=
  { s with blocks := Function.update s.blocks x data, written := x :: s.written }

theorem ends_bcacheWriteAt {Q : Unit → Fs → Prop} (bytes : List UInt8) (ofs : ℕ)
    (hx : x < s.freeMap.length) (hb : ofs + bytes.length ≤ blockSectorSize)
    (h : Q () (s.put x (memcpyAt (s.blocks x) ofs bytes))) : Ends (bcacheWriteAt x bytes ofs) s Q E := by
  refine .bind (.get ?_)
  rw [if_neg (by omega), if_neg (by omega)]
  exact .set h

theorem ends_bcacheWrite {Q : Unit → Fs → Prop} {data : SectorData} (hx : x < s.freeMap.length)
    (h : Q () (s.put x data)) : Ends (bcacheWrite x data) s Q E := by
  have hlen : 0 + (List.ofFn data).length ≤ blockSectorSize := by rw [List.length_ofFn, Nat.zero_add]
  refine ends_bcacheWriteAt (List.ofFn data) 0 hx hlen ?_
  rw [memcpyAt_ofFn]
  exact h

theorem ends_writeArray {Q : Unit → Fs → Prop} {a : SectorArray} (hx : x < s.freeMap.length)
    (h : Q () (s.put x (ofWords a))) : Ends (writeArray x a) s Q E := ends_bcacheWrite hx h

theorem ends_load {Q : ℕ → Fs → Prop} {a : SectorArray} (hi : i < sectorsPerArray) (h : Q (a i) s) :
    Ends (load a i) s Q E := by
  unfold load
  rw [if_pos hi]
  exact .pure h

theorem ends_store {Q : SectorArray → Fs → Prop} {a : SectorArray} (hi : i < sectorsPerArray)
    (h : Q (Function.update a i x) s) : Ends (store a i x) s Q E := by
  unfold store
  rw [if_pos hi]
  exact .pure h

/-! ### Allocation -/

/-- The group of bits that `free_map_allocate` sets was clear. -/
theorem setBits_setBits {b : Bits} (hle : i + cnt ≤ b.length) (h : Group b i cnt false) :
    setBits (setBits b i true cnt) i false cnt = b := by
  refine List.ext_getElem? fun k => ?_
  rw [getElem?_setBits (by rw [length_setBits]; exact hle), getElem?_setBits hle]
  split_ifs with hk
  · exact (h k hk.1 hk.2).symm
  · rfl

/-- `free_map_allocate` is going to fail: no group is free, or the file of the free map cannot be written. -/
def Fs.NoGroup (s : Fs) (cnt : ℕ) : Prop :=
  bitmapScan s.freeMap 0 cnt false = none ∨ s.answers s.asked = false

/-- **`free_map_allocate` finds a group of free sectors and marks it, or is counted as refused.** -/
theorem ends_freeMapAllocate {Q : Option ℕ → Fs → Prop}
    (hok : ∀ s' sector, sector + cnt ≤ s.freeMap.length → Group s.freeMap sector cnt false →
      Quiet { s with freeMap := setBits s.freeMap sector true cnt } s' → s'.refused = s.refused →
      Q (some sector) s')
    (hno : ∀ s', Quiet s s' → s.refused < s'.refused → s.NoGroup cnt → Q none s') :
    Ends (freeMapAllocate cnt) s Q E := by
  refine .bind (.get ?_)
  rcases hb : bitmapScanAndFlip s.freeMap 0 cnt false with _ | ⟨sector, freeMap⟩
  · exact .bind (.set (.pure (hno _ ⟨rfl, rfl, rfl, rfl, rfl, Nat.le_succ _⟩ (Nat.lt_succ_self _)
      (.inl (bitmapScan_of_flip hb)))))
  obtain ⟨-, hle, hg, rfl⟩ := bitmapScanAndFlip_eq_some hb
  simp only [Bool.not_false]
  refine .bind (.set (.bind (ends_request ?_)))
  rcases ha : s.answers s.asked with _ | _
  · rw [if_neg (by decide)]
    refine .bind (.modify (.pure ?_))
    refine hno _ ⟨rfl, setBits_setBits hle hg, rfl, rfl, rfl, ?_⟩ ?_ (.inr ha) <;>
      simp [Fs.requested, ha]
  · rw [if_pos rfl]
    exact .pure (hok _ _ hle hg (quiet_requested _) (by simp [Fs.requested, ha]))

theorem ends_freeMapAllocate_none {Q : Option ℕ → Fs → Prop} (h : s.NoGroup cnt)
    (hno : ∀ s', Quiet s s' → s.refused < s'.refused → Q none s') :
    Ends (freeMapAllocate cnt) s Q E := by
  refine .bind (.get ?_)
  rcases hb : bitmapScanAndFlip s.freeMap 0 cnt false with _ | ⟨sector, freeMap⟩
  · exact .bind (.set (.pure (hno _ ⟨rfl, rfl, rfl, rfl, rfl, Nat.le_succ _⟩ (Nat.lt_succ_self _))))
  obtain ⟨-, hle, hg, rfl⟩ := bitmapScanAndFlip_eq_some hb
  have ha : s.answers s.asked = false := by
    refine h.resolve_left fun hn => ?_
    simp only [bitmapScanAndFlip, hn] at hb
    cases hb
  refine .bind (.set (.bind (ends_request ?_)))
  show Ends (if s.answers s.asked then _ else _) _ _ _
  rw [ha, if_neg (by decide)]
  refine .bind (.modify (.pure ?_))
  refine hno _ ⟨rfl, setBits_setBits hle hg, rfl, rfl, rfl, ?_⟩ ?_ <;> simp [Fs.requested, ha]

end Pintos.Filesys.FreeMap
