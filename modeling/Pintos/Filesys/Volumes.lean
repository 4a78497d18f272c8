import Pintos.Filesys.FreeMapFile
import Pintos.Filesys.InodeMoves
import Pintos.Lib.Runs

/-! # The inodes of a volume

A formatted device with its free map and all of its live inodes, those that a directory links or that are open.
A file is created, read, written and removed; one whose entry cannot be added is removed at once, and
`bitmap_write` is a write to the free map's own inode. What is refused, and when, is up to the answers. Where
the kernel stops, or overruns an array, a run ends. -/

namespace Pintos.Filesys.Volumes

open Pintos.Filesys.FreeMap Pintos.Filesys.Sector Pintos.Filesys.Allocation Pintos.Filesys.InodeLayout
open Pintos.Filesys.InodeIo Pintos.Filesys.InodeCreate Pintos.Filesys.InodeExpand
open Pintos.Filesys.InodeReadWrite Pintos.Filesys.InodeGrow Pintos.Filesys.InodeGrowHuge
open Pintos.Filesys.Granting Pintos.Filesys.InodeMoves
open Pintos.Filesys.FreeMapFile (rootLength)
open Pintos.Kernel.Bitmap Pintos.Kernel.BitmapWords Pintos.Lib.Runs Pintos.Lib.Stopping
open Pintos.Filesys.Bcache (SectorData blockSectorSize)

/-- `ROOT_DIR_SECTOR`. -/
def rootDirSector : ℕ := 1

def inodeTypeDir : ℕ := 2
def inodeTypeFreemap : ℕ := 3

/-! ### The calls -/

/-- `free_map_release`; that the file of the free map may not be written is not looked at. -/
def freeMapRelease (sector cnt : ℕ) : FsCall Unit := do
  let s ← get
  if bitmapAll s.freeMap sector cnt = some true then
    set { s with freeMap := setBits s.freeMap sector false cnt }
    let _ ← request
    return ()
  else throw .assertion

/-- What `inode_open` reads. -/
def inodeOpen (sector : ℕ) : FsCall Inode := do
  return ⟨sector, false, 0, .ofSector (← bcacheRead sector)⟩

/-- What `filesys_create` does to the sectors of the device: the new inode, if it succeeds. -/
def filesysCreate (length : ℤ) (funcType parentSector : ℕ) : FsCall (Option Inode) := do
  match ← freeMapAllocate 1 with
  | some inodeSector =>
    if ← inodeCreate inodeSector length funcType parentSector then return some (← inodeOpen inodeSector)
    else
      freeMapRelease inodeSector 1
      return none
  | none => return none

/-- `inode_write_at`. The sum of `offset` and `size` is an `off_t`: past its range it is negative, and nothing
grows. -/
def inodeWriteAt32 (inode : Inode) (buffer : List UInt8) (offset : ℕ) : FsCall (ℕ × Inode) := do
  if offset + buffer.length < 2 ^ 31 then inodeWriteAt inode buffer offset
  else if inode.denyWriteCnt ≠ 0 then return (0, inode)
  else
    let written ← writeLoop inode.data buffer.length buffer offset
    return (written, inode)

/-! ### Formatting -/

/-- `free_map_init` for a device of `size` sectors. -/
def freeMapInit (size : ℕ) : Bits :=
  ((List.replicate size false).set freeMapSector true).set rootDirSector true

/-- `do_format`, which panics if it fails. -/
def doFormat (size : ℕ) : FsCall (Inode × Inode) := do
  if ← inodeCreate freeMapSector (byteCnt size) inodeTypeFreemap freeMapSector then
    if ← inodeCreate rootDirSector rootLength inodeTypeDir rootDirSector then
      return (← inodeOpen freeMapSector, ← inodeOpen rootDirSector)
    else throw .assertion
  else throw .assertion

/-! ### The system -/

structure Volume where
  fs : Fs
  /-- The live inodes, by their sectors. -/
  inodes : ℕ → Option Inode

inductive VolumeAction
  | create (length : ℤ) (funcType : UInt8) (parentSector : UInt32)
  | read (sector size offset : ℕ)
  | write (sector : ℕ) (buffer : List UInt8) (offset : ℕ)
  /-- The last opener closes the inode, and it is opened again. -/
  | reopen (sector : ℕ)
  /-- Openers deny and allow writes, and `cnt` denials are left. -/
  | deny (sector cnt : ℕ)
  /-- The last opener closes an inode that was removed. No directory links the two inodes of the system. -/
  | remove (sector : ℕ)

/-- The volume after a call that returns. -/
def Volume.after {α : Type} (v : Volume) (m : FsCall α) (f : α → (ℕ → Option Inode)) : Option Volume :=
  match outcome m v.fs with
  | (.ok a, s) => some ⟨s, f a⟩
  | (.error _, _) => none

/-- The rule for a call that returns. -/
theorem Volume.after_of_ends {α : Type} {v v' : Volume} {P : Volume → Prop} {m : FsCall α}
    {f : α → (ℕ → Option Inode)} (h : Ends m v.fs (fun a s' => P ⟨s', f a⟩) fun _ => True)
    (hv : v.after m f = some v') : P v' := by
  unfold Volume.after at hv
  rcases ho : outcome m v.fs with ⟨_ | a, s'⟩ <;> rw [ho] at hv <;> cases hv
  exact h.of_outcome ho

def Volume.put (v : Volume) (sector : ℕ) (inode : Option Inode) : ℕ → Option Inode :=
  Function.update v.inodes sector inode

def volumeNext (v : Volume) : VolumeAction → Option Volume
  | .create length funcType parentSector =>
    v.after (filesysCreate length funcType.toNat parentSector.toNat) fun
      | some inode => v.put inode.sector (some inode)
      | none => v.inodes
  | .read sector size offset =>
    (v.inodes sector).bind fun inode => v.after (inodeReadAt inode size offset) fun _ => v.inodes
  | .write sector buffer offset =>
    (v.inodes sector).bind fun inode =>
      v.after (inodeWriteAt32 inode buffer offset) fun r => v.put sector (some r.2)
  | .reopen sector =>
    (v.inodes sector).bind fun _ => v.after (inodeOpen sector) fun inode => v.put sector (some inode)
  | .deny sector cnt =>
    (v.inodes sector).map fun inode => ⟨v.fs, v.put sector (some { inode with denyWriteCnt := cnt })⟩
  | .remove sector =>
    if sector = freeMapSector ∨ sector = rootDirSector then none
    else (v.inodes sector).bind fun _ => v.after (freeMapRelease sector 1) fun _ => v.put sector none

def VolumeStep (v : Volume) (a : VolumeAction) (v' : Volume) : Prop := volumeNext v a = some v'

/-- The two inodes of a volume that was just formatted. -/
def systemInodes (r : Inode × Inode) : ℕ → Option Inode := fun x =>
  if x = freeMapSector then some r.1 else if x = rootDirSector then some r.2 else none

/-- The device before it is formatted. The free map has no file yet that could not be written, and a `calloc`
that fails is a panic. -/
def blankFs (size junk : ℕ) (blocks : ℕ → SectorData) : Fs where
  blocks := blocks
  freeMap := freeMapInit size
  junk := junk
  answers := fun _ => true
  asked := 0
  refused := 0
  written := []

/-- A device of any size, just formatted. -/
def VolumeInit (v : Volume) : Prop :=
  ∃ size junk blocks r s answers, 2 ≤ size ∧ size < 2 ^ 32 ∧
    outcome (doFormat size) (blankFs size junk blocks) = (.ok r, s) ∧
    v = ⟨{ s with answers := answers }, systemInodes r⟩

/-! ### What is owned -/

/-- **Every sector has one owner.** -/
structure SectorOwnership (v : Volume) : Prop where
  resolves : ∀ {x inode}, v.inodes x = some inode → ∀ k < sectorCount inode.data,
    ∃ y, Resolves v.fs inode.data k y ∧ y < v.fs.freeMap.length ∧ v.fs.freeMap[y]? = some true
  once : ∀ {x x' inode inode'}, v.inodes x = some inode → v.inodes x' = some inode' →
    ∀ k < sectorCount inode.data, ∀ k' < sectorCount inode'.data, ∀ y, Resolves v.fs inode.data k y →
      Resolves v.fs inode'.data k' y → x = x' ∧ k = k'
  apart : ∀ {x x' inode inode'}, v.inodes x = some inode → v.inodes x' = some inode' → x ≠ x' →
    ∀ y ∈ owned v.fs.blocks inode.data, y ≠ x' ∧ y ∉ owned v.fs.blocks inode'.data
  system : ∀ {x inode}, v.inodes x = some inode →
    ∀ y ∈ owned v.fs.blocks inode.data, y ≠ freeMapSector ∧ y ≠ rootDirSector

/-- What a step must not meet: the sector of the index array of a huge inode is refused, or a growth is not
sound. -/
def Sound (v : Volume) : VolumeAction → Prop
  | .create length _ _ => maxLarge < length → length ≤ maxHuge → 0 < freeCount v.fs →
    ¬(Grants v.fs 0 4 ∧ (freeCount v.fs = 1 ∨ v.fs.answers (v.fs.asked + 4) = false))
  | .write sector buffer offset => ∀ inode, v.inodes sector = some inode → inode.denyWriteCnt = 0 →
    inode.data.length < offset + buffer.length → offset + buffer.length < 2 ^ 31 →
      GrowthSound v.fs inode (offset + buffer.length)
  | _ => True

end Pintos.Filesys.Volumes
