import Pintos.Filesys.InodeCreate

/-! # Growing an inode

`inode_expand_sectors`, `inode_expand`, and `inode_write_at` with them. -/

namespace Pintos.Filesys.InodeExpand

open Pintos.Filesys.FreeMap Pintos.Filesys.Sector Pintos.Filesys.Allocation Pintos.Filesys.InodeLayout
open Pintos.Filesys.InodeIo Pintos.Filesys.InodeCreate
open Pintos.Kernel.Bitmap Pintos.Lib.Overlay Pintos.Lib.Stopping
open Pintos.Filesys.Bcache (SectorData blockSectorSize)

/-- The size above which an inode is not large any more. -/
def maxLarge : ℕ := inodeLargeSectors * blockSectorSize

/-- The size above which there is no layout. -/
def maxHuge : ℕ := inodeHugeSectors * blockSectorSize

def inodeExpandIsDestructive (inode : Inode) (newSize : ℕ) : FsCall Bool :=
  if inode.data.sizeType = inodeTypeSmall then return true
  else if inode.data.sizeType = inodeTypeLarge then return decide (newSize > maxLarge)
  else if inode.data.sizeType = inodeTypeHuge then return false
  else throw .assertion

/-- `ASSERT(num_sectors_ori == SECTORS_PER_ARRAY || sector_array[num_sectors_ori] == SECTOR_INVALID)` -/
def assertMarker (a : SectorArray) (i : ℕ) : FsCall Unit := do
  if i = sectorsPerArray then return ()
  else if (← load a i) = sectorInvalid then return ()
  else throw .assertion

/-- `inode->data.length = new_size`. -/
def grown (inode : Inode) (newSize : ℕ) : Inode :=
  { inode with data := { inode.data with length := newSize } }

/-- `bcache_write (inode->sector, &inode->data)`. -/
def writeInode (inode : Inode) : FsCall Unit := bcacheWrite inode.sector inode.data.toSector

/-- The inode is created anew in its own sector, and read back. -/
def recreate (inode : Inode) (create : FsCall Bool) : FsCall (Option Bool × Inode) := do
  if ← create then
    let data ← bcacheRead inode.sector
    return (some true, { inode with data := .ofSector data })
  else return (none, inode)

/-- The part of `inode_expand_sectors` that says "expand large". -/
def expandLarge (inode : Inode) (newSize : ℕ) : FsCall (Option Bool × Inode) := do
  let numSectorsOri := bytesToSectors inode.data.length
  let inode := grown inode newSize
  let numSectorsNew := bytesToSectors newSize
  if numSectorsOri = numSectorsNew then
    writeInode inode
    return (some false, inode)
  else if ← calloc then
    let sectorArray ← readArray inode.data.start
    assertMarker sectorArray numSectorsOri
    match ← appendSectors sectorArray numSectorsOri (numSectorsNew - numSectorsOri) with
    | some sectorArray =>
      writeArray inode.data.start (mark sectorArray numSectorsNew)
      writeInode inode
      return (some false, inode)
    | none => return (none, inode)
  else return (none, inode)

/-- `x - 1` for a `block_sector_t`. -/
def pred32 (x : ℕ) : ℕ := (x + (2 ^ 32 - 1)) % 2 ^ 32

/-- The growth of a huge inode within its last array. -/
def fillArray (inode : Inode) (numSectorsOri numSectorsNew : ℕ) : FsCall (Option Bool × Inode) := do
  let cntLv1Ori := divRoundUp numSectorsOri sectorsPerArray
  let cntLv2New := lastCount numSectorsNew
  let cntLv2Ori := lastCount numSectorsOri
  if cntLv2New = cntLv2Ori then throw .assertion
  else
    let sectorArray1 ← readArray inode.data.start
    let last ← load sectorArray1 (pred32 cntLv1Ori)
    let sectorArray2 ← readArray last
    match ← appendSectors sectorArray2 cntLv2Ori (cntLv2New - cntLv2Ori) with
    | some sectorArray2 =>
      writeArray last (mark sectorArray2 (max cntLv2Ori cntLv2New))
      writeInode inode
      return (some false, inode)
    | none => return (none, inode)

/-- The growth of a huge inode past its last array. That `cnt_lv2_ori > 0` is always so. -/
def crossArray (inode : Inode) (numSectorsOri numSectorsNew : ℕ) : FsCall (Option Bool × Inode) := do
  let cntLv1Ori := divRoundUp numSectorsOri sectorsPerArray
  let cntLv2Ori := lastCount numSectorsOri
  let sectorArray1 ← readArray inode.data.start
  let last ← load sectorArray1 (pred32 cntLv1Ori)
  let sectorArray2 ← readArray last
  match ← appendSectors sectorArray2 cntLv2Ori (sectorsPerArray - cntLv2Ori) with
  | some sectorArray2 =>
    -- `sector_array` is the buffer, which is all zero
    let target ← load (fun _ => 0) (pred32 cntLv1Ori)
    writeArray target sectorArray2
    let numSectorsNew := numSectorsNew - (sectorsPerArray - cntLv2Ori)
    let cntLv1New := divRoundUp numSectorsNew sectorsPerArray
    let sectorArray1 ← readArray inode.data.start
    match ← appendArrays readArray (hugeCount numSectorsNew) sectorArray1 cntLv1Ori
        (cntLv1New - cntLv1Ori) with
    | some sectorArray1 =>
      writeArray inode.data.start (mark sectorArray1 (max cntLv1Ori cntLv1New))
      writeInode inode
      return (some false, inode)
    | none => return (none, inode)
  | none => return (none, inode)

/-- The part of `inode_expand_sectors` that says "expand huge". -/
def expandHuge (inode : Inode) (newSize : ℕ) : FsCall (Option Bool × Inode) := do
  let numSectorsOri := bytesToSectors inode.data.length
  let inode := grown inode newSize
  let numSectorsNew := bytesToSectors newSize
  if numSectorsOri = numSectorsNew then
    writeInode inode
    return (some false, inode)
  else if ← calloc then
    if ← calloc then
      if divRoundUp numSectorsNew sectorsPerArray = divRoundUp numSectorsOri sectorsPerArray then
        fillArray inode numSectorsOri numSectorsNew
      else crossArray inode numSectorsOri numSectorsNew
    else return (none, inode)
  else return (none, inode)

/-- `inode_expand_sectors`: `none` is its `false`, and a true result comes with `*destructive`. -/
def inodeExpandSectors (inode : Inode) (newSize : ℕ) : FsCall (Option Bool × Inode) := do
  if ← calloc then
    if inode.data.sizeType = inodeTypeSmall then
      if newSize > maxHuge then return (none, inode)
      else if newSize > maxLarge then
        recreate inode (inodeCreateHuge inode.sector newSize inode.data.funcType inode.data.parent)
      else recreate inode (inodeCreateLarge inode.sector newSize inode.data.funcType inode.data.parent)
    else if inode.data.sizeType = inodeTypeLarge then
      if newSize > maxLarge then
        recreate inode (inodeCreateHuge inode.sector newSize inode.data.funcType inode.data.parent)
      else expandLarge inode newSize
    else if inode.data.sizeType = inodeTypeHuge then
      if newSize > maxHuge then return (none, inode)
      else expandHuge inode newSize
    else throw .assertion
  else return (none, inode)

/-- `inode_expand`, which is called with the lock of the inode. In the write of the original data, the lock
could not be acquired again; `expand` is not reached there. -/
def inodeExpand (inode : Inode) (newSize : ℕ) : FsCall (Bool × Inode) := do
  let originalLength := inode.data.length
  if originalLength = 0 then
    let (_, inode) ← inodeExpandSectors inode newSize
    return (true, inode)
  else if ← inodeExpandIsDestructive inode newSize then
    if ← calloc then
      let originalData ← inodeReadAt inode originalLength 0
      if originalData.length ≠ originalLength then return (false, inode)
      else
        let (destructiveReal, inode) ← inodeExpandSectors inode newSize
        match destructiveReal with
        | some true =>
          let (written, inode) ← inodeWriteWith (fun _ _ => throw .relock) inode originalData 0
          return (written == originalLength, inode)
        | some false => throw .assertion
        | none => return (false, inode)
    else return (false, inode)
  else
    let (destructiveReal, inode) ← inodeExpandSectors inode newSize
    match destructiveReal with
    | some false => return (true, inode)
    | some true => throw .assertion
    | none => return (false, inode)

def inodeWriteAt (inode : Inode) (buffer : List UInt8) (offset : ℕ) : FsCall (ℕ × Inode) :=
  inodeWriteWith inodeExpand inode buffer offset

end Pintos.Filesys.InodeExpand
