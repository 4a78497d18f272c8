import Pintos.Filesys.Bcache

/-! # Sectors, and what is stored in them

A sector is 512 bytes. It is also an array of 128 sector numbers, little endian, and it is how a
`struct inode_disk` lies on the device. -/

namespace Pintos.Filesys.Sector

open Pintos.Filesys.Bcache

/-! ### Bytes and words -/

def sectorsPerArray : ℕ := 128

/-- `SECTOR_INVALID`, as a `block_sector_t`. -/
def sectorInvalid : ℕ := 2 ^ 32 - 1

/-- A `block_sector_t *sector_array`: the sector numbers by their index. -/
abbrev SectorArray := ℕ → ℕ

def byteAt (b : SectorData) (i : ℕ) : UInt8 := if h : i < blockSectorSize then b ⟨i, h⟩ else 0

def zeros : SectorData := fun _ => 0

/-- The sector read as an array. -/
def wordAt (b : SectorData) : SectorArray := fun i =>
  (byteAt b (4 * i)).toNat + 2 ^ 8 * (byteAt b (4 * i + 1)).toNat +
    2 ^ 16 * (byteAt b (4 * i + 2)).toNat + 2 ^ 24 * (byteAt b (4 * i + 3)).toNat

/-- The array as a sector. -/
def ofWords (a : SectorArray) : SectorData := fun i =>
  UInt8.ofNat (a (i / 4) / 2 ^ (8 * (i.val % 4)))

variable {a : SectorArray} {b : SectorData} {i ofs : ℕ}

@[simp] theorem byteAt_zeros (i : ℕ) : byteAt zeros i = 0 := by
  unfold byteAt zeros
  split_ifs <;> rfl

theorem byteAt_ofWords (h : i < blockSectorSize) :
    (byteAt (ofWords a) i).toNat = a (i / 4) / 2 ^ (8 * (i % 4)) % 2 ^ 8 := by
  rw [byteAt, dif_pos h, ofWords, UInt8.toNat_ofNat']

/-- **What is stored of a sector number is read back.** -/
theorem wordAt_ofWords (h : i < sectorsPerArray) : wordAt (ofWords a) i = a i % 2 ^ 32 := by
  have hi : i < 128 := h
  have hbyte : ∀ r < 4, (byteAt (ofWords a) (4 * i + r)).toNat = a i / 2 ^ (8 * r) % 2 ^ 8 := by
    intro r hr
    have hlt : 4 * i + r < blockSectorSize := by
      unfold blockSectorSize
      omega
    rw [byteAt_ofWords hlt, show (4 * i + r) / 4 = i by omega, show (4 * i + r) % 4 = r by omega]
  have h0 := hbyte 0 (by omega)
  have h1 := hbyte 1 (by omega)
  have h2 := hbyte 2 (by omega)
  have h3 := hbyte 3 (by omega)
  simp only [Nat.add_zero] at h0
  unfold wordAt
  rw [h0, h1, h2, h3]
  norm_num
  omega

theorem wordAt_lt (b : SectorData) (i : ℕ) : wordAt b i < 2 ^ 32 := by
  have h0 := (byteAt b (4 * i)).toNat_lt
  have h1 := (byteAt b (4 * i + 1)).toNat_lt
  have h2 := (byteAt b (4 * i + 2)).toNat_lt
  have h3 := (byteAt b (4 * i + 3)).toNat_lt
  unfold wordAt
  omega

/-- A write into a sector, byte by byte. -/
theorem byteAt_memcpyAt (b : SectorData) (bytes : List UInt8) (h : i < blockSectorSize) :
    byteAt (memcpyAt b ofs bytes) i =
      if ofs ≤ i ∧ i < ofs + bytes.length then (bytes[i - ofs]?).getD 0 else byteAt b i := by
  unfold byteAt memcpyAt
  rw [dif_pos h, dif_pos h]
  by_cases hc : ofs ≤ i ∧ i < ofs + bytes.length
  · rw [dif_pos hc, if_pos hc, List.getElem?_eq_getElem (by omega)]
    rfl
  · rw [dif_neg hc, if_neg hc]

theorem getElem?_ofFn_byteAt (b : SectorData) (h : i < blockSectorSize) :
    (List.ofFn b)[i]? = some (byteAt b i) := by
  rw [List.getElem?_ofFn, dif_pos h, byteAt, dif_pos h]

/-! ### The inode on the device -/

def inodeMagic : ℕ := 0x494e4f44

def inodeTypeSmall : ℕ := 1
def inodeTypeLarge : ℕ := 2
def inodeTypeHuge : ℕ := 3

/-- `struct inode_disk`, less its unused fields. -/
structure InodeDisk where
  start : ℕ
  parent : ℕ
  length : ℕ
  sizeType : ℕ
  funcType : ℕ
  magic : ℕ

/-- The fields have the values of their types. -/
structure InodeDisk.Fits (d : InodeDisk) : Prop where
  start : d.start < 2 ^ 32
  parent : d.parent < 2 ^ 32
  length : d.length < 2 ^ 32
  sizeType : d.sizeType < 2 ^ 8
  funcType : d.funcType < 2 ^ 8
  magic : d.magic < 2 ^ 32

/-- `struct inode_disk` as words. -/
def InodeDisk.words (d : InodeDisk) : SectorArray
  | 0 => d.start
  | 1 => d.parent
  | 2 => d.length
  | 3 => d.sizeType + 2 ^ 8 * d.funcType
  | 4 => d.magic
  | _ => 0

def InodeDisk.toSector (d : InodeDisk) : SectorData := ofWords d.words

def InodeDisk.ofSector (b : SectorData) : InodeDisk where
  start := wordAt b 0
  parent := wordAt b 1
  length := wordAt b 2
  sizeType := wordAt b 3 % 2 ^ 8
  funcType := wordAt b 3 / 2 ^ 8 % 2 ^ 8
  magic := wordAt b 4

variable {d : InodeDisk}

/-- **An inode is read back as it was stored.** -/
theorem ofSector_toSector (h : d.Fits) : InodeDisk.ofSector d.toSector = d := by
  obtain ⟨h0, h1, h2, h3, h4, h5⟩ := h
  have hword : ∀ i < 128, wordAt d.toSector i = d.words i % 2 ^ 32 := fun i hi => wordAt_ofWords hi
  have hw := hword 3 (by omega)
  simp only [InodeDisk.words] at hw
  unfold InodeDisk.ofSector
  rw [hword 0 (by omega), hword 1 (by omega), hword 2 (by omega), hw, hword 4 (by omega)]
  simp only [InodeDisk.words]
  cases d
  simp only [InodeDisk.mk.injEq] at *
  refine ⟨?_, ?_, ?_, ?_, ?_, ?_⟩ <;> omega

theorem fits_ofSector (b : SectorData) : (InodeDisk.ofSector b).Fits :=
  ⟨wordAt_lt b 0, wordAt_lt b 1, wordAt_lt b 2, Nat.mod_lt _ (by omega), Nat.mod_lt _ (by omega),
    wordAt_lt b 4⟩

end Pintos.Filesys.Sector
