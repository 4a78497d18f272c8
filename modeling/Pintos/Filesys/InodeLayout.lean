import Pintos.Filesys.Allocation

/-! # The three layouts of an inode

A small inode has its sectors one after the other, a large one has an array of them, and a huge one an array
of arrays. `byte_to_sector` resolves a position. `Mapped` is what reading and writing need of an inode, and
`WellFormed` what growing one needs. -/

namespace Pintos.Filesys.InodeLayout

open Pintos.Filesys.FreeMap Pintos.Filesys.Sector Pintos.Filesys.Allocation
open Pintos.Lib.Overlay Pintos.Lib.Stopping
open Pintos.Filesys.Bcache (SectorData blockSectorSize memcpyAt)

def inodeSmallSectors : ℕ := 0x40
def inodeLargeSectors : ℕ := sectorsPerArray
def inodeHugeSectors : ℕ := sectorsPerArray * sectorsPerArray

/-- `DIV_ROUND_UP`. -/
def divRoundUp (x step : ℕ) : ℕ := (x + step - 1) / step

/-- `bytes_to_sectors`. A sum past the end of `off_t` turns negative, and the quotient is read back as a
`size_t`. -/
def bytesToSectors (size : ℕ) : ℕ :=
  if size + 511 < 2 ^ 31 then divRoundUp size blockSectorSize
  else 2 ^ 32 - (2 ^ 32 - (size + 511)) / blockSectorSize

/-- `byte_to_sector`. -/
def byteToSector (d : InodeDisk) (pos : ℕ) : FsCall ℕ := do
  if pos ≥ d.length then return sectorInvalid
  else if ← calloc then
    if d.sizeType = inodeTypeSmall then return (d.start + pos / blockSectorSize) % 2 ^ 32
    else if d.sizeType = inodeTypeLarge then
      load (← readArray d.start) (pos / blockSectorSize)
    else if d.sizeType = inodeTypeHuge then
      let sectorArray ← readArray d.start
      let sectorArray ← readArray (← load sectorArray (pos / blockSectorSize / sectorsPerArray))
      load sectorArray (pos / blockSectorSize % sectorsPerArray)
    else throw .assertion
  else return sectorInvalid

/-! ### What an inode stands for -/

/-- The sector of a block index, according to the blocks on the device. -/
def sectorOf (blocks : ℕ → SectorData) (d : InodeDisk) (k : ℕ) : ℕ :=
  if d.sizeType = inodeTypeSmall then d.start + k
  else if d.sizeType = inodeTypeLarge then wordAt (blocks d.start) k
  else wordAt (blocks (wordAt (blocks d.start) (k / sectorsPerArray))) (k % sectorsPerArray)

/-- How many block indices the inode has. -/
def sectorCount (d : InodeDisk) : ℕ := divRoundUp d.length blockSectorSize

/-- How many arrays of sector numbers a huge inode has. -/
def arrayCount (d : InodeDisk) : ℕ := divRoundUp (sectorCount d) sectorsPerArray

def dataSectors (blocks : ℕ → SectorData) (d : InodeDisk) : List ℕ :=
  slice (sectorOf blocks d) 0 (sectorCount d)

def indexSectors (blocks : ℕ → SectorData) (d : InodeDisk) : List ℕ :=
  if d.sizeType = inodeTypeSmall then []
  else if d.sizeType = inodeTypeLarge then [d.start]
  else d.start :: slice (wordAt (blocks d.start)) 0 (arrayCount d)

/-- The index and data sectors of the inode. -/
def owned (blocks : ℕ → SectorData) (d : InodeDisk) : List ℕ :=
  indexSectors blocks d ++ dataSectors blocks d

/-- The bytes of the file, by position. -/
def content (blocks : ℕ → SectorData) (d : InodeDisk) : ℕ → UInt8 := fun p =>
  byteAt (blocks (sectorOf blocks d (p / blockSectorSize))) (p % blockSectorSize)

/-- The largest file of each layout. -/
def maxSectors (sizeType : ℕ) : ℕ :=
  if sizeType = inodeTypeSmall then inodeSmallSectors
  else if sizeType = inodeTypeLarge then inodeLargeSectors
  else inodeHugeSectors

/-- **Every block index is mapped to a sector of its own.** -/
structure Mapped (s : Fs) (d : InodeDisk) : Prop where
  sizeType : d.sizeType = inodeTypeSmall ∨ d.sizeType = inodeTypeLarge ∨ d.sizeType = inodeTypeHuge
  length : d.length ≤ maxSectors d.sizeType * blockSectorSize
  nodup : (owned s.blocks d).Nodup
  onDevice : ∀ x ∈ owned s.blocks d, x < s.freeMap.length
  device : s.freeMap.length < 2 ^ 32

/-- **A well-formed inode** at `sector`, as the creators make it and as growth and writes keep it. -/
structure WellFormed (s : Fs) (sector : ℕ) (d : InodeDisk) : Prop where
  mapped : Mapped s d
  apart : sector ∉ owned s.blocks d
  marked : ∀ x ∈ sector :: owned s.blocks d, s.freeMap[x]? = some true
  stored : InodeDisk.ofSector (s.blocks sector) = d
  /-- The end marker behind the last sector number of an array that is not full. -/
  markerLarge : d.sizeType = inodeTypeLarge → sectorCount d < sectorsPerArray →
    sectorOf s.blocks d (sectorCount d) = sectorInvalid
  markerHuge : d.sizeType = inodeTypeHuge → sectorCount d % sectorsPerArray ≠ 0 →
    sectorOf s.blocks d (sectorCount d) = sectorInvalid
  huge : d.sizeType = inodeTypeHuge → 0 < d.length
  /-- The bytes of the last sector past the end of the file are zero. -/
  tail : ∀ p, d.length ≤ p → p < sectorCount d * blockSectorSize → content s.blocks d p = 0

variable {s s' : Fs} {d : InodeDisk} {blocks blocks' : ℕ → SectorData} {sector k p pos n : ℕ}
  {E : Fs → Prop}

theorem sectorCount_le (h : d.length ≤ n * blockSectorSize) : sectorCount d ≤ n := by
  unfold sectorCount divRoundUp blockSectorSize at *
  omega

theorem div_lt_sectorCount (h : p < d.length) : p / blockSectorSize < sectorCount d := by
  unfold sectorCount divRoundUp blockSectorSize
  omega

theorem lt_of_lt_sectorCount (h : k < sectorCount d) : k * blockSectorSize < d.length := by
  unfold sectorCount divRoundUp blockSectorSize at *
  omega

theorem row_lt (h : k < n) : k / sectorsPerArray < divRoundUp n sectorsPerArray := by
  unfold divRoundUp sectorsPerArray
  omega

theorem divRoundUp_le {m : ℕ} (h : n ≤ m * sectorsPerArray) : divRoundUp n sectorsPerArray ≤ m := by
  unfold divRoundUp sectorsPerArray at *
  omega

theorem sectorOf_mem (blocks : ℕ → SectorData) (h : k < sectorCount d) :
    sectorOf blocks d k ∈ dataSectors blocks d := mem_slice.mpr ⟨k, by omega, rfl⟩

theorem sectorOf_mem_owned (blocks : ℕ → SectorData) (h : k < sectorCount d) :
    sectorOf blocks d k ∈ owned blocks d := List.mem_append_right _ (sectorOf_mem blocks h)

theorem start_mem (blocks : ℕ → SectorData) (h : d.sizeType ≠ inodeTypeSmall) :
    d.start ∈ indexSectors blocks d := by
  unfold indexSectors
  rw [if_neg h]
  split_ifs
  · exact List.mem_cons_self
  · exact List.mem_cons_self

/-- The array of a block index of a huge inode. -/
theorem array_mem (blocks : ℕ → SectorData) (h1 : d.sizeType ≠ inodeTypeSmall)
    (h2 : d.sizeType ≠ inodeTypeLarge)
    (hrow : k / sectorsPerArray < arrayCount d) :
    wordAt (blocks d.start) (k / sectorsPerArray) ∈ indexSectors blocks d := by
  unfold indexSectors
  rw [if_neg h1, if_neg h2]
  rw [← Nat.zero_add (arrayCount d)] at hrow
  exact List.mem_cons_of_mem _ (mem_slice.mpr ⟨_, ⟨Nat.zero_le _, hrow⟩, rfl⟩)

/-! ### Layout by layout -/

theorem small_ne_large : inodeTypeSmall ≠ inodeTypeLarge := by decide

theorem small_ne_huge : inodeTypeSmall ≠ inodeTypeHuge := by decide

theorem large_ne_huge : inodeTypeLarge ≠ inodeTypeHuge := by decide

theorem sectorOf_large (blocks : ℕ → SectorData) (h : d.sizeType = inodeTypeLarge) (k : ℕ) :
    sectorOf blocks d k = wordAt (blocks d.start) k := by
  rw [sectorOf, if_neg (h ▸ small_ne_large.symm), if_pos h]

theorem sectorOf_huge (blocks : ℕ → SectorData) (h : d.sizeType = inodeTypeHuge) (k : ℕ) :
    sectorOf blocks d k =
      wordAt (blocks (wordAt (blocks d.start) (k / sectorsPerArray))) (k % sectorsPerArray) := by
  rw [sectorOf, if_neg (h ▸ small_ne_huge.symm), if_neg (h ▸ large_ne_huge.symm)]

theorem indexSectors_large (blocks : ℕ → SectorData) (h : d.sizeType = inodeTypeLarge) :
    indexSectors blocks d = [d.start] := by
  rw [indexSectors, if_neg (h ▸ small_ne_large.symm), if_pos h]

theorem indexSectors_huge (blocks : ℕ → SectorData) (h : d.sizeType = inodeTypeHuge) :
    indexSectors blocks d =
      d.start :: slice (wordAt (blocks d.start)) 0 (arrayCount d) := by
  rw [indexSectors, if_neg (h ▸ small_ne_huge.symm), if_neg (h ▸ large_ne_huge.symm)]

/-- The sectors of a small inode lie side by side. -/
theorem owned_small (blocks : ℕ → SectorData) (h : d.sizeType = inodeTypeSmall) :
    owned blocks d = List.range' d.start (sectorCount d) := by
  rw [owned, indexSectors, if_pos h, List.nil_append, dataSectors]
  refine List.ext_getElem (by simp) fun i h1 h2 => ?_
  simp [slice, sectorOf, h]

/-- The data sectors of a large inode are what its array holds. -/
theorem sectorOf_array {a : SectorArray} (h : d.sizeType = inodeTypeLarge)
    (hb : blocks d.start = ofWords (mark a n)) (ha : ∀ j < n, a j < 2 ^ 32) (hk : k < n)
    (hn : n ≤ sectorsPerArray) : sectorOf blocks d k = a k := by
  rw [sectorOf_large _ h, hb, wordAt_mark hk.le (by omega) fun _ => ha k hk, if_neg (by omega)]

theorem sectorOf_marker {a : SectorArray} (h : d.sizeType = inodeTypeLarge)
    (hb : blocks d.start = ofWords (mark a n)) (ha : ∀ j < n, a j < 2 ^ 32)
    (hn : n < sectorsPerArray) : sectorOf blocks d n = sectorInvalid := by
  rw [sectorOf_large _ h, hb, wordAt_mark le_rfl hn (ha n), if_pos rfl]

theorem dataSectors_array {a : SectorArray} (h : d.sizeType = inodeTypeLarge)
    (hb : blocks d.start = ofWords (mark a (sectorCount d)))
    (ha : ∀ j < sectorCount d, a j < 2 ^ 32) (hn : sectorCount d ≤ sectorsPerArray) :
    dataSectors blocks d = slice a 0 (sectorCount d) :=
  slice_congr fun _ _ hk => sectorOf_array h hb ha (by omega) hn

/-- `num_sectors % SECTORS_PER_ARRAY == 0 ? SECTORS_PER_ARRAY : num_sectors % SECTORS_PER_ARRAY` -/
def lastCount (numSectors : ℕ) : ℕ :=
  if numSectors % sectorsPerArray = 0 then sectorsPerArray else numSectors % sectorsPerArray

/-- How many sector numbers the arrays of a huge inode hold. -/
def hugeCount (numSectors : ℕ) : ℕ → ℕ :=
  rowCount (divRoundUp numSectors sectorsPerArray) (lastCount numSectors)

theorem lastCount_le (n : ℕ) : lastCount n ≤ sectorsPerArray := by
  unfold lastCount sectorsPerArray
  split_ifs <;> omega

theorem hugeCount_le (n q : ℕ) : hugeCount n q ≤ sectorsPerArray := by
  unfold hugeCount rowCount
  split_ifs
  · exact lastCount_le n
  · exact le_rfl

/-- All arrays but the last are full. -/
theorem hugeCount_eq {q : ℕ} (hq : q < divRoundUp n sectorsPerArray) :
    hugeCount n q = min sectorsPerArray (n - sectorsPerArray * q) := by
  unfold hugeCount rowCount lastCount divRoundUp sectorsPerArray at *
  split_ifs <;> omega

theorem rowsOf_congr {a a' : SectorArray} {cnt cnt' : ℕ → ℕ} {i : ℕ}
    (h : ∀ q, i ≤ q → q < i + k → blocks' (a' q) = blocks (a q) ∧ cnt' q = cnt q) :
    rowsOf blocks' a' cnt' i k = rowsOf blocks a cnt i k := by
  refine List.flatMap_congr fun q hq => ?_
  obtain ⟨h1, h2⟩ := List.mem_range'_1.mp hq
  rw [(h q h1 h2).1, (h q h1 h2).2]

theorem rowsOf_append (blocks : ℕ → SectorData) (a : SectorArray) (cnt : ℕ → ℕ) (i j k : ℕ) :
    rowsOf blocks a cnt i (j + k) = rowsOf blocks a cnt i j ++ rowsOf blocks a cnt (i + j) k := by
  have hr : List.range' i (j + k) = List.range' i j ++ List.range' (i + j) k := by
    rw [← List.range'_append, one_mul]
  rw [rowsOf, hr, List.flatMap_append]
  rfl

/-- The data sectors of a huge inode are the rows of its arrays. -/
theorem dataSectors_huge (blocks : ℕ → SectorData) (h : d.sizeType = inodeTypeHuge) :
    dataSectors blocks d = rowsOf blocks (wordAt (blocks d.start)) (hugeCount (sectorCount d)) 0
      (arrayCount d) := by
  have hf : sectorOf blocks d = fun k =>
      wordAt (blocks (wordAt (blocks d.start) (k / sectorsPerArray))) (k % sectorsPerArray) :=
    funext fun k => sectorOf_huge blocks h k
  have hc : sectorCount d ≤ sectorsPerArray * arrayCount d := by
    unfold arrayCount divRoundUp sectorsPerArray
    omega
  have hrows := slice_rows (by decide : 0 < sectorsPerArray)
    (fun q => wordAt (blocks (wordAt (blocks d.start) q))) _ 0 _ hc
  rw [dataSectors, hf, rowsOf]
  rw [Nat.mul_zero] at hrows
  rw [hrows]
  refine List.flatMap_congr fun q hq => ?_
  have hq' : q < divRoundUp (sectorCount d) sectorsPerArray := by
    have := (List.mem_range'_1.mp hq).2
    rwa [Nat.zero_add] at this
  rw [hugeCount_eq hq', Nat.add_zero]

/-! ### The layout depends on the index sectors only -/

theorem indexSectors_congr (h : ∀ x ∈ indexSectors blocks d, blocks' x = blocks x) :
    indexSectors blocks' d = indexSectors blocks d := by
  by_cases h1 : d.sizeType = inodeTypeSmall
  · simp only [indexSectors, if_pos h1]
  by_cases h2 : d.sizeType = inodeTypeLarge
  · simp only [indexSectors, if_neg h1, if_pos h2]
  · have hs := h _ (start_mem blocks h1)
    simp only [indexSectors, if_neg h1, if_neg h2, hs]

/-- The sector number at any index that has an array. -/
theorem sectorOf_congr_array (h : ∀ x ∈ indexSectors blocks d, blocks' x = blocks x)
    (hk : k / sectorsPerArray < arrayCount d ∨
      d.sizeType = inodeTypeLarge) : sectorOf blocks' d k = sectorOf blocks d k := by
  by_cases h1 : d.sizeType = inodeTypeSmall
  · simp only [sectorOf, if_pos h1]
  have hs := h _ (start_mem blocks h1)
  by_cases h2 : d.sizeType = inodeTypeLarge
  · simp only [sectorOf, if_neg h1, if_pos h2, hs]
  · have ha := h _ (array_mem blocks h1 h2 (hk.resolve_right h2))
    simp only [sectorOf, if_neg h1, if_neg h2, hs, ha]

theorem sectorOf_congr (h : ∀ x ∈ indexSectors blocks d, blocks' x = blocks x)
    (hk : k < sectorCount d) : sectorOf blocks' d k = sectorOf blocks d k :=
  sectorOf_congr_array h (.inl (row_lt hk))

theorem dataSectors_congr (h : ∀ x ∈ indexSectors blocks d, blocks' x = blocks x) :
    dataSectors blocks' d = dataSectors blocks d :=
  slice_congr fun _ _ hk => sectorOf_congr h (by omega)

theorem owned_congr (h : ∀ x ∈ indexSectors blocks d, blocks' x = blocks x) :
    owned blocks' d = owned blocks d := by
  rw [owned, indexSectors_congr h, dataSectors_congr h, owned]

/-- **Where no sector of the inode was written, its content is the same.** -/
theorem content_congr (h : ∀ x ∈ owned blocks d, blocks' x = blocks x) (hp : p < d.length) :
    content blocks' d p = content blocks d p := by
  have hk := div_lt_sectorCount hp
  have hs := sectorOf_congr (fun x hx => h x (List.mem_append_left _ hx)) hk
  rw [content, hs, h _ (sectorOf_mem_owned blocks hk), content]

/-! ### `byte_to_sector` -/

namespace Mapped

theorem sectorOf_lt (hm : Mapped s d) (hk : k < sectorCount d) :
    sectorOf s.blocks d k < s.freeMap.length := hm.onDevice _ (sectorOf_mem_owned _ hk)

theorem index_lt (hm : Mapped s d) {x : ℕ} (hx : x ∈ indexSectors s.blocks d) :
    x < s.freeMap.length := hm.onDevice _ (List.mem_append_left _ hx)

theorem sectorOf_injective (hm : Mapped s d) {j : ℕ} (hk : k < sectorCount d) (hj : j < sectorCount d)
    (h : sectorOf s.blocks d k = sectorOf s.blocks d j) : k = j :=
  slice_injective (List.nodup_append.mp hm.nodup).2.1 (by omega) (by omega) h

theorem not_index (hm : Mapped s d) (hk : k < sectorCount d) :
    sectorOf s.blocks d k ∉ indexSectors s.blocks d := fun h =>
  (List.nodup_append.mp hm.nodup).2.2 _ h _ (sectorOf_mem _ hk) rfl

theorem sectorCount_le (hm : Mapped s d) : sectorCount d ≤ maxSectors d.sizeType :=
  InodeLayout.sectorCount_le hm.length

/-- The layout survives what leaves the index sectors alone. -/
theorem congr (hm : Mapped s d) (h : ∀ x ∈ indexSectors s.blocks d, s'.blocks x = s.blocks x)
    (hl : s'.freeMap.length = s.freeMap.length) : Mapped s' d where
  sizeType := hm.sizeType
  length := hm.length
  nodup := by
    rw [owned_congr h]
    exact hm.nodup
  onDevice := by
    rw [owned_congr h, hl]
    exact hm.onDevice
  device := hl ▸ hm.device

end Mapped

theorem mapped_of_quiet (hm : Mapped s d) (h : Quiet s s') : Mapped s' d :=
  hm.congr (fun x _ => by rw [h.blocks]) (by rw [h.freeMap])

namespace WellFormed

theorem fits (h : WellFormed s sector d) : d.Fits := h.stored ▸ fits_ofSector _

theorem sector_marked (h : WellFormed s sector d) : s.freeMap[sector]? = some true :=
  h.marked sector List.mem_cons_self

theorem owned_marked (h : WellFormed s sector d) {x : ℕ} (hx : x ∈ owned s.blocks d) :
    s.freeMap[x]? = some true := h.marked x (List.mem_cons_of_mem _ hx)

theorem sector_lt (h : WellFormed s sector d) : sector < s.freeMap.length :=
  (List.getElem?_eq_some_iff.mp h.sector_marked).1

theorem of_quiet (h : WellFormed s sector d) (hq : Quiet s s') : WellFormed s' sector d where
  mapped := mapped_of_quiet h.mapped hq
  apart := by rw [hq.blocks]; exact h.apart
  marked := by rw [hq.blocks, hq.freeMap]; exact h.marked
  stored := by rw [hq.blocks]; exact h.stored
  markerLarge := by rw [hq.blocks]; exact h.markerLarge
  markerHuge := by rw [hq.blocks]; exact h.markerHuge
  huge := h.huge
  tail := by rw [hq.blocks]; exact h.tail

/-- The array that the end marker of a huge inode is in. -/
theorem marker_row (hn : n % sectorsPerArray ≠ 0) :
    n / sectorsPerArray < divRoundUp n sectorsPerArray := by
  unfold divRoundUp sectorsPerArray at *
  omega

end WellFormed

/-- **`byte_to_sector`** resolves a position to the sector of its block index. -/
theorem ends_byteToSector {Q : ℕ → Fs → Prop} (hm : Mapped s d) (hp : pos < d.length)
    (hok : ∀ s', Quiet s s' → Q (sectorOf s.blocks d (pos / blockSectorSize)) s')
    (hno : ∀ s', Quiet s s' → s.refused < s'.refused → s.answers s.asked = false →
      Q sectorInvalid s') : Ends (byteToSector d pos) s Q E := by
  have hk := div_lt_sectorCount hp
  have hcap := hm.sectorCount_le
  unfold byteToSector
  rw [if_neg (by omega)]
  have hq := quiet_requested s
  refine .bind (ends_request ?_)
  rcases ha : s.answers s.asked with _ | _
  · exact .pure (hno _ hq (by simp [Fs.requested, ha]) ha)
  rw [if_pos rfl]
  generalize s.requested = s' at hq ⊢
  have hb : s'.blocks = s.blocks := hq.blocks
  have hl : s'.freeMap.length = s.freeMap.length := by rw [hq.freeMap]
  have hlt := hm.sectorOf_lt hk
  have hdev := hm.device
  have hres := hok s' hq
  unfold sectorOf at hres hlt
  by_cases h1 : d.sizeType = inodeTypeSmall
  · rw [if_pos h1] at hres hlt ⊢
    rw [Nat.mod_eq_of_lt (by omega)]
    exact .pure hres
  have hstart : d.start < s'.freeMap.length := hl ▸ hm.index_lt (start_mem _ h1)
  rw [if_neg h1] at hres ⊢
  by_cases h2 : d.sizeType = inodeTypeLarge
  · rw [if_pos h2] at hres ⊢
    have hmax : maxSectors d.sizeType = sectorsPerArray := by rw [maxSectors, if_neg h1, if_pos h2]; rfl
    refine .bind (ends_readArray hstart (ends_load (by omega) ?_))
    rw [hb]
    exact hres
  have h3 : d.sizeType = inodeTypeHuge := (hm.sizeType.resolve_left h1).resolve_left h2
  have hmax : maxSectors d.sizeType = sectorsPerArray * sectorsPerArray := by
    rw [maxSectors, if_neg h1, if_neg h2]
    rfl
  have hrow : pos / blockSectorSize / sectorsPerArray < arrayCount d := row_lt hk
  have hrows : arrayCount d ≤ sectorsPerArray := divRoundUp_le (by omega)
  have harr : wordAt (s.blocks d.start) (pos / blockSectorSize / sectorsPerArray) < s'.freeMap.length :=
    hl ▸ hm.index_lt (array_mem _ h1 h2 hrow)
  rw [if_neg h2] at hres ⊢
  rw [if_pos h3]
  refine .bind (ends_readArray hstart ?_)
  rw [hb]
  refine .bind (ends_load (by omega) (.bind (ends_readArray harr ?_)))
  rw [hb]
  exact ends_load (Nat.mod_lt _ (by decide)) hres

/-- The same state, where every request is granted. -/
def granting (s : Fs) : Fs := { s with answers := fun _ => true }

/-- `byte_to_sector` resolves the positions of a block index to the sector, if its `calloc` succeeds. -/
def Resolves (s : Fs) (d : InodeDisk) (k sector : ℕ) : Prop :=
  ∀ pos < d.length, pos / blockSectorSize = k →
    Ends (byteToSector d pos) (granting s) (fun found _ => found = sector) fun _ => False

theorem resolves_sectorOf (hm : Mapped s d) (k : ℕ) : Resolves s d k (sectorOf s.blocks d k) := by
  rintro pos hpos rfl
  have hm' : Mapped (granting s) d := hm.congr (fun _ _ => rfl) rfl
  exact ends_byteToSector hm' hpos (fun _ _ => rfl) fun _ _ _ h => Bool.noConfusion (show true = false from h)

/-- A block index resolves to one sector. -/
theorem Resolves.unique {x y : ℕ} (h : Resolves s d k x) (h' : Resolves s d k y)
    (hk : k < sectorCount d) : x = y := by
  have hpos := lt_of_lt_sectorCount hk
  have hdiv : k * blockSectorSize / blockSectorSize = k := Nat.mul_div_cancel k (by decide)
  by_contra hne
  refine (((h _ hpos hdiv).and (h' _ hpos hdiv)).mono (fun r _ hr => ?_) fun _ hf => hf.1).elim
  exact hne (hr.1.symm.trans hr.2)


end Pintos.Filesys.InodeLayout
