import Pintos.Filesys.InodeIo

/-! # Creating an inode

`inode_create` and its three creators. -/

namespace Pintos.Filesys.InodeCreate

open Pintos.Filesys.FreeMap Pintos.Filesys.Sector Pintos.Filesys.Allocation Pintos.Filesys.InodeLayout
open Pintos.Kernel.Bitmap Pintos.Lib.Overlay Pintos.Lib.Stopping
open Pintos.Filesys.Bcache (SectorData blockSectorSize)

/-- The `disk_inode` of a creator. -/
def newInode (start length sizeType funcType parentSector : ℕ) : InodeDisk where
  start := start
  parent := parentSector
  length := length
  sizeType := sizeType
  funcType := funcType
  magic := inodeMagic

/-- `for (int i = 0; i < sectors; i++)`, with `k` rounds to go. -/
def clearSectors (start i : ℕ) : ℕ → FsCall Unit
  | 0 => return ()
  | k + 1 => do
    bcacheWrite (start + i) zeros
    clearSectors start (i + 1) k

def inodeCreateSmall (sector length funcType parentSector : ℕ) : FsCall Bool := do
  if ← calloc then
    match ← freeMapAllocate (bytesToSectors length) with
    | some start =>
      bcacheWrite sector (newInode start length inodeTypeSmall funcType parentSector).toSector
      clearSectors start 0 (bytesToSectors length)
      return true
    | none => return false
  else return false

def inodeCreateLarge (sector length funcType parentSector : ℕ) : FsCall Bool := do
  if ← calloc then
    if ← calloc then
      match ← freeMapAllocate 1 with
      | some arrLv1 =>
        match ← appendSectors (fun _ => 0) 0 (bytesToSectors length) with
        | some sectorArray =>
          writeArray arrLv1 (mark sectorArray (bytesToSectors length))
          bcacheWrite sector (newInode arrLv1 length inodeTypeLarge funcType parentSector).toSector
          return true
        | none => return false
      | none => return false
    else return false
  else return false

def inodeCreateHuge (sector length funcType parentSector : ℕ) : FsCall Bool := do
  if ← calloc then
    if ← calloc then
      if ← calloc then
        match ← freeMapAllocate 1 with
        | some arrLv1 =>
          match ← appendArrays (fun _ => return fun _ => 0) (hugeCount (bytesToSectors length)) (fun _ => 0)
            0 (divRoundUp (bytesToSectors length) sectorsPerArray) with
          | some sectorArray1 =>
            writeArray arrLv1
              (mark sectorArray1 (divRoundUp (bytesToSectors length) sectorsPerArray))
            bcacheWrite sector (newInode arrLv1 length inodeTypeHuge funcType parentSector).toSector
            return true
          | none => return false
        | none =>
          -- there is no `else`: `arr_lv1` is stored as it is
          let arrLv1 := (← get).junk
          bcacheWrite sector (newInode arrLv1 length inodeTypeHuge funcType parentSector).toSector
          return true
      else return false
    else return false
  else return false

def inodeCreate (sector : ℕ) (length : ℤ) (funcType parentSector : ℕ) : FsCall Bool :=
  if length < 0 then throw .assertion
  else if length ≤ blockSectorSize * inodeSmallSectors then
    inodeCreateSmall sector length.toNat funcType parentSector
  else if length ≤ blockSectorSize * inodeLargeSectors then
    inodeCreateLarge sector length.toNat funcType parentSector
  else if length ≤ blockSectorSize * inodeHugeSectors then
    inodeCreateHuge sector length.toNat funcType parentSector
  else return false

variable {s s' : Fs} {d : InodeDisk} {sector start length funcType parentSector n : ℕ} {E : Fs → Prop}

/-! ### A new inode -/

/-- The inode `d` at `sector` has been created out of free sectors, and all it holds is zero. -/
structure Created (s : Fs) (sector : ℕ) (d : InodeDisk) (s' : Fs) : Prop where
  took : Took s (owned s'.blocks d) {sector} s'
  wellFormed : WellFormed s' sector d
  zero : ∀ p < sectorCount d * blockSectorSize, content s'.blocks d p = 0

theorem bytesToSectors_eq (h : length + 511 < 2 ^ 31) :
    bytesToSectors length = divRoundUp length blockSectorSize := if_pos h

theorem newInode_fits {sizeType : ℕ} (h1 : start < 2 ^ 32) (h2 : length < 2 ^ 31)
    (h3 : sizeType < 2 ^ 8) (h4 : funcType < 2 ^ 8) (h5 : parentSector < 2 ^ 32) :
    (newInode start length sizeType funcType parentSector).Fits :=
  ⟨h1, h5, by show length < 2 ^ 32; omega, h3, h4, by show inodeMagic < 2 ^ 32; decide⟩

/-- What the creators have in common. -/
theorem Created.of_took (hs : s.freeMap[sector]? = some true) (hdev : s.freeMap.length < 2 ^ 32)
    (ht : Took s (owned s'.blocks d) {sector} s')
    (hkind : d.sizeType = inodeTypeSmall ∨ d.sizeType = inodeTypeLarge ∨ d.sizeType = inodeTypeHuge)
    (hlen : d.length ≤ maxSectors d.sizeType * blockSectorSize)
    (hz : ∀ x ∈ dataSectors s'.blocks d, s'.blocks x = zeros) (hst : s'.blocks sector = d.toSector)
    (hfits : d.Fits)
    (hl : d.sizeType = inodeTypeLarge → sectorCount d < sectorsPerArray →
      sectorOf s'.blocks d (sectorCount d) = sectorInvalid)
    (hh : d.sizeType = inodeTypeHuge → sectorCount d % sectorsPerArray ≠ 0 →
      sectorOf s'.blocks d (sectorCount d) = sectorInvalid)
    (hpos : d.sizeType = inodeTypeHuge → 0 < d.length) : Created s sector d s' := by
  have hzero : ∀ p < sectorCount d * blockSectorSize, content s'.blocks d p = 0 := by
    intro p hp
    have hk : p / blockSectorSize < sectorCount d := (Nat.div_lt_iff_lt_mul (by decide)).mpr hp
    rw [content, hz _ (sectorOf_mem _ hk), byteAt_zeros]
  refine ⟨ht, ⟨⟨hkind, hlen, ht.nodup, fun x hx => ?_, ht.size ▸ hdev⟩, ht.notMem hs, ?_, ?_, hl, hh, hpos,
    fun p _ hp => hzero p hp⟩, hzero⟩
  · rw [ht.size]
    exact ht.lt hx
  · exact List.forall_mem_cons.mpr ⟨ht.marked hs, ht.taken⟩
  · rw [hst, ofSector_toSector hfits]

/-! ### Small -/

theorem ends_clearSectors {Q : Unit → Fs → Prop} : ∀ (k i : ℕ) (s : Fs),
    start + i + k ≤ s.freeMap.length →
    (∀ s', Took s [] { x | start + i ≤ x ∧ x < start + i + k } s' → s'.refused = s.refused →
      (∀ x, start + i ≤ x → x < start + i + k → s'.blocks x = zeros) → Q () s') →
    Ends (clearSectors start i k) s Q E
  | 0, i, s, _, hok => .pure (hok s (Took.refl s) rfl fun x h1 h2 => by omega)
  | k + 1, i, s, hle, hok => by
    refine .bind (ends_bcacheWrite (by omega) ?_)
    refine ends_clearSectors k (i + 1) _ (by rw [put_freeMap]; omega) fun s' h1 hr hz => hok s' ?_ hr ?_
    · have h2 : Took s [] { x | start + i ≤ x ∧ x < start + i + (k + 1) } (s.put (start + i) zeros) :=
        (Took.refl s).put (.inr (show start + i ≤ start + i ∧ _ by omega)) zeros
      exact h2.absorb h1 fun x hx => .inr ⟨by have := hx.1; omega, by have := hx.2; omega⟩
    · intro x h3 h4
      rcases Nat.eq_or_lt_of_le h3 with rfl | h5
      · rw [h1.kept _ List.not_mem_nil fun hm => by have := hm.1; omega, put_blocks_self]
      · exact hz x (by omega) (by omega)

/-- **`inode_create_small`.** -/
theorem ends_inodeCreateSmall {Q : Bool → Fs → Prop} (hs : s.freeMap[sector]? = some true)
    (hdev : s.freeMap.length < 2 ^ 32) (hlen : length ≤ inodeSmallSectors * blockSectorSize)
    (hf : funcType < 2 ^ 8) (hp : parentSector < 2 ^ 32)
    (hok : ∀ s' start, Created s sector (newInode start length inodeTypeSmall funcType parentSector) s' →
      s'.refused = s.refused → Q true s')
    (hno : ∀ s' xs, Took s xs ∅ s' → s.refused < s'.refused → Q false s') :
    Ends (inodeCreateSmall sector length funcType parentSector) s Q E := by
  have hlen' : length ≤ 32768 := hlen
  have hcnt : bytesToSectors length = divRoundUp length blockSectorSize :=
    bytesToSectors_eq (by omega)
  have hsec : sector < s.freeMap.length := (List.getElem?_eq_some_iff.mp hs).1
  refine .bind (ends_calloc (fun s₁ h1 hr1 => ?_) fun s₁ h1 hr => .pure (hno s₁ [] (Took.of_quiet h1) hr))
  rw [if_pos rfl, hcnt]
  refine .bind (ends_allocate (W := ∅) (fun s₂ start hle h2 hr2 => ?_)
    fun s₂ h2 hr _ => .pure (hno s₂ [] (Took.of_quiet (h1.trans h2)) (h1.refused.trans_lt hr)))
  have h12 : Took s (List.range' start (divRoundUp length blockSectorSize)) ∅ s₂ := by
    have := (Took.of_quiet (W := ∅) h1).trans h2
    rwa [List.nil_append] at this
  have hsize : s₁.freeMap.length = s.freeMap.length := by rw [h1.freeMap]
  refine .bind (ends_bcacheWrite (by rw [h12.size]; exact hsec) ?_)
  have h3 := (h12.mono (Set.empty_subset {sector})).put (.inr rfl)
    (newInode start length inodeTypeSmall funcType parentSector).toSector
  refine .bind (ends_clearSectors _ _ _ (by rw [put_freeMap, h2.size]; omega) fun s' h4 hr4 hz => .pure ?_)
  have hin : ∀ x, start + 0 ≤ x ∧ x < start + 0 + divRoundUp length blockSectorSize →
      x ∈ List.range' start (divRoundUp length blockSectorSize) := fun x hx =>
    List.mem_range'_1.mpr (by omega)
  refine hok s' start ?_ (hr4.trans (hr2.trans hr1))
  refine .of_took hs hdev ?_ (.inl rfl) hlen (fun x hx => ?_) ?_
    (newInode_fits (by omega) (by omega) (by decide) hf hp) (fun h => absurd h small_ne_large)
    (fun h => absurd h small_ne_huge) fun h => absurd h small_ne_huge
  · rw [owned_small _ rfl]
    exact h3.absorb h4 fun x hx => .inl (hin x hx)
  · have hx' : x ∈ owned s'.blocks (newInode start length inodeTypeSmall funcType parentSector) :=
      List.mem_append_right _ hx
    rw [owned_small _ rfl] at hx'
    obtain ⟨h5, h6⟩ := List.mem_range'_1.mp hx'
    exact hz x h5 h6
  · have hns : ¬(start + 0 ≤ sector ∧ sector < start + 0 + divRoundUp length blockSectorSize) :=
      fun h => h12.notMem hs (hin sector h)
    rw [h4.kept sector List.not_mem_nil hns, put_blocks_self]

/-! ### Large -/

/-- A large inode whose array and data sectors are new. -/
theorem Created.of_array {s₁ s₂ s₃ : Fs} {a : SectorArray} (hs : s.freeMap[sector]? = some true)
    (hdev : s.freeMap.length < 2 ^ 32) (ht : d.sizeType = inodeTypeLarge) (hfits : d.Fits)
    (hlen : d.length ≤ inodeLargeSectors * blockSectorSize) (h1 : Took s [d.start] ∅ s₁)
    (h2 : Took s₁ (slice a 0 (sectorCount d)) ∅ s₂)
    (hz : ∀ x ∈ slice a 0 (sectorCount d), s₂.blocks x = zeros)
    (h3 : s₃ = (s₂.put d.start (ofWords (mark a (sectorCount d)))).put sector d.toSector) :
    Created s sector d s₃ := by
  have h12 := h1.trans h2
  have hmem : d.start ∈ [d.start] ++ slice a 0 (sectorCount d) := List.mem_cons_self
  have hns := h12.notMem hs
  have hne : d.start ≠ sector := fun h => hns (h ▸ hmem)
  have harr : s₃.blocks d.start = ofWords (mark a (sectorCount d)) := by
    rw [h3, put_blocks_of_ne hne, put_blocks_self]
  have ha : ∀ j < sectorCount d, a j < 2 ^ 32 := by
    intro j hj
    have hm : a j ∈ slice a 0 (sectorCount d) := mem_slice.mpr ⟨j, by omega, rfl⟩
    have := h12.lt (List.mem_append_right _ hm)
    omega
  have hn : sectorCount d ≤ sectorsPerArray := sectorCount_le hlen
  have hdata := dataSectors_array ht harr ha hn
  have hmax : maxSectors d.sizeType = inodeLargeSectors := by rw [ht]; rfl
  refine .of_took hs hdev ?_ (.inr (.inl ht)) (by rw [hmax]; exact hlen) (fun x hx => ?_)
    (by rw [h3, put_blocks_self]) hfits (fun _ hlt => sectorOf_marker ht harr ha hlt)
    (fun h => absurd (ht.symm.trans h) large_ne_huge) fun h => absurd (ht.symm.trans h) large_ne_huge
  · rw [owned, indexSectors_large _ ht, hdata, h3]
    exact ((h12.put (.inl hmem) _).mono (Set.empty_subset {sector})).put (.inr rfl) _
  · rw [hdata] at hx
    have hxs : x ≠ sector := fun h => hns (h ▸ List.mem_append_right _ hx)
    have hxa : x ≠ d.start := fun h => (List.nodup_cons.mp h12.nodup).1 (h ▸ hx)
    rw [h3, put_blocks_of_ne hxs, put_blocks_of_ne hxa, hz x hx]

/-- **`inode_create_large`.** -/
theorem ends_inodeCreateLarge {Q : Bool → Fs → Prop} (hs : s.freeMap[sector]? = some true)
    (hdev : s.freeMap.length < 2 ^ 32) (hlen : length ≤ inodeLargeSectors * blockSectorSize)
    (hf : funcType < 2 ^ 8) (hp : parentSector < 2 ^ 32)
    (hok : ∀ s' start, Created s sector (newInode start length inodeTypeLarge funcType parentSector) s' →
      s'.refused = s.refused → Q true s')
    (hno : ∀ s' xs, Took s xs ∅ s' → s.refused < s'.refused → Q false s') :
    Ends (inodeCreateLarge sector length funcType parentSector) s Q E := by
  have hlen' : length ≤ 65536 := hlen
  have hcnt : bytesToSectors length = divRoundUp length blockSectorSize :=
    bytesToSectors_eq (by omega)
  have hn : divRoundUp length blockSectorSize ≤ sectorsPerArray := by
    unfold divRoundUp blockSectorSize sectorsPerArray
    omega
  have hsec : sector < s.freeMap.length := (List.getElem?_eq_some_iff.mp hs).1
  refine .bind (ends_calloc (fun s₁ h1 hr1 => ?_) fun s₁ h1 hr => .pure (hno s₁ [] (Took.of_quiet h1) hr))
  rw [if_pos rfl]
  refine .bind (ends_calloc (fun s₂ h2 hr2 => ?_) fun s₂ h2 hr =>
    .pure (hno s₂ [] (Took.of_quiet (h1.trans h2)) (h1.refused.trans_lt hr)))
  rw [if_pos rfl, hcnt]
  have h12 := h1.trans h2
  refine .bind (ends_allocateOne (W := ∅) (fun s₃ arr h3 hr3 => ?_) fun s₃ h3 hr _ =>
    .pure (hno s₃ [] (Took.of_quiet (h12.trans h3)) (h12.refused.trans_lt hr)))
  have h4 : Took s [arr] ∅ s₃ := (Took.of_quiet h12).trans h3
  refine .bind (ends_appendSectors _ _ _ _ (by omega) (fun s₄ a h5 hz _ hr5 => ?_) fun s₄ xs h5 hr =>
    .pure (hno s₄ _ (h4.trans h5) (h4.refused.trans_lt hr)))
  have h6 := h4.trans h5
  have harr : arr < s₄.freeMap.length := h6.size ▸ h6.lt List.mem_cons_self
  refine .bind (ends_writeArray harr (.bind (ends_bcacheWrite ?_ (.pure ?_))))
  · rw [put_freeMap, h6.size]
    exact hsec
  · refine hok _ arr (.of_array hs hdev rfl (newInode_fits ?_ (by omega) (by decide) hf hp) hlen h4 h5 hz
      rfl) (hr5.trans (hr3.trans (hr2.trans hr1)))
    have := h4.lt List.mem_cons_self
    omega

/-! ### Huge -/

/-- A huge inode whose arrays and data sectors are new. -/
theorem Created.of_arrays {s₁ s₂ s₃ : Fs} {a : SectorArray} (hs : s.freeMap[sector]? = some true)
    (hdev : s.freeMap.length < 2 ^ 32) (ht : d.sizeType = inodeTypeHuge) (hfits : d.Fits)
    (hlen : d.length ≤ inodeHugeSectors * blockSectorSize) (hpos : 0 < d.length)
    (h1 : Took s [d.start] ∅ s₁)
    (h2 : Filled s₁ a (hugeCount (sectorCount d)) 0 (arrayCount d) s₂)
    (h3 : s₃ = (s₂.put d.start (ofWords (mark a (arrayCount d)))).put
      sector d.toSector) : Created s sector d s₃ := by
  have h12 := h1.trans h2.took
  have hmem : d.start ∈ [d.start] ++ (slice a 0 (arrayCount d) ++
      rowsOf s₂.blocks a (hugeCount (sectorCount d)) 0 (arrayCount d)) :=
    List.mem_cons_self
  have hns := h12.notMem hs
  have hne : d.start ≠ sector := fun h => hns (h ▸ hmem)
  have hrest : ∀ x ∈ slice a 0 (arrayCount d) ++
      rowsOf s₂.blocks a (hugeCount (sectorCount d)) 0 (arrayCount d),
      s₃.blocks x = s₂.blocks x := by
    intro x hx
    have hxs : x ≠ sector := fun h => hns (h ▸ List.mem_append_right _ hx)
    have hxa : x ≠ d.start := fun h => (List.nodup_cons.mp h12.nodup).1 (h ▸ hx)
    rw [h3, put_blocks_of_ne hxs, put_blocks_of_ne hxa]
  have hcap : arrayCount d ≤ sectorsPerArray :=
    divRoundUp_le (sectorCount_le hlen)
  have hamem : ∀ q < arrayCount d,
      a q ∈ slice a 0 (arrayCount d) := fun q hq =>
    mem_slice.mpr ⟨q, by omega, rfl⟩
  have hword : ∀ q < arrayCount d, wordAt (s₃.blocks d.start) q = a q := by
    intro q hq
    have hlt := h12.lt (List.mem_append_right _ (List.mem_append_left _ (hamem q hq)))
    rw [h3, put_blocks_of_ne hne, put_blocks_self, wordAt_mark hq.le (by omega) fun _ => by omega,
      if_neg (by omega)]
  have hidx : indexSectors s₃.blocks d =
      d.start :: slice a 0 (arrayCount d) := by
    rw [indexSectors_huge _ ht]
    exact congrArg _ (slice_congr fun q _ hq => hword q (by omega))
  have hrow : ∀ q < arrayCount d, s₃.blocks (a q) = s₂.blocks (a q) :=
    fun q hq => hrest _ (List.mem_append_left _ (hamem q hq))
  have hdata : dataSectors s₃.blocks d = rowsOf s₂.blocks a (hugeCount (sectorCount d)) 0
      (arrayCount d) := by
    rw [dataSectors_huge _ ht]
    refine rowsOf_congr fun q _ hq => ?_
    rw [hword q (by omega), hrow q (by omega)]
    exact ⟨rfl, rfl⟩
  have hmax : maxSectors d.sizeType = inodeHugeSectors := by rw [ht]; rfl
  refine .of_took hs hdev ?_ (.inr (.inr ht)) (by rw [hmax]; exact hlen) (fun x hx => ?_)
    (by rw [h3, put_blocks_self]) hfits (fun h => absurd (h.symm.trans ht) large_ne_huge) (fun _ hn => ?_)
    fun _ => hpos
  · rw [owned, hidx, hdata, h3]
    exact ((h12.put (.inl hmem) _).mono (Set.empty_subset {sector})).put (.inr rfl) _
  · rw [hdata] at hx
    rw [hrest x (List.mem_append_right _ hx), h2.zero x hx]
  · have hq : sectorCount d / sectorsPerArray < arrayCount d := by
      unfold arrayCount divRoundUp sectorsPerArray at *
      omega
    have hc : hugeCount (sectorCount d) (sectorCount d / sectorsPerArray) =
        sectorCount d % sectorsPerArray := by
      rw [hugeCount_eq hq]
      unfold sectorsPerArray
      omega
    rw [sectorOf_huge _ ht, hword _ hq, hrow _ hq, ← hc]
    exact h2.marker _ (Nat.zero_le _) (by omega) (by rw [hc]; exact Nat.mod_lt _ (by decide))

/-- The sector of the index array is refused to `inode_create_huge`, after its three `calloc`s. -/
def IndexRefused (s : Fs) : Prop :=
  s.answers s.asked = true ∧ s.answers (s.asked + 1) = true ∧ s.answers (s.asked + 2) = true ∧
    (bitmapScan s.freeMap 0 1 false = none ∨ s.answers (s.asked + 3) = false)

/-- **`inode_create_huge`**, which does not look at whether the sector of its index array could be
allocated. -/
theorem ends_inodeCreateHuge {Q : Bool → Fs → Prop} (hs : s.freeMap[sector]? = some true)
    (hdev : s.freeMap.length < 2 ^ 32) (hpos : 0 < length)
    (hlen : length ≤ inodeHugeSectors * blockSectorSize) (hf : funcType < 2 ^ 8)
    (hp : parentSector < 2 ^ 32)
    (hok : ∀ s' start, Created s sector (newInode start length inodeTypeHuge funcType parentSector) s' →
      s'.refused = s.refused → Q true s')
    (hno : ∀ s' xs, Took s xs ∅ s' → s.refused < s'.refused → Q false s')
    (hjunk : ∀ s', Quiet s s' → s.refused < s'.refused → IndexRefused s →
      Q true (s'.put sector (newInode s.junk length inodeTypeHuge funcType parentSector).toSector)) :
    Ends (inodeCreateHuge sector length funcType parentSector) s Q E := by
  have hlen' : length ≤ 8388608 := hlen
  have hcnt : bytesToSectors length = divRoundUp length blockSectorSize :=
    bytesToSectors_eq (by omega)
  have hsec : sector < s.freeMap.length := (List.getElem?_eq_some_iff.mp hs).1
  have h1 := quiet_requested s
  have h12 := h1.trans (quiet_requested s.requested)
  have h13 := h12.trans (quiet_requested s.requested.requested)
  have hstep : ∀ s : Fs, s.answers s.asked = true → s.requested.refused = s.refused := fun s h => by
    simp [Fs.requested, h]
  have hstep' : ∀ s : Fs, s.answers s.asked = false → s.refused < s.requested.refused := fun s h => by
    simp [Fs.requested, h]
  refine .bind (ends_request ?_)
  rcases ha1 : s.answers s.asked with _ | _
  · exact .pure (hno _ [] (Took.of_quiet h1) (hstep' s ha1))
  rw [if_pos rfl]
  refine .bind (ends_request ?_)
  rcases ha2 : s.requested.answers s.requested.asked with _ | _
  · exact .pure (hno _ [] (Took.of_quiet h12) (h1.refused.trans_lt (hstep' _ ha2)))
  rw [if_pos rfl]
  refine .bind (ends_request ?_)
  rcases ha3 : s.requested.requested.answers s.requested.requested.asked with _ | _
  · exact .pure (hno _ [] (Took.of_quiet h13) (h12.refused.trans_lt (hstep' _ ha3)))
  rw [if_pos rfl, hcnt]
  have hr3 : s.requested.requested.requested.refused = s.refused :=
    (hstep _ ha3).trans ((hstep _ ha2).trans (hstep _ ha1))
  refine .bind (ends_allocateOne (W := ∅) (fun s₄ arr h4 hr4 => ?_) fun s₄ h4 hr hg => ?_)
  swap
  · have h14 := h13.trans h4
    refine .bind (.get (.bind (ends_bcacheWrite (by rw [h14.freeMap]; exact hsec) (.pure ?_))))
    rw [h14.junk]
    exact hjunk s₄ h14 (h13.refused.trans_lt hr) ⟨ha1, ha2, ha3, hg⟩
  have h5 : Took s [arr] ∅ s₄ := (Took.of_quiet h13).trans h4
  have hcap : 0 + divRoundUp (divRoundUp length blockSectorSize) sectorsPerArray ≤ sectorsPerArray := by
    unfold divRoundUp blockSectorSize sectorsPerArray
    omega
  have hdev4 : s₄.freeMap.length ≤ 2 ^ 32 := by
    rw [h5.size]
    omega
  refine .bind (ends_appendArrays (hugeCount_le _) (fun x s R _ hR => .pure (hR _)) _ _ _ _ hdev4 hcap
    (fun s₅ a h6 _ hr6 => ?_) fun s₅ xs h6 hr => .pure (hno s₅ _ (h5.trans h6) (h5.refused.trans_lt hr)))
  have h7 := h5.trans h6.took
  have harr : arr < s₅.freeMap.length := h7.size ▸ h7.lt List.mem_cons_self
  refine .bind (ends_writeArray harr (.bind (ends_bcacheWrite ?_ (.pure ?_))))
  · rw [put_freeMap, h7.size]
    exact hsec
  · refine hok _ arr (.of_arrays hs hdev rfl (newInode_fits ?_ (by omega) (by decide) hf hp) hlen hpos h5 h6
      rfl) (hr6.trans (hr4.trans hr3))
    have := h5.lt List.mem_cons_self
    omega

/-- Where the index array is refused, an inode is stored all the same. -/
theorem ends_inodeCreateHuge_refused {Q : Bool → Fs → Prop} (h : IndexRefused s)
    (hsec : sector < s.freeMap.length) (hjunk : ∀ s', Quiet s s' → s.refused < s'.refused →
      Q true (s'.put sector (newInode s.junk length inodeTypeHuge funcType parentSector).toSector)) :
    Ends (inodeCreateHuge sector length funcType parentSector) s Q E := by
  obtain ⟨h1, h2, h3, h4⟩ := h
  have h13 := ((quiet_requested s).trans (quiet_requested _)).trans (quiet_requested _)
  refine .bind (ends_request ?_)
  rw [h1, if_pos rfl]
  refine .bind (ends_request ?_)
  rw [show s.requested.answers s.requested.asked = true from h2, if_pos rfl]
  refine .bind (ends_request ?_)
  rw [show s.requested.requested.answers s.requested.requested.asked = true from h3, if_pos rfl]
  refine .bind (ends_freeMapAllocate_none h4 fun s' hq hr => ?_)
  have h14 := h13.trans hq
  refine .bind (.get (.bind (ends_bcacheWrite (by rw [h14.freeMap]; exact hsec) (.pure ?_))))
  rw [h14.junk]
  exact hjunk s' h14 (h13.refused.trans_lt hr)

/-! ### What success means -/

def storedInode (s : Fs) (sector : ℕ) : InodeDisk := .ofSector (s.blocks sector)

/-- The inode stored at `sector` has the length, type and parent that were asked for, its block indices
resolve to sectors of their own, which were free before, and it reads as zero. -/
structure Usable (s : Fs) (sector length funcType parentSector : ℕ) (s' : Fs) : Prop where
  sameLength : (storedInode s' sector).length = length
  sameType : (storedInode s' sector).funcType = funcType
  sameParent : (storedInode s' sector).parent = parentSector
  mapped : Mapped s' (storedInode s' sector)
  resolves : ∀ k < sectorCount (storedInode s' sector),
    Resolves s' (storedInode s' sector) k (sectorOf s'.blocks (storedInode s' sector) k)
  taken : ∀ x ∈ owned s'.blocks (storedInode s' sector),
    s.freeMap[x]? = some false ∧ s'.freeMap[x]? = some true
  zero : ∀ p < length, content s'.blocks (storedInode s' sector) p = 0

theorem Created.usable (h : Created s sector d s') :
    Usable s sector d.length d.funcType d.parent s' := by
  have hd : storedInode s' sector = d := h.wellFormed.stored
  refine ⟨by rw [hd], by rw [hd], by rw [hd], ?_, ?_, ?_, ?_⟩ <;> rw [hd]
  · exact h.wellFormed.mapped
  · exact fun k _ => resolves_sectorOf h.wellFormed.mapped k
  · exact fun x hx => ⟨h.took.free x hx, h.took.taken x hx⟩
  · intro p hp
    exact h.zero p ((Nat.div_lt_iff_lt_mul (by decide)).mp (div_lt_sectorCount hp))

/-- What a result of `inode_create` promises. -/
def Honest (s : Fs) (sector length funcType parentSector : ℕ) (success : Bool) (s' : Fs) : Prop :=
  (success = true → Usable s sector length funcType parentSector s') ∧
    (s.refused < s'.refused → success = false)

/-- The failure that `inode_create_huge` does not notice. -/
theorem not_honest_of_refused {len : ℤ} (h : inodeLargeSectors * blockSectorSize < len)
    (hmax : len ≤ inodeHugeSectors * blockSectorSize) (hr : IndexRefused s)
    (hsec : sector < s.freeMap.length) :
    ¬Ends (inodeCreate sector len funcType parentSector) s
      (Honest s sector len.toNat funcType parentSector) fun _ => False := by
  intro hends
  have h' : (65536 : ℤ) < len := h
  have hmax' : len ≤ 8388608 := hmax
  have h1 : ¬len ≤ blockSectorSize * inodeSmallSectors := by
    show ¬len ≤ 32768
    omega
  have h2 : ¬len ≤ blockSectorSize * inodeLargeSectors := by
    show ¬len ≤ 65536
    omega
  have h3 : len ≤ blockSectorSize * inodeHugeSectors := hmax'
  have hjunk : Ends (inodeCreate sector len funcType parentSector) s
      (fun success s' => success = true ∧ s.refused < s'.refused) fun _ => False := by
    unfold inodeCreate
    rw [if_neg (by omega), if_neg h1, if_neg h2, if_pos h3]
    exact ends_inodeCreateHuge_refused hr hsec fun s' _ hlt => ⟨rfl, hlt⟩
  refine ((hends.and hjunk).mono (fun success s' hs => ?_) fun _ hs => hs.1).elim
  obtain ⟨⟨-, h4⟩, h5, h6⟩ := hs
  rw [h4 h6] at h5
  cases h5

/-- **A true result of `inode_create` means a usable inode, and a refused allocation a false one**, unless
the index array of a huge inode is refused its sector. -/
theorem inodeCreate_honest (s : Fs) (sector : ℕ) (len : ℤ) (funcType parentSector : ℕ) (h0 : 0 ≤ len)
    (hmax : len ≤ inodeHugeSectors * blockSectorSize) (hs : s.freeMap[sector]? = some true)
    (hdev : s.freeMap.length < 2 ^ 32) (hf : funcType < 2 ^ 8) (hp : parentSector < 2 ^ 32) :
    Ends (inodeCreate sector len funcType parentSector) s
        (Honest s sector len.toNat funcType parentSector) (fun _ => False) ↔
      ¬(inodeLargeSectors * blockSectorSize < len ∧ IndexRefused s) := by
  have hsec : sector < s.freeMap.length := (List.getElem?_eq_some_iff.mp hs).1
  refine ⟨fun hends hbad => not_honest_of_refused hbad.1 hmax hbad.2 hsec hends, fun hgood => ?_⟩
  have hmax' : len ≤ 8388608 := hmax
  have hcreated : ∀ s' start sizeType, Created s sector (newInode start len.toNat sizeType funcType
      parentSector) s' → s'.refused = s.refused → Honest s sector len.toNat funcType parentSector true s' :=
    fun s' _ _ h hr => ⟨fun _ => h.usable, fun hlt => by omega⟩
  have hfailed : ∀ s' xs, Took s xs ∅ s' → s.refused < s'.refused →
      Honest s sector len.toNat funcType parentSector false s' :=
    fun _ _ _ _ => ⟨fun h => absurd h (by decide), fun _ => rfl⟩
  unfold inodeCreate
  rw [if_neg (by omega)]
  refine .ite (fun h1 => ?_) fun h1 => .ite (fun h2 => ?_) fun h2 => .ite (fun _ => ?_) fun h3 => ?_
  · have h1' : len ≤ 32768 := h1
    exact ends_inodeCreateSmall hs hdev (by show len.toNat ≤ 32768; omega) hf hp
      (fun s' _ => hcreated s' _ _) hfailed
  · have h2' : len ≤ 65536 := h2
    exact ends_inodeCreateLarge hs hdev (by show len.toNat ≤ 65536; omega) hf hp
      (fun s' _ => hcreated s' _ _) hfailed
  · have h2' : ¬len ≤ 65536 := h2
    refine ends_inodeCreateHuge hs hdev (by omega) (by show len.toNat ≤ 8388608; omega) hf hp
      (fun s' _ => hcreated s' _ _) hfailed fun s' _ _ hr => absurd ⟨?_, hr⟩ hgood
    show (65536 : ℤ) < len
    omega
  · exact absurd hmax' h3

/-- A file of one byte, with one sector left. -/
theorem inodeCreate_honest_byte :
    Ends (inodeCreate 2 1 0 1) ⟨fun _ => zeros, [true, true, true, false], 0, fun _ => true, 0, 0, []⟩
      (Honest ⟨fun _ => zeros, [true, true, true, false], 0, fun _ => true, 0, 0, []⟩ 2 1 0 1)
      fun _ => False :=
  (inodeCreate_honest _ 2 1 0 1 (by decide) (by decide) rfl (by decide) (by decide) (by decide)).mpr
    fun h => absurd h.1 (by decide)

/-- A file of 64 KiB and one byte, on a device that is full: an inode is stored, and its index array is what
happened to be in `arr_lv1`. -/
theorem not_inodeCreate_honest :
    ¬Ends (inodeCreate 2 65537 0 1) ⟨fun _ => zeros, [true, true, true], 7, fun _ => true, 0, 0, []⟩
      (Honest ⟨fun _ => zeros, [true, true, true], 7, fun _ => true, 0, 0, []⟩ 2 65537 0 1)
      fun _ => False :=
  not_honest_of_refused (by decide) (by decide) ⟨rfl, rfl, rfl, .inl rfl⟩ (by decide)

end Pintos.Filesys.InodeCreate
