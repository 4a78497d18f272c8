import Pintos.Filesys.InodeGrow

/-! # Growth of a huge inode

"expand huge" of `inode_expand_sectors`: within the last array, where it does what it should, and past it. -/

namespace Pintos.Filesys.InodeGrowHuge

open Pintos.Filesys.FreeMap Pintos.Filesys.Sector Pintos.Filesys.Allocation Pintos.Filesys.InodeLayout
open Pintos.Filesys.InodeIo Pintos.Filesys.InodeCreate Pintos.Filesys.InodeExpand
open Pintos.Filesys.InodeReadWrite Pintos.Filesys.InodeGrow
open Pintos.Kernel.Bitmap Pintos.Lib.Overlay Pintos.Lib.Stopping
open Pintos.Filesys.Bcache (SectorData blockSectorSize)

variable {s s' : Fs} {d d' : InodeDisk} {inode : Inode} {xs ys : List ℕ} {sector newSize k p q : ℕ}
  {E : Fs → Prop}

/-! ### The arrays of a huge inode -/

/-- The sector of the array `q`. -/
def arrayOf (blocks : ℕ → SectorData) (d : InodeDisk) (q : ℕ) : ℕ := wordAt (blocks d.start) q

theorem sectorCount_pos (h : 0 < d.length) : 0 < sectorCount d := by
  unfold sectorCount divRoundUp blockSectorSize
  omega

theorem pred32_eq {c : ℕ} (h1 : 0 < c) (h2 : c ≤ 2 ^ 32) : pred32 c = c - 1 := by
  unfold pred32
  omega

theorem divRoundUp_pos {n : ℕ} (h : 0 < n) : 0 < divRoundUp n sectorsPerArray := by
  unfold divRoundUp sectorsPerArray
  omega

theorem lastCount_eq {n : ℕ} (h : 0 < n) :
    lastCount n = n - sectorsPerArray * (divRoundUp n sectorsPerArray - 1) := by
  unfold lastCount divRoundUp sectorsPerArray
  split_ifs <;> omega

/-- The block indices of a huge inode that has grown within its last array. -/
theorem lastArray_index {n n' k : ℕ} (hn : 0 < n)
    (hc : divRoundUp n' sectorsPerArray = divRoundUp n sectorsPerArray) (hk : k < n') :
    k < n ∧ k / sectorsPerArray < divRoundUp n sectorsPerArray - 1 ∨
      k / sectorsPerArray = divRoundUp n sectorsPerArray - 1 ∧
        k % sectorsPerArray < lastCount n' ∧ k % sectorsPerArray + n = lastCount n + k := by
  unfold lastCount divRoundUp sectorsPerArray at *
  split_ifs <;> omega

theorem lastCount_marker {n n' : ℕ} (hn : 0 < n)
    (hc : divRoundUp n' sectorsPerArray = divRoundUp n sectorsPerArray) (h : n' % sectorsPerArray ≠ 0) :
    n' / sectorsPerArray = divRoundUp n sectorsPerArray - 1 ∧ n' % sectorsPerArray = lastCount n' ∧
      lastCount n' < sectorsPerArray := by
  unfold lastCount divRoundUp sectorsPerArray at *
  rw [if_neg h]
  omega

section huge

variable (hwf : WellFormed s sector d) (ht : d.sizeType = inodeTypeHuge)
include hwf ht

theorem sectorCount_le_huge : sectorCount d ≤ sectorsPerArray * sectorsPerArray := by
  have h := hwf.mapped.sectorCount_le
  rw [ht] at h
  exact h

theorem arrayCount_pos : 0 < arrayCount d := divRoundUp_pos (sectorCount_pos (hwf.huge ht))

theorem arrayCount_le : arrayCount d ≤ sectorsPerArray := divRoundUp_le (sectorCount_le_huge hwf ht)

omit hwf in
theorem arrayOf_mem (hq : q < arrayCount d) : arrayOf s.blocks d q ∈ indexSectors s.blocks d := by
  rw [indexSectors_huge _ ht]
  exact List.mem_cons_of_mem _ (mem_slice.mpr ⟨q, by omega, rfl⟩)

theorem index_nodup : (d.start :: slice (arrayOf s.blocks d) 0 (arrayCount d)).Nodup := by
  have h := (List.nodup_append.mp hwf.mapped.nodup).1
  rwa [indexSectors_huge _ ht] at h

theorem arrayOf_injective {r : ℕ} (hq : q < arrayCount d) (hr : r < arrayCount d)
    (h : arrayOf s.blocks d q = arrayOf s.blocks d r) : q = r :=
  slice_injective (List.nodup_cons.mp (index_nodup hwf ht)).2 (by omega) (by omega) h

theorem arrayOf_ne_start (hq : q < arrayCount d) : arrayOf s.blocks d q ≠ d.start := fun h =>
  (List.nodup_cons.mp (index_nodup hwf ht)).1 (mem_slice.mpr ⟨q, by omega, h⟩)

theorem index_ne_sector {x : ℕ} (hx : x ∈ indexSectors s.blocks d) : x ≠ sector := by
  have _ := ht
  exact fun h => hwf.apart (h ▸ List.mem_append_left _ hx)

end huge

/-! ### Within the last array -/

/-- New sectors are appended to the last array of a huge inode. -/
theorem Extended.of_lastArray {s₂ : Fs} {a : SectorArray} (hwf : WellFormed s sector d)
    (ht : d.sizeType = inodeTypeHuge) (hd : d' = { d with length := newSize }) (hfits : d'.Fits)
    (h1 : d.length ≤ newSize) (h2 : newSize ≤ maxHuge) (hc : arrayCount d' = arrayCount d)
    (htook : Took s (slice a (lastCount (sectorCount d)) (sectorCount d' - sectorCount d)) ∅ s₂)
    (hz : ∀ x ∈ slice a (lastCount (sectorCount d)) (sectorCount d' - sectorCount d),
      s₂.blocks x = zeros)
    (ha : ∀ j < lastCount (sectorCount d),
      a j = wordAt (s.blocks (arrayOf s.blocks d (arrayCount d - 1))) j)
    (hs' : s' = (s₂.put (arrayOf s.blocks d (arrayCount d - 1))
      (ofWords (mark a (lastCount (sectorCount d'))))).put sector d'.toSector) :
    Extended s sector d d' [] (slice a (lastCount (sectorCount d)) (sectorCount d' - sectorCount d)) s' ∧
      WellFormed s' sector d' := by
  have ht' : d'.sizeType = inodeTypeHuge := by rw [hd, ← ht]
  have hlen : d'.length = newSize := by rw [hd]
  have hstart : d'.start = d.start := by rw [hd]
  have hpos := arrayCount_pos hwf ht
  have hmono : sectorCount d ≤ sectorCount d' := sectorCount_mono (by rw [hlen]; exact h1)
  have hn : 0 < sectorCount d := sectorCount_pos (hwf.huge ht)
  have hlast : arrayOf s.blocks d (arrayCount d - 1) ∈ indexSectors s.blocks d :=
    arrayOf_mem ht (by omega)
  have hmarked : ∀ x ∈ indexSectors s.blocks d, s.freeMap[x]? = some true := fun x hx =>
    hwf.owned_marked (List.mem_append_left _ hx)
  -- the index sectors but the last array are as they were
  have hidx : ∀ x ∈ indexSectors s.blocks d, x ≠ arrayOf s.blocks d (arrayCount d - 1) →
      s'.blocks x = s.blocks x := by
    intro x hx hne
    rw [hs', put_blocks_of_ne (index_ne_sector hwf ht hx), put_blocks_of_ne hne,
      htook.blocks (hmarked x hx) (Set.notMem_empty x)]
  have hfirst : s'.blocks d'.start = s.blocks d.start := by
    rw [hstart]
    exact hidx _ (start_mem _ (ht ▸ small_ne_huge.symm)) (arrayOf_ne_start hwf ht (by omega)).symm
  have hrow : s'.blocks (arrayOf s.blocks d (arrayCount d - 1)) =
      ofWords (mark a (lastCount (sectorCount d'))) := by
    rw [hs', put_blocks_of_ne (index_ne_sector hwf ht hlast), put_blocks_self]
  have halt : ∀ j < lastCount (sectorCount d'), a j < 2 ^ 32 := by
    intro j hj
    rcases Nat.lt_or_ge j (lastCount (sectorCount d)) with hj' | hj'
    · rw [ha j hj']
      exact wordAt_lt _ _
    · have hm : a j ∈ slice a (lastCount (sectorCount d)) (sectorCount d' - sectorCount d) := by
        have h3 := lastCount_eq hn
        have h4 := lastCount_eq (hn.trans_le hmono)
        rw [show divRoundUp (sectorCount d') sectorsPerArray = divRoundUp (sectorCount d) sectorsPerArray
          from hc] at h4
        exact mem_slice.mpr ⟨j, by omega, rfl⟩
      exact (htook.lt hm).trans hwf.mapped.device
  have hsec : ∀ j, j / sectorsPerArray = arrayCount d - 1 → j % sectorsPerArray ≤ lastCount (sectorCount d') →
      sectorOf s'.blocks d' j = if j % sectorsPerArray = lastCount (sectorCount d') then sectorInvalid
        else a (j % sectorsPerArray) := by
    intro j h3 h4
    rw [sectorOf_huge _ ht', hfirst, h3]
    show wordAt (s'.blocks (arrayOf s.blocks d (arrayCount d - 1))) _ = _
    rw [hrow, wordAt_mark h4 (Nat.mod_lt _ (by decide)) fun h => halt _ h]
  have hold : ∀ j < sectorCount d, sectorOf s'.blocks d' j = sectorOf s.blocks d j := by
    intro j hj
    rcases lastArray_index hn hc (hj.trans_le hmono) with ⟨-, h3⟩ | ⟨h3, h4, h5⟩
    · have hq : j / sectorsPerArray < arrayCount d := row_lt hj
      have hne : arrayOf s.blocks d (j / sectorsPerArray) ≠ arrayOf s.blocks d (arrayCount d - 1) := by
        intro h
        have h6 := arrayOf_injective hwf ht hq (by omega) h
        have h7 : j / sectorsPerArray < arrayCount d - 1 := h3
        omega
      rw [sectorOf_huge _ ht', hfirst, sectorOf_huge _ ht]
      show wordAt (s'.blocks (arrayOf s.blocks d (j / sectorsPerArray))) _ = _
      rw [hidx _ (arrayOf_mem ht hq) hne]
      rfl
    · rw [hsec j h3 h4.le, if_neg (by omega), ha _ (by omega), sectorOf_huge _ ht, h3]
      rfl
  have hnew : ∀ j < sectorCount d' - sectorCount d, sectorOf s'.blocks d' (sectorCount d + j) =
      a (lastCount (sectorCount d) + j) := by
    intro j hj
    rcases lastArray_index hn hc (by omega : sectorCount d + j < sectorCount d') with ⟨h3, -⟩ | ⟨h3, h4, h5⟩
    · omega
    · rw [hsec _ h3 h4.le, if_neg (by omega), show (sectorCount d + j) % sectorsPerArray =
        lastCount (sectorCount d) + j by omega]
  have hext : Extended s sector d d' []
      (slice a (lastCount (sectorCount d)) (sectorCount d' - sectorCount d)) s' := by
    refine ⟨ht'.trans ht.symm, ?_, ?_, ?_, fun x hx => ?_, by rw [hs', put_blocks_self]⟩
    · rw [List.nil_append, hs']
      exact ((htook.mono (Set.empty_subset _)).put (.inr (.inr hlast)) _).put (.inr (.inl rfl)) _
    · rw [indexSectors_huge _ ht, indexSectors_huge _ ht', hfirst, hstart, hc, List.append_nil]
    · have hsplit : sectorCount d' = sectorCount d + (sectorCount d' - sectorCount d) := by omega
      rw [dataSectors, hsplit, slice_append, Nat.zero_add, ← hsplit]
      refine congr_arg₂ _ (slice_congr fun j _ hj => hold j (by omega)) ?_
      refine List.ext_getElem (by simp) fun i h3 h4 => ?_
      have hi : i < sectorCount d' - sectorCount d := by simpa using h3
      simp [slice, hnew i hi]
    · have hxs : x ≠ sector := fun h => htook.notMem hwf.sector_marked (h ▸ hx)
      have hxa : x ≠ arrayOf s.blocks d (arrayCount d - 1) := fun h =>
        htook.notMem (hmarked _ hlast) (h ▸ hx)
      rw [hs', put_blocks_of_ne hxs, put_blocks_of_ne hxa, hz x hx]
  refine ⟨hext, hext.wellFormed hwf hfits (by rw [hlen]; exact h1) (by rw [ht', hlen]; exact h2)
    (fun h => absurd (h.symm.trans ht') large_ne_huge) fun _ h => ?_⟩
  obtain ⟨h3, h4, h5⟩ := lastCount_marker hn hc h
  rw [hsec _ h3 h4.le, if_pos h4]

/-- The last array has `lastCount` entries more, one for each new sector. -/
theorem lastCount_sub {n n' : ℕ} (hn : 0 < n) (h : n ≤ n')
    (hc : divRoundUp n' sectorsPerArray = divRoundUp n sectorsPerArray) :
    lastCount n' = lastCount n + (n' - n) := by
  unfold lastCount divRoundUp sectorsPerArray at *
  split_ifs <;> omega

theorem ends_fillArray {Q : Option Bool × Inode → Fs → Prop}
    (hwf : WellFormed s inode.sector inode.data) (ht : inode.data.sizeType = inodeTypeHuge)
    (h1 : inode.data.length ≤ newSize) (h2 : newSize ≤ maxHuge)
    (hc : arrayCount (grown inode newSize).data = arrayCount inode.data)
    (hdiff : sectorCount inode.data ≠ sectorCount (grown inode newSize).data)
    (hok : ∀ s' xs, Extended s inode.sector inode.data (grown inode newSize).data [] xs s' →
      WellFormed s' inode.sector (grown inode newSize).data → Q (some false, grown inode newSize) s')
    (hno : ∀ s' xs, Took s xs ∅ s' → s.refused < s'.refused → Q (none, grown inode newSize) s') :
    Ends (fillArray (grown inode newSize) (sectorCount inode.data)
      (sectorCount (grown inode newSize).data)) s Q E := by
  have h2' : newSize ≤ 8388608 := h2
  have hfits : (grown inode newSize).data.Fits := fits_grown hwf (by omega)
  have hmono : sectorCount inode.data ≤ sectorCount (grown inode newSize).data := sectorCount_mono h1
  have hn : 0 < sectorCount inode.data := sectorCount_pos (hwf.huge ht)
  have hpos := arrayCount_pos hwf ht
  have hcap := arrayCount_le hwf ht
  have hsub := lastCount_sub hn hmono hc
  have hle := lastCount_le (sectorCount (grown inode newSize).data)
  have hcap' : arrayCount inode.data ≤ 2 ^ 32 := hcap.trans (by decide)
  have hpred : pred32 (divRoundUp (sectorCount inode.data) sectorsPerArray) = arrayCount inode.data - 1 :=
    pred32_eq hpos hcap'
  have hlast : arrayOf s.blocks inode.data (arrayCount inode.data - 1) ∈ indexSectors s.blocks inode.data :=
    arrayOf_mem ht (by omega)
  have hlt := hwf.mapped.index_lt hlast
  unfold fillArray
  simp only [hpred]
  rw [if_neg (by omega)]
  refine .bind (ends_readArray (hwf.mapped.index_lt (start_mem _ (ht ▸ small_ne_huge.symm)))
    (.bind (ends_load (by omega) (.bind (ends_readArray hlt ?_)))))
  have hk : lastCount (sectorCount (grown inode newSize).data) - lastCount (sectorCount inode.data) =
      sectorCount (grown inode newSize).data - sectorCount inode.data := by omega
  have hmax : max (lastCount (sectorCount inode.data))
      (lastCount (sectorCount (grown inode newSize).data)) =
        lastCount (sectorCount (grown inode newSize).data) := by omega
  rw [hk, hmax]
  refine .bind (ends_appendSectors _ _ _ _ (by omega) (fun s₂ a h3 hz ha _ => ?_)
    fun s₂ xs h3 hr => .pure (hno s₂ xs h3 hr))
  refine .bind (ends_writeArray (by rw [h3.size]; exact hlt) (.bind
    (ends_bcacheWrite (by rw [put_freeMap, h3.size]; exact hwf.sector_lt) (.pure ?_))))
  obtain ⟨h4, h5⟩ := Extended.of_lastArray hwf ht rfl hfits h1 h2 hc h3 hz
    (fun j hj => ha j (.inl hj)) rfl
  exact hok _ _ h4 h5

/-! ### Past the last array -/

/-- The sector of the free map's inode. -/
def freeMapSector : ℕ := 0

/-- What is left to allocate, by the count that goes down while the last array is filled. -/
def remaining (d d' : InodeDisk) : ℕ :=
  sectorCount d' - (sectorsPerArray - lastCount (sectorCount d))

/-- What "expand huge" does past the last array: the array `b` that was filled is written to the sector 0. -/
structure Crossed (s : Fs) (sector : ℕ) (d d' : InodeDisk) (s₂ s₃ : Fs) (b a : SectorArray) (s' : Fs) :
    Prop where
  fill : Took s (slice b (lastCount (sectorCount d)) (sectorsPerArray - lastCount (sectorCount d))) ∅ s₂
  rows : Filled (s₂.put freeMapSector (ofWords b)) a (hugeCount (remaining d d')) (arrayCount d)
    (divRoundUp (remaining d d') sectorsPerArray - arrayCount d) s₃
  kept : ∀ q < arrayCount d, a q = wordAt ((s₂.put freeMapSector (ofWords b)).blocks d.start) q
  left : s' = (s₃.put d.start (ofWords (mark a
    (max (arrayCount d) (divRoundUp (remaining d d') sectorsPerArray))))).put sector d'.toSector

theorem ends_crossArray {Q : Option Bool × Inode → Fs → Prop}
    (hwf : WellFormed s inode.sector inode.data) (ht : inode.data.sizeType = inodeTypeHuge)
    (h2 : newSize ≤ maxHuge)
    (hok : ∀ s₂ s₃ b a s', Crossed s inode.sector inode.data (grown inode newSize).data s₂ s₃ b a s' →
      Q (some false, grown inode newSize) s')
    (hno : ∀ s' xs, Took s xs {freeMapSector} s' → s.refused < s'.refused →
      Q (none, grown inode newSize) s') :
    Ends (crossArray (grown inode newSize) (sectorCount inode.data)
      (sectorCount (grown inode newSize).data)) s Q E := by
  have hcount' : sectorCount (grown inode newSize).data ≤ sectorsPerArray * sectorsPerArray :=
    sectorCount_le h2
  have hpos := arrayCount_pos hwf ht
  have hcap := arrayCount_le hwf ht
  have hle := lastCount_le (sectorCount inode.data)
  have hcap' : arrayCount inode.data ≤ 2 ^ 32 := hcap.trans (by decide)
  have hpred : pred32 (divRoundUp (sectorCount inode.data) sectorsPerArray) = arrayCount inode.data - 1 :=
    pred32_eq hpos hcap'
  have hlast : arrayOf s.blocks inode.data (arrayCount inode.data - 1) ∈ indexSectors s.blocks inode.data :=
    arrayOf_mem ht (by omega)
  have hlt := hwf.mapped.index_lt hlast
  have hst := hwf.mapped.index_lt (start_mem s.blocks (ht ▸ small_ne_huge.symm))
  have h0 : freeMapSector < s.freeMap.length := (Nat.zero_le _).trans_lt hst
  have hrem : divRoundUp (remaining inode.data (grown inode newSize).data) sectorsPerArray ≤
      sectorsPerArray := divRoundUp_le (by unfold remaining; omega)
  unfold crossArray
  simp only [hpred]
  refine .bind (ends_readArray hst (.bind (ends_load (by omega) (.bind (ends_readArray hlt ?_)))))
  refine .bind (ends_appendSectors _ _ _ _ (by omega) (fun s₂ b h3 _ _ hr3 => ?_)
    fun s₂ xs h3 hr => .pure (hno s₂ xs (h3.mono (Set.empty_subset _)) hr))
  have h4 := (h3.mono (Set.empty_subset {freeMapSector})).put (.inr rfl) (ofWords b)
  refine .bind (ends_load (by omega) (.bind (ends_writeArray (by rw [h3.size]; exact h0) ?_)))
  have hst4 : inode.data.start < (s₂.put 0 (ofWords b)).freeMap.length := by
    rw [put_freeMap, h3.size]
    exact hst
  refine .bind (ends_readArray hst4 (.bind (ends_appendArrays (hugeCount_le _)
    (fun x s R hx hR => ends_readArray hx (hR _)) _ _ _ _ ?_ ?_ (fun s₃ a h5 ha _ => ?_)
    fun s₃ xs h5 hr => .pure (hno s₃ _ (h4.trans (h5.mono (Set.empty_subset _)))
      (h3.refused.trans_lt hr)))))
  · have hdev := hwf.mapped.device
    rw [put_freeMap, h3.size]
    omega
  · show arrayCount inode.data + (divRoundUp (remaining inode.data (grown inode newSize).data)
      sectorsPerArray - arrayCount inode.data) ≤ sectorsPerArray
    omega
  · have hl3 : s₃.freeMap.length = s.freeMap.length := by rw [h5.took.size, put_freeMap, h3.size]
    refine .bind (ends_writeArray (by rw [hl3]; exact hst) (.bind
      (ends_bcacheWrite (by rw [put_freeMap, hl3]; exact hwf.sector_lt) (.pure ?_))))
    exact hok s₂ s₃ b a _ ⟨h3, h5, fun q hq => ha q (.inl hq), rfl⟩

/-! ### `inode_expand_sectors` -/

/-- **`inode_expand_sectors`** on a huge inode: in place, within the last array or past it. -/
theorem ends_expandSectors_huge {Q : Option Bool × Inode → Fs → Prop}
    (hwf : WellFormed s inode.sector inode.data) (ht : inode.data.sizeType = inodeTypeHuge)
    (h1 : inode.data.length ≤ newSize) (h2 : newSize ≤ maxHuge)
    (hok : ∀ s' xs, arrayCount (grown inode newSize).data = arrayCount inode.data →
      Extended s inode.sector inode.data (grown inode newSize).data [] xs s' →
      WellFormed s' inode.sector (grown inode newSize).data → Q (some false, grown inode newSize) s')
    (hcross : ∀ s₁ s₂ s₃ b a s', Quiet s s₁ →
      arrayCount (grown inode newSize).data ≠ arrayCount inode.data →
      Crossed s₁ inode.sector inode.data (grown inode newSize).data s₂ s₃ b a s' →
      Q (some false, grown inode newSize) s')
    (hno : ∀ s' xs, Took s xs {freeMapSector} s' → s.refused < s'.refused →
      sectorCount inode.data ≠ sectorCount (grown inode newSize).data →
      Q (none, grown inode newSize) s')
    (hbuf : ∀ s', Quiet s s' → s.refused < s'.refused → Q (none, inode) s') :
    Ends (inodeExpandSectors inode newSize) s Q E := by
  have h2' : newSize ≤ 8388608 := h2
  have hori : bytesToSectors inode.data.length = sectorCount inode.data := bytesToSectors_eq (by omega)
  have hnew : bytesToSectors newSize = sectorCount (grown inode newSize).data :=
    bytesToSectors_eq (by omega)
  have hfits : (grown inode newSize).data.Fits := fits_grown hwf (by omega)
  have hmax : maxSectors inode.data.sizeType * blockSectorSize = maxHuge := by rw [ht]; rfl
  refine .bind (ends_calloc (fun s₁ hq _ => ?_) fun s₁ hq hr => .pure (hbuf s₁ hq hr))
  rw [if_pos rfl, if_neg (ht ▸ small_ne_huge.symm), if_neg (ht ▸ large_ne_huge.symm), if_pos ht,
    if_neg (by omega)]
  unfold expandHuge
  simp only [hori, hnew]
  have hwf1 := hwf.of_quiet hq
  refine .ite (fun heq => ?_) fun hdiff => ?_
  · obtain ⟨h3, h4⟩ := Extended.of_sameCount hwf1 rfl heq hfits h1 (by rw [hmax]; exact h2)
    refine .bind (ends_bcacheWrite hwf1.sector_lt (.pure (hok _ [] ?_ (h3.of_quiet hq) h4)))
    rw [arrayCount, arrayCount, heq]
  refine .bind (ends_calloc (fun s₂ hq2 _ => ?_) fun s₂ hq2 hr =>
    .pure (hno s₂ [] (Took.of_quiet (hq.trans hq2)) (hq.refused.trans_lt hr) hdiff))
  rw [if_pos rfl]
  have hq12 := hq.trans hq2
  refine .bind (ends_calloc (fun s₃ hq3 _ => ?_) fun s₃ hq3 hr =>
    .pure (hno s₃ [] (Took.of_quiet (hq12.trans hq3)) (hq12.refused.trans_lt hr) hdiff))
  rw [if_pos rfl]
  have hq13 := hq12.trans hq3
  have hto : ∀ s' xs W, Took s₃ xs W s' → Took s xs W s' := fun s' xs W h =>
    (List.nil_append xs) ▸ (Took.of_quiet hq13).trans h
  refine .ite (fun hc => ?_) fun hc => ?_
  · exact ends_fillArray (hwf.of_quiet hq13) ht h1 h2 hc hdiff
      (fun s' xs h => hok s' xs hc (h.of_quiet hq13)) fun s' xs h hr =>
        hno s' xs ((hto _ _ _ h).mono (Set.empty_subset _)) (hq13.refused.trans_lt hr) hdiff
  · exact ends_crossArray (hwf.of_quiet hq13) ht h2
      (fun s₄ s₅ b a s' h => hcross s₃ s₄ s₅ b a s' hq13 hc h) fun s' xs h hr =>
        hno s' xs (hto _ _ _ h) (hq13.refused.trans_lt hr) hdiff

/-! ### When the growth is right -/

/-- What the growth of a huge inode promises: its length is the new one, every block index resolves to a
sector of its own, the old ones to their old sectors and the new ones to new sectors that hold zeros, and only
the inode's own sector, its index sectors and new sectors are written. -/
structure HugeGrown (s : Fs) (inode : Inode) (newSize : ℕ) (result : Option Bool × Inode) (s' : Fs) :
    Prop where
  success : result.1.isSome
  sameLength : result.2.data.length = newSize
  mapped : Mapped s' result.2.data
  old : ∀ k < sectorCount inode.data, Resolves s' result.2.data k (sectorOf s.blocks inode.data k)
  new : ∀ k, sectorCount inode.data ≤ k → k < sectorCount result.2.data →
    ∃ x, Resolves s' result.2.data k x ∧ s.freeMap[x]? = some false ∧ s'.freeMap[x]? = some true ∧
      s'.blocks x = zeros
  written : ∃ ws, s'.written = ws ++ s.written ∧ ∀ x ∈ ws,
    x = inode.sector ∨ x ∈ indexSectors s.blocks inode.data ∨ s.freeMap[x]? = some false

theorem Extended.hugeGrown (h : Extended s inode.sector inode.data (grown inode newSize).data ys xs s')
    (hwf : WellFormed s' inode.sector (grown inode newSize).data) :
    HugeGrown s inode newSize (some false, grown inode newSize) s' := by
  refine ⟨rfl, rfl, hwf.mapped, fun k hk => ?_, fun k h1 h2 => ?_, ?_⟩
  · rw [← h.sectorOf_old hk]
    exact resolves_sectorOf hwf.mapped k
  · have hm := h.sectorOf_new h1 h2
    have hm' := List.mem_append_right ys hm
    exact ⟨_, resolves_sectorOf hwf.mapped k, h.took.free _ hm', h.took.taken _ hm', h.zero _ hm⟩
  · obtain ⟨ws, h1, h2⟩ := h.took.written
    refine ⟨ws, h1, fun x hx => ?_⟩
    rcases h2 x hx with hn | hs | hi
    · exact .inr (.inr (h.took.free x hn))
    · exact .inl hs
    · exact .inr (.inl hi)

/-- Past the last array, the sector of the free map's inode is written. -/
theorem Crossed.written {s₂ s₃ : Fs} {a b : SectorArray} (h : Crossed s sector d d' s₂ s₃ b a s') :
    ∃ ws, s'.written = ws ++ s.written ∧ freeMapSector ∈ ws := by
  obtain ⟨ws, h1, -⟩ := h.fill.written
  obtain ⟨ws', h1', -⟩ := h.rows.took.written
  refine ⟨sector :: d.start :: (ws' ++ freeMapSector :: ws), ?_, by simp⟩
  have h2 : s'.written = sector :: d.start :: s₃.written := by rw [h.left]; rfl
  rw [h2, h1', show (s₂.put freeMapSector (ofWords b)).written = freeMapSector :: s₂.written from rfl, h1]
  simp

section crossed

variable {s₂ s₃ : Fs} {a b : SectorArray} (hwf : WellFormed s sector d) (ht : d.sizeType = inodeTypeHuge)
  (h : Crossed s sector d d' s₂ s₃ b a s')
include hwf ht h

omit hwf ht in
/-- What is left alone past the last array. -/
theorem Crossed.blocks {x : ℕ} (hx : s.freeMap[x]? = some true) (h1 : x ≠ sector)
    (h2 : x ≠ freeMapSector) (h3 : x ≠ d.start) : s'.blocks x = s.blocks x := by
  have hm : (s₂.put freeMapSector (ofWords b)).freeMap[x]? = some true := h.fill.marked hx
  rw [h.left, put_blocks_of_ne h1, put_blocks_of_ne h3, h.rows.took.blocks hm (Set.notMem_empty x),
    put_blocks_of_ne h2, h.fill.blocks hx (Set.notMem_empty x)]

/-- The old entries of the first array are kept. -/
theorem Crossed.arrayOf_old (h0 : freeMapSector ≠ d.start) (hq : q < arrayCount d) :
    a q = arrayOf s.blocks d q := by
  have hst := hwf.owned_marked (List.mem_append_left _ (start_mem s.blocks (ht ▸ small_ne_huge.symm)))
  rw [h.kept q hq, put_blocks_of_ne h0.symm, h.fill.blocks hst (Set.notMem_empty _)]
  rfl

omit h in
theorem start_ne_sector : d.start ≠ sector :=
  index_ne_sector hwf ht (start_mem s.blocks (ht ▸ small_ne_huge.symm))

theorem Crossed.first (h0 : freeMapSector ≠ d.start) (hq : q < arrayCount d) :
    wordAt (s'.blocks d.start) q = arrayOf s.blocks d q := by
  have hlt : q < sectorsPerArray := hq.trans_le (arrayCount_le hwf ht)
  have hold := h.arrayOf_old hwf ht h0 hq
  have hle : q < max (arrayCount d) (divRoundUp (remaining d d') sectorsPerArray) :=
    hq.trans_le (le_max_left _ _)
  rw [h.left, put_blocks_of_ne (start_ne_sector hwf ht), put_blocks_self,
    wordAt_mark hle.le hlt fun _ => by rw [hold]; exact wordAt_lt _ _, if_neg hle.ne, hold]

/-- In sector 0 itself, the first new block index of an array that is not full still resolves to the end
marker. -/
theorem Crossed.sectorOf_count (h0 : sector = freeMapSector) (hd : d' = { d with length := newSize })
    (hn : sectorCount d % sectorsPerArray ≠ 0) :
    sectorOf s'.blocks d' (sectorCount d) = sectorInvalid := by
  have hq : sectorCount d / sectorsPerArray < arrayCount d := WellFormed.marker_row hn
  have hmem := arrayOf_mem (s := s) ht hq
  have hne := index_ne_sector hwf ht hmem
  have hstart := h0 ▸ start_ne_sector hwf ht
  rw [sectorOf_grown _ hd, sectorOf_huge _ ht, h.first hwf ht hstart.symm hq,
    h.blocks (hwf.owned_marked (List.mem_append_left _ hmem)) hne (h0 ▸ hne)
      (arrayOf_ne_start hwf ht hq)]
  exact (sectorOf_huge _ ht _).symm.trans (hwf.markerHuge ht hn)

end crossed

/-- In sector 0 itself, and with full arrays, the growth is right all the same. -/
theorem Extended.of_crossed {s₂ s₃ : Fs} {a b : SectorArray} (hwf : WellFormed s sector d)
    (ht : d.sizeType = inodeTypeHuge) (h : Crossed s sector d d' s₂ s₃ b a s')
    (h0 : sector = freeMapSector) (hd : d' = { d with length := newSize }) (hfits : d'.Fits)
    (h1 : d.length ≤ newSize) (h2 : newSize ≤ maxHuge) (hc : arrayCount d' ≠ arrayCount d)
    (hn : sectorCount d % sectorsPerArray = 0) :
    Extended s sector d d' (slice a (arrayCount d) (arrayCount d' - arrayCount d))
        (rowsOf s₃.blocks a (hugeCount (sectorCount d')) (arrayCount d) (arrayCount d' - arrayCount d)) s' ∧
      WellFormed s' sector d' := by
  have ht' : d'.sizeType = inodeTypeHuge := by rw [hd, ← ht]
  have hlen : d'.length = newSize := by rw [hd]
  have hstart : d'.start = d.start := by rw [hd]
  have hmono : sectorCount d ≤ sectorCount d' := sectorCount_mono (by rw [hlen]; exact h1)
  have hcap : arrayCount d' ≤ sectorsPerArray := divRoundUp_le (sectorCount_le (by rw [hlen]; exact h2))
  have hlt : arrayCount d < arrayCount d' := by
    have hle : arrayCount d ≤ arrayCount d' := by
      unfold arrayCount divRoundUp sectorsPerArray
      omega
    omega
  have hl : lastCount (sectorCount d) = sectorsPerArray := if_pos hn
  have hrem : remaining d d' = sectorCount d' := by rw [remaining, hl, Nat.sub_self, Nat.sub_zero]
  have hmax : max (arrayCount d) (divRoundUp (remaining d d') sectorsPerArray) = arrayCount d' := by
    rw [hrem]
    exact max_eq_right hlt.le
  have hst := hwf.owned_marked (List.mem_append_left _ (start_mem s.blocks (ht ▸ small_ne_huge.symm)))
  have hne := start_ne_sector hwf ht
  have hfill : Took s [] ∅ s₂ := by
    have := h.fill
    rwa [hl, Nat.sub_self, slice_zero] at this
  have hrows : Filled (s₂.put sector (ofWords b)) a (hugeCount (sectorCount d')) (arrayCount d)
      (arrayCount d' - arrayCount d) s₃ := by
    have := h.rows
    rwa [hrem, ← h0] at this
  have htook : Took s (slice a (arrayCount d) (arrayCount d' - arrayCount d) ++ rowsOf s₃.blocks a
      (hugeCount (sectorCount d')) (arrayCount d) (arrayCount d' - arrayCount d)) {sector} s₃ :=
    ((hfill.mono (Set.empty_subset {sector})).put (.inr rfl) _).trans
      (hrows.took.mono (Set.empty_subset {sector}))
  have hrest : ∀ x ∈ slice a (arrayCount d) (arrayCount d' - arrayCount d) ++ rowsOf s₃.blocks a
      (hugeCount (sectorCount d')) (arrayCount d) (arrayCount d' - arrayCount d),
      s'.blocks x = s₃.blocks x := by
    intro x hx
    have hxs : x ≠ sector := fun he => htook.notMem hwf.sector_marked (he ▸ hx)
    have hxa : x ≠ d.start := fun he => htook.notMem hst (he ▸ hx)
    rw [h.left, put_blocks_of_ne hxs, put_blocks_of_ne hxa]
  have hnew : ∀ q, arrayCount d ≤ q → q < arrayCount d' →
      a q ∈ slice a (arrayCount d) (arrayCount d' - arrayCount d) := fun q h3 h4 =>
    mem_slice.mpr ⟨q, by omega, rfl⟩
  have hold : ∀ q < arrayCount d, a q = arrayOf s.blocks d q := fun q hq =>
    h.arrayOf_old hwf ht (h0 ▸ hne.symm) hq
  have hword : ∀ q < arrayCount d', wordAt (s'.blocks d'.start) q = a q := by
    intro q hq
    have haq : a q < 2 ^ 32 := by
      rcases Nat.lt_or_ge q (arrayCount d) with hq' | hq'
      · rw [hold q hq']
        exact wordAt_lt _ _
      · exact (htook.lt (List.mem_append_left _ (hnew q hq' hq))).trans hwf.mapped.device
    rw [hstart, h.left, put_blocks_of_ne hne, put_blocks_self, hmax,
      wordAt_mark hq.le (by omega) fun _ => haq, if_neg hq.ne]
  have hblk : ∀ q < arrayCount d, s'.blocks (a q) = s.blocks (a q) := by
    intro q hq
    have hmem := arrayOf_mem (s := s) ht hq
    rw [hold q hq]
    exact h.blocks (hwf.owned_marked (List.mem_append_left _ hmem)) (index_ne_sector hwf ht hmem)
      (h0 ▸ index_ne_sector hwf ht hmem) (arrayOf_ne_start hwf ht hq)
  have hsum : arrayCount d + (arrayCount d' - arrayCount d) = arrayCount d' := by omega
  have hext : Extended s sector d d' (slice a (arrayCount d) (arrayCount d' - arrayCount d))
      (rowsOf s₃.blocks a (hugeCount (sectorCount d')) (arrayCount d) (arrayCount d' - arrayCount d)) s' := by
    refine ⟨ht'.trans ht.symm, ?_, ?_, ?_, fun x hx => ?_, by rw [h.left, put_blocks_self]⟩
    · rw [h.left]
      exact ((htook.mono fun x hx => .inl hx).put (.inr (.inr (start_mem _ (ht ▸ small_ne_huge.symm)))) _).put
        (.inr (.inl rfl)) _
    · have hsl := slice_append a 0 (arrayCount d) (arrayCount d' - arrayCount d)
      rw [hsum, Nat.zero_add] at hsl
      rw [indexSectors_huge _ ht', indexSectors_huge _ ht, hstart, List.cons_append,
        slice_congr (fun q _ hq => (hstart ▸ hword q (by omega))), hsl]
      exact congrArg (d.start :: · ++ _) (slice_congr fun q _ hq => hold q (by omega))
    · rw [dataSectors_huge _ ht', dataSectors_huge _ ht, ← hsum, rowsOf_append, Nat.zero_add, hsum]
      refine congr_arg₂ _ (rowsOf_congr fun q _ hq => ?_) (rowsOf_congr fun q h3 h4 => ?_)
      · have hq' : q < arrayCount d := by omega
        rw [hword q (by omega), hblk q hq', hold q hq', hugeCount_eq hq', hugeCount_eq (hq'.trans hlt)]
        refine ⟨rfl, ?_⟩
        unfold arrayCount divRoundUp sectorsPerArray at *
        omega
      · have hq' : q < arrayCount d' := by omega
        rw [hword q hq', hrest _ (List.mem_append_left _ (hnew q h3 hq'))]
        exact ⟨rfl, rfl⟩
    · rw [hrest x (List.mem_append_right _ hx), hrows.zero x hx]
  refine ⟨hext, hext.wellFormed hwf hfits (by rw [hlen]; exact h1) (by rw [ht', hlen]; exact h2)
    (fun he => absurd (he.symm.trans ht') large_ne_huge) fun _ hm => ?_⟩
  -- the marker is in the last of the new arrays
  have hq : sectorCount d' / sectorsPerArray < arrayCount d' := WellFormed.marker_row hm
  have hge : arrayCount d ≤ sectorCount d' / sectorsPerArray := by
    unfold arrayCount divRoundUp sectorsPerArray at *
    omega
  have hcnt : hugeCount (sectorCount d') (sectorCount d' / sectorsPerArray) =
      sectorCount d' % sectorsPerArray := by
    rw [hugeCount_eq hq]
    unfold sectorsPerArray
    omega
  rw [sectorOf_huge _ ht', hword _ hq, hrest _ (List.mem_append_left _ (hnew _ hge hq)), ← hcnt]
  exact hrows.marker _ hge (by omega) (by rw [hcnt]; exact Nat.mod_lt _ (by decide))

/-- Past the last array, the growth is wrong: the array that was filled goes to sector 0. -/
theorem Crossed.not_hugeGrown {s₁ s₂ s₃ : Fs} {a b : SectorArray} {r : Option Bool × Inode}
    (hwf : WellFormed s inode.sector inode.data) (ht : inode.data.sizeType = inodeTypeHuge)
    (h1 : inode.data.length ≤ newSize) (hfm : s.freeMap[freeMapSector]? = some true)
    (h0 : freeMapSector ∉ owned s.blocks inode.data) (hq : Quiet s s₁)
    (hc : arrayCount (grown inode newSize).data ≠ arrayCount inode.data)
    (hn : inode.sector = freeMapSector → sectorCount inode.data % sectorsPerArray ≠ 0)
    (h : Crossed s₁ inode.sector inode.data (grown inode newSize).data s₂ s₃ b a s')
    (hr : r = (some false, grown inode newSize)) : ¬HugeGrown s inode newSize r s' := by
  subst hr
  intro hg
  by_cases hs : inode.sector = freeMapSector
  · -- the first new block index has no sector
    have hmono : sectorCount inode.data ≤ sectorCount (grown inode newSize).data := sectorCount_mono h1
    have hlt : sectorCount inode.data < sectorCount (grown inode newSize).data := by
      refine Nat.lt_of_le_of_ne hmono fun he => hc ?_
      rw [arrayCount, arrayCount, he]
    obtain ⟨x, h3, h4, -⟩ := hg.new (sectorCount inode.data) le_rfl hlt
    have h5 := h3.unique (resolves_sectorOf hg.mapped _) hlt
    rw [h.sectorOf_count (hwf.of_quiet hq) ht hs rfl (hn hs)] at h5
    have h6 := (List.getElem?_eq_some_iff.mp h4).1
    have h7 := hwf.mapped.device
    rw [h5] at h6
    unfold sectorInvalid at h6
    omega
  · -- sector 0 is written, which is none of the inode's
    obtain ⟨ws, h3, h4⟩ := hg.written
    obtain ⟨ws', h5, h6⟩ := h.written
    rw [hq.written, h3] at h5
    rw [← List.append_cancel_right h5] at h6
    rcases h4 _ h6 with h7 | h7 | h7
    · exact hs h7.symm
    · exact h0 (List.mem_append_left _ h7)
    · rw [hfm] at h7
      cases h7

section iff

variable (hwf : WellFormed s inode.sector inode.data) (ht : inode.data.sizeType = inodeTypeHuge)
  (h1 : inode.data.length < newSize) (h2 : newSize ≤ maxHuge)
  (hgranted : (left (inodeExpandSectors inode newSize) s).refused = s.refused)
include hwf ht h1 h2 hgranted

omit hwf ht h1 h2 in
theorem ends_granted : Ends (inodeExpandSectors inode newSize) s (fun _ s' => s'.refused = s.refused)
    fun s' => s'.refused = s.refused :=
  .of_left (P := fun s' : Fs => s'.refused = s.refused) hgranted

/-- Growth past the last array fails its purpose. -/
theorem not_hugeGrown (hfm : s.freeMap[freeMapSector]? = some true)
    (h0 : freeMapSector ∉ owned s.blocks inode.data)
    (hc : arrayCount (grown inode newSize).data ≠ arrayCount inode.data)
    (hn : inode.sector = freeMapSector → sectorCount inode.data % sectorsPerArray ≠ 0) :
    ¬Ends (inodeExpandSectors inode newSize) s (HugeGrown s inode newSize) fun _ => False := by
  intro hg
  have hno : Ends (inodeExpandSectors inode newSize) s
      (fun r s' => s'.refused = s.refused → ¬HugeGrown s inode newSize r s') fun _ => False :=
    ends_expandSectors_huge hwf ht h1.le h2 (fun s' xs he => absurd he hc)
      (fun s₁ s₂ s₃ b a s' hq hc h _ => h.not_hugeGrown hwf ht h1.le hfm h0 hq hc hn rfl)
      (fun s' xs _ hr _ he => by omega) fun s' _ hr he => by omega
  refine (((ends_granted hgranted).and hg).and hno).mono (fun r s' hs => ?_) (fun _ hs => hs.2) |>.elim
  exact hs.2 hs.1.1 hs.1.2

/-- Growth within the last array is right, and so is growth of the inode in sector 0 from full arrays. -/
theorem hugeGrown_of (hcond : arrayCount (grown inode newSize).data = arrayCount inode.data ∨
    inode.sector = freeMapSector ∧ sectorCount inode.data % sectorsPerArray = 0) :
    Ends (inodeExpandSectors inode newSize) s (HugeGrown s inode newSize) fun _ => False := by
  have h2' : newSize ≤ 8388608 := h2
  have hfits : (grown inode newSize).data.Fits := fits_grown hwf (by omega)
  have hyes : Ends (inodeExpandSectors inode newSize) s
      (fun r s' => s'.refused = s.refused → HugeGrown s inode newSize r s') fun _ => False := by
    refine ends_expandSectors_huge hwf ht h1.le h2 (fun s' xs _ h hwf' _ => Extended.hugeGrown h hwf')
      (fun s₁ s₂ s₃ b a s' hq hc h _ => ?_) (fun s' xs _ hr _ he => by omega) fun s' _ hr he => by omega
    obtain ⟨hs, hn⟩ := hcond.resolve_left hc
    obtain ⟨h3, h4⟩ := Extended.of_crossed (hwf.of_quiet hq) ht h hs rfl hfits h1.le h2 hc hn
    exact Extended.hugeGrown (h3.of_quiet hq) h4
  exact ((ends_granted hgranted).and hyes).mono (fun r s' hs => hs.2 hs.1) fun _ hs => hs.2

end iff

/-- The inode of a file of 256 sectors, which fill two arrays. -/
def hugeInode : InodeDisk := newInode 11 131072 inodeTypeHuge 0 1

def hugeFile : Inode := ⟨2, false, 0, hugeInode⟩

/-- Its inode at sector 2, its arrays at 11, 12 and 13, its data behind them; the sectors 3 to 10 are free. -/
def hugeFs : Fs where
  blocks := fun x =>
    if x = 2 then hugeInode.toSector
    else if x = 11 then ofWords (mark (fun q => 12 + q) 2)
    else if x = 12 then ofWords fun j => 14 + j
    else if x = 13 then ofWords fun j => 142 + j
    else zeros
  freeMap := [true, true, true] ++ (List.replicate 8 false ++ List.replicate 259 true)
  junk := 0
  answers := fun _ => true
  asked := 0
  refused := 0
  written := []

theorem arrayOf_hugeFs {q : ℕ} (hq : q < 2) : arrayOf hugeFs.blocks hugeInode q = 12 + q := by
  have h : arrayOf hugeFs.blocks hugeInode q = wordAt (ofWords (mark (fun q => 12 + q) 2)) q := rfl
  rw [h, wordAt_mark hq.le (hq.trans (by decide)) fun _ => by omega, if_neg hq.ne]

theorem sectorOf_hugeFs {k : ℕ} (hk : k < 256) : sectorOf hugeFs.blocks hugeInode k = 14 + k := by
  have hq : k / sectorsPerArray < 2 := (Nat.div_lt_iff_lt_mul (by decide)).mpr hk
  have hr : k % sectorsPerArray < 128 := Nat.mod_lt _ (by decide)
  rw [sectorOf_huge _ rfl]
  show wordAt (hugeFs.blocks (arrayOf hugeFs.blocks hugeInode (k / sectorsPerArray))) _ = _
  rw [arrayOf_hugeFs hq]
  rcases Nat.lt_or_ge k 128 with h | h
  · have h0 : k / sectorsPerArray = 0 := Nat.div_eq_of_lt h
    have hk' : k % sectorsPerArray = k := Nat.mod_eq_of_lt h
    rw [h0, hk']
    show wordAt (ofWords fun j => 14 + j) k = 14 + k
    rw [wordAt_ofWords h]
    omega
  · have h1 : k / sectorsPerArray = 1 := Nat.div_eq_of_lt_le (by unfold sectorsPerArray; omega) hk
    have hk' : k % sectorsPerArray = k - 128 := by
      unfold sectorsPerArray
      omega
    rw [h1, hk']
    show wordAt (ofWords fun j => 142 + j) (k - 128) = 14 + k
    rw [wordAt_ofWords (by unfold sectorsPerArray; omega)]
    omega

theorem owned_hugeFs : owned hugeFs.blocks hugeInode = List.range' 11 259 := by
  have hdata : dataSectors hugeFs.blocks hugeInode = List.range' 14 256 := by
    refine List.ext_getElem (by rw [dataSectors, length_slice, List.length_range']; rfl) fun i h1 h2 => ?_
    have hi : i < 256 := by simpa using h2
    simp [dataSectors, slice, sectorOf_hugeFs hi]
  have harr : slice (wordAt (hugeFs.blocks hugeInode.start)) 0 (arrayCount hugeInode) = [12, 13] := by
    show [arrayOf hugeFs.blocks hugeInode 0, arrayOf hugeFs.blocks hugeInode 1] = [12, 13]
    rw [arrayOf_hugeFs (by decide), arrayOf_hugeFs (by decide)]
  rw [owned, indexSectors_huge _ rfl, harr, hdata]
  rfl

theorem marked_hugeFs {x : ℕ} (h : 11 ≤ x ∧ x < 270) : hugeFs.freeMap[x]? = some true := by
  show ([true, true, true] ++ (List.replicate 8 false ++ List.replicate 259 true))[x]? = some true
  have h1 : List.length [true, true, true] ≤ x := (by decide : 3 ≤ 11).trans h.1
  have h2 : (List.replicate 8 false).length ≤ x - List.length [true, true, true] := by
    rw [List.length_replicate]
    show 8 ≤ x - 3
    omega
  rw [List.getElem?_append_right h1, List.getElem?_append_right h2, List.getElem?_replicate, if_pos]
  rw [List.length_replicate]
  show x - 3 - 8 < 259
  omega

theorem wellFormed_hugeFile : WellFormed hugeFs 2 hugeInode := by
  have hmem : ∀ x ∈ owned hugeFs.blocks hugeInode, 11 ≤ x ∧ x < 270 := by
    rw [owned_hugeFs]
    exact fun x hx => List.mem_range'_1.mp hx
  have hsize : hugeFs.freeMap.length = 270 := by decide +kernel
  refine ⟨⟨.inr (.inr rfl), by decide, ?_, fun x hx => ?_, by omega⟩, fun h => ?_, ?_,
    ofSector_toSector (newInode_fits (by decide) (by decide) (by decide) (by decide) (by decide)),
    fun h => absurd h large_ne_huge.symm, fun _ h => absurd rfl h, fun _ => by decide, fun p h1 h2 => ?_⟩
  · rw [owned_hugeFs]
    exact List.nodup_range'
  · have := hmem x hx
    omega
  · have := hmem 2 h
    omega
  · intro x hx
    rcases List.mem_cons.mp hx with rfl | hx
    · rfl
    · exact marked_hugeFs (hmem x hx)
  · have h3 : 131072 ≤ p := h1
    have h4 : p < 131072 := h2
    omega

theorem granted_hugeFile :
    (left (inodeExpandSectors hugeFile 131073) hugeFs).refused = hugeFs.refused := by
  decide +kernel

end Pintos.Filesys.InodeGrowHuge
