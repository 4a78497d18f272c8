import Pintos.Filesys.InodeReadWrite

/-! # Growth in place and growth by a new layout

What `inode_expand_sectors` does to an inode that keeps its layout, and to one that is created anew; and from
both, `inode_expand` for small and large inodes. -/

namespace Pintos.Filesys.InodeGrow

open Pintos.Filesys.FreeMap Pintos.Filesys.Sector Pintos.Filesys.Allocation Pintos.Filesys.InodeLayout
open Pintos.Filesys.InodeIo Pintos.Filesys.InodeCreate Pintos.Filesys.InodeExpand
open Pintos.Filesys.InodeReadWrite
open Pintos.Kernel.Bitmap Pintos.Lib.Overlay Pintos.Lib.Stopping
open Pintos.Filesys.Bcache (SectorData blockSectorSize)

variable {s s' : Fs} {d d' : InodeDisk} {inode : Inode} {xs ys : List ℕ} {sector newSize k p : ℕ}
  {E : Fs → Prop}

/-- The sectors that growth in place may write to: the inode's own and its index sectors. -/
def indexSet (s : Fs) (sector : ℕ) (d : InodeDisk) : Set ℕ :=
  { x | x = sector ∨ x ∈ indexSectors s.blocks d }

/-- The inode `d` at `sector` has become `d'`, with `ys` as new index sectors and `xs` as new data sectors. -/
structure Extended (s : Fs) (sector : ℕ) (d d' : InodeDisk) (ys xs : List ℕ) (s' : Fs) : Prop where
  sizeType : d'.sizeType = d.sizeType
  took : Took s (ys ++ xs) (indexSet s sector d) s'
  index : indexSectors s'.blocks d' = indexSectors s.blocks d ++ ys
  data : dataSectors s'.blocks d' = dataSectors s.blocks d ++ xs
  zero : ∀ x ∈ xs, s'.blocks x = zeros
  stored : s'.blocks sector = d'.toSector

namespace Extended

theorem of_quiet {s₁ : Fs} (hq : Quiet s s₁) (h : Extended s₁ sector d d' ys xs s') :
    Extended s sector d d' ys xs s' where
  sizeType := h.sizeType
  took := by
    have hset : indexSet s₁ sector d = indexSet s sector d := by rw [indexSet, hq.blocks, indexSet]
    exact hset ▸ (Took.of_quiet hq).trans h.took
  index := by rw [← hq.blocks]; exact h.index
  data := by rw [← hq.blocks]; exact h.data
  zero := h.zero
  stored := h.stored

/-- An old block index resolves to its old sector. -/
theorem sectorOf_old (h : Extended s sector d d' ys xs s') (hk : k < sectorCount d) :
    sectorOf s'.blocks d' k = sectorOf s.blocks d k := by
  have := (slice_eq_append h.data).1 k hk
  rwa [Nat.zero_add] at this

/-- A new block index resolves to a new sector. -/
theorem sectorOf_new (h : Extended s sector d d' ys xs s') (h1 : sectorCount d ≤ k)
    (h2 : k < sectorCount d') : sectorOf s'.blocks d' k ∈ xs := by
  have := (slice_eq_append h.data).2 k h1 h2
  rwa [Nat.zero_add] at this

/-- No data sector is written. -/
theorem blocks_data (hwf : WellFormed s sector d) (h : Extended s sector d d' ys xs s')
    (hk : k < sectorCount d) :
    s'.blocks (sectorOf s.blocks d k) = s.blocks (sectorOf s.blocks d k) := by
  have hmem := sectorOf_mem_owned s.blocks hk
  refine h.took.blocks (hwf.owned_marked hmem) ?_
  rintro (hs | hi)
  · exact hwf.apart (hs ▸ hmem)
  · exact hwf.mapped.not_index hk hi

theorem content_old (hwf : WellFormed s sector d) (h : Extended s sector d d' ys xs s')
    (hp : p < sectorCount d * blockSectorSize) : content s'.blocks d' p = content s.blocks d p := by
  have hk : p / blockSectorSize < sectorCount d := (Nat.div_lt_iff_lt_mul (by decide)).mpr hp
  rw [content, h.sectorOf_old hk, h.blocks_data hwf hk, content]

theorem content_new (h : Extended s sector d d' ys xs s') (h1 : sectorCount d * blockSectorSize ≤ p)
    (h2 : p < sectorCount d' * blockSectorSize) : content s'.blocks d' p = 0 := by
  have hk : sectorCount d ≤ p / blockSectorSize := (Nat.le_div_iff_mul_le (by decide)).mpr h1
  have hk' : p / blockSectorSize < sectorCount d' := (Nat.div_lt_iff_lt_mul (by decide)).mpr h2
  rw [content, h.zero _ (h.sectorOf_new hk hk'), byteAt_zeros]

/-- Past the old end of the file, all is zero. -/
theorem content_tail (hwf : WellFormed s sector d) (h : Extended s sector d d' ys xs s')
    (h1 : d.length ≤ p) (h2 : p < sectorCount d' * blockSectorSize) : content s'.blocks d' p = 0 := by
  rcases Nat.lt_or_ge p (sectorCount d * blockSectorSize) with hp | hp
  · rw [h.content_old hwf hp, hwf.tail p h1 hp]
  · exact h.content_new hp h2

/-- What the inode owns afterwards. -/
theorem mem_owned (h : Extended s sector d d' ys xs s') {x : ℕ} :
    x ∈ owned s'.blocks d' ↔ x ∈ owned s.blocks d ∨ x ∈ ys ++ xs := by
  simp only [owned, h.index, h.data, List.mem_append]
  tauto

theorem perm_owned (h : Extended s sector d d' ys xs s') :
    (owned s'.blocks d').Perm (owned s.blocks d ++ (ys ++ xs)) := by
  rw [owned, h.index, h.data, owned, List.append_assoc, List.append_assoc]
  exact (List.perm_append_comm_assoc _ _ _).append_left _

/-- **Growth in place keeps the inode well-formed.** -/
theorem wellFormed (hwf : WellFormed s sector d) (h : Extended s sector d d' ys xs s')
    (hfits : d'.Fits) (hlen : d.length ≤ d'.length)
    (hmax : d'.length ≤ maxSectors d'.sizeType * blockSectorSize)
    (hl : d'.sizeType = inodeTypeLarge → sectorCount d' < sectorsPerArray →
      sectorOf s'.blocks d' (sectorCount d') = sectorInvalid)
    (hh : d'.sizeType = inodeTypeHuge → sectorCount d' % sectorsPerArray ≠ 0 →
      sectorOf s'.blocks d' (sectorCount d') = sectorInvalid) : WellFormed s' sector d' := by
  have hnew : ∀ x ∈ owned s.blocks d, x ∉ ys ++ xs := fun x hx => h.took.notMem (hwf.owned_marked hx)
  have hmarked : ∀ x ∈ owned s'.blocks d', s'.freeMap[x]? = some true := by
    intro x hx
    rcases h.mem_owned.mp hx with hx | hx
    · exact h.took.marked (hwf.owned_marked hx)
    · exact h.took.taken x hx
  refine ⟨⟨h.sizeType ▸ hwf.mapped.sizeType, hmax, ?_, fun x hx => ?_, h.took.size ▸ hwf.mapped.device⟩,
    fun hs => ?_, List.forall_mem_cons.mpr ⟨h.took.marked hwf.sector_marked, hmarked⟩, ?_, hl, hh,
    fun ht => (hwf.huge (h.sizeType ▸ ht)).trans_le hlen, fun p h1 h2 => ?_⟩
  · refine h.perm_owned.nodup_iff.mpr (List.nodup_append.mpr ⟨hwf.mapped.nodup, h.took.nodup, ?_⟩)
    rintro x hx y hy rfl
    exact hnew x hx hy
  · exact (List.getElem?_eq_some_iff.mp (hmarked x hx)).1
  · rcases h.mem_owned.mp hs with hs | hs
    · exact hwf.apart hs
    · exact h.took.notMem hwf.sector_marked hs
  · rw [h.stored, ofSector_toSector hfits]
  · exact h.content_tail hwf (hlen.trans h1) h2

end Extended

/-! ### A large inode that stays large -/

theorem sectorCount_mono (h : d.length ≤ d'.length) : sectorCount d ≤ sectorCount d' := by
  unfold sectorCount divRoundUp blockSectorSize
  omega

/-- The inode with its new length still fits its fields. -/
theorem fits_grown (hwf : WellFormed s inode.sector inode.data) (h : newSize < 2 ^ 32) :
    (grown inode newSize).data.Fits :=
  { hwf.fits with length := h }

theorem sectorOf_grown (blocks : ℕ → SectorData) (hd : d' = { d with length := newSize }) :
    sectorOf blocks d' = sectorOf blocks d := by
  rw [hd]
  rfl

/-- The length of an inode changes, and not its number of sectors. -/
theorem Extended.of_sameCount (hwf : WellFormed s sector d) (hd : d' = { d with length := newSize })
    (heq : sectorCount d = sectorCount d') (hfits : d'.Fits) (h1 : d.length ≤ newSize)
    (h2 : newSize ≤ maxSectors d.sizeType * blockSectorSize) :
    Extended s sector d d' [] [] (s.put sector d'.toSector) ∧
      WellFormed (s.put sector d'.toSector) sector d' := by
  have htype : d'.sizeType = d.sizeType := by rw [hd]
  have hidx : ∀ x ∈ indexSectors s.blocks d, (s.put sector d'.toSector).blocks x = s.blocks x := by
    intro x hx
    refine put_blocks_of_ne (fun h => hwf.apart ?_) _ _
    exact h ▸ List.mem_append_left _ hx
  have hext : Extended s sector d d' [] [] (s.put sector d'.toSector) := by
    refine ⟨htype, (Took.refl s).put (.inr (.inl rfl)) _, ?_, ?_,
      fun x hx => absurd hx List.not_mem_nil, put_blocks_self _ _ _⟩
    · rw [List.append_nil, ← indexSectors_congr hidx, indexSectors, indexSectors, arrayCount,
        arrayCount, ← heq, hd]
    · rw [List.append_nil, ← dataSectors_congr hidx, dataSectors, dataSectors, sectorOf_grown _ hd, ← heq]
  refine ⟨hext, hext.wellFormed hwf hfits (by rw [hd]; exact h1) ?_ (fun ht hlt => ?_) fun ht hlt => ?_⟩
  · rw [htype, hd]
    exact h2
  · rw [← heq] at hlt
    rw [sectorOf_grown _ hd, ← heq, sectorOf_congr_array hidx (.inr (htype ▸ ht)),
      hwf.markerLarge (htype ▸ ht) hlt]
  · rw [← heq] at hlt
    rw [sectorOf_grown _ hd, ← heq, sectorOf_congr_array hidx (.inl (WellFormed.marker_row hlt)),
      hwf.markerHuge (htype ▸ ht) hlt]

/-- New sectors are appended to the array of a large inode. -/
theorem Extended.of_array {s₂ : Fs} {a : SectorArray} (hwf : WellFormed s sector d)
    (ht : d.sizeType = inodeTypeLarge) (hd : d' = { d with length := newSize }) (hfits : d'.Fits)
    (h1 : d.length ≤ newSize) (h2 : newSize ≤ maxLarge)
    (htook : Took s (slice a (sectorCount d) (sectorCount d' - sectorCount d)) ∅ s₂)
    (hz : ∀ x ∈ slice a (sectorCount d) (sectorCount d' - sectorCount d), s₂.blocks x = zeros)
    (ha : ∀ j < sectorCount d, a j = sectorOf s.blocks d j)
    (hs' : s' = (s₂.put d.start (ofWords (mark a (sectorCount d')))).put sector d'.toSector) :
    Extended s sector d d' [] (slice a (sectorCount d) (sectorCount d' - sectorCount d)) s' ∧
      WellFormed s' sector d' := by
  have ht' : d'.sizeType = inodeTypeLarge := by rw [hd, ← ht]
  have hlen : d'.length = newSize := by rw [hd]
  have hst : d.start ∈ owned s.blocks d :=
    List.mem_append_left _ (start_mem _ (ht ▸ small_ne_large.symm))
  have hne : d.start ≠ sector := fun h => hwf.apart (h ▸ hst)
  have hstart : d'.start = d.start := by rw [hd]
  have hn : sectorCount d' ≤ sectorsPerArray := sectorCount_le (by rw [hlen]; exact h2)
  have hmono : sectorCount d ≤ sectorCount d' := sectorCount_mono (by rw [hlen]; exact h1)
  have hsplit : sectorCount d + (sectorCount d' - sectorCount d) = sectorCount d' := by omega
  have halt : ∀ j < sectorCount d', a j < 2 ^ 32 := by
    intro j hj
    have hdev := hwf.mapped.device
    rcases Nat.lt_or_ge j (sectorCount d) with hj' | hj'
    · rw [ha j hj']
      exact (hwf.mapped.sectorOf_lt hj').trans hdev
    · have hm : a j ∈ slice a (sectorCount d) (sectorCount d' - sectorCount d) :=
        mem_slice.mpr ⟨j, by omega, rfl⟩
      exact (htook.lt hm).trans hdev
  have harr : s'.blocks d'.start = ofWords (mark a (sectorCount d')) := by
    rw [hs', hstart, put_blocks_of_ne hne, put_blocks_self]
  have hext : Extended s sector d d' [] (slice a (sectorCount d) (sectorCount d' - sectorCount d)) s' := by
    refine ⟨ht'.trans ht.symm, ?_, ?_, ?_, fun x hx => ?_, by rw [hs', put_blocks_self]⟩
    · have hW : d.start ∈ indexSet s sector d := .inr (start_mem _ (ht ▸ small_ne_large.symm))
      rw [List.nil_append, hs']
      exact ((htook.mono (Set.empty_subset _)).put (.inr hW) _).put (.inr (.inl rfl)) _
    · rw [indexSectors_large _ ht, indexSectors_large _ ht', hstart]
      rfl
    · have hsl := slice_append a 0 (sectorCount d) (sectorCount d' - sectorCount d)
      rw [hsplit, Nat.zero_add] at hsl
      rw [dataSectors_array ht' harr halt hn, hsl, dataSectors]
      exact congrArg (· ++ _) (slice_congr fun j _ hj => ha j (by omega))
    · have hxs : x ≠ sector := fun h => htook.notMem hwf.sector_marked (h ▸ hx)
      have hxa : x ≠ d.start := fun h => htook.notMem (hwf.owned_marked hst) (h ▸ hx)
      rw [hs', put_blocks_of_ne hxs, put_blocks_of_ne hxa, hz x hx]
  refine ⟨hext, hext.wellFormed hwf hfits (by rw [hlen]; exact h1) ?_
    (fun _ hlt => sectorOf_marker ht' harr halt hlt) fun h => absurd (ht'.symm.trans h) large_ne_huge⟩
  rw [ht', hlen]
  exact h2

/-- **"expand large".** -/
theorem ends_expandLarge {Q : Option Bool × Inode → Fs → Prop}
    (hwf : WellFormed s inode.sector inode.data) (ht : inode.data.sizeType = inodeTypeLarge)
    (h1 : inode.data.length ≤ newSize) (h2 : newSize ≤ maxLarge)
    (hok : ∀ s' xs, Extended s inode.sector inode.data (grown inode newSize).data [] xs s' →
      WellFormed s' inode.sector (grown inode newSize).data →
      Q (some false, grown inode newSize) s')
    (hno : ∀ s' xs, Took s xs ∅ s' → s.refused < s'.refused →
      sectorCount inode.data ≠ sectorCount (grown inode newSize).data →
      Q (none, grown inode newSize) s') :
    Ends (expandLarge inode newSize) s Q E := by
  have h2' : newSize ≤ 65536 := h2
  have hn : sectorCount (grown inode newSize).data ≤ sectorsPerArray := sectorCount_le h2
  have hmono : sectorCount inode.data ≤ sectorCount (grown inode newSize).data := sectorCount_mono h1
  have hori : bytesToSectors inode.data.length = sectorCount inode.data := bytesToSectors_eq (by omega)
  have hnew : bytesToSectors newSize = sectorCount (grown inode newSize).data :=
    bytesToSectors_eq (by omega)
  have hfits : (grown inode newSize).data.Fits := fits_grown hwf (by omega)
  have hst : inode.data.start < s.freeMap.length :=
    hwf.mapped.index_lt (start_mem _ (ht ▸ small_ne_large.symm))
  unfold expandLarge
  simp only [hori, hnew]
  refine .ite (fun heq => ?_) fun hdiff => ?_
  · -- the last sector has room enough
    have hmax : maxSectors inode.data.sizeType * blockSectorSize = maxLarge := by rw [ht]; rfl
    obtain ⟨h3, h4⟩ := Extended.of_sameCount hwf rfl heq hfits h1 (by rw [hmax]; exact h2)
    exact .bind (ends_bcacheWrite hwf.sector_lt (.pure (hok _ [] h3 h4)))
  refine .bind (ends_calloc (fun s₁ hq _ => ?_) fun s₁ hq hr => .pure (hno s₁ [] (Took.of_quiet hq) hr hdiff))
  rw [if_pos rfl]
  have hl1 : s₁.freeMap.length = s.freeMap.length := by rw [hq.freeMap]
  refine .bind (ends_readArray (hl1.symm ▸ hst) ?_)
  -- the marker is where the assertion looks for it
  have hlt : sectorCount inode.data < sectorsPerArray := by omega
  have hmark : wordAt (s₁.blocks (grown inode newSize).data.start) (sectorCount inode.data) =
      sectorInvalid := by
    rw [hq.blocks]
    exact (sectorOf_large _ ht _).symm.trans (hwf.markerLarge ht hlt)
  refine .bind ?_
  unfold assertMarker
  rw [if_neg (by omega)]
  refine .bind (ends_load hlt ?_)
  rw [if_pos hmark]
  have hto : ∀ s₂ xs, Took s₁ xs ∅ s₂ → Took s xs ∅ s₂ := fun s₂ xs h =>
    (List.nil_append xs) ▸ (Took.of_quiet hq).trans h
  refine .pure (.bind (ends_appendSectors _ _ _ _ (by omega) (fun s₂ a h3 hz ha _ => ?_)
    fun s₂ xs h3 hr => .pure (hno s₂ xs (hto _ _ h3) (hq.refused.trans_lt hr) hdiff)))
  have hl2 : s₂.freeMap.length = s.freeMap.length := (hto _ _ h3).size
  refine .bind (ends_writeArray (hl2.symm ▸ hst) (.bind
    (ends_bcacheWrite (by rw [put_freeMap, hl2]; exact hwf.sector_lt) (.pure ?_))))
  obtain ⟨h4, h5⟩ := Extended.of_array hwf ht rfl hfits h1 h2 (hto _ _ h3) hz (fun j hj => by
    rw [ha j (.inl hj), hq.blocks]
    exact (sectorOf_large _ ht j).symm) rfl
  exact hok _ _ h4 h5

/-! ### An inode that is created anew -/

/-- The layout for a size that does not fit a small inode. -/
def growthType (newSize : ℕ) : ℕ := if newSize ≤ maxLarge then inodeTypeLarge else inodeTypeHuge

/-- The data of the inode after it was created anew. -/
def anew (inode : Inode) (newSize start : ℕ) : InodeDisk :=
  newInode start newSize (growthType newSize) inode.data.funcType inode.data.parent

/-- Growth that changes the layout. -/
def Destructive (inode : Inode) (newSize : ℕ) : Prop :=
  inode.data.sizeType = inodeTypeSmall ∨ inode.data.sizeType = inodeTypeLarge ∧ maxLarge < newSize

theorem ends_recreate {Q : Option Bool × Inode → Fs → Prop} {create : FsCall Bool}
    (h : Ends create s (fun success s' => if success then inode.sector < s'.freeMap.length ∧
      Q (some true, { inode with data := .ofSector (s'.blocks inode.sector) }) s'
      else Q (none, inode) s') E) : Ends (recreate inode create) s Q E := by
  refine .bind (h.mono (fun success s' hs => ?_) fun _ hs => hs)
  cases success with
  | true => exact .bind (ends_bcacheRead hs.1 (.pure hs.2))
  | false => exact .pure hs

/-- What the inode holds after a creator has stored a new one in its sector. -/
theorem Created.read_back (h : Created s inode.sector d s') :
    inode.sector < s'.freeMap.length ∧ InodeDisk.ofSector (s'.blocks inode.sector) = d :=
  ⟨h.wellFormed.sector_lt, h.wellFormed.stored⟩

/-- **`inode_expand_sectors`** where the layout changes. -/
theorem ends_expandSectors_anew {Q : Option Bool × Inode → Fs → Prop}
    (hwf : WellFormed s inode.sector inode.data) (hdes : Destructive inode newSize)
    (h1 : 0 < newSize) (h2 : newSize ≤ maxHuge)
    (hok : ∀ s' start, Created s inode.sector (anew inode newSize start) s' →
      Q (some true, { inode with data := anew inode newSize start }) s')
    (hno : ∀ s' xs, Took s xs ∅ s' → s.refused < s'.refused → Q (none, inode) s')
    (hjunk : ∀ s', Quiet s s' → s.refused < s'.refused → maxLarge < newSize →
      s.answers s.asked = true → IndexRefused s.requested →
      Q (some true, { inode with data := .ofSector (anew inode newSize s.junk).toSector })
        (s'.put inode.sector (anew inode newSize s.junk).toSector)) :
    Ends (inodeExpandSectors inode newSize) s Q E := by
  have hdev := hwf.mapped.device
  refine .bind (ends_request ?_)
  have hq := quiet_requested s
  rcases ha : s.answers s.asked with _ | _
  · exact .pure (hno _ [] (Took.of_quiet hq) (by simp [Fs.requested, ha]))
  rw [if_pos rfl]
  have hjunk := fun s' h1 h2 h3 => hjunk s' h1 h2 h3 ha
  generalize s.requested = s₁ at hq hjunk ⊢
  have hs1 : s₁.freeMap[inode.sector]? = some true := by rw [hq.freeMap, hwf.sector_marked]
  have hdev1 : s₁.freeMap.length < 2 ^ 32 := by rw [hq.freeMap]; exact hdev
  have hto : ∀ s₂ xs W, Took s₁ xs W s₂ → Took s xs W s₂ := fun s₂ xs W h =>
    (List.nil_append xs) ▸ (Took.of_quiet hq).trans h
  have hcreated : ∀ s₂ d, Created s₁ inode.sector d s₂ → Created s inode.sector d s₂ :=
    fun s₂ d h => ⟨hto _ _ _ h.took, h.wellFormed, h.zero⟩
  have hhuge : maxLarge < newSize → Ends (recreate inode (inodeCreateHuge inode.sector newSize
      inode.data.funcType inode.data.parent)) s₁ Q E := by
    intro hgt
    have htype : ∀ start, newInode start newSize inodeTypeHuge inode.data.funcType inode.data.parent =
        anew inode newSize start := fun start => by rw [anew, growthType, if_neg (by omega)]
    refine ends_recreate (ends_inodeCreateHuge hs1 hdev1 h1 h2 hwf.fits.funcType hwf.fits.parent
      (fun s₂ start h _ => ?_) (fun s₂ xs h hr => ?_) fun s₂ h hr hidx => ?_)
    · rw [htype] at h
      obtain ⟨h3, h4⟩ := Created.read_back h
      rw [if_pos rfl, h4]
      exact ⟨h3, hok s₂ start (hcreated _ _ h)⟩
    · rw [if_neg (by decide)]
      exact hno s₂ xs (hto _ _ _ h) (hq.refused.trans_lt hr)
    · have hq2 := hq.trans h
      rw [if_pos rfl, htype, hq.junk, put_blocks_self]
      refine ⟨?_, hjunk s₂ hq2 (hq.refused.trans_lt hr) hgt hidx⟩
      rw [put_freeMap, hq2.freeMap]
      exact hwf.sector_lt
  have hlarge : newSize ≤ maxLarge → Ends (recreate inode (inodeCreateLarge inode.sector newSize
      inode.data.funcType inode.data.parent)) s₁ Q E := by
    intro hle
    have htype : ∀ start, newInode start newSize inodeTypeLarge inode.data.funcType inode.data.parent =
        anew inode newSize start := fun start => by rw [anew, growthType, if_pos hle]
    refine ends_recreate (ends_inodeCreateLarge hs1 hdev1 hle hwf.fits.funcType hwf.fits.parent
      (fun s₂ start h _ => ?_) fun s₂ xs h hr => ?_)
    · rw [htype] at h
      obtain ⟨h3, h4⟩ := Created.read_back h
      rw [if_pos rfl, h4]
      exact ⟨h3, hok s₂ start (hcreated _ _ h)⟩
    · rw [if_neg (by decide)]
      exact hno s₂ xs (hto _ _ _ h) (hq.refused.trans_lt hr)
  rcases hdes with ht | ⟨ht, hgt⟩
  · rw [if_pos ht, if_neg (by omega)]
    exact .ite hhuge fun hle => hlarge (by omega)
  · rw [if_neg (ht ▸ small_ne_large.symm), if_pos ht, if_pos hgt]
    exact hhuge hgt

/-- **`inode_expand_sectors`** on a large inode that stays large. -/
theorem ends_expandSectors_large {Q : Option Bool × Inode → Fs → Prop}
    (hwf : WellFormed s inode.sector inode.data) (ht : inode.data.sizeType = inodeTypeLarge)
    (h1 : inode.data.length ≤ newSize) (h2 : newSize ≤ maxLarge)
    (hok : ∀ s' xs, Extended s inode.sector inode.data (grown inode newSize).data [] xs s' →
      WellFormed s' inode.sector (grown inode newSize).data →
      Q (some false, grown inode newSize) s')
    (hno : ∀ s' xs, Took s xs ∅ s' → s.refused < s'.refused →
      sectorCount inode.data ≠ sectorCount (grown inode newSize).data →
      Q (none, grown inode newSize) s')
    (hbuf : ∀ s', Quiet s s' → s.refused < s'.refused → Q (none, inode) s') :
    Ends (inodeExpandSectors inode newSize) s Q E := by
  refine .bind (ends_calloc (fun s₁ hq _ => ?_) fun s₁ hq hr => .pure (hbuf s₁ hq hr))
  rw [if_pos rfl, if_neg (ht ▸ small_ne_large.symm), if_pos ht, if_neg (by omega)]
  exact ends_expandLarge (hwf.of_quiet hq) ht h1 h2 (fun s' xs h => hok s' xs (h.of_quiet hq))
    fun s' xs h hr => hno s' xs ((List.nil_append xs) ▸ (Took.of_quiet hq).trans h)
      (hq.refused.trans_lt hr)

/-! ### `inode_expand` -/

/-- What growth to `newSize` promises: the inode has the new length and a layout for it, the old bytes are
kept and the new ones are zero, its sectors are its old ones or were free, and nothing else is written. -/
structure Grown (s : Fs) (inode : Inode) (newSize : ℕ) (inode' : Inode) (s' : Fs) : Prop where
  same : inode' = { inode with data := inode'.data }
  sameLength : inode'.data.length = newSize
  layout : inode'.data.sizeType = growthType newSize
  sameType : inode'.data.funcType = inode.data.funcType
  sameParent : inode'.data.parent = inode.data.parent
  wellFormed : WellFormed s' inode.sector inode'.data
  old : ∀ p < inode.data.length, content s'.blocks inode'.data p = content s.blocks inode.data p
  zero : ∀ p, inode.data.length ≤ p → p < newSize → content s'.blocks inode'.data p = 0
  sectors : ∀ x ∈ owned s'.blocks inode'.data,
    x ∈ owned s.blocks inode.data ∨ s.freeMap[x]? = some false
  rest : ∀ x, s.freeMap[x]? = some true → x ≠ inode.sector → x ∉ owned s.blocks inode.data →
    s'.blocks x = s.blocks x
  others : ∀ other : InodeDisk, (∀ x ∈ owned s.blocks other, s.freeMap[x]? = some true ∧
    x ≠ inode.sector ∧ x ∉ owned s.blocks inode.data) →
      ∀ p < other.length, content s'.blocks other p = content s.blocks other p

theorem content_others {P : ℕ → Prop} {other : InodeDisk} (h : ∀ x, P x → s'.blocks x = s.blocks x)
    (ho : ∀ x ∈ owned s.blocks other, P x) (hp : p < other.length) :
    content s'.blocks other p = content s.blocks other p :=
  content_congr (fun x hx => h x (ho x hx)) hp

/-- Growth in place. -/
theorem Extended.grown (hwf : WellFormed s inode.sector inode.data)
    (h : Extended s inode.sector inode.data (grown inode newSize).data ys xs s')
    (hwf' : WellFormed s' inode.sector (grown inode newSize).data)
    (htype : inode.data.sizeType = growthType newSize) :
    Grown s inode newSize (InodeExpand.grown inode newSize) s' := by
  have hrest : ∀ x, s.freeMap[x]? = some true ∧ x ≠ inode.sector ∧ x ∉ owned s.blocks inode.data →
      s'.blocks x = s.blocks x := by
    rintro x ⟨h1, h2, h3⟩
    refine h.took.blocks h1 ?_
    rintro (rfl | hi)
    · exact h2 rfl
    · exact h3 (List.mem_append_left _ hi)
  refine ⟨rfl, rfl, htype, rfl, rfl, hwf', fun p hp => ?_, fun p h1 h2 => ?_, fun x hx => ?_,
    fun x h1 h2 h3 => hrest x ⟨h1, h2, h3⟩, fun other ho p hp => content_others hrest ho hp⟩
  · exact h.content_old hwf ((Nat.div_lt_iff_lt_mul (by decide)).mp (div_lt_sectorCount hp))
  · have hp : p < (InodeExpand.grown inode newSize).data.length := h2
    exact h.content_tail hwf h1 ((Nat.div_lt_iff_lt_mul (by decide)).mp (div_lt_sectorCount hp))
  · exact (h.mem_owned.mp hx).imp id fun hn => h.took.free x hn

/-- An inode that was created anew, and written back. -/
theorem Created.grown {s₁ : Fs} {start : ℕ} (hlen : inode.data.length ≤ newSize)
    (h : Created s inode.sector (anew inode newSize start) s₁)
    (hw : Wrote s₁ (anew inode newSize start) 0
      (slice (content s.blocks inode.data) 0 inode.data.length) s') :
    Grown s inode newSize { inode with data := anew inode newSize start } s' := by
  have hidx := hw.index h.wellFormed.mapped
  have hlen' : (slice (content s.blocks inode.data) 0 inode.data.length).length = inode.data.length :=
    length_slice
  have hown : owned s'.blocks (anew inode newSize start) = owned s₁.blocks (anew inode newSize start) :=
    owned_congr hidx
  have hrest : ∀ x, s.freeMap[x]? = some true ∧ x ≠ inode.sector ∧ x ∉ owned s.blocks inode.data →
      s'.blocks x = s.blocks x := by
    rintro x ⟨h1, h2, -⟩
    have hn : x ∉ dataSet s₁ (anew inode newSize start) := fun hm =>
      h.took.notMem h1 (List.mem_append_right _ hm)
    rw [hw.took.kept x List.not_mem_nil hn, h.took.blocks h1 h2]
  have hcontent : ∀ p < newSize, content s'.blocks (anew inode newSize start) p =
      overlay (content s₁.blocks (anew inode newSize start)) 0
        (slice (content s.blocks inode.data) 0 inode.data.length) p := by
    intro p hp
    have hp' : p < (anew inode newSize start).length := hp
    exact hw.content p ((Nat.div_lt_iff_lt_mul (by decide)).mp (div_lt_sectorCount hp'))
  refine ⟨rfl, rfl, rfl, rfl, rfl, hw.wellFormed h.wellFormed ?_, fun p hp => ?_, fun p h1 h2 => ?_,
    fun x hx => .inr ?_, fun x h1 h2 h3 => hrest x ⟨h1, h2, h3⟩,
    fun other ho p hp => content_others hrest ho hp⟩
  · rw [hlen', Nat.zero_add]
    exact hlen
  · rw [hcontent p (by omega), overlay_of_mem (Nat.zero_le p) (by rw [hlen']; exact hp)]
    simp [slice]
  · have hp' : p < (anew inode newSize start).length := h2
    rw [hcontent p h2, overlay_of_le (by rw [hlen']; omega)]
    exact h.zero p ((Nat.div_lt_iff_lt_mul (by decide)).mp (div_lt_sectorCount hp'))
  · rw [hown] at hx
    exact h.took.free x hx

theorem expandIsDestructive_of {Q : Bool → Fs → Prop} (h : Destructive inode newSize) (hQ : Q true s) :
    Ends (inodeExpandIsDestructive inode newSize) s Q E := by
  unfold inodeExpandIsDestructive
  rcases h with ht | ⟨ht, hgt⟩
  · rw [if_pos ht]
    exact .pure hQ
  · rw [if_neg (ht ▸ small_ne_large.symm), if_pos ht, decide_eq_true hgt]
    exact .pure hQ

theorem expandIsDestructive_large {Q : Bool → Fs → Prop} (ht : inode.data.sizeType = inodeTypeLarge)
    (h : newSize ≤ maxLarge) (hQ : Q false s) : Ends (inodeExpandIsDestructive inode newSize) s Q E := by
  unfold inodeExpandIsDestructive
  rw [if_neg (ht ▸ small_ne_large.symm), if_pos ht, decide_eq_false (by omega)]
  exact .pure hQ

/-- Linearise, create anew, write back. -/
theorem ends_expand_anew (hwf : WellFormed s inode.sector inode.data) (hdes : Destructive inode newSize)
    (h0 : inode.data.length ≠ 0) (h1 : inode.data.length ≤ newSize) (h2 : newSize ≤ maxHuge)
    (hdeny : inode.denyWriteCnt = 0) :
    Ends (inodeExpand inode newSize) s
      (fun result s' => s'.refused = s.refused → result.1 = true ∧ Grown s inode newSize result.2 s')
      fun s' => s.refused < s'.refused := by
  unfold inodeExpand
  simp only [if_neg h0]
  refine .bind (expandIsDestructive_of hdes ?_)
  rw [if_pos rfl]
  refine .bind (ends_calloc (fun s₁ hq1 _ => ?_) fun s₁ hq1 hr => .pure fun h => by omega)
  rw [if_pos rfl]
  refine .bind (ends_inodeReadAt (mapped_of_quiet hwf.mapped hq1) (fun h => by omega) (fun s₂ hq2 => ?_)
    fun s₂ m hq2 hm hr => ?_)
  swap
  · -- the data could not be read
    have h4 := hq1.refused
    rw [if_pos (by rw [length_slice]; omega)]
    exact .pure fun h => by omega
  have hq := hq1.trans hq2
  have hfull : min inode.data.length (inode.data.length - 0) = inode.data.length := by omega
  rw [hfull, hq1.blocks, if_neg (by rw [length_slice]; omega)]
  have hr2 := hq.refused
  refine .bind (ends_expandSectors_anew (hwf.of_quiet hq) hdes (by omega) h2 (fun s₃ start hc => ?_)
    (fun s₃ xs ht hr => .pure fun h => by have := ht.refused; omega) fun s₃ hq3 hr hgt _ _ => .bind ?_)
  swap
  · -- the index array was refused: whatever comes after, the refusal is on record
    have hkeep := keeps_inodeWriteWith (lasting_refused s.refused)
      (fun _ _ => (Keeps.throw : Keeps _ (throw Stop.relock : FsCall (Bool × Inode))))
      { inode with data := .ofSector (anew inode newSize s₂.junk).toSector }
      (slice (content s.blocks inode.data) 0 inode.data.length) 0
      (s₃.put inode.sector (anew inode newSize s₂.junk).toSector) (hr2.trans_lt hr)
    exact hkeep.mono (fun r s' h => .pure fun he => absurd h (by rw [Refused, he]; omega)) fun _ h => h
  have hc' : Created s inode.sector (anew inode newSize start) s₃ :=
    ⟨(Took.of_quiet hq).trans hc.took, hc.wellFormed, hc.zero⟩
  have hr3 := hc'.took.refused
  have hfits : 0 + (slice (content s.blocks inode.data) 0 inode.data.length).length ≤ newSize := by
    rw [length_slice]
    omega
  have hm : Mapped s₃ ({ inode with data := anew inode newSize start } : Inode).data := hc.wellFormed.mapped
  refine .bind (ends_inodeWriteWith hm hdeny hfits
    (fun s₄ hw => .pure fun _ => ⟨?_, Created.grown h1 hc' hw⟩)
    fun s₄ m hw hm hr => .pure fun h => by omega)
  simp

/-- In place. -/
theorem ends_expand_large (hwf : WellFormed s inode.sector inode.data)
    (ht : inode.data.sizeType = inodeTypeLarge) (h0 : inode.data.length ≠ 0)
    (h1 : inode.data.length ≤ newSize) (h2 : newSize ≤ maxLarge) :
    Ends (inodeExpand inode newSize) s
      (fun result s' => s'.refused = s.refused → result.1 = true ∧ Grown s inode newSize result.2 s')
      fun s' => s.refused < s'.refused := by
  unfold inodeExpand
  simp only [if_neg h0]
  refine .bind (expandIsDestructive_large ht h2 ?_)
  rw [if_neg (by decide)]
  refine .bind (ends_expandSectors_large hwf ht h1 h2 (fun s' xs he hwf' => .pure fun _ => ⟨rfl, ?_⟩)
    (fun s' xs _ hr _ => .pure fun h => by omega) fun s' _ hr => .pure fun h => by omega)
  exact he.grown hwf hwf' (ht.trans (if_pos h2).symm)

/-- An empty file has nothing to write back. -/
theorem ends_expand_empty (hwf : WellFormed s inode.sector inode.data)
    (hkind : inode.data.sizeType = inodeTypeSmall ∨ inode.data.sizeType = inodeTypeLarge)
    (h0 : inode.data.length = 0) (h1 : 0 < newSize) (h2 : newSize ≤ maxHuge) :
    Ends (inodeExpand inode newSize) s
      (fun result s' => s'.refused = s.refused → result.1 = true ∧ Grown s inode newSize result.2 s')
      fun s' => s.refused < s'.refused := by
  unfold inodeExpand
  simp only [if_pos h0]
  by_cases hdes : Destructive inode newSize
  · refine .bind (ends_expandSectors_anew hwf hdes h1 h2 (fun s' start hc => .pure fun _ => ⟨rfl, ?_⟩)
      (fun s' xs _ hr => .pure fun h => by omega) fun s' _ hr _ _ _ => .pure fun h => ?_)
    · refine Created.grown (by omega) hc ?_
      rw [h0]
      exact wrote_of_quiet (Quiet.refl _) _ _
    · exact absurd h (by show s'.refused ≠ s.refused; omega)
  · have ht : inode.data.sizeType = inodeTypeLarge := hkind.resolve_left fun h => hdes (.inl h)
    have hle : newSize ≤ maxLarge := Nat.le_of_not_lt fun h => hdes (.inr ⟨ht, h⟩)
    refine .bind (ends_expandSectors_large hwf ht (by omega) hle
      (fun s' xs he hwf' => .pure fun _ => ⟨rfl, ?_⟩)
      (fun s' xs _ hr _ => .pure fun h => by omega) fun s' _ hr => .pure fun h => by omega)
    exact he.grown hwf hwf' (ht.trans (if_pos hle).symm)

theorem wellFormed_smallFile : WellFormed smallFs 2 smallInode where
  mapped := mapped_smallFile
  apart := by decide
  marked := by decide
  stored := ofSector_toSector (newInode_fits (by decide) (by decide) (by decide) (by decide) (by decide))
  markerLarge := fun h => absurd h small_ne_large
  markerHuge := fun h => absurd h small_ne_huge
  huge := fun h => absurd h small_ne_huge
  tail := by
    intro p _ _
    have hne : smallInode.start + p / blockSectorSize ≠ 2 :=
      Nat.ne_of_gt (Nat.lt_of_lt_of_le (by decide : 2 < smallInode.start) (Nat.le_add_right _ _))
    have hsec : sectorOf smallFs.blocks smallInode (p / blockSectorSize) =
        smallInode.start + p / blockSectorSize := if_pos rfl
    rw [content, hsec]
    show byteAt (if smallInode.start + p / blockSectorSize = 2 then _ else zeros) _ = 0
    rw [if_neg hne, byteAt_zeros]

end Pintos.Filesys.InodeGrow
