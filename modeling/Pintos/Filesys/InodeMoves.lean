import Pintos.Filesys.Granting
import Pintos.Filesys.InodeLimit

/-! # What a write does to the sectors of an inode

However many of its requests are refused, a write either leaves the inode with a layout over its old sectors and
sectors that were free before, or it is one of the growths that `GrowthSound` names. -/

namespace Pintos.Filesys.InodeMoves

open Pintos.Filesys.FreeMap Pintos.Filesys.Sector Pintos.Filesys.Allocation Pintos.Filesys.InodeLayout
open Pintos.Filesys.InodeIo Pintos.Filesys.InodeCreate Pintos.Filesys.InodeExpand
open Pintos.Filesys.InodeReadWrite Pintos.Filesys.InodeGrow Pintos.Filesys.InodeGrowHuge
open Pintos.Filesys.InodeLimit Pintos.Filesys.Granting
open Pintos.Kernel.Bitmap Pintos.Lib.Overlay Pintos.Lib.Stopping
open Pintos.Filesys.Bcache (SectorData blockSectorSize)

variable {s s' s'' : Fs} {d d' : InodeDisk} {inode inode' : Inode} {xs : List ℕ} {W : Set ℕ}
  {sector newSize offset k x : ℕ}

/-! ### Sectors that stay as they are -/

/-- An inode none of whose sectors is written or given back. -/
theorem WellFormed.frame (h : WellFormed s sector d)
    (hb : ∀ x ∈ sector :: owned s.blocks d, s'.blocks x = s.blocks x)
    (hm : ∀ x ∈ sector :: owned s.blocks d, s'.freeMap[x]? = some true)
    (hl : s'.freeMap.length = s.freeMap.length) : WellFormed s' sector d := by
  have hidx : ∀ x ∈ indexSectors s.blocks d, s'.blocks x = s.blocks x := fun x hx =>
    hb x (List.mem_cons_of_mem _ (List.mem_append_left _ hx))
  have hown : owned s'.blocks d = owned s.blocks d := owned_congr hidx
  refine ⟨h.mapped.congr hidx hl, hown ▸ h.apart, hown ▸ hm, ?_, fun ht hn => ?_, fun ht hn => ?_, h.huge,
    fun p h1 h2 => ?_⟩
  · rw [hb sector List.mem_cons_self, h.stored]
  · rw [sectorOf_congr_array hidx (.inr ht), h.markerLarge ht hn]
  · rw [sectorOf_congr_array hidx (.inl (WellFormed.marker_row hn)), h.markerHuge ht hn]
  · have hk : p / blockSectorSize < sectorCount d := (Nat.div_lt_iff_lt_mul (by decide)).mpr h2
    rw [content, sectorOf_congr hidx hk, hb _ (List.mem_cons_of_mem _ (sectorOf_mem_owned _ hk))]
    exact h.tail p h1 h2

/-- The sector of an inode, and the sectors that it owns. -/
def ownSet (s : Fs) (sector : ℕ) (d : InodeDisk) : Set ℕ := { x | x = sector ∨ x ∈ owned s.blocks d }

/-- An inode whose sectors are not among those that may be written. -/
theorem WellFormed.of_took (h : WellFormed s sector d) (ht : Took s xs W s')
    (hW : ∀ x ∈ sector :: owned s.blocks d, x ∉ W) : WellFormed s' sector d :=
  WellFormed.frame h (fun x hx => ht.blocks (h.marked x hx) (hW x hx)) (fun x hx => ht.marked (h.marked x hx))
    ht.size

/-- From `s` to `s'`, the inode has taken the sectors `xs`, and has a layout over these and its old ones. -/
structure Moved (s : Fs) (inode inode' : Inode) (xs : List ℕ) (s' : Fs) : Prop where
  same : inode' = { inode with data := inode'.data }
  took : Took s xs (ownSet s inode.sector inode.data) s'
  wellFormed : WellFormed s' inode.sector inode'.data
  into : ∀ x ∈ owned s'.blocks inode'.data, x ∈ owned s.blocks inode.data ∨ x ∈ xs

namespace Moved

/-- Sectors were taken at most. -/
theorem of_took (hwf : WellFormed s inode.sector inode.data) (h : Took s xs ∅ s') :
    Moved s inode inode xs s' := by
  have hwf' := WellFormed.of_took hwf h fun x _ hx => hx
  have hown : owned s'.blocks inode.data = owned s.blocks inode.data := owned_congr fun x hx =>
    h.blocks (hwf.owned_marked (List.mem_append_left _ hx)) (Set.notMem_empty x)
  exact ⟨rfl, h.mono (Set.empty_subset _), hwf', fun x hx => .inl (hown ▸ hx)⟩

theorem of_quiet (hwf : WellFormed s inode.sector inode.data) (h : Quiet s s') : Moved s inode inode [] s' :=
  of_took hwf (Took.of_quiet h)

/-- Requests before a move. -/
theorem quiet (hq : Quiet s s') (h : Moved s' inode inode' xs s'') : Moved s inode inode' xs s'' := by
  have hset : ownSet s' inode.sector inode.data = ownSet s inode.sector inode.data := by
    rw [ownSet, hq.blocks, ownSet]
  refine ⟨h.same, ?_, h.wellFormed, fun x hx => hq.blocks ▸ h.into x hx⟩
  exact (List.nil_append xs) ▸ (Took.of_quiet hq).trans (hset ▸ h.took)

/-- A write inside the file after a move. -/
theorem wrote {bytes : List UInt8} (h : Moved s inode inode' xs s') (hw : Wrote s' inode'.data offset bytes s'')
    (hin : offset + bytes.length ≤ inode'.data.length) : Moved s inode inode' xs s'' := by
  have hwf := hw.wellFormed h.wellFormed hin
  have hown : owned s''.blocks inode'.data = owned s'.blocks inode'.data :=
    owned_congr (hw.index h.wellFormed.mapped)
  refine ⟨h.same, h.took.absorb hw.took fun x hx => ?_, hwf, fun x hx => h.into x (hown ▸ hx)⟩
  exact (h.into x (List.mem_append_right _ hx)).symm.imp id .inr

theorem of_created (h : Created s inode.sector d s') :
    Moved s inode { inode with data := d } (owned s'.blocks d) s' :=
  ⟨rfl, h.took.mono fun _ hx => .inl hx, h.wellFormed, fun _ hx => .inr hx⟩

theorem of_extended {ys zs : List ℕ} (h : Extended s inode.sector inode.data (grown inode newSize).data ys zs s')
    (hwf : WellFormed s' inode.sector (grown inode newSize).data) :
    Moved s inode (grown inode newSize) (ys ++ zs) s' := by
  refine ⟨rfl, h.took.mono fun x hx => hx.imp id fun hi => List.mem_append_left _ hi, hwf, fun x hx => ?_⟩
  exact h.mem_owned.mp hx

end Moved

/-! ### Past the maximum size -/

/-- A write to a sector that was taken. -/
theorem took_bcacheWrite (h : Took s xs ∅ s') (hx : x ∈ xs) (data : SectorData) :
    Ends (bcacheWrite x data) s' (fun _ s'' => Took s xs ∅ s'') fun _ => True := by
  refine .bind (.get (.ite (fun _ => .throw trivial) fun _ => .ite (fun _ => .throw trivial) fun _ => .set ?_))
  exact h.put (.inl hx) _

/-- Whatever is refused, and however long the array, appending to it takes sectors and writes to these. -/
theorem took_appendSectors : ∀ (k i : ℕ) (a : SectorArray) (s : Fs),
    Ends (appendSectors a i k) s (fun _ s' => ∃ xs, Took s xs ∅ s') fun _ => True
  | 0, _, _, s => .pure ⟨[], Took.refl s⟩
  | k + 1, i, a, s => by
    refine .bind (ends_allocateOne (W := ∅) (fun s₁ x h1 _ => ?_) fun s₁ h1 _ _ => .pure ⟨[], Took.of_quiet h1⟩)
    refine .bind (.ite (fun _ => .pure (.bind ?_)) fun _ => .throw trivial)
    refine (took_bcacheWrite h1 List.mem_cons_self zeros).mono (fun _ s₂ h2 => ?_) fun _ h => h
    refine (took_appendSectors k (i + 1) _ s₂).mono (fun _ s₃ hs => ?_) fun _ h => h
    obtain ⟨xs, h3⟩ := hs
    exact ⟨_, h2.trans h3⟩

/-- An array of arrays is not filled past its end. -/
theorem took_appendArrays_long (cnt : ℕ → ℕ) : ∀ (k i : ℕ) (a : SectorArray) (s : Fs),
    sectorsPerArray < i + k → i ≤ sectorsPerArray →
    Ends (appendArrays (fun _ => return fun _ => 0) cnt a i k) s (fun r s' => r = none ∧ ∃ xs, Took s xs ∅ s')
      fun _ => True
  | 0, i, _, _, hlong, hi => by omega
  | k + 1, i, a, s, hlong, _ => by
    refine .bind (ends_allocateOne (W := ∅) (fun s₁ x h1 _ => ?_) fun s₁ h1 _ _ =>
      .pure ⟨rfl, [], Took.of_quiet h1⟩)
    refine .bind (.ite (fun hi => .pure (.bind (.pure (.bind ?_)))) fun _ => .throw trivial)
    refine (took_appendSectors _ _ _ s₁).mono (fun r s₂ hs => ?_) fun _ h => h
    obtain ⟨ys, h2⟩ := hs
    have h12 := h1.trans h2
    rcases r with _ | row
    · exact .pure ⟨rfl, _, h12⟩
    refine .bind ((took_bcacheWrite h12 (List.mem_append_left _ List.mem_cons_self) _).mono (fun _ s₃ h3 => ?_)
      fun _ h => h)
    refine (took_appendArrays_long cnt k (i + 1) _ s₃ (by omega) (by omega)).mono (fun r s₄ hs => ?_) fun _ h => h
    obtain ⟨rfl, zs, h4⟩ := hs
    exact ⟨rfl, _, h3.trans h4⟩

/-- `inode_create_huge` past the maximum size, where the array is not overrun: it fails, or the sector of its
index array was refused. -/
theorem took_inodeCreateHuge_long {funcType parentSector : ℕ}
    (hlong : sectorsPerArray < divRoundUp (bytesToSectors newSize) sectorsPerArray) (hidx : ¬IndexRefused s) :
    Ends (inodeCreateHuge sector newSize funcType parentSector) s (fun r s' => r = false ∧ ∃ xs, Took s xs ∅ s')
      fun _ => True := by
  have h1 := quiet_requested s
  have h2 := h1.trans (quiet_requested _)
  have h3 := h2.trans (quiet_requested _)
  refine .bind (ends_request ?_)
  rcases ha1 : s.answers s.asked with _ | _
  · exact .pure ⟨rfl, [], Took.of_quiet h1⟩
  rw [if_pos rfl]
  refine .bind (ends_request ?_)
  rcases ha2 : s.requested.answers s.requested.asked with _ | _
  · exact .pure ⟨rfl, [], Took.of_quiet h2⟩
  rw [if_pos rfl]
  refine .bind (ends_request ?_)
  rcases ha3 : s.requested.requested.answers s.requested.requested.asked with _ | _
  · exact .pure ⟨rfl, [], Took.of_quiet h3⟩
  rw [if_pos rfl]
  refine .bind (ends_allocateOne (W := ∅) (fun s₁ x h4 _ => ?_) fun s₁ _ _ hg => ?_)
  · refine .bind ((took_appendArrays_long _ _ 0 _ s₁ (by omega) (Nat.zero_le _)).mono (fun r s₂ hs => ?_)
      fun _ h => h)
    obtain ⟨rfl, xs, h5⟩ := hs
    exact .pure ⟨rfl, _, (Took.of_quiet h3).trans (h4.trans h5)⟩
  · exact absurd ⟨ha1, ha2, ha3, hg⟩ hidx

theorem divRoundUp_long (h : maxHuge < newSize) (h31 : newSize < 2 ^ 31) :
    sectorsPerArray < divRoundUp (bytesToSectors newSize) sectorsPerArray := by
  have h' : 8388608 < newSize := h
  unfold bytesToSectors divRoundUp blockSectorSize sectorsPerArray
  split_ifs <;> omega

/-! ### `inode_expand_sectors` -/

/-- The sector of the index array is refused to `inode_create_huge`, if `i` requests come before its own. -/
def IndexRefusedAfter (s : Fs) (i : ℕ) : Prop :=
  Grants s i 3 ∧ (freeCount s = 0 ∨ s.answers (s.asked + i + 3) = false)

theorem indexRefusedAfter_requested (h : IndexRefused s.requested) : IndexRefusedAfter s 1 := by
  obtain ⟨h1, h2, h3, h4⟩ := h
  refine ⟨fun j hj => ?_, h4.imp count_of_bitmapScan id⟩
  obtain rfl | rfl | rfl : j = 0 ∨ j = 1 ∨ j = 2 := by omega
  · exact h1
  · exact h2
  · exact h3

/-- In place, no request is refused once the new length is stored, and a huge inode needs no array more. -/
structure PlaceSound (s : Fs) (inode : Inode) (newSize : ℕ) : Prop where
  large : inode.data.sizeType = inodeTypeLarge → newSize ≤ maxLarge →
    sectorCount inode.data ≠ sectorCount (grown inode newSize).data → s.answers s.asked = true →
    Grants s 1 (1 + (sectorCount (grown inode newSize).data - sectorCount inode.data)) ∧
      sectorCount (grown inode newSize).data - sectorCount inode.data ≤ freeCount s
  huge : inode.data.sizeType = inodeTypeHuge → newSize ≤ maxHuge →
    sectorCount inode.data ≠ sectorCount (grown inode newSize).data → s.answers s.asked = true →
    arrayCount (grown inode newSize).data = arrayCount inode.data ∧
      Grants s 1 (2 + (sectorCount (grown inode newSize).data - sectorCount inode.data)) ∧
      sectorCount (grown inode newSize).data - sectorCount inode.data ≤ freeCount s

/-- What `inode_expand_sectors` must not meet when it grows the inode to `newSize`: where the inode is created
anew, the sector of an index array is refused; or the growth in place is not sound. -/
structure SectorsSound (s : Fs) (inode : Inode) (newSize : ℕ) : Prop extends PlaceSound s inode newSize where
  anew : Destructive inode newSize → maxLarge < newSize →
    (inode.data.sizeType = inodeTypeSmall → newSize ≤ maxHuge) →
    ¬(s.answers s.asked = true ∧ IndexRefusedAfter s 1)

/-- A growth in place that is sound succeeds once it has its buffer. -/
theorem grants_expandSectors (ha : s.answers s.asked = true)
    (hpos : inode.data.sizeType = inodeTypeHuge → 0 < inode.data.length)
    (h1 : inode.data.length ≤ newSize) (hplace : inode.data.sizeType = inodeTypeLarge ∧ newSize ≤ maxLarge ∨
      inode.data.sizeType = inodeTypeHuge ∧ newSize ≤ maxHuge) (hs : PlaceSound s inode newSize) :
    Ends (inodeExpandSectors inode newSize) s (fun r _ => r.1.isSome) fun _ => True := by
  refine .bind (ends_request ?_)
  rw [ha, if_pos rfl]
  rcases hplace with ⟨ht, h2⟩ | ⟨ht, h2⟩
  · rw [if_neg (ht ▸ small_ne_large.symm), if_pos ht, if_neg (by omega)]
    refine grants_expandLarge h1 h2 fun hdiff => ?_
    obtain ⟨hg, hfree⟩ := hs.large ht h2 hdiff ha
    exact ⟨(Consumed.request s).grants hg, hfree⟩
  · rw [if_neg (ht ▸ small_ne_huge.symm), if_neg (ht ▸ large_ne_huge.symm), if_pos ht, if_neg (by omega)]
    refine grants_expandHuge (hpos ht) h1 h2 fun hdiff => ?_
    obtain ⟨hc, hg, hfree⟩ := hs.huge ht h2 hdiff ha
    exact ⟨hc, (Consumed.request s).grants hg, hfree⟩

/-- What growth leaves: a layout over old sectors and new ones, with the new length if it succeeds. -/
def Grew (s : Fs) (inode : Inode) (newSize : ℕ) (r : Option Bool × Inode) (s' : Fs) : Prop :=
  (∃ xs, Moved s inode r.2 xs s') ∧ (r.1.isSome → r.2.data.length = newSize)

theorem grew_of_took (hwf : WellFormed s inode.sector inode.data) (h : Took s xs ∅ s') :
    Grew s inode newSize (none, inode) s' := ⟨⟨xs, .of_took hwf h⟩, fun h => Bool.noConfusion h⟩

theorem grew_of_extended {ys zs : List ℕ}
    (h : Extended s inode.sector inode.data (grown inode newSize).data ys zs s')
    (hwf : WellFormed s' inode.sector (grown inode newSize).data) :
    Grew s inode newSize (some false, grown inode newSize) s' := ⟨⟨_, .of_extended h hwf⟩, fun _ => rfl⟩

/-- In place. -/
theorem grew_place (ha : s.answers s.asked = true) (hwf : WellFormed s inode.sector inode.data)
    (h1 : inode.data.length ≤ newSize) (hplace : inode.data.sizeType = inodeTypeLarge ∧ newSize ≤ maxLarge ∨
      inode.data.sizeType = inodeTypeHuge ∧ newSize ≤ maxHuge) (hs : PlaceSound s inode newSize) :
    Ends (inodeExpandSectors inode newSize) s (Grew s inode newSize) fun _ => True := by
  have hplaced : Ends (inodeExpandSectors inode newSize) s
      (fun r s' => r.1.isSome → Grew s inode newSize r s') fun _ => True := by
    have hnone : ∀ (inode' : Inode) s', ((none : Option Bool), inode').1.isSome →
        Grew s inode newSize (none, inode') s' := fun _ _ h => Bool.noConfusion h
    rcases hplace with ⟨ht, h2⟩ | ⟨ht, h2⟩
    · exact ends_expandSectors_large hwf ht h1 h2 (fun s' xs h hw _ => grew_of_extended h hw)
        (fun s' _ _ _ _ => hnone _ s') fun s' _ _ => hnone _ s'
    · refine ends_expandSectors_huge hwf ht h1 h2 (fun s' xs _ h hw _ => grew_of_extended h hw)
        (fun _ _ _ _ _ _ _ hc _ => absurd ?_ hc) (fun s' _ _ _ _ => hnone _ s') fun s' _ _ => hnone _ s'
      by_contra hc
      refine hc (hs.huge ht h2 (fun heq => hc ?_) ha).1
      rw [arrayCount, ← heq, arrayCount]
  refine (hplaced.and (grants_expandSectors ha hwf.huge h1 hplace hs)).mono (fun r s' h => h.1 h.2) fun _ h => h.1

/-- **What `inode_expand_sectors` does to the sectors of an inode.** -/
theorem grew_expandSectors (hwf : WellFormed s inode.sector inode.data) (h0 : 0 < newSize)
    (h1 : inode.data.length ≤ newSize) (h31 : newSize < 2 ^ 31) (hs : SectorsSound s inode newSize) :
    Ends (inodeExpandSectors inode newSize) s (Grew s inode newSize) fun _ => True := by
  rcases ha : s.answers s.asked with _ | _
  · -- the buffer is refused
    refine .bind (ends_request ?_)
    rw [ha]
    exact .pure (grew_of_took hwf (Took.of_quiet (quiet_requested s)))
  have hover : inode.data.sizeType = inodeTypeSmall ∨ inode.data.sizeType = inodeTypeHuge → maxHuge < newSize →
      Ends (inodeExpandSectors inode newSize) s (Grew s inode newSize) fun _ => True := by
    intro ht hgt
    refine .bind (ends_request ?_)
    have hnone : Grew s inode newSize (none, inode) s.requested :=
      grew_of_took hwf (Took.of_quiet (quiet_requested s))
    rw [ha, if_pos rfl]
    rcases ht with ht | ht
    · rw [if_pos ht, if_pos hgt]
      exact .pure hnone
    · rw [if_neg (ht ▸ small_ne_huge.symm), if_neg (ht ▸ large_ne_huge.symm), if_pos ht, if_pos hgt]
      exact .pure hnone
  have hanew : Destructive inode newSize → newSize ≤ maxHuge →
      Ends (inodeExpandSectors inode newSize) s (Grew s inode newSize) fun _ => True := by
    intro hdes h2
    refine ends_expandSectors_anew hwf hdes h0 h2 (fun s' start hc => ⟨⟨_, .of_created hc⟩, fun _ => rfl⟩)
      (fun s' xs ht _ => grew_of_took hwf ht) fun s' _ _ hgt _ hidx => ?_
    exact absurd ⟨ha, indexRefusedAfter_requested hidx⟩ (hs.anew hdes hgt fun _ => h2)
  rcases hwf.mapped.sizeType with ht | ht | ht
  · rcases Nat.lt_or_ge maxHuge newSize with hgt | h2
    · exact hover (.inl ht) hgt
    · exact hanew (.inl ht) h2
  · rcases Nat.lt_or_ge maxLarge newSize with hgt | h2
    · rcases Nat.lt_or_ge maxHuge newSize with hgt2 | h2
      · -- the index array would be overrun
        have hidx : ¬IndexRefused s.requested := fun hidx => hs.anew (.inr ⟨ht, hgt⟩) hgt
          (fun h => absurd (h.symm.trans ht) small_ne_large) ⟨ha, indexRefusedAfter_requested hidx⟩
        refine .bind (ends_request ?_)
        rw [ha, if_pos rfl, if_neg (ht ▸ small_ne_large.symm), if_pos ht, if_pos hgt]
        refine .bind ((took_inodeCreateHuge_long (divRoundUp_long hgt2 h31) hidx).mono (fun r s' hr => ?_)
          fun _ h => h)
        obtain ⟨rfl, xs, h3⟩ := hr
        exact .pure (grew_of_took hwf ((Took.of_quiet (quiet_requested s)).trans h3))
      · exact hanew (.inr ⟨ht, hgt⟩) h2
    · exact grew_place ha hwf h1 (.inl ⟨ht, h2⟩) hs.toPlaceSound
  · rcases Nat.lt_or_ge maxHuge newSize with hgt | h2
    · exact hover (.inr ht) hgt
    · exact grew_place ha hwf h1 (.inr ⟨ht, h2⟩) hs.toPlaceSound

/-! ### `inode_expand` -/

/-- The requests before those of `inode_create`, when `inode_expand` creates the inode anew: its buffer, what it
takes to read the original data, and the buffer of `inode_expand_sectors`. -/
def requestsBefore (d : InodeDisk) : ℕ := if d.length = 0 then 1 else sectorCount d + 3

/-- **What a growth to `newSize` must not meet**: where the inode is created anew as a huge one, the sector of
its index array is refused; where it grows in place, the new length is stored and then a request is refused, or
a huge inode needs one more array. -/
structure GrowthSound (s : Fs) (inode : Inode) (newSize : ℕ) : Prop extends PlaceSound s inode newSize where
  anew : Destructive inode newSize → maxLarge < newSize →
    (inode.data.sizeType = inodeTypeSmall → newSize ≤ maxHuge) →
    ¬(Grants s 0 (requestsBefore inode.data) ∧ IndexRefusedAfter s (requestsBefore inode.data))

/-- Where nothing is read first. -/
theorem GrowthSound.sectors (h : GrowthSound s inode newSize)
    (h0 : inode.data.length = 0 ∨ ¬Destructive inode newSize) : SectorsSound s inode newSize where
  anew hdes hgt hsmall hbad := by
    have hbefore : requestsBefore inode.data = 1 := if_pos (h0.resolve_right fun h => h hdes)
    refine h.anew hdes hgt hsmall ?_
    rw [hbefore]
    exact ⟨grants_one.mpr hbad.1, hbad.2⟩
  toPlaceSound := h.toPlaceSound

/-- After the original data was read. -/
theorem GrowthSound.sectors_read (h : GrowthSound s inode newSize) (h0 : inode.data.length ≠ 0)
    (hdes : Destructive inode newSize) (hc : Consumed s (sectorCount inode.data + 2) 0 s')
    (hg : Grants s 0 (sectorCount inode.data + 2)) : SectorsSound s' inode newSize where
  anew hdes hgt hsmall hbad := by
    have hbefore : requestsBefore inode.data = sectorCount inode.data + 2 + 1 := if_neg h0
    refine h.anew hdes hgt hsmall ?_
    obtain ⟨h1, h2, h3⟩ := hbad
    rw [hc.answers, hc.asked] at h1 h3
    rw [hbefore]
    refine ⟨grants_zero_add.mpr ⟨hg, grants_one.mpr h1⟩, hc.grants_iff.mp h2, h3.imp (hc.free.symm.trans ·) ?_⟩
    intro h4
    rw [← h4]
    congr 1
  large ht hle := by
    rcases hdes with h | ⟨-, h⟩
    · exact absurd (h.symm.trans ht) small_ne_large
    · omega
  huge ht := by
    rcases hdes with h | ⟨h, -⟩
    · exact absurd (h.symm.trans ht) small_ne_huge
    · exact absurd (h.symm.trans ht) large_ne_huge

theorem expandIsDestructive_not {Q : Bool → Fs → Prop} {E : Fs → Prop}
    (ht : inode.data.sizeType = inodeTypeSmall ∨ inode.data.sizeType = inodeTypeLarge ∨
      inode.data.sizeType = inodeTypeHuge) (h : ¬Destructive inode newSize) (hQ : Q false s) :
    Ends (inodeExpandIsDestructive inode newSize) s Q E := by
  rcases ht with ht | ht | ht
  · exact absurd (.inl ht) h
  · exact expandIsDestructive_large ht (Nat.le_of_not_lt fun hgt => h (.inr ⟨ht, hgt⟩)) hQ
  · unfold inodeExpandIsDestructive
    rw [if_neg (ht ▸ small_ne_huge.symm), if_neg (ht ▸ large_ne_huge.symm), if_pos ht]
    exact .pure hQ

/-- A loop of writes lays some of the bytes over the file. -/
theorem wrote_writeLoop (hm : Mapped s d) (n : ℕ) (bytes : List UInt8) (hn : bytes.length ≤ n) :
    Ends (writeLoop d n bytes offset) s (fun _ s' => ∃ ofs b, Wrote s d ofs b s' ∧ ofs + b.length ≤ d.length)
      fun _ => True := by
  have hfit : ∀ m ≤ d.length - offset, ∀ s', Wrote s d offset (bytes.take m) s' →
      ∃ ofs b, Wrote s d ofs b s' ∧ ofs + b.length ≤ d.length := by
    intro m hmle s' hw
    rcases Nat.lt_or_ge d.length offset with hlt | hle
    · obtain rfl : m = 0 := by omega
      refine ⟨0, [], ⟨hw.took, fun p hp => ?_⟩, Nat.zero_le _⟩
      rw [hw.content p hp, List.take_zero, overlay_nil, overlay_nil]
    · refine ⟨offset, _, hw, ?_⟩
      rw [List.length_take]
      omega
  exact ends_writeLoop n bytes offset s hm hn (fun s' hw => hfit _ le_rfl s' hw)
    fun s' m hw hlt _ => hfit m (by omega) s' hw

/-- A write that does not grow the inode. -/
theorem moves_write {xs : List ℕ} (h : Moved s inode inode' xs s') (buffer : List UInt8) :
    Ends (writeLoop inode'.data buffer.length buffer offset) s' (fun _ s'' => Moved s inode inode' xs s'')
      fun _ => True := by
  refine (wrote_writeLoop h.wellFormed.mapped _ buffer le_rfl).mono (fun _ s'' hw => ?_) fun _ h => h
  obtain ⟨ofs, b, hw, hin⟩ := hw
  exact h.wrote hw hin

/-- **What `inode_expand` does to the sectors of an inode.** -/
theorem moves_expand (hwf : WellFormed s inode.sector inode.data) (h1 : inode.data.length < newSize)
    (h31 : newSize < 2 ^ 31) (hs : GrowthSound s inode newSize) :
    Ends (inodeExpand inode newSize) s (fun r s' => ∃ xs, Moved s inode r.2 xs s') fun _ => True := by
  unfold inodeExpand
  refine .ite (fun h0 => .bind ?_) fun h0 => .bind ?_
  · exact (grew_expandSectors hwf (by omega) h1.le h31 (hs.sectors (.inl h0))).mono
      (fun r s' hr => .pure hr.1) fun _ h => h
  by_cases hdes : Destructive inode newSize
  swap
  · refine expandIsDestructive_not hwf.mapped.sizeType hdes ?_
    rw [if_neg (by decide)]
    refine .bind ((grew_expandSectors hwf (by omega) h1.le h31 (hs.sectors (.inr hdes))).mono
      (fun r s' hr => ?_) fun _ h => h)
    obtain ⟨r, inode'⟩ := r
    rcases r with _ | _ | _
    · exact .pure hr.1
    · exact .pure hr.1
    · exact .throw trivial
  refine expandIsDestructive_of hdes ?_
  rw [if_pos rfl]
  refine .bind (ends_request ?_)
  have hq := quiet_requested s
  rcases ha : s.answers s.asked with _ | _
  · exact .pure ⟨[], .of_quiet hwf hq⟩
  rw [if_pos rfl]
  have hread : Ends (inodeReadAt inode inode.data.length 0) s.requested (fun _ s' => Quiet s s') fun _ => True :=
    ends_inodeReadAt (mapped_of_quiet hwf.mapped hq) (fun h => by omega) (fun s' h => hq.trans h)
      fun s' _ h _ _ => hq.trans h
  refine .bind ((hread.and (asks_inodeReadAt h0)).mono (fun bytes s₂ h => ?_) fun _ h => h.1)
  obtain ⟨hq2, hasks⟩ := h
  refine .ite (fun _ => .pure ⟨[], .of_quiet hwf hq2⟩) fun hall => .bind ?_
  obtain ⟨hc, hg⟩ := hasks (by simpa using hall)
  have hc' := (Consumed.request s).trans hc
  have hg' : Grants s 0 (1 + (1 + sectorCount inode.data)) :=
    grants_zero_add.mpr ⟨grants_one.mpr ha, (Consumed.request s).grants_iff.mp hg⟩
  rw [show 1 + (1 + sectorCount inode.data) = sectorCount inode.data + 2 by omega] at hc' hg'
  refine (grew_expandSectors (hwf.of_quiet hq2) (by omega) h1.le h31
    (hs.sectors_read h0 hdes hc' hg')).mono (fun r s₃ hr => ?_) fun _ h => h
  obtain ⟨⟨xs, hmoved⟩, hlen⟩ := hr
  have hmoved := hmoved.quiet hq2
  obtain ⟨r, inode'⟩ := r
  rcases r with _ | _ | _
  · exact .pure ⟨xs, hmoved⟩
  · exact .throw trivial
  -- the original data is written back
  refine .bind (.ite (fun _ => .pure (.pure ⟨xs, hmoved⟩)) fun _ => .ite (fun _ => .bind ?_) fun _ => .bind ?_)
  · exact .ite (fun _ => .throw trivial) fun _ => .pure (.bind (.throw trivial))
  · exact (moves_write hmoved bytes).mono (fun _ s₄ h => .pure (.pure ⟨xs, h⟩)) fun _ h => h

/-- The lock does not matter to the sectors. -/
theorem GrowthSound.locked {newSize : ℕ} {b : Bool} (h : GrowthSound s inode newSize) :
    GrowthSound s { inode with lockHeld := b } newSize := ⟨⟨h.large, h.huge⟩, h.anew⟩

theorem Moved.released (hlock : inode.lockHeld = false)
    (h : Moved s { inode with lockHeld := true } inode' xs s') : Moved s inode (lockRelease inode') xs s' := by
  refine ⟨?_, h.took, h.wellFormed, h.into⟩
  have hsame := h.same
  obtain ⟨_, _, _, _⟩ := inode
  obtain ⟨_, _, _, _⟩ := inode'
  simp only [lockRelease, Inode.mk.injEq] at hsame hlock ⊢
  exact ⟨hsame.1, hlock.symm, hsame.2.2.1, trivial⟩

end Pintos.Filesys.InodeMoves
