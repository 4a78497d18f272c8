import Pintos.Filesys.InodeGrowHuge

/-! # The maximum file size

`inode_create` and two branches of `inode_expand_sectors` refuse a size above 128 * 128 sectors. The branch
for a large inode does not look. -/

namespace Pintos.Filesys.InodeLimit

open Pintos.Filesys.FreeMap Pintos.Filesys.Sector Pintos.Filesys.Allocation Pintos.Filesys.InodeLayout
open Pintos.Filesys.InodeIo Pintos.Filesys.InodeCreate Pintos.Filesys.InodeExpand
open Pintos.Filesys.InodeReadWrite Pintos.Filesys.InodeGrow Pintos.Filesys.InodeGrowHuge
open Pintos.Lib.Stopping
open Pintos.Filesys.Bcache (SectorData blockSectorSize)

variable {α : Type} {s s' : Fs} {inode : Inode} {sector newSize length funcType parentSector : ℕ}
  {E : Fs → Prop}

/-- No index past the end of an array is used. -/
def NoOverrun (m : FsCall α) (s : Fs) : Prop := ∀ s', outcome m s ≠ (.error .overrun, s')

theorem noOverrun_of_ends {m : FsCall α} {Q : α → Fs → Prop} (h : Ends m s Q fun _ => False) :
    NoOverrun m s := by
  intro s' ho
  unfold Ends at h
  rw [ho] at h
  exact h

/-! ### `inode_create` -/

theorem inodeCreate_noOverrun (hs : s.freeMap[sector]? = some true) (hdev : s.freeMap.length < 2 ^ 32)
    (hf : funcType < 2 ^ 8) (hp : parentSector < 2 ^ 32) (len : ℤ) :
    NoOverrun (inodeCreate sector len funcType parentSector) s := by
  unfold inodeCreate
  by_cases h0 : len < 0
  · rw [if_pos h0]
    intro s' ho
    cases ho
  rw [if_neg h0]
  refine noOverrun_of_ends (Q := fun _ _ => True) (.ite (fun h1 => ?_) fun h1 => .ite (fun h2 => ?_) fun h2 =>
    .ite (fun h3 => ?_) fun _ => .pure trivial)
  · have h1' : len ≤ 32768 := h1
    exact ends_inodeCreateSmall hs hdev (by show len.toNat ≤ 32768; omega) hf hp
      (fun _ _ _ _ => trivial) fun _ _ _ _ => trivial
  · have h2' : len ≤ 65536 := h2
    exact ends_inodeCreateLarge hs hdev (by show len.toNat ≤ 65536; omega) hf hp
      (fun _ _ _ _ => trivial) fun _ _ _ _ => trivial
  · have h2' : ¬len ≤ 65536 := h2
    have h3' : len ≤ 8388608 := h3
    exact ends_inodeCreateHuge hs hdev (by omega) (by show len.toNat ≤ 8388608; omega) hf hp
      (fun _ _ _ _ => trivial) (fun _ _ _ _ => trivial) fun _ _ _ _ => trivial

/-! ### `inode_expand_sectors` up to the maximum -/

/-- Up to the maximum size, growth returns. -/
theorem expandSectors_returns (hwf : WellFormed s inode.sector inode.data)
    (h1 : inode.data.length < newSize) (h2 : newSize ≤ maxHuge) :
    Ends (inodeExpandSectors inode newSize) s (fun _ _ => True) fun _ => False := by
  by_cases hdes : Destructive inode newSize
  · exact ends_expandSectors_anew hwf hdes (by omega) h2 (fun _ _ _ => trivial) (fun _ _ _ _ => trivial)
      fun _ _ _ _ _ _ => trivial
  rcases hwf.mapped.sizeType with ht | ht | ht
  · exact absurd (.inl ht) hdes
  · have hle : newSize ≤ maxLarge := Nat.le_of_not_lt fun h => hdes (.inr ⟨ht, h⟩)
    exact ends_expandSectors_large hwf ht h1.le hle (fun _ _ _ _ => trivial) (fun _ _ _ _ _ => trivial)
      fun _ _ _ => trivial
  · exact ends_expandSectors_huge hwf ht h1.le h2 (fun _ _ _ _ _ => trivial)
      (fun _ _ _ _ _ _ _ _ _ => trivial) (fun _ _ _ _ _ => trivial) fun _ _ _ => trivial

/-! ### Past the maximum -/

/-- The growth is refused, and nothing has changed. -/
def Refuses (s : Fs) (inode : Inode) (result : Option Bool × Inode) (s' : Fs) : Prop :=
  result = (none, inode) ∧ s'.blocks = s.blocks ∧ s'.freeMap = s.freeMap ∧ s'.written = s.written

theorem refuses_of_quiet (h : Quiet s s') : Refuses s inode (none, inode) s' :=
  ⟨rfl, h.blocks, h.freeMap, h.written⟩

theorem refuses_checked (ht : inode.data.sizeType = inodeTypeSmall ∨ inode.data.sizeType = inodeTypeHuge)
    (h : maxHuge < newSize) : Ends (inodeExpandSectors inode newSize) s (Refuses s inode) E := by
  refine .bind (ends_calloc (fun s₁ hq _ => ?_) fun s₁ hq _ => .pure (refuses_of_quiet hq))
  rw [if_pos rfl]
  rcases ht with ht | ht
  · rw [if_pos ht, if_pos h]
    exact .pure (refuses_of_quiet hq)
  · rw [if_neg (ht ▸ small_ne_huge.symm), if_neg (ht ▸ large_ne_huge.symm), if_pos ht, if_pos h]
    exact .pure (refuses_of_quiet hq)

/-- The buffer of `inode_expand_sectors` and what `inode_create_huge` needs of the heap are granted. -/
def CallocsGranted (s : Fs) : Prop :=
  s.answers s.asked = true ∧ s.answers (s.asked + 1) = true ∧ s.answers (s.asked + 2) = true ∧
    s.answers (s.asked + 3) = true

/-- A `calloc` among them that fails. -/
theorem refuses_noMemory (ht : inode.data.sizeType = inodeTypeLarge) (h : maxHuge < newSize)
    (hno : ¬CallocsGranted s) : Ends (inodeExpandSectors inode newSize) s (Refuses s inode) E := by
  have hlt : maxLarge < newSize := (by decide : maxLarge ≤ maxHuge).trans_lt h
  have h1 := quiet_requested s
  have h2 := h1.trans (quiet_requested _)
  have h3 := h2.trans (quiet_requested _)
  have h4 := h3.trans (quiet_requested _)
  refine .bind (ends_request ?_)
  rcases ha1 : s.answers s.asked with _ | _
  · exact .pure (refuses_of_quiet h1)
  rw [if_pos rfl, if_neg (ht ▸ small_ne_large.symm), if_pos ht, if_pos hlt]
  refine .bind (.bind (ends_request ?_))
  rcases ha2 : s.requested.answers s.requested.asked with _ | _
  · exact .pure (.pure (refuses_of_quiet h2))
  rw [if_pos rfl]
  refine .bind (ends_request ?_)
  rcases ha3 : s.requested.requested.answers s.requested.requested.asked with _ | _
  · exact .pure (.pure (refuses_of_quiet h3))
  rw [if_pos rfl]
  refine .bind (ends_request ?_)
  rcases ha4 : s.requested.requested.requested.answers s.requested.requested.requested.asked with _ | _
  · exact .pure (.pure (refuses_of_quiet h4))
  exact absurd ⟨ha1, ha2, ha3, ha4⟩ hno

/-- Once the heap has granted its buffers, `inode_create_huge` returns true or has taken a sector, whatever
the size. -/
theorem createHuge_takes (h1 : s.answers s.asked = true) (h2 : s.answers (s.asked + 1) = true)
    (h3 : s.answers (s.asked + 2) = true) :
    Ends (inodeCreateHuge sector newSize funcType parentSector) s
      (fun success s' => success = true ∨ ∃ x : ℕ, s.freeMap[x]? = some false ∧ s'.freeMap[x]? = some true)
      fun _ => True := by
  refine .bind (ends_request ?_)
  rw [h1, if_pos rfl]
  refine .bind (ends_request ?_)
  rw [show s.requested.answers s.requested.asked = true from h2, if_pos rfl]
  refine .bind (ends_request ?_)
  rw [show s.requested.requested.answers s.requested.requested.asked = true from h3, if_pos rfl]
  refine .bind (ends_allocateOne (W := ∅) (fun s₁ x ht _ => ?_) fun s₁ _ _ _ => ?_)
  · have hfree : s.freeMap[x]? = some false := ht.free x List.mem_cons_self
    have hP := lasting_marked x
    refine .bind ((keeps_appendArrays hP (fun _ => .pure) _ _ _ _ s₁
      (ht.taken x List.mem_cons_self)).mono (fun r s₂ hm => ?_) fun _ _ => trivial)
    cases r with
    | none => exact .pure (.inr ⟨x, hfree, hm⟩)
    | some a =>
      refine .bind ((keeps_bcacheWrite hP _ _ s₂ hm).mono (fun _ s₃ hm3 => .bind ?_) fun _ _ => trivial)
      exact (keeps_bcacheWrite hP _ _ s₃ hm3).mono (fun _ _ _ => .pure (.inl rfl)) fun _ _ => trivial
  · refine .bind (.get (.bind ?_))
    have hT : Lasting fun _ => True := fun _ _ _ _ _ _ => trivial
    exact (keeps_bcacheWrite hT _ _ s₁ trivial).mono (fun _ _ _ => .pure (.inl rfl)) fun _ _ => trivial

/-- A large inode is not protected. -/
theorem not_refuses (ht : inode.data.sizeType = inodeTypeLarge) (h : maxHuge < newSize)
    (hg : CallocsGranted s) :
    ¬Ends (inodeExpandSectors inode newSize) s (Refuses s inode) fun _ => False := by
  intro href
  obtain ⟨h1, h2, h3, h4⟩ := hg
  have hlt : maxLarge < newSize := (by decide : maxLarge ≤ maxHuge).trans_lt h
  have htakes : Ends (inodeExpandSectors inode newSize) s
      (fun r s' => r.1 ≠ none ∨ ∃ x : ℕ, s.freeMap[x]? = some false ∧ s'.freeMap[x]? = some true)
      fun _ => True := by
    refine .bind (ends_request ?_)
    rw [h1, if_pos rfl, if_neg (ht ▸ small_ne_large.symm), if_pos ht, if_pos hlt]
    refine .bind ((createHuge_takes (s := s.requested) h2 h3 h4).mono (fun success s' hs => ?_)
      fun _ _ => trivial)
    cases success with
    | true =>
      refine .bind ((keeps_bcacheRead (P := fun _ => True) inode.sector s' trivial).mono
        (fun _ _ _ => .pure (.inl (by simp))) fun _ _ => trivial)
    | false => exact .pure (.inr (hs.resolve_left (by decide)))
  refine ((href.and htakes).mono (fun r s' hs => ?_) fun _ hs => hs.1).elim
  obtain ⟨⟨hr, -, hf, -⟩, hn | ⟨x, h5, h6⟩⟩ := hs
  · exact hn (by rw [hr])
  · rw [hf, h5] at h6
    cases h6

/-! ### The limit -/

/-- The limit is enforced: neither `inode_create`, whatever the length, nor the growth of `inode` uses an index
past the end of an array, and growth past the maximum is refused without a trace. -/
structure MaxEnforced (s : Fs) (inode : Inode) (newSize : ℕ) : Prop where
  create : ∀ (sector : ℕ) (len : ℤ) (funcType parentSector : ℕ), s.freeMap[sector]? = some true →
    funcType < 2 ^ 8 → parentSector < 2 ^ 32 →
      NoOverrun (inodeCreate sector len funcType parentSector) s
  expand : NoOverrun (inodeExpandSectors inode newSize) s
  refuse : maxHuge < newSize →
    Ends (inodeExpandSectors inode newSize) s (Refuses s inode) fun _ => False

/-- **The maximum file size is enforced** unless a large inode is to grow past it, and the heap grants the
buffers for that. -/
theorem maxEnforced (s : Fs) (inode : Inode) (newSize : ℕ)
    (hwf : WellFormed s inode.sector inode.data) (h1 : inode.data.length < newSize) :
    MaxEnforced s inode newSize ↔
      ¬(inode.data.sizeType = inodeTypeLarge ∧ maxHuge < newSize ∧ CallocsGranted s) := by
  constructor
  · rintro hmax ⟨ht, h2, hg⟩
    exact not_refuses ht h2 hg (hmax.refuse h2)
  · intro hgood
    have hrefuse : maxHuge < newSize →
        Ends (inodeExpandSectors inode newSize) s (Refuses s inode) fun _ => False := by
      intro h2
      rcases hwf.mapped.sizeType with ht | ht | ht
      · exact refuses_checked (.inl ht) h2
      · exact refuses_noMemory ht h2 fun hg => hgood ⟨ht, h2, hg⟩
      · exact refuses_checked (.inr ht) h2
    refine ⟨fun sector len _ _ hs hf hp => inodeCreate_noOverrun hs hwf.mapped.device hf hp len, ?_, hrefuse⟩
    rcases Nat.lt_or_ge maxHuge newSize with h2 | h2
    · exact noOverrun_of_ends (hrefuse h2)
    · exact noOverrun_of_ends (expandSectors_returns hwf h1 h2)

/-- A small file does not grow past the maximum. -/
theorem maxEnforced_smallFile : MaxEnforced smallFs smallFile 8388609 :=
  (maxEnforced smallFs smallFile 8388609 wellFormed_smallFile (by decide)).mpr
    fun h => absurd h.1 small_ne_large

/-- A file of one byte with a large layout. -/
def largeInode : InodeDisk := newInode 3 1 inodeTypeLarge 0 1

/-- Its inode at sector 2, its array at sector 3, its data at sector 4; sector 5 is free. -/
def largeFs : Fs where
  blocks := fun x =>
    if x = 2 then largeInode.toSector else if x = 3 then ofWords (mark (fun _ => 4) 1) else zeros
  freeMap := [true, true, true, true, true, false]
  junk := 0
  answers := fun _ => true
  asked := 0
  refused := 0
  written := []

theorem sectorOf_largeFs {k : ℕ} (hk : k ≤ 1) :
    sectorOf largeFs.blocks largeInode k = if k = 1 then sectorInvalid else 4 := by
  rw [sectorOf_large _ rfl]
  show wordAt (ofWords (mark (fun _ => 4) 1)) k = _
  exact wordAt_mark hk (hk.trans_lt (by decide)) fun _ => by decide

theorem wellFormed_largeFile : WellFormed largeFs 2 largeInode := by
  have hdata : dataSectors largeFs.blocks largeInode = [4] := by
    show [sectorOf largeFs.blocks largeInode 0] = [4]
    rw [sectorOf_largeFs (by decide), if_neg (by decide)]
  have hown : owned largeFs.blocks largeInode = [3, 4] := by
    rw [owned, hdata, indexSectors_large _ rfl]
    rfl
  refine ⟨⟨.inr (.inl rfl), by decide, by rw [hown]; decide, by rw [hown]; decide, by decide⟩,
    by rw [hown]; decide, by rw [hown]; decide, ofSector_toSector (newInode_fits (by decide) (by decide)
      (by decide) (by decide) (by decide)), fun _ _ => ?_, fun h => absurd h large_ne_huge,
    fun h => absurd h large_ne_huge, fun p _ h2 => ?_⟩
  · show sectorOf largeFs.blocks largeInode 1 = _
    rw [sectorOf_largeFs le_rfl, if_pos rfl]
  · have hp : p / blockSectorSize = 0 := Nat.div_eq_of_lt h2
    rw [content, hp, sectorOf_largeFs (by decide), if_neg (by decide)]
    exact byteAt_zeros _

/-- A write of one byte at 8 MiB into a large file. -/
theorem not_maxEnforced :
    WellFormed largeFs 2 largeInode ∧ ¬MaxEnforced largeFs ⟨2, true, 0, largeInode⟩ 8388609 :=
  ⟨wellFormed_largeFile, fun h => not_refuses rfl (by decide) ⟨rfl, rfl, rfl, rfl⟩ (h.refuse (by decide))⟩

end Pintos.Filesys.InodeLimit
