import Pintos.Filesys.InodeGrowHuge

/-! # Requests that are granted

How many requests a stretch of the inode layer makes, how many sectors it takes, and what it does when all of
them are granted. Where the count is known, the first request that is refused can be read off the state before
the call. -/

namespace Pintos.Filesys.Granting

open Pintos.Filesys.FreeMap Pintos.Filesys.Sector Pintos.Filesys.Allocation Pintos.Filesys.InodeLayout
open Pintos.Filesys.InodeIo Pintos.Filesys.InodeCreate Pintos.Filesys.InodeExpand
open Pintos.Filesys.InodeGrow Pintos.Filesys.InodeGrowHuge
open Pintos.Kernel.Bitmap Pintos.Lib.Stopping
open Pintos.Filesys.Bcache (SectorData blockSectorSize)

/-- After the next `i` requests, `n` requests are granted. -/
def Grants (s : Fs) (i n : ℕ) : Prop := ∀ j < n, s.answers (s.asked + i + j) = true

instance (s : Fs) (i n : ℕ) : Decidable (Grants s i n) := inferInstanceAs (Decidable (∀ j < n, _ = true))

def freeCount (s : Fs) : ℕ := s.freeMap.count false

/-- From `s` to `s'`, `n` requests were made and `m` sectors taken. -/
structure Consumed (s : Fs) (n m : ℕ) (s' : Fs) : Prop where
  answers : s'.answers = s.answers
  asked : s'.asked = s.asked + n
  free : freeCount s' + m = freeCount s

variable {s s' s'' : Fs} {d : InodeDisk} {inode : Inode} {i n n' m m' k x size offset newSize : ℕ}

theorem Grants.head (h : Grants s i (n + 1)) : s.answers (s.asked + i) = true := h 0 (Nat.succ_pos n)

theorem Grants.next (h : Grants s 0 (n + 1)) : s.answers s.asked = true := h.head

theorem Grants.mono (h : Grants s i n) (hm : m ≤ n) : Grants s i m := fun j hj => h j (hj.trans_le hm)

theorem Grants.shift (h : Grants s 0 (n + m)) : Grants s n m := fun j hj => by
  have := h (n + j) (by omega)
  rwa [Nat.add_zero, ← Nat.add_assoc] at this

theorem grants_one : Grants s i 1 ↔ s.answers (s.asked + i) = true := by
  refine ⟨fun h => h.head, fun h j hj => ?_⟩
  obtain rfl : j = 0 := by omega
  exact h

theorem grants_zero_add : Grants s 0 (n + m) ↔ Grants s 0 n ∧ Grants s n m := by
  refine ⟨fun h => ⟨h.mono (Nat.le_add_right n m), h.shift⟩, fun ⟨h1, h2⟩ j hj => ?_⟩
  rcases Nat.lt_or_ge j n with hjn | hjn
  · exact h1 j hjn
  · have := h2 (j - n) (by omega)
    rwa [Nat.add_assoc, Nat.add_sub_cancel' hjn] at this

namespace Consumed

theorem refl (s : Fs) : Consumed s 0 0 s := ⟨rfl, rfl, rfl⟩

theorem trans (h : Consumed s n m s') (h' : Consumed s' n' m' s'') :
    Consumed s (n + n') (m + m') s'' where
  answers := h'.answers.trans h.answers
  asked := by rw [h'.asked, h.asked, Nat.add_assoc]
  free := by
    have h1 := h.free
    have h2 := h'.free
    omega

theorem grants (h : Consumed s n m s') (hg : Grants s n k) : Grants s' 0 k := fun j hj => by
  rw [h.answers, h.asked]
  exact hg j hj

theorem grants_iff (h : Consumed s n m s') : Grants s' i k ↔ Grants s (n + i) k := by
  unfold Grants
  simp only [h.answers, h.asked, Nat.add_assoc]

theorem request (s : Fs) : Consumed s 1 0 s.requested := ⟨rfl, rfl, rfl⟩

theorem put (h : Consumed s n m s') (x : ℕ) (data : SectorData) : Consumed s n m (s'.put x data) :=
  ⟨h.answers, h.asked, h.free⟩

end Consumed

/-! ### A sector -/

theorem bitmapScan_of_count {b : Bits} (h : 0 < b.count false) : bitmapScan b 0 1 false ≠ none := by
  intro hn
  obtain ⟨j, hj, hb⟩ := List.mem_iff_getElem.mp (List.count_pos_iff.mp h)
  refine bitmapScan_eq_none hn (Nat.zero_le j) (by omega) fun r h1 h2 => ?_
  obtain rfl : r = j := by omega
  rw [List.getElem?_eq_getElem hj, hb]

theorem count_of_bitmapScan {b : Bits} (h : bitmapScan b 0 1 false = none) : b.count false = 0 := by
  by_contra hne
  exact bitmapScan_of_count (Nat.pos_of_ne_zero hne) h

theorem bitmapScan_of_count_eq {b : Bits} (h : b.count false = 0) : bitmapScan b 0 1 false = none := by
  rcases hs : bitmapScan b 0 1 false with _ | j
  · rfl
  obtain ⟨-, -, hg⟩ := bitmapScan_eq_some hs
  have hm := List.mem_of_getElem? (hg j le_rfl (by omega))
  exact absurd hm (List.count_eq_zero.mp h)

theorem count_set {b : Bits} (h : b[x]? = some false) : (b.set x true).count false + 1 = b.count false := by
  obtain ⟨hx, hb⟩ := List.getElem?_eq_some_iff.mp h
  have hpos : 0 < b.count false := List.count_pos_iff.mpr (hb ▸ List.getElem_mem hx)
  rw [List.count_set hx, hb]
  simp
  omega

/-- `free_map_allocate` of one sector, when a sector is free and the request is granted. -/
theorem grants_allocateOne (hfree : 0 < freeCount s) (hg : s.answers s.asked = true) :
    Ends (freeMapAllocate 1) s (fun r s' => r.isSome ∧ Consumed s 1 1 s') fun _ => True := by
  refine .bind (.get ?_)
  rcases hb : bitmapScanAndFlip s.freeMap 0 1 false with _ | ⟨sector, freeMap⟩
  · exact absurd (bitmapScan_of_flip hb) (bitmapScan_of_count hfree)
  obtain ⟨-, -, hgr, rfl⟩ := bitmapScanAndFlip_eq_some hb
  refine .bind (.set (.bind (ends_request ?_)))
  show Ends (if s.answers s.asked then _ else _) _ _ _
  rw [hg, if_pos rfl]
  exact .pure ⟨rfl, rfl, rfl, count_set (hgr sector le_rfl (Nat.lt_succ_self sector))⟩

/-- What `free_map_allocate` of one sector asks for, if it succeeds. -/
theorem asks_allocateOne : Ends (freeMapAllocate 1) s (fun r s' => r.isSome →
    0 < freeCount s ∧ s.answers s.asked = true ∧ Consumed s 1 1 s') fun _ => True := by
  rcases Nat.eq_zero_or_pos (freeCount s) with h0 | hpos
  · exact ends_freeMapAllocate_none (.inl (bitmapScan_of_count_eq h0)) fun _ _ _ h => Bool.noConfusion h
  rcases ha : s.answers s.asked with _ | _
  · exact ends_freeMapAllocate_none (.inr ha) fun _ _ _ h => Bool.noConfusion h
  · exact (grants_allocateOne hpos ha).mono (fun _ _ h _ => ⟨hpos, rfl, h.2⟩) fun _ h => h

theorem consumed_bcacheWrite (h : Consumed s n m s') (x : ℕ) (data : SectorData) :
    Ends (bcacheWrite x data) s' (fun _ s'' => Consumed s n m s'') fun _ => True :=
  .bind (.get (.ite (fun _ => .throw trivial) fun _ => .ite (fun _ => .throw trivial) fun _ =>
    .set ⟨h.answers, h.asked, h.free⟩))

theorem consumed_bcacheRead (h : Consumed s n m s') (x : ℕ) :
    Ends (bcacheRead x) s' (fun _ s'' => Consumed s n m s'') fun _ => True :=
  .bind (.get (.ite (fun _ => .throw trivial) fun _ => .pure h))

/-- **Sectors are appended to an array** when there are enough of them and every request is granted. -/
theorem grants_appendSectors : ∀ (k i : ℕ) (a : SectorArray) (s : Fs), k ≤ freeCount s → Grants s 0 k →
    Ends (appendSectors a i k) s (fun r s' => r.isSome ∧ Consumed s k k s') fun _ => True
  | 0, _, _, s, _, _ => .pure ⟨rfl, .refl s⟩
  | k + 1, i, a, s, hfree, hg => by
    refine .bind ((grants_allocateOne (by omega) hg.next).mono (fun r s₁ hr => ?_) fun _ h => h)
    obtain ⟨hsome, h1⟩ := hr
    obtain ⟨sector, rfl⟩ := Option.isSome_iff_exists.mp hsome
    refine .bind (.ite (fun _ => .pure (.bind ?_)) fun _ => .throw trivial)
    refine (consumed_bcacheWrite h1 sector zeros).mono (fun _ s₂ h2 => ?_) fun _ h => h
    have hleft := h2.free
    rw [Nat.add_comm] at hg
    refine (grants_appendSectors k (i + 1) _ s₂ (by omega) (h2.grants hg.shift)).mono
      (fun r s₃ hr => ⟨hr.1, ?_⟩) fun _ h => h
    have h3 := h2.trans hr.2
    rwa [Nat.add_comm 1 k] at h3

/-! ### Growth in place -/

/-- "expand large" does not fail when its buffer and the new sectors are granted. -/
theorem grants_expandLarge (h1 : inode.data.length ≤ newSize) (h2 : newSize ≤ maxLarge)
    (hg : sectorCount inode.data ≠ sectorCount (grown inode newSize).data →
      Grants s 0 (1 + (sectorCount (grown inode newSize).data - sectorCount inode.data)) ∧
        sectorCount (grown inode newSize).data - sectorCount inode.data ≤ freeCount s) :
    Ends (expandLarge inode newSize) s (fun r _ => r.1.isSome) fun _ => True := by
  have h2' : newSize ≤ 65536 := h2
  have hori : bytesToSectors inode.data.length = sectorCount inode.data := bytesToSectors_eq (by omega)
  have hnew : bytesToSectors newSize = sectorCount (grown inode newSize).data :=
    bytesToSectors_eq (by omega)
  unfold expandLarge
  simp only [hori, hnew]
  refine .ite (fun _ => .bind ?_) fun hdiff => .bind (ends_request ?_)
  · exact (consumed_bcacheWrite (.refl s) _ _).mono (fun _ _ _ => .pure rfl) fun _ h => h
  obtain ⟨hg, hfree⟩ := hg hdiff
  rw [if_pos (hg.mono (Nat.le_add_right 1 _)).next]
  refine .bind (.bind ((consumed_bcacheRead (.request s) _).mono (fun data s₁ h => .pure (.bind ?_))
    fun _ h => h))
  have hmark : Ends (assertMarker (wordAt data) (sectorCount inode.data)) s₁ (fun _ s' => s' = s₁)
      fun _ => True := by
    refine .ite (fun _ => .pure rfl) fun _ => .bind (.ite (fun _ => .pure ?_) fun _ => .throw trivial)
    exact .ite (fun _ => .pure rfl) fun _ => .throw trivial
  refine hmark.mono (fun _ s₂ hs => .bind ?_) fun _ h => h
  subst hs
  have hfree' := h.free
  refine (grants_appendSectors _ _ _ _ (by omega) (h.grants hg.shift)).mono (fun r s₃ hr => ?_) fun _ h => h
  obtain ⟨a, rfl⟩ := Option.isSome_iff_exists.mp hr.1
  refine .bind ((consumed_bcacheWrite hr.2 _ _).mono (fun _ _ h => .bind ?_) fun _ h => h)
  exact (consumed_bcacheWrite h _ _).mono (fun _ _ _ => .pure rfl) fun _ h => h

/-- "expand huge" does not fail within the last array when its buffers and the new sectors are granted. -/
theorem grants_expandHuge (hpos : 0 < inode.data.length) (h1 : inode.data.length ≤ newSize)
    (h2 : newSize ≤ maxHuge)
    (hg : sectorCount inode.data ≠ sectorCount (grown inode newSize).data →
      arrayCount (grown inode newSize).data = arrayCount inode.data ∧
        Grants s 0 (2 + (sectorCount (grown inode newSize).data - sectorCount inode.data)) ∧
        sectorCount (grown inode newSize).data - sectorCount inode.data ≤ freeCount s) :
    Ends (expandHuge inode newSize) s (fun r _ => r.1.isSome) fun _ => True := by
  have h2' : newSize ≤ 8388608 := h2
  have hori : bytesToSectors inode.data.length = sectorCount inode.data := bytesToSectors_eq (by omega)
  have hnew : bytesToSectors newSize = sectorCount (grown inode newSize).data :=
    bytesToSectors_eq (by omega)
  have hmono : sectorCount inode.data ≤ sectorCount (grown inode newSize).data := sectorCount_mono h1
  unfold expandHuge
  simp only [hori, hnew]
  refine .ite (fun _ => .bind ?_) fun hdiff => .bind (ends_request ?_)
  · exact (consumed_bcacheWrite (.refl s) _ _).mono (fun _ _ _ => .pure rfl) fun _ h => h
  obtain ⟨hc, hg, hfree⟩ := hg hdiff
  have hc' : divRoundUp (sectorCount (grown inode newSize).data) sectorsPerArray =
      divRoundUp (sectorCount inode.data) sectorsPerArray := hc
  have hsub := lastCount_sub (sectorCount_pos hpos) hmono hc
  rw [if_pos (hg.mono (by omega : 1 ≤ _)).next]
  have h11 := (Consumed.request s).trans (.request s.requested)
  refine .bind (ends_request ?_)
  rw [if_pos ((Consumed.request s).grants ((hg.mono (by omega : 1 + 1 ≤ _)).shift)).next, if_pos hc']
  unfold fillArray
  refine .ite (fun _ => .throw trivial) fun _ => .bind (.bind ((consumed_bcacheRead h11 _).mono
    (fun data s₁ h => .pure (.bind (.ite (fun _ => .pure (.bind (.bind ?_))) fun _ => .throw trivial)))
    fun _ h => h))
  refine (consumed_bcacheRead h _).mono (fun data s₂ h => .pure (.bind ?_)) fun _ h => h
  have hfree' := h.free
  rw [hsub, Nat.add_sub_cancel_left]
  refine (grants_appendSectors _ _ _ _ (by omega) (h.grants hg.shift)).mono (fun r s₃ hr => ?_) fun _ h => h
  obtain ⟨a, rfl⟩ := Option.isSome_iff_exists.mp hr.1
  refine .bind ((consumed_bcacheWrite hr.2 _ _).mono (fun _ _ h => .bind ?_) fun _ h => h)
  exact (consumed_bcacheWrite h _ _).mono (fun _ _ _ => .pure rfl) fun _ h => h

/-! ### Reading a whole file -/

/-- How many sectors the bytes from `offset` on lie in. -/
def chunks (size offset : ℕ) : ℕ :=
  if size = 0 then 0 else (offset + size - 1) / blockSectorSize - offset / blockSectorSize + 1

theorem chunks_whole (d : InodeDisk) : chunks d.length 0 = sectorCount d := by
  unfold chunks sectorCount divRoundUp blockSectorSize
  split_ifs <;> omega

theorem chunks_next (hs : 0 < size) (h : offset + size ≤ d.length) :
    chunks size offset =
      1 + chunks (size - chunkSize d size offset) (offset + chunkSize d size offset) := by
  unfold chunks chunkSize blockSectorSize
  split_ifs <;> omega

/-- What is asked for by the loop of `inode_read_at`, if it reads all that was wanted. -/
theorem asks_readLoop : ∀ (n size offset : ℕ) (s : Fs), size ≤ n → offset + size ≤ d.length →
    Ends (readLoop d n size offset) s (fun bytes s' => bytes.length ≤ size ∧ (bytes.length = size →
      Consumed s (chunks size offset) 0 s' ∧ Grants s 0 (chunks size offset))) fun _ => True
  | 0, size, offset, s, hn, _ => by
    obtain rfl : size = 0 := by omega
    exact .pure ⟨le_rfl, fun _ => ⟨.refl s, fun j hj => absurd hj (Nat.not_lt_zero j)⟩⟩
  | n + 1, size, offset, s, hn, hin => by
    unfold readLoop
    refine .ite (fun h0 => ?_) fun h0 => .bind ?_
    · subst h0
      exact .pure ⟨le_rfl, fun _ => ⟨.refl s, fun j hj => absurd hj (Nat.not_lt_zero j)⟩⟩
    have hfail : ∀ s' : Fs, ([] : List UInt8).length ≤ size ∧ (([] : List UInt8).length = size →
        Consumed s (chunks size offset) 0 s' ∧ Grants s 0 (chunks size offset)) :=
      fun _ => ⟨Nat.zero_le _, fun h => absurd h.symm h0⟩
    have hsector : Ends (byteToSector d offset) s (fun x s' => x = sectorInvalid ∨
        Consumed s 1 0 s' ∧ s.answers s.asked = true) fun _ => True := by
      refine .ite (fun _ => .pure (.inl rfl)) fun _ => .bind (ends_request ?_)
      rcases ha : s.answers s.asked with _ | _
      · exact .pure (.inl rfl)
      rw [if_pos rfl]
      have hread : ∀ x (s' : Fs), Consumed s 1 0 s' → Ends (readArray x) s'
          (fun _ s'' => Consumed s 1 0 s'') fun _ => True := fun x s' h =>
        .bind ((consumed_bcacheRead h x).mono (fun _ _ h => .pure h) fun _ h => h)
      refine .ite (fun _ => .pure (.inr ⟨.request s, rfl⟩)) fun _ => .ite (fun _ => .bind ?_) fun _ =>
        .ite (fun _ => .bind ?_) fun _ => .throw trivial
      · refine (hread _ _ (.request s)).mono (fun a s' h => ?_) fun _ h => h
        exact .ite (fun _ => .pure (.inr ⟨h, rfl⟩)) fun _ => .throw trivial
      · refine (hread _ _ (.request s)).mono (fun a s' h => .bind (.ite (fun _ => .pure (.bind ?_)) fun _ =>
          .throw trivial)) fun _ h => h
        refine (hread _ _ h).mono (fun a s' h => ?_) fun _ h => h
        exact .ite (fun _ => .pure (.inr ⟨h, rfl⟩)) fun _ => .throw trivial
    refine hsector.mono (fun x s₁ hx => ?_) fun _ h => h
    refine .ite (fun _ => .pure (hfail s₁)) fun hne => .ite (fun _ => .pure (hfail s₁)) fun hc => .bind ?_
    obtain ⟨h1, ha⟩ := hx.resolve_left hne
    refine (consumed_bcacheRead h1 x).mono (fun data s₂ h2 => .bind ?_) fun _ h => h
    have hle := chunkSize_le d size offset
    refine (asks_readLoop n _ _ s₂ (by omega) (by omega)).mono (fun rest s₃ hr => .pure ?_) fun _ h => h
    obtain ⟨hlen, hall⟩ := hr
    rw [List.length_append, Pintos.Lib.Overlay.length_slice]
    refine ⟨by omega, fun hsum => ?_⟩
    obtain ⟨h3, h4⟩ := hall (by omega)
    rw [chunks_next (Nat.pos_of_ne_zero h0) hin]
    exact ⟨h2.trans h3, grants_zero_add.mpr ⟨grants_one.mpr ha, h2.grants_iff.mp h4⟩⟩

/-- What `inode_read_at` asks for when it reads a whole file. -/
theorem asks_inodeReadAt (h0 : inode.data.length ≠ 0) :
    Ends (inodeReadAt inode inode.data.length 0) s (fun bytes s' => bytes.length = inode.data.length →
      Consumed s (1 + sectorCount inode.data) 0 s' ∧ Grants s 0 (1 + sectorCount inode.data)) fun _ => True := by
  refine .bind (ends_request ?_)
  rcases ha : s.answers s.asked with _ | _
  · exact .pure fun h => absurd h.symm h0
  rw [if_pos rfl]
  have hloop : Ends (readLoop inode.data inode.data.length inode.data.length 0) s.requested
      (fun bytes s' => bytes.length = inode.data.length → Consumed s (1 + sectorCount inode.data) 0 s' ∧
        Grants s 0 (1 + sectorCount inode.data)) fun _ => True := by
    refine (asks_readLoop _ _ 0 s.requested le_rfl (by omega)).mono (fun bytes s' h hall => ?_) fun _ h => h
    obtain ⟨h1, h2⟩ := h.2 hall
    rw [chunks_whole] at h1 h2
    exact ⟨(Consumed.request s).trans h1,
      grants_zero_add.mpr ⟨grants_one.mpr ha, (Consumed.request s).grants_iff.mp h2⟩⟩
  exact .ite (fun _ => .bind (.ite (fun _ => .throw trivial) fun _ => .pure hloop)) fun _ => hloop

end Pintos.Filesys.Granting
