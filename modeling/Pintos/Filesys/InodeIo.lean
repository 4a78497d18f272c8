import Pintos.Filesys.InodeLayout

/-! # Reading and writing inside a file

The loops of `inode_read_at` and `inode_write_at`, chunk by chunk. -/

namespace Pintos.Filesys.InodeIo

open Pintos.Filesys.FreeMap Pintos.Filesys.Sector Pintos.Filesys.Allocation Pintos.Filesys.InodeLayout
open Pintos.Lib.Overlay Pintos.Lib.Stopping
open Pintos.Filesys.Bcache (SectorData blockSectorSize memcpyAt)

/-- `struct inode`, as far as its data goes. -/
structure Inode where
  sector : ℕ
  /-- The thread holds `inode->lock`. -/
  lockHeld : Bool
  denyWriteCnt : ℕ
  data : InodeDisk

/-- `lock_acquire (&inode->lock)`. -/
def lockAcquire (inode : Inode) : FsCall Inode :=
  if inode.lockHeld then throw .relock else return { inode with lockHeld := true }

/-- `lock_release (&inode->lock)`. -/
def lockRelease (inode : Inode) : Inode := { inode with lockHeld := false }

/-- The bytes of the chunk at `offset`, of a request for `size` bytes. -/
def chunkSize (d : InodeDisk) (size offset : ℕ) : ℕ :=
  min size (min (d.length - offset) (blockSectorSize - offset % blockSectorSize))

/-- The loop of `inode_read_at`: the bytes it copies. A round reads a byte at least, so that `size` rounds are
enough. -/
def readLoop (d : InodeDisk) : ℕ → ℕ → ℕ → FsCall (List UInt8)
  | 0, _, _ => return []
  | n + 1, size, offset => do
    if size = 0 then return []
    else
      let sectorIdx ← byteToSector d offset
      if sectorIdx = sectorInvalid then return []
      else if chunkSize d size offset = 0 then return []
      else
        let bounceBuffer ← bcacheRead sectorIdx
        let bytes := slice (byteAt bounceBuffer) (offset % blockSectorSize) (chunkSize d size offset)
        let rest ← readLoop d n (size - chunkSize d size offset) (offset + chunkSize d size offset)
        return bytes ++ rest

/-- `inode_read_at`: the bytes read. -/
def inodeReadAt (inode : Inode) (size offset : ℕ) : FsCall (List UInt8) := do
  if ← calloc then
    if offset + size > inode.data.length then
      let inode ← lockAcquire inode
      readLoop inode.data size size offset
    else readLoop inode.data size size offset
  else return []

/-- The loop of `inode_write_at`, with the bytes that are left: the number of bytes it writes. -/
def writeLoop (d : InodeDisk) : ℕ → List UInt8 → ℕ → FsCall ℕ
  | 0, _, _ => return 0
  | n + 1, bytes, offset => do
    if bytes.length = 0 then return 0
    else
      let sectorIdx ← byteToSector d offset
      if sectorIdx = sectorInvalid then return 0
      else if chunkSize d bytes.length offset = 0 then return 0
      else
        bcacheWriteAt sectorIdx (bytes.take (chunkSize d bytes.length offset)) (offset % blockSectorSize)
        let rest ← writeLoop d n (bytes.drop (chunkSize d bytes.length offset))
          (offset + chunkSize d bytes.length offset)
        return chunkSize d bytes.length offset + rest

/-- `inode_write_at`, with the function that grows the inode: the number of bytes written. -/
def inodeWriteWith (expand : Inode → ℕ → FsCall (Bool × Inode)) (inode : Inode) (buffer : List UInt8)
    (offset : ℕ) : FsCall (ℕ × Inode) := do
  if inode.denyWriteCnt ≠ 0 then return (0, inode)
  else if offset + buffer.length > inode.data.length then
    let inode ← lockAcquire inode
    let (success, inode) ← expand inode (buffer.length + offset)
    if success then
      let written ← writeLoop inode.data buffer.length buffer offset
      return (written, lockRelease inode)
    else return (0, lockRelease inode)
  else
    let written ← writeLoop inode.data buffer.length buffer offset
    return (written, inode)

variable {s s' : Fs} {d : InodeDisk} {sector size offset n p : ℕ} {E : Fs → Prop}

/-! ### A chunk -/

theorem chunkSize_le (d : InodeDisk) (size offset : ℕ) : chunkSize d size offset ≤ size :=
  min_le_left _ _

theorem chunkSize_pos (h1 : 0 < size) (h2 : offset < d.length) : 0 < chunkSize d size offset := by
  unfold chunkSize blockSectorSize
  omega

theorem chunkSize_fits (d : InodeDisk) (size offset : ℕ) :
    offset % blockSectorSize + chunkSize d size offset ≤ blockSectorSize := by
  unfold chunkSize blockSectorSize
  omega

theorem chunkSize_inside (h : offset < d.length) : offset + chunkSize d size offset ≤ d.length := by
  unfold chunkSize
  omega

/-- A chunk lies in one sector. -/
theorem chunk_div {i : ℕ} (hi : i < chunkSize d size offset) :
    (offset + i) / blockSectorSize = offset / blockSectorSize ∧
      (offset + i) % blockSectorSize = offset % blockSectorSize + i := by
  have := chunkSize_fits d size offset
  unfold blockSectorSize at *
  omega

/-- The chunk that is copied is the file's. -/
theorem slice_chunk (blocks : ℕ → SectorData) (d : InodeDisk) (size offset : ℕ) :
    slice (byteAt (blocks (sectorOf blocks d (offset / blockSectorSize)))) (offset % blockSectorSize)
      (chunkSize d size offset) = slice (content blocks d) offset (chunkSize d size offset) := by
  refine List.ext_getElem (by simp) fun i h1 h2 => ?_
  have hi : i < chunkSize d size offset := by simpa using h1
  obtain ⟨h3, h4⟩ := chunk_div hi
  simp [slice, content, h3, h4]

theorem sectorOf_ne_invalid (hm : Mapped s d) {k : ℕ} (hk : k < sectorCount d) :
    sectorOf s.blocks d k ≠ sectorInvalid := by
  have h1 := hm.sectorOf_lt hk
  have h2 := hm.device
  unfold sectorInvalid
  omega

/-! ### Reading -/

/-- **The loop of `inode_read_at`** reads the file's bytes, up to the end of the file, unless a `calloc`
fails. -/
theorem ends_readLoop {Q : List UInt8 → Fs → Prop} : ∀ (n size offset : ℕ) (s : Fs), Mapped s d →
    size ≤ n →
    (∀ s', Quiet s s' → Q (slice (content s.blocks d) offset (min size (d.length - offset))) s') →
    (∀ s' m, Quiet s s' → m < min size (d.length - offset) → s.refused < s'.refused →
      Q (slice (content s.blocks d) offset m) s') →
    Ends (readLoop d n size offset) s Q E
  | 0, size, offset, s, _, hn, hok, _ => by
    obtain rfl : size = 0 := by omega
    rw [Nat.zero_min] at hok
    exact .pure (hok s (Quiet.refl s))
  | n + 1, size, offset, s, hm, hn, hok, hno => by
    unfold readLoop
    by_cases h0 : size = 0
    · rw [if_pos h0]
      rw [h0, Nat.zero_min] at hok
      exact .pure (hok s (Quiet.refl s))
    rw [if_neg h0]
    rcases Nat.lt_or_ge offset d.length with hoff | hoff
    swap
    · -- `byte_to_sector` gives up past the end of the file
      have hend : d.length - offset = 0 := by omega
      rw [hend, Nat.min_zero] at hok
      refine .bind ?_
      unfold byteToSector
      rw [if_pos (by omega)]
      refine .pure ?_
      rw [if_pos rfl]
      exact .pure (hok s (Quiet.refl s))
    have hk := div_lt_sectorCount hoff
    have hpos := chunkSize_pos (by omega : 0 < size) hoff
    have hle := chunkSize_le d size offset
    have hin : offset + chunkSize d size offset ≤ d.length := chunkSize_inside hoff
    have hsplit : min size (d.length - offset) = chunkSize d size offset +
        min (size - chunkSize d size offset) (d.length - (offset + chunkSize d size offset)) := by omega
    refine .bind (ends_byteToSector hm hoff (fun s₁ h1 => ?_) fun s₁ h1 hr _ => ?_)
    swap
    · rw [if_pos rfl]
      exact .pure (hno s₁ 0 h1 (by omega) hr)
    have hb : s₁.blocks = s.blocks := h1.blocks
    rw [if_neg (sectorOf_ne_invalid hm hk), if_neg (by omega)]
    refine .bind (ends_bcacheRead (by rw [h1.freeMap]; exact hm.sectorOf_lt hk) (.bind ?_))
    rw [hb, slice_chunk]
    refine ends_readLoop n _ _ s₁ (mapped_of_quiet hm h1) (by omega) (fun s' h2 => .pure ?_)
      fun s' m h2 hm' hr => .pure ?_
    · rw [hb, ← slice_append, ← hsplit]
      exact hok s' (h1.trans h2)
    · rw [hb, ← slice_append]
      exact hno s' _ (h1.trans h2) (by omega) (h1.refused.trans_lt hr)

/-! ### Writing -/

/-- The sectors a write inside the file may write to. -/
def dataSet (s : Fs) (d : InodeDisk) : Set ℕ := { x | x ∈ dataSectors s.blocks d }

/-- A write inside the file: only data sectors are written, and the bytes are laid over the content. -/
structure Wrote (s : Fs) (d : InodeDisk) (offset : ℕ) (bytes : List UInt8) (s' : Fs) : Prop where
  took : Took s [] (dataSet s d) s'
  content : ∀ p < sectorCount d * blockSectorSize,
    content s'.blocks d p = overlay (content s.blocks d) offset bytes p

theorem Wrote.index (hm : Mapped s d) {bytes : List UInt8} (h : Wrote s d offset bytes s') :
    ∀ x ∈ indexSectors s.blocks d, s'.blocks x = s.blocks x := by
  intro x hx
  refine h.took.kept x List.not_mem_nil fun hw => ?_
  exact (List.nodup_append.mp hm.nodup).2.2 x hx x hw rfl

theorem Wrote.mapped (hm : Mapped s d) {bytes : List UInt8} (h : Wrote s d offset bytes s') :
    Mapped s' d := hm.congr (h.index hm) h.took.size

/-- A write inside the file keeps the inode well-formed. -/
theorem Wrote.wellFormed (hwf : WellFormed s sector d) {bytes : List UInt8}
    (h : Wrote s d offset bytes s') (hin : offset + bytes.length ≤ d.length) :
    WellFormed s' sector d := by
  have hidx := h.index hwf.mapped
  have hown := owned_congr hidx
  refine ⟨h.mapped hwf.mapped, hown ▸ hwf.apart, fun x hx => ?_, ?_, fun ht hn => ?_, fun ht hn => ?_,
    hwf.huge, fun p h1 h2 => ?_⟩
  · rw [hown] at hx
    exact h.took.marked (hwf.marked x hx)
  · have hs : sector ∉ dataSet s d := fun hm => hwf.apart (List.mem_append_right _ hm)
    rw [h.took.kept sector List.not_mem_nil hs, hwf.stored]
  · rw [sectorOf_congr_array hidx (.inr ht), hwf.markerLarge ht hn]
  · rw [sectorOf_congr_array hidx (.inl (WellFormed.marker_row hn)), hwf.markerHuge ht hn]
  · rw [h.content p h2, overlay_of_le (by omega), hwf.tail p h1 h2]

theorem wrote_of_quiet (h : Quiet s s') (d : InodeDisk) (offset : ℕ) : Wrote s d offset [] s' :=
  ⟨Took.of_quiet h, fun p _ => by rw [overlay_nil, h.blocks]⟩

/-- Two writes, one behind the other. -/
theorem Wrote.append (hm : Mapped s d) {s'' : Fs} {a b : List UInt8} (h : Wrote s d offset a s')
    (h' : Wrote s' d (offset + a.length) b s'') : Wrote s d offset (a ++ b) s'' := by
  have hset : dataSet s' d = dataSet s d := by
    unfold dataSet
    rw [dataSectors_congr (h.index hm)]
  refine ⟨h.took.trans (hset ▸ h'.took), fun p hp => ?_⟩
  rw [h'.content p hp, overlay_append]
  exact overlay_congr b (h.content p hp)

/-- One chunk. -/
theorem wrote_chunk (hm : Mapped s d) (hq : Quiet s s') (hoff : offset < d.length) {bytes : List UInt8}
    (hb : bytes.length = chunkSize d size offset) :
    let x := sectorOf s.blocks d (offset / blockSectorSize)
    Wrote s d offset bytes
      (s'.put x (memcpyAt (s'.blocks x) (offset % blockSectorSize) bytes)) := by
  have hk := div_lt_sectorCount hoff
  intro x
  have hmem : x ∈ dataSet s d := sectorOf_mem s.blocks hk
  refine ⟨(Took.of_quiet hq).put (.inr hmem) _, fun p hp => ?_⟩
  have hpk : p / blockSectorSize < sectorCount d := (Nat.div_lt_iff_lt_mul (by decide)).mpr hp
  have hidx : ∀ y ∈ indexSectors s.blocks d,
      (s'.put x (memcpyAt (s'.blocks x) (offset % blockSectorSize) bytes)).blocks y = s.blocks y := by
    intro y hy
    rw [put_blocks_of_ne, hq.blocks]
    rintro rfl
    exact hm.not_index hk hy
  unfold InodeLayout.content
  rw [sectorOf_congr hidx hpk]
  by_cases hpo : p / blockSectorSize = offset / blockSectorSize
  · rw [hpo, put_blocks_self, byteAt_memcpyAt _ _ (Nat.mod_lt _ (by decide)), hq.blocks]
    have hfit := chunkSize_fits d size offset
    rw [← hb] at hfit
    by_cases hc : offset ≤ p ∧ p - offset < bytes.length
    · have hsub : p % blockSectorSize - offset % blockSectorSize = p - offset := by
        unfold blockSectorSize at *
        omega
      rw [overlay_of_mem hc.1 hc.2, hsub, List.getElem?_eq_getElem hc.2, if_pos]
      · rfl
      · unfold blockSectorSize at *
        omega
    · rw [if_neg (by unfold blockSectorSize at *; omega)]
      rcases Nat.lt_or_ge p offset with h | h
      · rw [overlay_of_lt _ h, hpo]
      · rw [overlay_of_le (by omega), hpo]
  · have hne : sectorOf s.blocks d (p / blockSectorSize) ≠ x := fun h =>
      hpo (hm.sectorOf_injective hpk hk h)
    rw [put_blocks_of_ne hne, hq.blocks]
    have hfit := chunkSize_fits d size offset
    rw [← hb] at hfit
    rcases Nat.lt_or_ge p offset with h | h
    · rw [overlay_of_lt _ h]
    · rw [overlay_of_le]
      unfold blockSectorSize at *
      omega

/-- **The loop of `inode_write_at`** lays the bytes over the file, up to the end of the file, unless a
`calloc` fails. -/
theorem ends_writeLoop {Q : ℕ → Fs → Prop} : ∀ (n : ℕ) (bytes : List UInt8) (offset : ℕ) (s : Fs),
    Mapped s d → bytes.length ≤ n →
    (∀ s', Wrote s d offset (bytes.take (d.length - offset)) s' →
      Q (min bytes.length (d.length - offset)) s') →
    (∀ s' m, Wrote s d offset (bytes.take m) s' → m < min bytes.length (d.length - offset) →
      s.refused < s'.refused → Q m s') →
    Ends (writeLoop d n bytes offset) s Q E
  | 0, bytes, offset, s, _, hn, hok, _ => by
    obtain rfl : bytes = [] := List.length_eq_zero_iff.mp (by omega)
    rw [List.take_nil, List.length_nil, Nat.zero_min] at hok
    exact .pure (hok s (wrote_of_quiet (Quiet.refl s) d offset))
  | n + 1, bytes, offset, s, hm, hn, hok, hno => by
    unfold writeLoop
    by_cases h0 : bytes.length = 0
    · rw [if_pos h0]
      obtain rfl : bytes = [] := List.length_eq_zero_iff.mp h0
      rw [List.take_nil, List.length_nil, Nat.zero_min] at hok
      exact .pure (hok s (wrote_of_quiet (Quiet.refl s) d offset))
    rw [if_neg h0]
    rcases Nat.lt_or_ge offset d.length with hoff | hoff
    swap
    · have hend : d.length - offset = 0 := by omega
      rw [hend, Nat.min_zero, List.take_zero] at hok
      refine .bind ?_
      unfold byteToSector
      rw [if_pos (by omega)]
      refine .pure ?_
      rw [if_pos rfl]
      exact .pure (hok s (wrote_of_quiet (Quiet.refl s) d offset))
    have hk := div_lt_sectorCount hoff
    have hpos := chunkSize_pos (by omega : 0 < bytes.length) hoff
    have hle := chunkSize_le d bytes.length offset
    have hin : offset + chunkSize d bytes.length offset ≤ d.length := chunkSize_inside hoff
    have hfit := chunkSize_fits d bytes.length offset
    refine .bind (ends_byteToSector hm hoff (fun s₁ h1 => ?_) fun s₁ h1 hr _ => ?_)
    swap
    · rw [if_pos rfl]
      refine .pure (hno s₁ 0 ?_ (by omega) hr)
      rw [List.take_zero]
      exact wrote_of_quiet h1 d offset
    rw [if_neg (sectorOf_ne_invalid hm hk), if_neg (by omega)]
    have hlen : (bytes.take (chunkSize d bytes.length offset)).length = chunkSize d bytes.length offset := by
      rw [List.length_take]
      omega
    refine .bind (ends_bcacheWriteAt _ _ (by rw [h1.freeMap]; exact hm.sectorOf_lt hk)
      (by rw [hlen]; exact hfit) (.bind ?_))
    have h2 := wrote_chunk hm h1 hoff hlen
    have hjoin : ∀ m, bytes.take (chunkSize d bytes.length offset) ++
        (bytes.drop (chunkSize d bytes.length offset)).take m =
          bytes.take (chunkSize d bytes.length offset + m) := fun m => by rw [List.take_add]
    refine ends_writeLoop n _ _ _ (h2.mapped hm) (by rw [List.length_drop]; omega)
      (fun s' h3 => .pure ?_) fun s' m h3 hlt hr => .pure ?_
    · have h4 := h2.append hm (by rw [hlen]; exact h3)
      rw [hjoin, show chunkSize d bytes.length offset + (d.length - (offset +
        chunkSize d bytes.length offset)) = d.length - offset by omega] at h4
      rw [List.length_drop, show chunkSize d bytes.length offset + min (bytes.length -
        chunkSize d bytes.length offset) (d.length - (offset + chunkSize d bytes.length offset)) =
          min bytes.length (d.length - offset) by omega]
      exact hok s' h4
    · have h4 := h2.append hm (by rw [hlen]; exact h3)
      rw [hjoin] at h4
      rw [List.length_drop] at hlt
      exact hno s' _ h4 (by omega) (h1.refused.trans_lt hr)

/-! ### What lasts -/

section lasting

variable {P : Fs → Prop} (hP : Lasting P)
include hP

theorem keeps_byteToSector (d : InodeDisk) (pos : ℕ) : Keeps P (byteToSector d pos) := by
  refine .ite (fun _ => .pure) fun _ => .bind (keeps_calloc hP) fun ok => .ite (fun _ => ?_) fun _ => .pure
  refine .ite (fun _ => .pure) fun _ => .ite (fun _ => ?_) fun _ => .ite (fun _ => ?_) fun _ => .throw
  · exact .bind (keeps_readArray _) fun a => keeps_load a _
  · refine .bind (keeps_readArray _) fun a => .bind (keeps_load a _) fun x => ?_
    exact .bind (keeps_readArray x) fun a => keeps_load a _

theorem keeps_writeLoop (d : InodeDisk) : ∀ (k : ℕ) (bytes : List UInt8) (offset : ℕ),
    Keeps P (writeLoop d k bytes offset)
  | 0, _, _ => .pure
  | k + 1, bytes, offset => by
    refine .ite (fun _ => .pure) fun _ => .bind (keeps_byteToSector hP d offset) fun x => ?_
    refine .ite (fun _ => .pure) fun _ => .ite (fun _ => .pure) fun _ => ?_
    exact .bind (keeps_bcacheWriteAt hP _ _ _) fun _ => .bind (keeps_writeLoop d k _ _) fun _ => .pure

omit hP in
theorem keeps_lockAcquire (inode : Inode) : Keeps P (lockAcquire inode) :=
  .ite (fun _ => .throw) fun _ => .pure

theorem keeps_inodeWriteWith {expand : Inode → ℕ → FsCall (Bool × Inode)}
    (he : ∀ inode newSize, Keeps P (expand inode newSize)) (inode : Inode)
    (buffer : List UInt8) (offset : ℕ) :
    Keeps P (inodeWriteWith expand inode buffer offset) := by
  refine .ite (fun _ => .pure) fun _ => .ite (fun _ => ?_) fun _ => ?_
  · refine .bind (keeps_lockAcquire inode) fun inode => .bind (he inode _) fun r => ?_
    exact .ite (fun _ => .bind (keeps_writeLoop hP _ _ _ _) fun _ => .pure) fun _ => .pure
  · exact .bind (keeps_writeLoop hP _ _ _ _) fun _ => .pure

end lasting

end Pintos.Filesys.InodeIo
