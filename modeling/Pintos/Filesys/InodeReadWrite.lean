import Pintos.Filesys.InodeExpand

/-! # Reads and writes inside a file

What `inode_read_at` and `inode_write_at` do to the content of a file when no growth is involved. -/

namespace Pintos.Filesys.InodeReadWrite

open Pintos.Filesys.FreeMap Pintos.Filesys.Sector Pintos.Filesys.Allocation Pintos.Filesys.InodeLayout
open Pintos.Filesys.InodeIo Pintos.Filesys.InodeExpand
open Pintos.Lib.Overlay Pintos.Lib.Stopping
open Pintos.Filesys.Bcache (SectorData blockSectorSize)

variable {s s' : Fs} {d : InodeDisk} {inode : Inode} {size offset : ℕ} {E : Fs → Prop}

/-- **`inode_read_at`**, as its callers see it. -/
theorem ends_inodeReadAt {Q : List UInt8 → Fs → Prop} (hm : Mapped s inode.data)
    (hlock : offset + size > inode.data.length → inode.lockHeld = false)
    (hok : ∀ s', Quiet s s' →
      Q (slice (content s.blocks inode.data) offset (min size (inode.data.length - offset))) s')
    (hno : ∀ s' m, Quiet s s' → m = 0 ∨ m < min size (inode.data.length - offset) →
      s.refused < s'.refused → Q (slice (content s.blocks inode.data) offset m) s') :
    Ends (inodeReadAt inode size offset) s Q E := by
  have hloop : ∀ s₁, Quiet s s₁ → Ends (readLoop inode.data size size offset) s₁ Q E := by
    intro s₁ h1
    have hb : s₁.blocks = s.blocks := h1.blocks
    refine ends_readLoop _ _ _ _ (mapped_of_quiet hm h1) le_rfl (fun s' h2 => ?_) fun s' m h2 hlt hr => ?_
    · rw [hb]
      exact hok s' (h1.trans h2)
    · rw [hb]
      exact hno s' m (h1.trans h2) (.inr hlt) (h1.refused.trans_lt hr)
  refine .bind (ends_calloc (fun s₁ h1 _ => ?_) fun s₁ h1 hr => ?_)
  · rw [if_pos rfl]
    refine .ite (fun hgt => .bind ?_) fun _ => hloop s₁ h1
    unfold lockAcquire
    rw [hlock hgt, if_neg (by decide)]
    exact .pure (hloop s₁ h1)
  · exact .pure (hno s₁ 0 h1 (.inl rfl) hr)

/-- **`inode_write_at`** where it need not grow the inode. -/
theorem ends_inodeWriteWith {Q : ℕ × Inode → Fs → Prop} {expand : Inode → ℕ → FsCall (Bool × Inode)}
    {buffer : List UInt8} (hm : Mapped s inode.data) (hdeny : inode.denyWriteCnt = 0)
    (hin : offset + buffer.length ≤ inode.data.length)
    (hok : ∀ s', Wrote s inode.data offset buffer s' → Q (buffer.length, inode) s')
    (hno : ∀ s' m, Wrote s inode.data offset (buffer.take m) s' → m < buffer.length →
      s.refused < s'.refused → Q (m, inode) s') :
    Ends (inodeWriteWith expand inode buffer offset) s Q E := by
  unfold inodeWriteWith
  rw [if_neg (by omega), if_neg (by omega)]
  refine .bind (ends_writeLoop _ _ _ _ hm le_rfl (fun s' hw => .pure ?_) fun s' m hw hlt hr => .pure ?_)
  · rw [List.take_of_length_le (by omega)] at hw
    rw [Nat.min_eq_left (by omega)]
    exact hok s' hw
  · exact hno s' m hw (by omega) hr

/-- **Reads return the file's bytes, and a write inside the file is an overlay**: every other byte of the file
and every other file stay as they are. -/
theorem read_overlay (s : Fs) (inode : Inode) (hm : Mapped s inode.data) (size offset : ℕ) :
    ((offset + size > inode.data.length → inode.lockHeld = false) →
      Ends (inodeReadAt inode size offset) s (fun bytes s' => s'.blocks = s.blocks ∧
        (s'.refused = s.refused → bytes.length = min size (inode.data.length - offset) ∧
          bytes = slice (content s.blocks inode.data) offset (min size (inode.data.length - offset))))
        fun _ => False) ∧
    (offset + size ≤ inode.data.length → inode.denyWriteCnt = 0 → ∀ buffer : List UInt8,
      buffer.length = size → Ends (inodeWriteAt inode buffer offset) s (fun result s' =>
        result.2 = inode ∧ Mapped s' inode.data ∧
        (∀ x, x ∉ dataSectors s.blocks inode.data → s'.blocks x = s.blocks x) ∧
        (∀ other : InodeDisk, (∀ x ∈ owned s.blocks other, x ∉ dataSectors s.blocks inode.data) →
          ∀ p < other.length, content s'.blocks other p = content s.blocks other p) ∧
        (s'.refused = s.refused → result.1 = size ∧ ∀ p < inode.data.length,
          content s'.blocks inode.data p = overlay (content s.blocks inode.data) offset buffer p))
        fun _ => False) := by
  constructor
  · intro hlock
    refine ends_inodeReadAt hm hlock (fun s' hq => ⟨hq.blocks, fun _ => ⟨length_slice, rfl⟩⟩)
      fun s' m hq _ hr => ⟨hq.blocks, fun h => ?_⟩
    omega
  · intro hin hdeny buffer hbuf
    have hframe : ∀ s' bytes, Wrote s inode.data offset bytes s' →
        ∀ x, x ∉ dataSectors s.blocks inode.data → s'.blocks x = s.blocks x :=
      fun s' bytes hw x hx => hw.took.kept x List.not_mem_nil hx
    refine ends_inodeWriteWith hm hdeny (by omega) (fun s' hw => ?_) fun s' m hw hlt hr => ?_
    · refine ⟨rfl, hw.mapped hm, hframe s' _ hw, fun other ho p hp =>
        content_congr (fun x hx => hframe s' _ hw x (ho x hx)) hp, fun _ => ⟨hbuf, fun p hp => ?_⟩⟩
      exact hw.content p ((Nat.div_lt_iff_lt_mul (by decide)).mp (div_lt_sectorCount hp))
    · refine ⟨rfl, hw.mapped hm, hframe s' _ hw, fun other ho p hp =>
        content_congr (fun x hx => hframe s' _ hw x (ho x hx)) hp, fun h => ?_⟩
      omega

/-- A file of three bytes: its inode at sector 2, its data at sector 3, and the rest of the device free. -/
def smallInode : InodeDisk := InodeCreate.newInode 3 3 inodeTypeSmall 0 1

def smallFile : Inode := ⟨2, false, 0, smallInode⟩

def smallFs : Fs where
  blocks := fun x => if x = 2 then smallInode.toSector else zeros
  freeMap := [true, true, true, true, false, false, false]
  junk := 0
  answers := fun _ => true
  asked := 0
  refused := 0
  written := []

theorem mapped_smallFile : Mapped smallFs smallFile.data where
  sizeType := .inl rfl
  length := by decide
  nodup := by decide
  onDevice := by decide
  device := by decide

theorem read_overlay_smallFile : Ends (inodeReadAt smallFile 5 1) smallFs
    (fun bytes s' => s'.blocks = smallFs.blocks ∧ (s'.refused = smallFs.refused →
      bytes.length = 2 ∧ bytes = slice (content smallFs.blocks smallInode) 1 2)) fun _ => False :=
  (read_overlay smallFs smallFile mapped_smallFile 5 1).1 fun _ => rfl

end Pintos.Filesys.InodeReadWrite
