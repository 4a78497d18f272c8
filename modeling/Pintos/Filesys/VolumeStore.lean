import Pintos.Filesys.Owning
import Pintos.Lib.ListFile

/-! # A volume is a store of files

What the files of a volume hold, as lists of bytes, and the runs of a volume as runs of a store that has nothing
but such lists: as long as no request is refused, every call does to the volume, and answers, what it does to
the store. -/

namespace Pintos.Filesys.VolumeStore

open Pintos.Filesys.FreeMap Pintos.Filesys.Sector Pintos.Filesys.Allocation Pintos.Filesys.InodeLayout
open Pintos.Filesys.InodeIo Pintos.Filesys.InodeCreate Pintos.Filesys.InodeExpand
open Pintos.Filesys.InodeReadWrite Pintos.Filesys.InodeGrow Pintos.Filesys.InodeGrowHuge
open Pintos.Filesys.InodeMoves Pintos.Filesys.Volumes Pintos.Filesys.Owning
open Pintos.Filesys.FreeMapFile (rootLength)
open Pintos.Kernel.BitmapWords Pintos.Lib.Overlay Pintos.Lib.ListFile Pintos.Lib.Runs Pintos.Lib.Stopping
open Pintos.Filesys.Bcache (SectorData blockSectorSize)

/-! ### The store -/

structure StoredFile where
  bytes : List UInt8
  denyWriteCnt : ℕ

abbrev Store := ℕ → Option StoredFile

/-- What a call returns to its caller. -/
inductive Answer
  | created (sector : Option ℕ)
  | bytes (b : List UInt8)
  | written (n : ℕ)
  | done
  deriving DecidableEq

/-- A write: how many bytes are written, and the file. Where the sum of `offset` and the size is no `off_t`, the
file is written as far as it goes. -/
def StoredFile.write (f : StoredFile) (buffer : List UInt8) (offset : ℕ) : ℕ × StoredFile :=
  if f.denyWriteCnt ≠ 0 then (0, f)
  else if 2 ^ 31 ≤ offset + buffer.length then
    (min buffer.length (f.bytes.length - offset), { f with bytes := overwrite f.bytes offset buffer })
  else if maxHuge < offset + buffer.length then (0, f)
  else (buffer.length, { f with bytes := fileWrite 0 f.bytes offset buffer })

/-- The steps of the store. A new file gets any name that is not in use. -/
inductive StoreStep (S : Store) : VolumeAction × Answer → Store → Prop
  | create {length : ℤ} {funcType : UInt8} {parentSector : UInt32} {x : ℕ} (h0 : 0 ≤ length)
      (h : length ≤ maxHuge) (hx : S x = none) : StoreStep S (.create length funcType parentSector, .created (some x))
        (Function.update S x (some ⟨List.replicate length.toNat 0, 0⟩))
  | tooLarge {length : ℤ} {funcType : UInt8} {parentSector : UInt32} (h : maxHuge < length) :
      StoreStep S (.create length funcType parentSector, .created none) S
  | read {x size offset : ℕ} {f : StoredFile} (h : S x = some f) :
      StoreStep S (.read x size offset, .bytes (fileRead f.bytes size offset)) S
  | write {x offset : ℕ} {buffer : List UInt8} {f : StoredFile} (h : S x = some f) :
      StoreStep S (.write x buffer offset, .written (f.write buffer offset).1)
        (Function.update S x (some (f.write buffer offset).2))
  | reopen {x : ℕ} {f : StoredFile} (h : S x = some f) :
      StoreStep S (.reopen x, .done) (Function.update S x (some { f with denyWriteCnt := 0 }))
  | deny {x cnt : ℕ} {f : StoredFile} (h : S x = some f) :
      StoreStep S (.deny x cnt, .done) (Function.update S x (some { f with denyWriteCnt := cnt }))
  | remove {x : ℕ} {f : StoredFile} (h : S x = some f) (hx : ¬(x = freeMapSector ∨ x = rootDirSector)) :
      StoreStep S (.remove x, .done) (Function.update S x none)

/-! ### The volume as a store -/

/-- The bytes of a file. -/
def bytesOf (s : Fs) (d : InodeDisk) : List UInt8 := slice (content s.blocks d) 0 d.length

def storedFile (s : Fs) (inode : Inode) : StoredFile := ⟨bytesOf s inode.data, inode.denyWriteCnt⟩

def shown (v : Volume) : Store := fun x => (v.inodes x).map (storedFile v.fs)

/-- What a call on the volume returns. -/
def volumeAnswer (v : Volume) : VolumeAction → Option Answer
  | .create length funcType parentSector =>
    (outcome (filesysCreate length funcType.toNat parentSector.toNat) v.fs).1.toOption.map fun r =>
      .created (r.map (·.sector))
  | .read sector size offset =>
    (v.inodes sector).bind fun inode => (outcome (inodeReadAt inode size offset) v.fs).1.toOption.map .bytes
  | .write sector buffer offset =>
    (v.inodes sector).bind fun inode =>
      (outcome (inodeWriteAt32 inode buffer offset) v.fs).1.toOption.map fun r => .written r.1
  | .reopen _ => some .done
  | .deny _ _ => some .done
  | .remove _ => some .done

/-- No huge inode grows past its last array. -/
def WithinArray (v : Volume) : VolumeAction → Prop
  | .write sector buffer offset => ∀ inode, v.inodes sector = some inode → inode.data.sizeType = inodeTypeHuge →
    inode.data.length < offset + buffer.length → offset + buffer.length ≤ maxHuge →
      arrayCount (grown inode (offset + buffer.length)).data = arrayCount inode.data
  | _ => True

/-- A step whose call returns with the answer, and without a refused request. -/
structure Answered (v : Volume) (x : VolumeAction × Answer) (v' : Volume) : Prop where
  step : VolumeStep v x.1 v'
  answer : volumeAnswer v x.1 = some x.2
  granted : v'.fs.refused = v.fs.refused
  within : WithinArray v x.1

variable {v v' : Volume} {s s' s'' : Fs} {d : InodeDisk} {inode inode' : Inode} {xs : List ℕ}
  {offset newSize x : ℕ}

theorem holds_bytesOf (s : Fs) (d : InodeDisk) : Holds (content s.blocks d) (bytesOf s d) := .slice _ _

@[simp] theorem length_bytesOf (s : Fs) (d : InodeDisk) : (bytesOf s d).length = d.length := length_slice

theorem Holds.eq_bytesOf {f : List UInt8} (h : Holds (content s.blocks d) f) (hn : f.length = d.length) :
    f = bytesOf s d := h.eq_slice hn

theorem bytesOf_congr (h : ∀ y ∈ owned s.blocks d, s'.blocks y = s.blocks y) : bytesOf s' d = bytesOf s d :=
  slice_congr fun p _ hp => content_congr h (by omega)

/-- Where a volume goes on from a call that returned. -/
theorem Volume.outcome_of_after {α : Type} {m : FsCall α} {f : α → (ℕ → Option Inode)}
    (h : v.after m f = some v') : ∃ a, outcome m v.fs = (.ok a, v'.fs) ∧ v' = ⟨v'.fs, f a⟩ := by
  unfold Volume.after at h
  rcases ho : outcome m v.fs with ⟨_ | a, s'⟩ <;> rw [ho] at h <;> cases h
  exact ⟨a, rfl, rfl⟩

/-- The files of the other inodes are as they were. -/
theorem shown_put {o : Option Inode} (h : Kept v (· ≠ x) s') :
    shown ⟨s', v.put x o⟩ = Function.update (shown v) x (o.map (storedFile s')) := by
  funext z
  unfold shown Volume.put
  by_cases hz : z = x
  · simp only [hz, Function.update_self]
  simp only [Function.update_of_ne hz]
  rcases hi : v.inodes z with _ | inode
  · rfl
  · have hb := bytesOf_congr fun y hy => h.blocks hz hi y (List.mem_cons_of_mem _ hy)
    rw [Option.map_some, Option.map_some, storedFile, hb, storedFile]

theorem shown_keep (h : Kept v (fun _ => True) s') : shown ⟨s', v.inodes⟩ = shown v := by
  funext z
  unfold shown
  rcases hi : v.inodes z with _ | inode
  · rfl
  · have hb := bytesOf_congr fun y hy => h.blocks trivial hi y (List.mem_cons_of_mem _ hy)
    rw [Option.map_some, Option.map_some, storedFile, hb, storedFile]

theorem shown_of_some (hx : v.inodes x = some inode) : shown v x = some (storedFile v.fs inode) := by
  rw [shown, hx]
  rfl

/-! ### Writes inside a file -/

theorem bytesOf_wrote {bytes : List UInt8} (h : Wrote s d offset bytes s') :
    bytesOf s' d = overwrite (bytesOf s d) offset bytes := by
  have hlen : (overwrite (bytesOf s d) offset bytes).length = d.length := by
    rw [length_overwrite, length_bytesOf]
  refine (Holds.eq_bytesOf ((holds_bytesOf s d).overwrite.congr fun p hp => ?_) hlen).symm
  exact h.content p ((Nat.div_lt_iff_lt_mul (by decide)).mp (div_lt_sectorCount (by rwa [hlen] at hp)))

/-- The inode moves, to the sectors that are taken and, unless it is created anew, those it had. -/
def MovedBy (s : Fs) (inode inode' : Inode) (anew : Prop) (s' : Fs) : Prop :=
  ∃ xs, Moved s inode inode' xs s' ∧
    ∀ y, y ∈ owned s'.blocks inode'.data ↔ y ∈ xs ∨ ¬anew ∧ y ∈ owned s.blocks inode.data

variable {a a' : Prop}

theorem MovedBy.congr (h : MovedBy s inode inode' a s') (ha : a ↔ a') : MovedBy s inode inode' a' s' :=
  propext ha ▸ h

/-- Requests. -/
theorem MovedBy.of_quiet (hwf : WellFormed s inode.sector inode.data) (hq : Quiet s s') (ha : ¬a) :
    MovedBy s inode inode a s' := by
  refine ⟨[], .of_quiet hwf hq, fun y => ?_⟩
  rw [hq.blocks]
  exact ⟨fun h => .inr ⟨ha, h⟩, fun h => (h.resolve_left List.not_mem_nil).2⟩

theorem MovedBy.released (hlock : inode.lockHeld = false)
    (h : MovedBy s { inode with lockHeld := true } inode' a s') :
    MovedBy s inode (lockRelease inode') a s' := by
  obtain ⟨xs, hm, hy⟩ := h
  exact ⟨xs, Moved.released hlock hm, hy⟩

/-- The loop of `inode_write_at`. -/
theorem stores_writeLoop (h : MovedBy s inode inode' a s') (buffer : List UInt8) :
    Ends (writeLoop inode'.data buffer.length buffer offset) s' (fun n s'' => s'.refused < s''.refused ∨
      n = min buffer.length (inode'.data.length - offset) ∧ MovedBy s inode inode' a s'' ∧
        bytesOf s'' inode'.data = overwrite (bytesOf s' inode'.data) offset buffer) fun _ => True := by
  obtain ⟨xs, hm, hy⟩ := h
  have hbytes : Ends (writeLoop inode'.data buffer.length buffer offset) s' (fun n s'' => s'.refused < s''.refused ∨
      n = min buffer.length (inode'.data.length - offset) ∧
        owned s''.blocks inode'.data = owned s'.blocks inode'.data ∧
          bytesOf s'' inode'.data = overwrite (bytesOf s' inode'.data) offset buffer) fun _ => True := by
    refine ends_writeLoop _ buffer offset s' hm.wellFormed.mapped le_rfl (fun s'' hw => .inr ⟨rfl, ?_, ?_⟩)
      fun s'' m _ _ hr => .inl hr
    · exact owned_congr (hw.index hm.wellFormed.mapped)
    · rw [bytesOf_wrote hw, ← length_bytesOf s', overwrite_take]
  refine ((moves_write hm buffer).and hbytes).mono (fun n s'' hr => ?_) fun _ h => h.1
  exact hr.2.imp id fun hb => ⟨hb.1, ⟨xs, hr.1, by rw [hb.2.1]; exact hy⟩, hb.2.2⟩

/-! ### Growth -/

/-- The inode has the new length, its file the old bytes and zeros behind them. -/
structure Enlarged (s : Fs) (inode : Inode) (newSize : ℕ) (inode' : Inode) (s' : Fs) : Prop where
  moved : MovedBy s inode inode' (Destructive inode newSize) s'
  length : inode'.data.length = newSize
  bytes : bytesOf s' inode'.data = extendTo 0 (bytesOf s inode.data) newSize

theorem Enlarged.of_content (hm : MovedBy s inode inode' (Destructive inode newSize) s')
    (hlen : inode'.data.length = newSize) (hle : inode.data.length ≤ newSize)
    (hold : ∀ p < inode.data.length, content s'.blocks inode'.data p = content s.blocks inode.data p)
    (hzero : ∀ p, inode.data.length ≤ p → p < newSize → content s'.blocks inode'.data p = 0) :
    Enlarged s inode newSize inode' s' := by
  refine ⟨hm, hlen, ?_⟩
  have hlen' : (extendTo (0 : UInt8) (bytesOf s inode.data) newSize).length = inode'.data.length := by
    rw [length_extendTo, length_bytesOf, hlen, Nat.max_eq_right hle]
  refine (Holds.eq_bytesOf (Holds.extendTo ?_ fun p h1 h2 => ?_) hlen').symm
  · exact (holds_bytesOf s inode.data).congr fun p hp => hold p (by rwa [length_bytesOf] at hp)
  · exact hzero p (by rwa [length_bytesOf] at h1) h2

/-- In place. -/
theorem Enlarged.of_extended {ys zs : List ℕ} (hwf : WellFormed s inode.sector inode.data)
    (h : Extended s inode.sector inode.data (grown inode newSize).data ys zs s')
    (hwf' : WellFormed s' inode.sector (grown inode newSize).data) (hle : inode.data.length ≤ newSize)
    (hdes : ¬Destructive inode newSize) : Enlarged s inode newSize (grown inode newSize) s' := by
  refine .of_content ⟨_, Moved.of_extended h hwf', fun y => ?_⟩ rfl hle (fun p hp => ?_) fun p h1 h2 => ?_
  · rw [h.mem_owned, or_comm, and_iff_right hdes]
  · exact h.content_old hwf ((Nat.div_lt_iff_lt_mul (by decide)).mp (div_lt_sectorCount hp))
  · have hp : p < (grown inode newSize).data.length := h2
    exact h.content_tail hwf h1 ((Nat.div_lt_iff_lt_mul (by decide)).mp (div_lt_sectorCount hp))

/-- Created anew, and written back. -/
theorem Enlarged.of_created {s₁ : Fs} {start : ℕ} (hle : inode.data.length ≤ newSize)
    (hdes : Destructive inode newSize)
    (h : Created s inode.sector (anew inode newSize start) s₁)
    (hw : Wrote s₁ (anew inode newSize start) 0 (slice (content s.blocks inode.data) 0 inode.data.length) s') :
    Enlarged s inode newSize { inode with data := anew inode newSize start } s' := by
  have hin : 0 + (slice (content s.blocks inode.data) 0 inode.data.length).length ≤ newSize := by
    rw [length_slice]
    omega
  have hg := InodeGrow.Created.grown hle h hw
  refine .of_content ⟨_, (Moved.of_created h).wrote hw hin, fun y => ?_⟩ rfl hle hg.old hg.zero
  rw [show owned s'.blocks (anew inode newSize start) = owned s₁.blocks (anew inode newSize start) from
    owned_congr (hw.index h.wellFormed.mapped), or_iff_left fun hn => hn.1 hdes]

/-- **`inode_expand`** up to the maximum size. -/
theorem enlarged_expand (hwf : WellFormed s inode.sector inode.data) (h1 : inode.data.length < newSize)
    (h2 : newSize ≤ maxHuge) (hdeny : inode.denyWriteCnt = 0)
    (hin : inode.data.sizeType = inodeTypeHuge → arrayCount (grown inode newSize).data = arrayCount inode.data) :
    Ends (inodeExpand inode newSize) s (fun r s' => s.refused < s'.refused ∨
      r.1 = true ∧ Enlarged s inode newSize r.2 s') fun _ => True := by
  have hplace : ¬Destructive inode newSize → Ends (inodeExpandSectors inode newSize) s
      (fun r s' => s.refused < s'.refused ∨ r.1 = some false ∧ Enlarged s inode newSize r.2 s') fun _ => True := by
    intro hdes
    rcases hwf.mapped.sizeType with ht | ht | ht
    · exact absurd (.inl ht) hdes
    · have hle : newSize ≤ maxLarge := Nat.le_of_not_lt fun hgt => hdes (.inr ⟨ht, hgt⟩)
      exact ends_expandSectors_large hwf ht h1.le hle
        (fun s' xs h hw => .inr ⟨rfl, .of_extended hwf h hw h1.le hdes⟩) (fun s' xs _ hr _ => .inl hr)
        fun s' _ hr => .inl hr
    · exact ends_expandSectors_huge hwf ht h1.le h2
        (fun s' xs _ h hw => .inr ⟨rfl, .of_extended hwf h hw h1.le hdes⟩)
        (fun _ _ _ _ _ _ _ hc _ => absurd (hin ht) hc) (fun s' xs _ hr _ => .inl hr) fun s' _ hr => .inl hr
  unfold inodeExpand
  refine .ite (fun h0 => .bind ?_) fun h0 => .bind ?_
  · -- an empty file
    by_cases hdes : Destructive inode newSize
    · refine ends_expandSectors_anew hwf hdes (by omega) h2 (fun s' start hc => .pure (.inr ⟨rfl, ?_⟩))
        (fun s' xs _ hr => .pure (.inl hr)) fun s' _ hr _ _ _ => .pure (.inl hr)
      refine .of_created h1.le hdes hc ?_
      rw [h0]
      exact wrote_of_quiet (Quiet.refl _) _ _
    · exact (hplace hdes).mono (fun r s' h => .pure (h.imp id fun h => ⟨rfl, h.2⟩)) fun _ h => h
  by_cases hdes : Destructive inode newSize
  swap
  · refine expandIsDestructive_not hwf.mapped.sizeType hdes ?_
    rw [if_neg (by decide)]
    refine .bind ((hplace hdes).mono (fun r s' h => ?_) fun _ h => h)
    obtain ⟨r, inode'⟩ := r
    rcases r with _ | _ | _
    · exact .pure (.inl (h.resolve_right fun h => by cases h.1))
    · exact .pure (h.imp id fun h => ⟨rfl, h.2⟩)
    · exact .throw trivial
  refine expandIsDestructive_of hdes ?_
  rw [if_pos rfl]
  refine .bind (ends_calloc (fun s₁ hq1 _ => ?_) fun s₁ hq1 hr => .pure (.inl hr))
  rw [if_pos rfl]
  refine .bind (ends_inodeReadAt (mapped_of_quiet hwf.mapped hq1) (fun h => by omega) (fun s₂ hq2 => ?_)
    fun s₂ m hq2 hm hr => ?_)
  swap
  · rw [if_pos (by rw [length_slice]; omega)]
    exact .pure (.inl (hq1.refused.trans_lt hr))
  have hq := hq1.trans hq2
  have hfull : min inode.data.length (inode.data.length - 0) = inode.data.length := by omega
  rw [hfull, hq1.blocks, if_neg (by rw [length_slice]; omega)]
  refine .bind (ends_expandSectors_anew (hwf.of_quiet hq) hdes (by omega) h2 (fun s₃ start hc => ?_)
    (fun s₃ xs ht hr => .pure (.inl (hq.refused.trans_lt hr))) fun s₃ hq3 hr hgt _ _ => .bind ?_)
  swap
  · -- the index array was refused: whatever comes after, the refusal is on record
    have hkeep := keeps_inodeWriteWith (lasting_refused s.refused)
      (fun _ _ => (Keeps.throw : Keeps _ (throw Stop.relock : FsCall (Bool × Inode))))
      { inode with data := .ofSector (anew inode newSize s₂.junk).toSector }
      (slice (content s.blocks inode.data) 0 inode.data.length) 0
      (s₃.put inode.sector (anew inode newSize s₂.junk).toSector) (hq.refused.trans_lt hr)
    exact hkeep.mono (fun r s' h => .pure (.inl h)) fun _ _ => trivial
  have hc' : Created s inode.sector (anew inode newSize start) s₃ :=
    ⟨(Took.of_quiet hq).trans hc.took, hc.wellFormed, hc.zero⟩
  have hfits : 0 + (slice (content s.blocks inode.data) 0 inode.data.length).length ≤ newSize := by
    rw [length_slice]
    omega
  have hm : Mapped s₃ ({ inode with data := anew inode newSize start } : Inode).data := hc.wellFormed.mapped
  refine .bind (ends_inodeWriteWith hm hdeny hfits (fun s₄ hw => .pure (.inr ⟨?_, .of_created h1.le hdes hc' hw⟩))
    fun s₄ m hw hm hr => .pure (.inl (hc'.took.refused.trans_lt hr)))
  simp

/-! ### Past the maximum size -/

/-- An array of arrays is not filled past its end unless something is refused. -/
theorem refused_appendArrays_long {cnt : ℕ → ℕ} (hcnt : ∀ i, cnt i ≤ sectorsPerArray) :
    ∀ (k i : ℕ) (a : SectorArray) (s : Fs), sectorsPerArray < i + k → i ≤ sectorsPerArray →
      Ends (appendArrays (fun _ => return fun _ => 0) cnt a i k) s (fun _ s' => s.refused < s'.refused) fun _ => True
  | 0, _, _, _, hlong, hi => by omega
  | k + 1, i, a, s, hlong, _ => by
    refine .bind (ends_allocateOne (W := ∅) (fun s₁ x h1 _ => ?_) fun s₁ _ hr _ => .pure hr)
    refine .bind (.ite (fun hi => .pure (.bind (.pure (.bind ?_)))) fun _ => .throw trivial)
    have hlt : x < s₁.freeMap.length := h1.size ▸ h1.lt List.mem_cons_self
    refine ends_appendSectors _ _ _ _ (by rw [Nat.zero_add]; exact hcnt i) (fun s₂ row h2 _ _ _ => ?_)
      fun s₂ xs _ hr => .pure (h1.refused.trans_lt hr)
    refine .bind (ends_writeArray (h2.size ▸ hlt) ?_)
    refine (refused_appendArrays_long hcnt k (i + 1) _ _ (by omega) (by omega)).mono (fun _ s₃ hr => ?_) fun _ h => h
    exact (h1.refused.trans h2.refused).trans_lt hr

theorem refused_createHuge_long {funcType parentSector sector : ℕ}
    (hlong : sectorsPerArray < divRoundUp (bytesToSectors newSize) sectorsPerArray) :
    Ends (inodeCreateHuge sector newSize funcType parentSector) s (fun _ s' => s.refused < s'.refused)
      fun _ => True := by
  refine .bind (ends_calloc (fun s₁ h1 _ => ?_) fun s₁ _ hr => .pure hr)
  rw [if_pos rfl]
  refine .bind (ends_calloc (fun s₂ h2 _ => ?_) fun s₂ _ hr => .pure (h1.refused.trans_lt hr))
  rw [if_pos rfl]
  have h12 := h1.trans h2
  refine .bind (ends_calloc (fun s₃ h3 _ => ?_) fun s₃ _ hr => .pure (h12.refused.trans_lt hr))
  rw [if_pos rfl]
  have h13 := h12.trans h3
  refine .bind (ends_allocateOne (W := ∅) (fun s₄ x h4 _ => .bind ?_) fun s₄ _ hr _ => .bind (.get (.bind ?_)))
  · refine (refused_appendArrays_long (hugeCount_le _) _ 0 _ s₄ (by omega) (Nat.zero_le _)).mono
      (fun r s₅ hr => ?_) fun _ h => h
    have hr5 : Refused s.refused s₅ := (h13.refused.trans h4.refused).trans_lt hr
    rcases r with _ | a
    · exact .pure hr5
    · refine .bind ((keeps_bcacheWrite (lasting_refused _) _ _ s₅ hr5).mono (fun _ s₆ h6 => .bind ?_)
        fun _ _ => trivial)
      exact (keeps_bcacheWrite (lasting_refused _) _ _ s₆ h6).mono (fun _ _ h => .pure h) fun _ _ => trivial
  · exact (keeps_bcacheWrite (lasting_refused s.refused) _ _ s₄ (h13.refused.trans_lt hr)).mono
      (fun _ _ h => .pure h) fun _ _ => trivial

/-- `inode_expand_sectors` past the maximum size. -/
theorem expandSectors_long (hwf : WellFormed s inode.sector inode.data) (hgt : maxHuge < newSize)
    (h31 : newSize < 2 ^ 31) : Ends (inodeExpandSectors inode newSize) s (fun r s' =>
      s.refused < s'.refused ∨ r = (none, inode) ∧ Quiet s s') fun _ => True := by
  refine .bind (ends_calloc (fun s₁ h1 _ => ?_) fun s₁ h1 hr => .pure (.inl hr))
  have hlt : maxLarge < newSize := (by decide : maxLarge ≤ maxHuge).trans_lt hgt
  rw [if_pos rfl]
  rcases hwf.mapped.sizeType with ht | ht | ht
  · rw [if_pos ht, if_pos hgt]
    exact .pure (.inr ⟨rfl, h1⟩)
  · rw [if_neg (ht ▸ small_ne_large.symm), if_pos ht, if_pos hlt]
    refine .bind ((refused_createHuge_long (divRoundUp_long hgt h31)).mono (fun r s₂ hr => ?_) fun _ h => h)
    have hr2 : Refused s.refused s₂ := h1.refused.trans_lt hr
    rcases r with _ | _
    · exact .pure (.inl hr2)
    · exact .bind ((keeps_bcacheRead inode.sector s₂ hr2).mono (fun _ s₃ h => .pure (.inl h)) fun _ _ => trivial)
  · rw [if_neg (ht ▸ small_ne_huge.symm), if_neg (ht ▸ large_ne_huge.symm), if_pos ht, if_pos hgt]
    exact .pure (.inr ⟨rfl, h1⟩)

/-- **`inode_expand`** past the maximum size. -/
theorem expand_long (hwf : WellFormed s inode.sector inode.data) (hgt : maxHuge < newSize)
    (h31 : newSize < 2 ^ 31) : Ends (inodeExpand inode newSize) s (fun r s' => s.refused < s'.refused ∨
      (r.1 = true → inode.data.length = 0) ∧ r.2 = inode ∧ Quiet s s') fun _ => True := by
  unfold inodeExpand
  refine .ite (fun h0 => .bind ?_) fun h0 => .bind ?_
  · refine (expandSectors_long hwf hgt h31).mono (fun r s' h => .pure (h.imp id fun h => ?_)) fun _ h => h
    exact ⟨fun _ => h0, congrArg Prod.snd h.1, h.2⟩
  by_cases hdes : Destructive inode newSize
  · refine expandIsDestructive_of hdes ?_
    rw [if_pos rfl]
    refine .bind (ends_calloc (fun s₁ hq1 _ => ?_) fun s₁ hq1 hr => .pure (.inl hr))
    rw [if_pos rfl]
    refine .bind (ends_inodeReadAt (mapped_of_quiet hwf.mapped hq1) (fun h => by omega) (fun s₂ hq2 => ?_)
      fun s₂ m hq2 hm hr => ?_)
    swap
    · rw [if_pos (by rw [length_slice]; omega)]
      exact .pure (.inl (hq1.refused.trans_lt hr))
    have hq := hq1.trans hq2
    rw [if_neg (by rw [length_slice]; omega)]
    refine .bind ((expandSectors_long (hwf.of_quiet hq) hgt h31).mono (fun r s₃ h => ?_) fun _ h => h)
    obtain ⟨r, inode'⟩ := r
    rcases r with _ | _ | _
    · exact .pure (h.imp hq.refused.trans_lt fun h =>
        ⟨fun h => Bool.noConfusion h, congrArg Prod.snd h.1, hq.trans h.2⟩)
    · exact .throw trivial
    · have hr : s₂.refused < s₃.refused := h.resolve_right fun h => by cases h.1
      have hkeep := keeps_inodeWriteWith (lasting_refused s.refused)
        (fun _ _ => (Keeps.throw : Keeps _ (throw Stop.relock : FsCall (Bool × Inode)))) inode'
        (slice (content s₁.blocks inode.data) 0 (min inode.data.length (inode.data.length - 0))) 0 s₃
        (hq.refused.trans_lt hr)
      exact .bind (hkeep.mono (fun r s' h => .pure (.inl h)) fun _ _ => trivial)
  · refine expandIsDestructive_not hwf.mapped.sizeType hdes ?_
    rw [if_neg (by decide)]
    refine .bind ((expandSectors_long hwf hgt h31).mono (fun r s' h => ?_) fun _ h => h)
    obtain ⟨r, inode'⟩ := r
    rcases r with _ | _ | _
    · exact .pure (h.imp id fun h => ⟨fun h => Bool.noConfusion h, congrArg Prod.snd h.1, h.2⟩)
    · exact .pure (.inl (h.resolve_right fun h => by cases h.1))
    · exact .throw trivial

/-! ### The calls on the store -/

theorem storedFile_released (s : Fs) (inode : Inode) : storedFile s (lockRelease inode) = storedFile s inode := rfl

section write

variable {f : StoredFile} {buffer : List UInt8} (hd : f.denyWriteCnt = 0)
include hd

theorem StoredFile.write_over (h : 2 ^ 31 ≤ offset + buffer.length) : f.write buffer offset =
    (min buffer.length (f.bytes.length - offset), { f with bytes := overwrite f.bytes offset buffer }) := by
  rw [StoredFile.write, if_neg (not_not_intro hd), if_pos h]

theorem StoredFile.write_long (h31 : offset + buffer.length < 2 ^ 31) (h : maxHuge < offset + buffer.length) :
    f.write buffer offset = (0, f) := by
  rw [StoredFile.write, if_neg (not_not_intro hd), if_neg (by omega), if_pos h]

theorem StoredFile.write_short (h31 : offset + buffer.length < 2 ^ 31) (h : offset + buffer.length ≤ maxHuge) :
    f.write buffer offset = (buffer.length, { f with bytes := fileWrite 0 f.bytes offset buffer }) := by
  rw [StoredFile.write, if_neg (not_not_intro hd), if_neg (by omega), if_neg (by omega)]

end write

/-- A write up to `newSize` creates the inode anew. -/
def CreatesAnew (inode : Inode) (newSize : ℕ) : Prop :=
  inode.denyWriteCnt = 0 ∧ inode.data.length < newSize ∧ newSize ≤ maxHuge ∧ Destructive inode newSize

/-- **`inode_write_at`** does to the inode what a write does to its file. -/
theorem stores_writeAt {buffer : List UInt8} (hwf : WellFormed s inode.sector inode.data)
    (hlock : inode.lockHeld = false) (hin : inode.data.sizeType = inodeTypeHuge →
      inode.data.length < offset + buffer.length → offset + buffer.length ≤ maxHuge →
        arrayCount (grown inode (offset + buffer.length)).data = arrayCount inode.data) :
    Ends (inodeWriteAt32 inode buffer offset) s (fun r s' => s.refused < s'.refused ∨
      MovedBy s inode r.2 (CreatesAnew inode (offset + buffer.length)) s' ∧
        (storedFile s inode).write buffer offset = (r.1, storedFile s' r.2)) fun _ => True := by
  have hmax : inode.data.length ≤ maxHuge := by
    refine hwf.mapped.length.trans (Nat.mul_le_mul_right _ ?_)
    unfold maxSectors
    split_ifs <;> decide
  have hself : ¬CreatesAnew inode (offset + buffer.length) →
      MovedBy s inode inode (CreatesAnew inode (offset + buffer.length)) s := .of_quiet hwf (Quiet.refl s)
  have hdenied : inode.denyWriteCnt ≠ 0 → (storedFile s inode).write buffer offset = (0, storedFile s inode) :=
    fun hd => if_pos hd
  refine .ite (fun h31 => .ite (fun hd => .pure (.inr ⟨hself fun h => hd h.1, hdenied hd⟩)) fun hd =>
    .ite (fun hgt => .bind ?_) fun hle => .bind ?_) fun h31 =>
    .ite (fun hd => .pure (.inr ⟨hself fun h => hd h.1, hdenied hd⟩)) fun hd => .bind ?_
  · unfold lockAcquire
    rw [hlock, if_neg (by decide)]
    refine .pure (.bind ?_)
    rw [Nat.add_comm buffer.length]
    have hlost : ∀ (ok : Bool) (inode₁ : Inode) (s₁ : Fs), s.refused < s₁.refused → Ends (if ok then do
        let written ← writeLoop inode₁.data buffer.length buffer offset
        return (written, lockRelease inode₁)
      else return (0, lockRelease inode₁) : FsCall (ℕ × Inode)) s₁ (fun r s' => s.refused < s'.refused ∨
        MovedBy s inode r.2 (CreatesAnew inode (offset + buffer.length)) s' ∧
          (storedFile s inode).write buffer offset = (r.1, storedFile s' r.2)) fun _ => True := by
      intro ok inode₁ s₁ hr
      refine .ite (fun _ => .bind ?_) fun _ => .pure (.inl hr)
      exact (keeps_writeLoop (lasting_refused s.refused) inode₁.data _ buffer offset s₁ hr).mono
        (fun _ _ h => .pure (.inl h)) fun _ _ => trivial
    rcases Nat.lt_or_ge maxHuge (offset + buffer.length) with hlong | hshort
    · -- past the maximum
      have hzero := StoredFile.write_long (f := storedFile s inode) (not_not.mp hd) h31 hlong
      have hexpand := @expand_long s { inode with lockHeld := true } _ hwf hlong h31
      refine hexpand.mono (fun r s₁ hr => ?_) fun _ h => h
      obtain ⟨ok, inode₁⟩ := r
      rcases hr with hr | ⟨hempty, rfl, hq⟩
      · exact hlost _ _ _ hr
      have hm : MovedBy s { inode with lockHeld := true } { inode with lockHeld := true }
          (CreatesAnew inode (offset + buffer.length)) s₁ := .of_quiet hwf hq fun h => absurd h.2.2.1 (by omega)
      have hstill : storedFile s₁ inode = storedFile s inode :=
        congrArg (StoredFile.mk · _) (bytesOf_congr fun y _ => congrFun hq.blocks y)
      refine .ite (fun hok => .bind ?_) fun _ => .pure (.inr ⟨hm.released hlock, ?_⟩)
      · -- an empty file: there is nothing to write to
        have h0 : inode.data.length = 0 := hempty hok
        refine (stores_writeLoop hm buffer).mono (fun n s₂ h => .pure (h.imp hq.refused.trans_lt fun h => ?_))
          fun _ h => h
        obtain ⟨rfl, hm2, -⟩ := h
        refine ⟨hm2.released hlock, ?_⟩
        have hnil : ∀ s, bytesOf s inode.data = [] := fun s =>
          List.eq_nil_of_length_eq_zero ((length_bytesOf s _).trans h0)
        have hcnt : min buffer.length (inode.data.length - offset) = 0 := by omega
        rw [hzero, storedFile_released, storedFile, storedFile, hnil, hnil, hcnt]
      · rw [hzero, storedFile_released]
        exact congrArg (Prod.mk 0) hstill.symm
    · have hexpand := @enlarged_expand s { inode with lockHeld := true } _ hwf hgt hshort (not_not.mp hd)
        fun ht => hin ht hgt hshort
      refine hexpand.mono (fun r s₁ hr => ?_) fun _ h => h
      obtain ⟨ok, inode₁⟩ := r
      rcases hr with hr | ⟨hok, hm, hlen, hb⟩
      · exact hlost _ _ _ hr
      have hm : MovedBy s { inode with lockHeld := true } inode₁ (CreatesAnew inode (offset + buffer.length)) s₁ :=
        hm.congr ⟨fun hdes => ⟨not_not.mp hd, hgt, hshort, hdes⟩, fun h => h.2.2.2⟩
      refine .ite (fun _ => .bind ?_) fun hno => absurd hok hno
      have hrefused : s.refused ≤ s₁.refused := hm.choose_spec.1.took.refused
      refine (stores_writeLoop hm buffer).mono (fun n s₂ h => .pure (h.imp hrefused.trans_lt fun h => ?_))
        fun _ h => h
      obtain ⟨rfl, hm2, hb2⟩ := h
      refine ⟨hm2.released hlock, ?_⟩
      rw [StoredFile.write_short (f := storedFile s inode) (not_not.mp hd) h31 hshort, storedFile_released,
        storedFile, storedFile, hb2, hb, hlen, Nat.min_eq_left (by omega), fileWrite, hm.choose_spec.1.same]
  · refine (stores_writeLoop (hself fun h => absurd h.2.1 (by omega)) buffer).mono
      (fun n s' h => .pure (h.imp id fun h => ?_)) fun _ h => h
    obtain ⟨rfl, hm, hb⟩ := h
    refine ⟨hm, ?_⟩
    rw [StoredFile.write_short (f := storedFile s inode) (not_not.mp hd) h31 (by omega), storedFile, storedFile, hb,
      fileWrite, extendTo_of_le _ (by rw [length_bytesOf]; omega), Nat.min_eq_left (by omega)]
  · have hlong : ¬CreatesAnew inode (offset + buffer.length) := fun h => by
      have hle := h.2.2.1
      have hmax : maxHuge < 2 ^ 31 := by decide
      omega
    refine (stores_writeLoop (hself hlong) buffer).mono (fun n s' h => .pure (h.imp id fun h => ?_)) fun _ h => h
    obtain ⟨rfl, hm, hb⟩ := h
    refine ⟨hm, ?_⟩
    rw [StoredFile.write_over (f := storedFile s inode) (not_not.mp hd) (by omega), storedFile, storedFile, hb,
      length_bytesOf]

/-- `inode_create` in a sector that is marked. Where it succeeds although a request was refused, that is the
sector of the index array. -/
theorem zeros_inodeCreate {len : ℤ} {funcType parentSector : ℕ} (hs : s.freeMap[x]? = some true)
    (hdev : s.freeMap.length < 2 ^ 32) (hf : funcType < 2 ^ 8) (hp : parentSector < 2 ^ 32) :
    Ends (inodeCreate x len funcType parentSector) s (fun r s' =>
      s.refused < s'.refused ∧ (r = true → maxLarge < len ∧ len ≤ maxHuge ∧ IndexRefused s) ∨
      if r then 0 ≤ len ∧ len ≤ maxHuge ∧ ∃ d, Created s x d s' ∧ d.length = len.toNat
      else maxHuge < len ∧ s' = s) fun _ => True := by
  unfold inodeCreate
  refine .ite (fun _ => .throw trivial) fun h0 => .ite (fun h1 => ?_) fun h1 => .ite (fun h2 => ?_) fun h2 =>
    .ite (fun h3 => ?_) fun h3 => .pure (.inr ⟨not_le.mp h3, rfl⟩)
  all_goals have hnonneg : 0 ≤ len := not_lt.mp h0
  · have h1' : len ≤ 32768 := h1
    exact ends_inodeCreateSmall hs hdev (by show len.toNat ≤ 32768; omega) hf hp
      (fun _ _ hc _ => .inr ⟨hnonneg, by show len ≤ 8388608; omega, _, hc, rfl⟩)
      fun _ _ _ hr => .inl ⟨hr, fun h => Bool.noConfusion h⟩
  · have h2' : len ≤ 65536 := h2
    exact ends_inodeCreateLarge hs hdev (by show len.toNat ≤ 65536; omega) hf hp
      (fun _ _ hc _ => .inr ⟨hnonneg, by show len ≤ 8388608; omega, _, hc, rfl⟩)
      fun _ _ _ hr => .inl ⟨hr, fun h => Bool.noConfusion h⟩
  · have h2' : ¬len ≤ 65536 := h2
    have h3' : len ≤ 8388608 := h3
    exact ends_inodeCreateHuge hs hdev (by omega) (by show len.toNat ≤ 8388608; omega) hf hp
      (fun _ _ hc _ => .inr ⟨hnonneg, h3, _, hc, rfl⟩)
      (fun _ _ _ hr => .inl ⟨hr, fun h => Bool.noConfusion h⟩)
      fun _ _ hr hi => .inl ⟨hr, fun _ => ⟨by show (65536 : ℤ) < len; omega, h3, hi⟩⟩

/-- The file of a new inode holds zeros. -/
theorem bytesOf_created (h : Created s x d s') : bytesOf s' d = List.replicate d.length 0 := by
  refine List.eq_replicate_iff.mpr ⟨length_bytesOf _ _, fun b hb => ?_⟩
  obtain ⟨p, hp, rfl⟩ := mem_slice.mp hb
  exact h.zero p ((Nat.div_lt_iff_lt_mul (by decide)).mp (div_lt_sectorCount (by omega)))

/-! ### Sectors that are lost -/

def marked (v : Volume) : Set ℕ := {y | v.fs.freeMap[y]? = some true}

/-- The sectors of the live inodes other than `x`. -/
def heldByOthers (v : Volume) (x : ℕ) : Set ℕ :=
  {y | ∃ z inode, z ≠ x ∧ v.inodes z = some inode ∧ y ∈ z :: owned v.fs.blocks inode.data}

def held (v : Volume) : Set ℕ := {y | ∃ x inode, v.inodes x = some inode ∧ y ∈ x :: owned v.fs.blocks inode.data}

/-- **The sectors that are marked and that no live inode has.** -/
def leaked (v : Volume) : Set ℕ := marked v \ held v

/-- The sectors that a call gives up without marking them free: those of an inode that is created anew, or whose
file is removed. -/
def abandons (v : Volume) : VolumeAction → Set ℕ
  | .write sector buffer offset => {y | ∃ inode, v.inodes sector = some inode ∧
      CreatesAnew inode (offset + buffer.length) ∧ y ∈ owned v.fs.blocks inode.data}
  | .remove sector => {y | ∃ inode, v.inodes sector = some inode ∧ y ∈ owned v.fs.blocks inode.data}
  | _ => ∅

theorem held_put {o : Option Inode} {y : ℕ} (hk : Kept v (· ≠ x) s') : y ∈ held ⟨s', v.put x o⟩ ↔
    y ∈ heldByOthers v x ∨ ∃ inode', o = some inode' ∧ y ∈ x :: owned s'.blocks inode'.data := by
  constructor
  · rintro ⟨z, i, hz, hy⟩
    have hz : Function.update v.inodes x o z = some i := hz
    have hy : y ∈ z :: owned s'.blocks i.data := hy
    by_cases hzx : z = x
    · rw [hzx, Function.update_self] at hz
      exact .inr ⟨i, hz, hzx ▸ hy⟩
    · rw [Function.update_of_ne hzx] at hz
      rw [hk.owned_eq hzx hz] at hy
      exact .inl ⟨z, i, hzx, hz, hy⟩
  · rintro (⟨z, i, hzx, hz, hy⟩ | ⟨i, rfl, hy⟩)
    · refine ⟨z, i, (Function.update_of_ne hzx _ _).trans hz, ?_⟩
      rw [hk.owned_eq hzx hz]
      exact hy
    · exact ⟨x, i, Function.update_self .., hy⟩

theorem held_of_some {y : ℕ} (hx : v.inodes x = some inode) :
    y ∈ held v ↔ y ∈ heldByOthers v x ∨ y ∈ x :: owned v.fs.blocks inode.data := by
  constructor
  · rintro ⟨z, i, hz, hy⟩
    by_cases hzx : z = x
    · subst hzx
      obtain rfl : inode = i := Option.some.inj (hx.symm.trans hz)
      exact .inr hy
    · exact .inl ⟨z, i, hzx, hz, hy⟩
  · rintro (⟨z, i, -, hz, hy⟩ | hy)
    · exact ⟨z, i, hz, hy⟩
    · exact ⟨x, inode, hx, hy⟩

theorem held_of_none {y : ℕ} (hx : v.inodes x = none) : y ∈ held v ↔ y ∈ heldByOthers v x := by
  constructor
  · rintro ⟨z, i, hz, hy⟩
    refine ⟨z, i, ?_, hz, hy⟩
    rintro rfl
    rw [hx] at hz
    cases hz
  · rintro ⟨z, i, -, hz, hy⟩
    exact ⟨z, i, hz, hy⟩

theorem took_marks {xs : List ℕ} {W : Set ℕ} (h : Took s xs W s') (y : ℕ) :
    s'.freeMap[y]? = some true ↔ s.freeMap[y]? = some true ∨ y ∈ xs := by
  by_cases hy : y ∈ xs
  · exact ⟨fun _ => .inr hy, fun _ => h.taken y hy⟩
  · rw [h.rest y hy, or_iff_left hy]

theorem marks_release {y : ℕ} (hx : x < s.freeMap.length)
    (hq : Quiet { s with freeMap := s.freeMap.set x false } s') :
    s'.freeMap[y]? = some true ↔ s.freeMap[y]? = some true ∧ y ≠ x := by
  rw [hq.freeMap]
  show (s.freeMap.set x false)[y]? = _ ↔ _
  by_cases hyx : y = x
  · subst hyx
    rw [List.getElem?_set_self hx]
    simp
  · rw [List.getElem?_set_ne (Ne.symm hyx), and_iff_left hyx]

/-- A call that leaves all inodes as they are. -/
theorem leaked_keep (hk : Kept v (fun _ => True) s') (hm : ∀ y : ℕ, s'.freeMap[y]? = some true ↔
    v.fs.freeMap[y]? = some true) : leaked ⟨s', v.inodes⟩ = leaked v := by
  have hheld : ∀ y, y ∈ held ⟨s', v.inodes⟩ ↔ y ∈ held v := fun y => by
    constructor
    · rintro ⟨z, i, hz, hy⟩
      exact ⟨z, i, hz, by rw [← hk.owned_eq trivial hz]; exact hy⟩
    · rintro ⟨z, i, hz, hy⟩
      exact ⟨z, i, hz, by rw [hk.owned_eq trivial hz]; exact hy⟩
  ext y
  exact and_congr (hm y) (not_congr (hheld y))

/-- A call that changes what is kept in memory of an inode. -/
theorem leaked_put (h : Owns v) (hx : v.inodes x = some inode) (hdata : inode'.data = inode.data) :
    leaked ⟨v.fs, v.put x (some inode')⟩ = leaked v ∪ ∅ := by
  have hk : Kept v (· ≠ x) v.fs := h.kept_took (Took.refl (W := ∅) v.fs) fun _ _ _ _ hy => hy
  rw [Set.union_empty]
  ext y
  refine and_congr Iff.rfl (not_congr ?_)
  rw [held_put hk, held_of_some hx]
  simp only [Option.some.injEq, exists_eq_left', hdata]

/-- **A write** gives up the sectors of an inode that it creates anew, and no others. -/
theorem leaked_moved {a : Prop} (h : Owns v) (hx : v.inodes x = some inode) (hm : MovedBy v.fs inode inode' a s') :
    leaked ⟨s', v.put x (some inode')⟩ = leaked v ∪ {y | a ∧ y ∈ owned v.fs.blocks inode.data} := by
  obtain ⟨xs, hmoved, hy⟩ := hm
  obtain ⟨rfl, -⟩ := h.kept hx
  have hwf := h.wellFormed hx
  have hk : Kept v (· ≠ inode.sector) s' := h.kept_took hmoved.took fun hne hz y hy hy' =>
    h.apart hz hx hne y hy (List.mem_cons.mpr hy')
  ext y
  have hnew : v.fs.freeMap[y]? = some true → y ∉ xs := hmoved.took.notMem
  have hown : y ∈ owned v.fs.blocks inode.data → v.fs.freeMap[y]? = some true ∧ y ≠ inode.sector ∧
      y ∉ heldByOthers v inode.sector := fun hy => ⟨hwf.marked y (List.mem_cons_of_mem _ hy), fun he =>
    hwf.apart (he ▸ hy), fun ⟨z, i, hne, hz, hy'⟩ => h.apart hz hx hne y hy' (List.mem_cons_of_mem _ hy)⟩
  have hleft : y ∈ leaked ⟨s', v.put inode.sector (some inode')⟩ ↔ (v.fs.freeMap[y]? = some true ∨ y ∈ xs) ∧
      ¬(y ∈ heldByOthers v inode.sector ∨ y = inode.sector ∨ y ∈ xs ∨ ¬a ∧ y ∈ owned v.fs.blocks inode.data) := by
    refine and_congr (took_marks hmoved.took y) (not_congr ?_)
    rw [held_put hk]
    simp only [Option.some.injEq, exists_eq_left', List.mem_cons, hy]
  have hright : y ∈ leaked v ↔ v.fs.freeMap[y]? = some true ∧
      ¬(y ∈ heldByOthers v inode.sector ∨ y = inode.sector ∨ y ∈ owned v.fs.blocks inode.data) := by
    refine and_congr Iff.rfl (not_congr ?_)
    rw [held_of_some hx, List.mem_cons]
  rw [Set.mem_union, hleft, hright]
  show _ ↔ _ ∨ a ∧ y ∈ owned v.fs.blocks inode.data
  tauto

/-- The last close of a removed inode gives up its sectors. -/
theorem leaked_removed (h : Owns v) (hx : v.inodes x = some inode)
    (hq : Quiet { v.fs with freeMap := v.fs.freeMap.set x false } s') (hk : Kept v (· ≠ x) s') :
    leaked ⟨s', v.put x none⟩ = leaked v ∪ {y | y ∈ owned v.fs.blocks inode.data} := by
  have hwf := h.wellFormed hx
  ext y
  have hown : y ∈ owned v.fs.blocks inode.data → v.fs.freeMap[y]? = some true ∧ y ≠ x ∧ y ∉ heldByOthers v x :=
    fun hy => ⟨hwf.marked y (List.mem_cons_of_mem _ hy), fun he => hwf.apart (he ▸ hy),
      fun ⟨z, i, hne, hz, hy'⟩ => h.apart hz hx hne y hy' (List.mem_cons_of_mem _ hy)⟩
  have hleft : y ∈ leaked ⟨s', v.put x none⟩ ↔ (v.fs.freeMap[y]? = some true ∧ y ≠ x) ∧ y ∉ heldByOthers v x := by
    refine and_congr (marks_release hwf.sector_lt hq) (not_congr ?_)
    rw [held_put hk]
    simp
  have hright : y ∈ leaked v ↔ v.fs.freeMap[y]? = some true ∧
      ¬(y ∈ heldByOthers v x ∨ y = x ∨ y ∈ owned v.fs.blocks inode.data) := by
    refine and_congr Iff.rfl (not_congr ?_)
    rw [held_of_some hx, List.mem_cons]
  rw [Set.mem_union, hleft, hright]
  show _ ↔ _ ∨ y ∈ owned v.fs.blocks inode.data
  tauto

/-- A new inode has all sectors that were taken for it. -/
theorem leaked_created (hnone : v.inodes x = none) (hk : Kept v (· ≠ x) s')
    (ht : Took v.fs ([x] ++ owned s'.blocks d) {x} s') :
    leaked ⟨s', v.put x (some ⟨x, false, 0, d⟩)⟩ = leaked v := by
  ext y
  have hnew : v.fs.freeMap[y]? = some true → y ∉ [x] ++ owned s'.blocks d := ht.notMem
  have hleft : y ∈ leaked ⟨s', v.put x (some ⟨x, false, 0, d⟩)⟩ ↔ (v.fs.freeMap[y]? = some true ∨
      y ∈ [x] ++ owned s'.blocks d) ∧ ¬(y ∈ heldByOthers v x ∨ y ∈ x :: owned s'.blocks d) := by
    refine and_congr (took_marks ht y) (not_congr ?_)
    rw [held_put hk]
    simp only [Option.some.injEq, exists_eq_left']
  have hright : y ∈ leaked v ↔ v.fs.freeMap[y]? = some true ∧ y ∉ heldByOthers v x :=
    and_congr Iff.rfl (not_congr (held_of_none hnone))
  rw [hleft, hright]
  show (_ ∨ y ∈ x :: owned s'.blocks d) ∧ _ ↔ _
  have hnew : v.fs.freeMap[y]? = some true → y ∉ x :: owned s'.blocks d := hnew
  tauto

/-- What a call leaves of the invariant, of the store and of the sectors. -/
structure Simulates (v : Volume) (x : VolumeAction × Answer) (v' : Volume) : Prop where
  owns : Owns v'
  step : StoreStep (shown v) x (shown v')
  leaked : leaked v' = leaked v ∪ abandons v x.1

/-- A new inode in a sector that was free. -/
theorem owns_put_created (h : Owns v) (hfree : v.fs.freeMap[x]? = some false)
    (ht : Took v.fs ([x] ++ owned s.blocks d) {x} s) (hwf : WellFormed s x d) :
    Owns ⟨s, v.put x (some ⟨x, false, 0, d⟩)⟩ ∧ Kept v (· ≠ x) s := by
  have hk : Kept v (· ≠ x) s := h.kept_took ht fun _ hz y hy he => h.not_free hz hfree (he ▸ hy)
  refine ⟨h.update hk (fun _ => rfl) ?_, hk⟩
  rintro _ ⟨⟩
  exact ⟨rfl, rfl, hwf, fun _ hz y hy hy' => ht.notMem ((h.wellFormed hz).marked y hy) hy'⟩

/-- **`filesys_create`.** -/
theorem simulates_create {len : ℤ} {funcType : UInt8} {parentSector : UInt32} (h : Owns v) :
    Ends (filesysCreate len funcType.toNat parentSector.toNat) v.fs (fun r s' => v.fs.refused < s'.refused ∨
      Simulates v (.create len funcType parentSector, .created (r.map (·.sector)))
        ⟨s', r.elim v.inodes fun inode => v.put inode.sector (some inode)⟩) fun _ => True := by
  obtain ⟨root, hroot⟩ := Option.isSome_iff_exists.mp h.rootDir
  have hdev := (h.wellFormed hroot).mapped.device
  refine .bind (ends_allocateOne (W := ∅) (fun s₁ x h1 _ => ?_) fun s₁ hq hr _ => .pure (.inl hr))
  have hfree : v.fs.freeMap[x]? = some false := h1.free x List.mem_cons_self
  refine .bind ((zeros_inodeCreate (h1.taken x List.mem_cons_self) (by rw [h1.size]; exact hdev)
    funcType.toNat_lt parentSector.toNat_lt).mono (fun r s₂ hr => ?_) fun _ h => h)
  rcases r with _ | _
  · -- the sector of the inode is given back
    refine .bind (ends_freeMapRelease fun s₃ hq => .pure ?_)
    rcases hr with hr | ⟨hlong, rfl⟩
    · exact .inl ((h1.refused.trans_lt hr.1).trans_le hq.refused)
    · have h0 : Kept v (fun _ => True) s₂ := h.kept_took h1 fun _ _ _ _ hy => hy
      have hk := h0.release (fun _ hz => h.not_free hz hfree) hq
      refine .inr ⟨h.keep hk, ?_, ?_⟩
      · show StoreStep _ _ (shown ⟨s₃, v.inodes⟩)
        rw [shown_keep hk]
        exact .tooLarge hlong
      · refine (leaked_keep hk fun y => ?_).trans (Set.union_empty _).symm
        have hx : y = x → v.fs.freeMap[y]? ≠ some true := fun he => by simp [he, hfree]
        rw [marks_release (h1.size ▸ h1.lt List.mem_cons_self) hq, took_marks h1, List.mem_singleton]
        tauto
  · rcases hr with hr | ⟨h0, hmax, d, h2, hlen⟩
    · refine .bind (.bind ((keeps_bcacheRead x s₂ (P := Refused v.fs.refused) (h1.refused.trans_lt hr.1)).mono
        (fun _ _ h => .pure (.pure (.inl h))) fun _ _ => trivial))
    · have hto : Took v.fs ([x] ++ owned s₂.blocks d) {x} s₂ := (h1.mono (Set.empty_subset _)).trans h2.took
      obtain ⟨h3, hk⟩ := owns_put_created h hfree hto h2.wellFormed
      refine .bind (ends_inodeOpen h2.wellFormed.sector_lt (.pure (.inr ?_)))
      rw [h2.wellFormed.stored]
      have hnone : v.inodes x = none := by
        by_contra hne
        obtain ⟨i, hi⟩ := Option.ne_none_iff_exists'.mp hne
        exact h.not_free hi hfree List.mem_cons_self
      refine ⟨h3, ?_, (leaked_created hnone hk hto).trans (Set.union_empty _).symm⟩
      show StoreStep _ (_, .created (some x)) (shown ⟨s₂, v.put x (some ⟨x, false, 0, d⟩)⟩)
      rw [shown_put hk, Option.map_some, storedFile, bytesOf_created h2, hlen]
      exact .create h0 hmax (Option.map_eq_none_iff.mpr hnone)

/-- What is left of a call that may be refused. -/
theorem Simulates.of_ends {α : Type} {m : FsCall α} {f : α → (ℕ → Option Inode)} {g : α → Answer}
    {a : VolumeAction} {ans : Answer} (hm : Ends m v.fs (fun r s' => v.fs.refused < s'.refused ∨
      Simulates v (a, g r) ⟨s', f r⟩) fun _ => True) (hv : v.after m f = some v')
    (hans : (outcome m v.fs).1.toOption.map g = some ans) (hr : v'.fs.refused = v.fs.refused) :
    Simulates v (a, ans) v' := by
  obtain ⟨r, ho, hv'⟩ := Volume.outcome_of_after hv
  rw [ho] at hans
  obtain rfl : g r = ans := Option.some.inj hans
  rw [hv']
  exact (hm.of_outcome ho).resolve_left (by omega)

/-- **One step of the volume is one of the store.** -/
theorem Answered.simulates {y : VolumeAction × Answer} (h : Answered v y v') (ho : Owns v) : Simulates v y v' := by
  obtain ⟨a, ans⟩ := y
  obtain ⟨hs, hans, hr, hin⟩ := h
  cases a with
  | create len funcType parentSector =>
    refine Simulates.of_ends ?_ hs hans hr
    refine (simulates_create ho).mono (fun r s' hr => hr.imp id fun hr => ?_) fun _ h => h
    cases r <;> exact hr
  | read sector size offset =>
    obtain ⟨inode, hx, hs⟩ := Option.bind_eq_some_iff.mp hs
    obtain ⟨inode', hx', hans⟩ := Option.bind_eq_some_iff.mp hans
    obtain rfl : inode = inode' := Option.some.inj (hx.symm.trans hx')
    refine Simulates.of_ends ?_ hs hans hr
    refine ends_inodeReadAt (ho.wellFormed hx).mapped (fun _ => (ho.kept hx).2) (fun s' hq => .inr ?_)
      fun s' m _ _ hr => .inl hr
    have hk : Kept v (fun _ => True) s' := ho.kept_took (Took.of_quiet (W := ∅) hq) fun _ _ _ _ hy => hy
    refine ⟨ho.quiet hq, ?_, (leaked_keep hk fun y => by rw [hq.freeMap]).trans (Set.union_empty _).symm⟩
    rw [shown_keep hk, ← length_bytesOf v.fs, ← (holds_bytesOf v.fs inode.data).read_eq]
    exact .read (shown_of_some hx)
  | write sector buffer offset =>
    obtain ⟨inode, hx, hs⟩ := Option.bind_eq_some_iff.mp hs
    obtain ⟨inode', hx', hans⟩ := Option.bind_eq_some_iff.mp hans
    obtain rfl : inode = inode' := Option.some.inj (hx.symm.trans hx')
    obtain ⟨rfl, hlock⟩ := ho.kept hx
    refine Simulates.of_ends ?_ hs hans hr
    refine (stores_writeAt (ho.wellFormed hx) hlock (hin inode hx)).mono (fun r s' hr => hr.imp id fun hr => ?_)
      fun _ h => h
    obtain ⟨⟨xs, hm, hy⟩, hw⟩ := hr
    have hk : Kept v (· ≠ inode.sector) s' := ho.kept_took hm.took fun hne hz y hy hy' =>
      ho.apart hz hx hne y hy (List.mem_cons.mpr hy')
    refine ⟨ho.moved hx hm, ?_, (leaked_moved ho hx ⟨xs, hm, hy⟩).trans (congrArg _ ?_)⟩
    swap
    · refine Set.ext fun y => ⟨fun h => ⟨inode, hx, h⟩, fun h => ?_⟩
      obtain ⟨i, hi, h⟩ := h
      exact Option.some.inj (hx.symm.trans hi) ▸ h
    rw [shown_put hk, Option.map_some, show r.1 = ((storedFile v.fs inode).write buffer offset).1 by rw [hw],
      show storedFile s' r.2 = ((storedFile v.fs inode).write buffer offset).2 by rw [hw]]
    exact .write (shown_of_some hx)
  | reopen x =>
    obtain ⟨inode, hx, hopen⟩ := Option.bind_eq_some_iff.mp hs
    have hwf := ho.wellFormed hx
    obtain rfl : Answer.done = ans := Option.some.inj hans
    refine Volume.after_of_ends (ends_inodeOpen hwf.sector_lt ?_) hopen
    rw [hwf.stored]
    refine ⟨ho.put hx (Quiet.refl v.fs) rfl rfl rfl, ?_, leaked_put ho hx rfl⟩
    show StoreStep _ _ (shown ⟨v.fs, v.put x (some ⟨x, false, 0, inode.data⟩)⟩)
    rw [shown_put (ho.kept_took (Took.refl (W := ∅) v.fs) fun _ _ _ _ hy => hy)]
    exact .reopen (shown_of_some hx)
  | deny x cnt =>
    obtain ⟨inode, hx, rfl⟩ := Option.map_eq_some_iff.mp hs
    obtain rfl : Answer.done = ans := Option.some.inj hans
    refine ⟨ho.put hx (Quiet.refl v.fs) (ho.kept hx).1 (ho.kept hx).2 rfl, ?_,
      leaked_put ho hx rfl⟩
    rw [shown_put (ho.kept_took (Took.refl (W := ∅) v.fs) fun _ _ _ _ hy => hy)]
    exact .deny (shown_of_some hx)
  | remove x =>
    simp only [VolumeStep, volumeNext] at hs
    split_ifs at hs with hsys
    obtain ⟨inode, hx, hrelease⟩ := Option.bind_eq_some_iff.mp hs
    obtain rfl : Answer.done = ans := Option.some.inj hans
    refine Volume.after_of_ends (ends_freeMapRelease fun s' hq => ?_) hrelease
    have h0 : Kept v (· ≠ x) v.fs := ho.kept_took (Took.refl (W := ∅) v.fs) fun _ _ _ _ hy => hy
    have hk := h0.release (fun hne hz hm => ho.apart hz hx hne x hm List.mem_cons_self) hq
    refine ⟨ho.update hk (fun he => absurd he hsys) (fun _ he => by cases he), ?_,
      (leaked_removed ho hx hq hk).trans (congrArg _ ?_)⟩
    swap
    · refine Set.ext fun y => ⟨fun h => ⟨inode, hx, h⟩, fun h => ?_⟩
      obtain ⟨i, hi, h⟩ := h
      exact Option.some.inj (hx.symm.trans hi) ▸ h
    rw [shown_put hk]
    exact .remove (shown_of_some hx) hsys

/-! ### Runs -/

/-- The store of a device that was just formatted. -/
def systemStore (size : ℕ) : Store := fun x =>
  if x = freeMapSector then some ⟨List.replicate (byteCnt size) 0, 0⟩
  else if x = rootDirSector then some ⟨List.replicate rootLength 0, 0⟩ else none

/-- `inode_create` where a sector for the index array is granted. -/
theorem created_inodeCreate {len : ℤ} {funcType parentSector : ℕ} (hs : s.freeMap[x]? = some true)
    (hdev : s.freeMap.length < 2 ^ 32) (hf : funcType < 2 ^ 8) (hp : parentSector < 2 ^ 32)
    (hidx : maxLarge < len → len ≤ maxHuge → ¬IndexRefused s) :
    Ends (inodeCreate x len funcType parentSector) s
      (fun r s' => r = true → ∃ d, Created s x d s' ∧ d.length = len.toNat) fun _ => True := by
  refine (zeros_inodeCreate hs hdev hf hp).mono (fun r s' hr hok => ?_) fun _ h => h
  rcases hr with hr | hr
  · obtain ⟨hgt, hle, hi⟩ := hr.2 hok
    exact absurd hi (hidx hgt hle)
  · rw [if_pos hok] at hr
    exact hr.2.2

/-- The device has a free sector, and every request is granted. -/
theorem not_indexRefused_blank {size junk : ℕ} {blocks : ℕ → SectorData} (h : maxLarge < byteCnt size) :
    ¬IndexRefused (blankFs size junk blocks) := by
  rintro ⟨-, -, -, hn | hn⟩
  · refine freeMapInit_free ?_ hn
    have hgt : 65536 < 4 * ((size + 32 - 1) / 32) := h
    omega
  · cases hn

/-- The two inodes of a device that was just formatted. -/
structure FormattedWith (s : Fs) (size : ℕ) (d d' : InodeDisk) (s₁ s₂ : Fs) : Prop where
  freeMap : Created s freeMapSector d s₁
  rootDir : Created s₁ rootDirSector d' s₂
  kept : ∀ y ∈ owned s₁.blocks d, s₂.blocks y = s₁.blocks y
  length : d.length = byteCnt size
  length' : d'.length = rootLength

theorem created_doFormat {size junk : ℕ} {blocks : ℕ → SectorData} (h2 : 2 ≤ size) (h32 : size < 2 ^ 32) :
    Ends (doFormat size) (blankFs size junk blocks) (fun r s' => ∃ s₁ d d',
      FormattedWith (blankFs size junk blocks) size d d' s₁ s' ∧
        r = (⟨freeMapSector, false, 0, d⟩, ⟨rootDirSector, false, 0, d'⟩)) fun _ => True := by
  obtain ⟨hmap, hroot⟩ := freeMapInit_marked h2
  have hdev : (blankFs size junk blocks).freeMap.length < 2 ^ 32 := by
    show (freeMapInit size).length < _
    rw [length_freeMapInit]
    exact h32
  refine .bind ((created_inodeCreate hmap hdev (by decide) (by decide)
    fun hgt _ => not_indexRefused_blank (Int.ofNat_lt.mp hgt)).mono (fun r s₁ hr => ?_) fun _ h => h)
  rcases r with _ | _
  · exact .throw trivial
  obtain ⟨d, h1, hlen⟩ := hr rfl
  refine .bind ((created_inodeCreate (h1.took.marked hroot) (by rw [h1.took.size]; exact hdev) (by decide) (by decide)
    fun hgt => absurd hgt (by decide)).mono (fun r s₂ hr => ?_) fun _ h => h)
  rcases r with _ | _
  · exact .throw trivial
  obtain ⟨d', h2, hlen'⟩ := hr rfl
  have hother : ∀ y ∈ freeMapSector :: owned s₁.blocks d, y ≠ rootDirSector := by
    rintro y hy rfl
    rcases List.mem_cons.mp hy with hy | hy
    · exact absurd hy (by decide)
    · exact h1.took.notMem hroot hy
  have hwf : WellFormed s₂ freeMapSector d := WellFormed.of_took h1.wellFormed h2.took fun y hy he =>
    hother y hy (Set.mem_singleton_iff.mp he)
  have hkept : ∀ y ∈ owned s₁.blocks d, s₂.blocks y = s₁.blocks y := fun y hy =>
    h2.took.blocks (h1.wellFormed.owned_marked hy) fun he =>
      hother y (List.mem_cons_of_mem _ hy) (Set.mem_singleton_iff.mp he)
  refine .bind (ends_inodeOpen hwf.sector_lt (.bind (ends_inodeOpen h2.wellFormed.sector_lt (.pure ?_))))
  rw [hwf.stored, h2.wellFormed.stored]
  exact ⟨s₁, d, d', ⟨h1, h2, hkept, by rw [hlen, Int.toNat_natCast], by rw [hlen', Int.toNat_natCast]⟩, rfl⟩

theorem FormattedWith.shown {size : ℕ} {d' : InodeDisk} {s₁ s₂ : Fs} (h : FormattedWith s size d d' s₁ s₂) :
    shown ⟨s₂, systemInodes (⟨freeMapSector, false, 0, d⟩, ⟨rootDirSector, false, 0, d'⟩)⟩ = systemStore size := by
  have hmapFile : storedFile s₂ ⟨freeMapSector, false, 0, d⟩ = ⟨List.replicate (byteCnt size) 0, 0⟩ := by
    rw [storedFile, bytesOf_congr h.kept, bytesOf_created h.freeMap, h.length]
  have hrootFile : storedFile s₂ ⟨rootDirSector, false, 0, d'⟩ = ⟨List.replicate rootLength 0, 0⟩ := by
    rw [storedFile, bytesOf_created h.rootDir, h.length']
  funext x
  show (systemInodes (⟨freeMapSector, false, 0, d⟩, ⟨rootDirSector, false, 0, d'⟩) x).map (storedFile s₂) = _
  unfold systemStore systemInodes
  split_ifs
  · exact congrArg some hmapFile
  · exact congrArg some hrootFile
  · rfl

theorem freeMapInit_mem {size y : ℕ} (h : (freeMapInit size)[y]? = some true) :
    y = freeMapSector ∨ y = rootDirSector := by
  by_contra hne
  obtain ⟨h0, h1⟩ := not_or.mp hne
  unfold freeMapInit at h
  rw [List.getElem?_set_ne (Ne.symm h1), List.getElem?_set_ne (Ne.symm h0), List.getElem?_replicate] at h
  split_ifs at h
  cases h

/-- The two inodes of the system have all sectors that `do_format` takes. -/
theorem FormattedWith.leaked {size : ℕ} {d' : InodeDisk} {s₁ s₂ : Fs} (h : FormattedWith s size d d' s₁ s₂)
    (hs : s.freeMap = freeMapInit size) :
    leaked ⟨s₂, systemInodes (⟨freeMapSector, false, 0, d⟩, ⟨rootDirSector, false, 0, d'⟩)⟩ = ∅ := by
  rw [Set.eq_empty_iff_forall_notMem]
  rintro y ⟨hy, hno⟩
  have hmarked := (took_marks h.rootDir.took y).mp hy
  rw [took_marks h.freeMap.took y, hs] at hmarked
  rcases hmarked with (hy | hy) | hy
  · rcases freeMapInit_mem hy with rfl | rfl
    · exact hno ⟨freeMapSector, _, rfl, List.mem_cons_self⟩
    · exact hno ⟨rootDirSector, _, rfl, List.mem_cons_self⟩
  · rw [← owned_congr fun y hy => h.kept y (List.mem_append_left _ hy)] at hy
    exact hno ⟨freeMapSector, _, rfl, List.mem_cons_of_mem _ hy⟩
  · exact hno ⟨rootDirSector, _, rfl, List.mem_cons_of_mem _ hy⟩

/-- What a volume shows first, and that no sector of it is lost. -/
theorem formatted_init (h : VolumeInit v) : shown v = systemStore v.fs.freeMap.length ∧ leaked v = ∅ := by
  obtain ⟨size, junk, blocks, r, s, answers, h2, h32, ho, rfl⟩ := h
  obtain ⟨s₁, d, d', hf, rfl⟩ := (created_doFormat h2 h32).of_outcome ho
  have hsize : s.freeMap.length = size := by
    rw [hf.rootDir.took.size, hf.freeMap.took.size]
    exact length_freeMapInit size
  exact ⟨(hf.shown).trans (congrArg systemStore hsize.symm), hf.leaked rfl⟩

/-- A volume and the sectors that its calls gave up. -/
def LedgerStep (p : Volume × Set ℕ) (x : VolumeAction × Answer) (p' : Volume × Set ℕ) : Prop :=
  Answered p.1 x p'.1 ∧ p'.2 = p.2 ∪ abandons p.1 x.1

theorem ledger_invariant : Invariant (fun p => VolumeInit p.1 ∧ p.2 = ∅) LedgerStep
    fun p => Owns p.1 ∧ leaked p.1 = p.2 where
  start h := ⟨owns_init h.1, (formatted_init h.1).2.trans h.2.symm⟩
  step h hs := by
    have h1 := hs.1.simulates h.1
    exact ⟨h1.owns, by rw [h1.leaked, h.2, hs.2]⟩

/-- **The marked sectors that no file has are the ones that were given up**: by writes that created an inode anew,
and with removed files. No other call loses a sector. -/
theorem reachable_leaked (p : Volume × Set ℕ)
    (h : Reachable (fun p => VolumeInit p.1 ∧ p.2 = ∅) LedgerStep p) : leaked p.1 = p.2 :=
  (h.of_invariant ledger_invariant).2

/-- From any volume whose sectors have one owner each. -/
theorem run_simulates (ho : Owns v) {trace : List (VolumeAction × Answer)} (h : Run Answered v trace v') :
    Owns v' ∧ Run StoreStep (shown v) trace (shown v') := by
  induction h with
  | nil => exact ⟨ho, .nil⟩
  | cons hs _ ih =>
    have h1 := hs.simulates ho
    have h2 := ih h1.owns
    exact ⟨h2.1, .cons h1.step h2.2⟩

/-- The calls that change the bytes of the file at `x`. -/
def Changes (x : ℕ) : VolumeAction → Prop
  | .write sector _ _ => sector = x
  | .remove sector => sector = x
  | _ => False

/-- The file at `x` holds `b`. -/
def Shows (S : Store) (x : ℕ) (b : List UInt8) : Prop := ∃ f, S x = some f ∧ f.bytes = b

theorem StoreStep.of_write {S S' : Store} {buffer : List UInt8} {ans : Answer}
    (h : StoreStep S (.write x buffer offset, ans) S') : ∃ f, S x = some f ∧
      ans = .written (f.write buffer offset).1 ∧ S' = Function.update S x (some (f.write buffer offset).2) := by
  cases h with
  | write h => exact ⟨_, h, rfl, rfl⟩

theorem StoreStep.of_read {S S' : Store} {size : ℕ} {ans : Answer} (h : StoreStep S (.read x size offset, ans) S') :
    ∃ f, S x = some f ∧ ans = .bytes (fileRead f.bytes size offset) ∧ S' = S := by
  cases h with
  | read h => exact ⟨_, h, rfl, rfl⟩

/-- A file keeps its bytes, whatever is done to the others. -/
theorem StoreStep.shows {S S' : Store} {y : VolumeAction × Answer} {b : List UInt8} (h : StoreStep S y S')
    (hy : ¬Changes x y.1) (hx : Shows S x b) : Shows S' x b := by
  obtain ⟨f, hf, hb⟩ := hx
  have hother : ∀ {z o}, z ≠ x → Shows (Function.update S z o) x b := fun hne =>
    ⟨f, by rw [Function.update_of_ne hne.symm, hf], hb⟩
  have hsame : ∀ {z : ℕ} {g : StoredFile} (cnt : ℕ), S z = some g →
      Shows (Function.update S z (some { g with denyWriteCnt := cnt })) x b := by
    intro z g cnt hz
    by_cases hzx : z = x
    · subst hzx
      obtain rfl : f = g := Option.some.inj (hf.symm.trans hz)
      exact ⟨_, Function.update_self .., hb⟩
    · exact hother hzx
  cases h with
  | create _ _ hnew =>
    refine hother ?_
    rintro rfl
    rw [hf] at hnew
    cases hnew
  | tooLarge => exact ⟨f, hf, hb⟩
  | read => exact ⟨f, hf, hb⟩
  | write => exact hother hy
  | reopen h => exact hsame 0 h
  | deny h => exact hsame _ h
  | remove => exact hother hy

/-- A write that is not cut short. -/
theorem StoredFile.read_write {f : StoredFile} {buffer : List UInt8}
    (h : (f.write buffer offset).1 = buffer.length) :
    fileRead (f.write buffer offset).2.bytes buffer.length offset = buffer := by
  have hnil : 0 = buffer.length → fileRead f.bytes buffer.length offset = buffer := by
    intro h0
    rw [List.eq_nil_of_length_eq_zero h0.symm]
    exact List.take_zero
  unfold StoredFile.write at h ⊢
  split_ifs at h ⊢ with hdeny h31 hmax
  · exact hnil h
  · rcases buffer.length.eq_zero_or_pos with h0 | hpos
    · rw [List.eq_nil_of_length_eq_zero h0]
      exact List.take_zero
    · exact read_overwrite (by omega)
  · exact hnil h
  · exact Lib.ListFile.read_write _ _ _ _

instance (v : Volume) : (a : VolumeAction) → Decidable (WithinArray v a)
  | .write sector _ _ => inferInstanceAs (Decidable (∀ inode ∈ v.inodes sector, _ → _ → _ → _))
  | .create .. | .read .. | .reopen .. | .deny .. | .remove .. => isTrue trivial

/-- The next volume, where the call returns with the answer and without a refused request. -/
def answeredNext (v : Volume) (x : VolumeAction × Answer) : Option Volume :=
  (volumeNext v x.1).filter fun v' =>
    volumeAnswer v x.1 = some x.2 ∧ v'.fs.refused = v.fs.refused ∧ WithinArray v x.1

theorem answered_of_next {y : VolumeAction × Answer} (h : answeredNext v y = some v') : Answered v y v' := by
  obtain ⟨h1, h2⟩ := Option.filter_eq_some_iff.mp h
  obtain ⟨h3, h4, h5⟩ := of_decide_eq_true h2
  exact ⟨h1, h3, h4, h5⟩

theorem run_of_foldlM : ∀ {v v' : Volume} (trace : List (VolumeAction × Answer)),
    trace.foldlM answeredNext v = some v' → Run Answered v trace v'
  | _, _, [], h => by
    cases h
    exact .nil
  | _, _, y :: trace, h => by
    rw [List.foldlM_cons] at h
    obtain ⟨v₁, h1, h2⟩ := Option.bind_eq_some_iff.mp h
    exact .cons (answered_of_next h1) (run_of_foldlM trace h2)

/-- A file is created and written to; its byte is read, and the zeros before it. -/
def oneByte : List (VolumeAction × Answer) :=
  [(createEmpty, .created (some 4)), (.write 4 [7] 2, .written 1), (.read 4 9 0, .bytes [0, 0, 7])]

/-- The calls that are made are charged with what they gave up. -/
theorem reachable_ledger (h : VolumeInit v) {trace : List (VolumeAction × Answer)} (hr : Run Answered v trace v') :
    ∃ L, Reachable (fun p => VolumeInit p.1 ∧ p.2 = ∅) LedgerStep (v', L) := by
  have hfrom : ∀ {L : Set ℕ}, Reachable (fun p => VolumeInit p.1 ∧ p.2 = ∅) LedgerStep (v, L) →
      ∃ L', Reachable (fun p => VolumeInit p.1 ∧ p.2 = ∅) LedgerStep (v', L') := by
    clear h
    induction hr with
    | nil => exact fun h => ⟨_, h⟩
    | cons hs _ ih => exact fun h => ih (h.step ⟨hs, rfl⟩)
  exact hfrom (.start ⟨h, rfl⟩)

/-- With the file, the two sectors of its bytes are lost. -/
theorem reachable_leaked_removed : ∃ p : Volume × Set ℕ,
    Reachable (fun p => VolumeInit p.1 ∧ p.2 = ∅) LedgerStep p ∧ leaked p.1 = p.2 ∧ {5, 6} ⊆ p.2 := by
  have hrun : ((formatted.bind fun v => oneByte.foldlM answeredNext v).bind fun v =>
      (answeredNext v (.remove 4, .done)).bind fun _ =>
        (v.inodes 4).map fun inode => owned v.fs.blocks inode.data) = some [5, 6] := by
    decide +kernel
  obtain ⟨v', hrun, hlost⟩ := Option.bind_eq_some_iff.mp hrun
  obtain ⟨v'', hremove, hlost⟩ := Option.bind_eq_some_iff.mp hlost
  obtain ⟨inode, hinode, hlost⟩ := Option.map_eq_some_iff.mp hlost
  obtain ⟨v, hv, hrun⟩ := Option.bind_eq_some_iff.mp hrun
  obtain ⟨L, hL⟩ := reachable_ledger (init_of_formatted hv) (run_of_foldlM oneByte hrun)
  have hp : Reachable (fun p => VolumeInit p.1 ∧ p.2 = ∅) LedgerStep (v'', L ∪ abandons v' (.remove 4)) :=
    hL.step ⟨answered_of_next hremove, rfl⟩
  refine ⟨_, hp, reachable_leaked _ hp, fun y hy => .inr ⟨inode, hinode, ?_⟩⟩
  rw [hlost]
  simpa using hy

end Pintos.Filesys.VolumeStore
