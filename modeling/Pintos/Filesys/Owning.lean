import Pintos.Filesys.Volumes

/-! # Every sector has one owner

The invariant of the runs of a volume, and what each call keeps of it. -/

namespace Pintos.Filesys.Owning

open Pintos.Filesys.FreeMap Pintos.Filesys.Sector Pintos.Filesys.Allocation Pintos.Filesys.InodeLayout
open Pintos.Filesys.InodeIo Pintos.Filesys.InodeCreate Pintos.Filesys.InodeExpand
open Pintos.Filesys.InodeReadWrite Pintos.Filesys.InodeGrow Pintos.Filesys.InodeGrowHuge
open Pintos.Filesys.Granting Pintos.Filesys.InodeMoves Pintos.Filesys.Volumes
open Pintos.Filesys.FreeMapFile (rootLength)
open Pintos.Kernel.Bitmap Pintos.Kernel.BitmapWords Pintos.Lib.Runs Pintos.Lib.Stopping
open Pintos.Filesys.Bcache (SectorData blockSectorSize)

variable {v v' : Volume} {s s' : Fs} {d : InodeDisk} {inode inode' : Inode} {xs : List ℕ} {W : Set ℕ}
  {sector offset x y : ℕ}

/-- **The invariant**: the live inodes are well-formed, and their sectors apart. -/
structure Owns (v : Volume) : Prop where
  kept : ∀ {x inode}, v.inodes x = some inode → inode.sector = x ∧ inode.lockHeld = false
  wellFormed : ∀ {x inode}, v.inodes x = some inode → WellFormed v.fs x inode.data
  apart : ∀ {x x' inode inode'}, v.inodes x = some inode → v.inodes x' = some inode' → x ≠ x' →
    ∀ y ∈ x :: owned v.fs.blocks inode.data, y ∉ x' :: owned v.fs.blocks inode'.data
  freeMap : (v.inodes freeMapSector).isSome
  rootDir : (v.inodes rootDirSector).isSome

theorem Owns.ownership (h : Owns v) : SectorOwnership v where
  resolves hx k hk := by
    have hwf := h.wellFormed hx
    exact ⟨_, resolves_sectorOf hwf.mapped k, hwf.mapped.sectorOf_lt hk,
      hwf.owned_marked (sectorOf_mem_owned _ hk)⟩
  once := by
    intro x x' inode inode' hx hx' k hk k' hk' y hy hy'
    have hwf := h.wellFormed hx
    have hwf' := h.wellFormed hx'
    have h1 : y = sectorOf v.fs.blocks inode.data k := hy.unique (resolves_sectorOf hwf.mapped k) hk
    have h2 : y = sectorOf v.fs.blocks inode'.data k' := hy'.unique (resolves_sectorOf hwf'.mapped k') hk'
    have hxx : x = x' := by
      by_contra hne
      refine h.apart hx hx' hne y (List.mem_cons_of_mem _ ?_) (List.mem_cons_of_mem _ ?_)
      · exact h1 ▸ sectorOf_mem_owned _ hk
      · exact h2 ▸ sectorOf_mem_owned _ hk'
    subst hxx
    obtain rfl : inode = inode' := Option.some.inj (hx.symm.trans hx')
    exact ⟨rfl, hwf.mapped.sectorOf_injective hk hk' (h1.symm.trans h2)⟩
  apart hx hx' hne y hy := by
    have hno := h.apart hx hx' hne y (List.mem_cons_of_mem _ hy)
    exact ⟨fun he => hno (he ▸ List.mem_cons_self), fun hm => hno (List.mem_cons_of_mem _ hm)⟩
  system := by
    intro x inode hx y hy
    have hsys : ∀ z, (v.inodes z).isSome → y ≠ z := by
      rintro z hz rfl
      obtain ⟨inode', hz⟩ := Option.isSome_iff_exists.mp hz
      by_cases hxy : x = y
      · subst hxy
        exact (h.wellFormed hx).apart hy
      · exact h.apart hx hz hxy y (List.mem_cons_of_mem _ hy) List.mem_cons_self
    exact ⟨hsys _ h.freeMap, hsys _ h.rootDir⟩

/-- The sectors of the live inodes in `P` are as they were. -/
structure Kept (v : Volume) (P : ℕ → Prop) (s' : Fs) : Prop where
  blocks : ∀ {x inode}, P x → v.inodes x = some inode → ∀ y ∈ x :: owned v.fs.blocks inode.data,
    s'.blocks y = v.fs.blocks y
  marked : ∀ {x inode}, P x → v.inodes x = some inode → ∀ y ∈ x :: owned v.fs.blocks inode.data,
    s'.freeMap[y]? = some true
  size : s'.freeMap.length = v.fs.freeMap.length

variable {P : ℕ → Prop}

theorem Kept.owned_eq (h : Kept v P s') (hP : P x) (hx : v.inodes x = some inode) :
    owned s'.blocks inode.data = owned v.fs.blocks inode.data :=
  owned_congr fun _ hy => h.blocks hP hx _ (List.mem_cons_of_mem _ (List.mem_append_left _ hy))

/-- What is taken and written elsewhere leaves the live inodes as they are. -/
theorem Owns.kept_took (h : Owns v) (ht : Took v.fs xs W s') (hW : ∀ {x inode}, P x → v.inodes x = some inode →
    ∀ y ∈ x :: owned v.fs.blocks inode.data, y ∉ W) : Kept v P s' where
  blocks hP hx y hy := ht.blocks ((h.wellFormed hx).marked y hy) (hW hP hx y hy)
  marked _ hx y hy := ht.marked ((h.wellFormed hx).marked y hy)
  size := ht.size

/-- **The rule of the invariant**: a call that deals with the inode at `x` keeps the sectors of the others, and
leaves none there or one that is well-formed and apart from them. -/
theorem Owns.update {o : Option Inode} (h : Owns v) (hk : Kept v (· ≠ x) s')
    (hsys : x = freeMapSector ∨ x = rootDirSector → o.isSome)
    (ho : ∀ inode', o = some inode' → inode'.sector = x ∧ inode'.lockHeld = false ∧ WellFormed s' x inode'.data ∧
      ∀ {z inode}, z ≠ x → v.inodes z = some inode → ∀ y ∈ z :: owned v.fs.blocks inode.data,
        y ∉ x :: owned s'.blocks inode'.data) : Owns ⟨s', v.put x o⟩ := by
  have hcases : ∀ {z i}, v.put x o z = some i → z = x ∧ o = some i ∨ z ≠ x ∧ v.inodes z = some i := by
    intro z i hz
    unfold Volume.put at hz
    by_cases hzx : z = x
    · rw [hzx, Function.update_self] at hz
      exact .inl ⟨hzx, hz⟩
    · rw [Function.update_of_ne hzx] at hz
      exact .inr ⟨hzx, hz⟩
  have hsome : ∀ z, (v.inodes z).isSome → (z = x → o.isSome) → (v.put x o z).isSome := by
    intro z hz hzo
    unfold Volume.put
    by_cases hzx : z = x
    · rw [hzx, Function.update_self]
      exact hzo hzx
    · rw [Function.update_of_ne hzx]
      exact hz
  refine ⟨fun hz => ?_, fun hz => ?_, fun hz hz' hne y hy => ?_,
    hsome _ h.freeMap fun he => hsys (.inl he.symm), hsome _ h.rootDir fun he => hsys (.inr he.symm)⟩
  · rcases hcases hz with ⟨rfl, h1⟩ | ⟨-, h1⟩
    · exact ⟨(ho _ h1).1, (ho _ h1).2.1⟩
    · exact h.kept h1
  · rcases hcases hz with ⟨rfl, h1⟩ | ⟨hzx, h1⟩
    · exact (ho _ h1).2.2.1
    · exact WellFormed.frame (h.wellFormed h1) (hk.blocks hzx h1) (hk.marked hzx h1) hk.size
  · rcases hcases hz with ⟨rfl, h1⟩ | ⟨hzx, h1⟩ <;> rcases hcases hz' with ⟨rfl, h2⟩ | ⟨hzx', h2⟩
    · exact absurd rfl hne
    · rw [hk.owned_eq hzx' h2]
      exact fun hy' => (ho _ h1).2.2.2 hzx' h2 y hy' hy
    · rw [hk.owned_eq hzx h1] at hy
      exact (ho _ h2).2.2.2 hzx h1 y hy
    · rw [hk.owned_eq hzx h1] at hy
      rw [hk.owned_eq hzx' h2]
      exact h.apart h1 h2 hne y hy

/-- Sectors that no live inode has may change. -/
theorem Owns.keep (h : Owns v) (hk : Kept v (fun _ => True) s') : Owns ⟨s', v.inodes⟩ where
  kept := h.kept
  wellFormed hx := WellFormed.frame (h.wellFormed hx) (hk.blocks trivial hx) (hk.marked trivial hx) hk.size
  apart hx hx' hne y hy := by
    rw [hk.owned_eq trivial hx] at hy
    rw [hk.owned_eq trivial hx']
    exact h.apart hx hx' hne y hy
  freeMap := h.freeMap
  rootDir := h.rootDir

/-- A call that makes requests only. -/
theorem Owns.quiet (h : Owns v) (hq : Quiet v.fs s') : Owns ⟨s', v.inodes⟩ :=
  h.keep (h.kept_took (Took.of_quiet hq) fun _ _ _ _ hy => hy)

/-- An inode whose data is not touched. -/
theorem Owns.put (h : Owns v) (hx : v.inodes x = some inode) (hq : Quiet v.fs s') (hsame : inode'.sector = x)
    (hlock : inode'.lockHeld = false) (hdata : inode'.data = inode.data) : Owns ⟨s', v.put x (some inode')⟩ := by
  refine h.update (h.kept_took (Took.of_quiet (W := ∅) hq) fun _ _ _ _ hy => hy) (fun _ => rfl) ?_
  rintro _ ⟨⟩
  rw [hdata, hq.blocks]
  exact ⟨hsame, hlock, (h.wellFormed hx).of_quiet hq, fun hne hz y hy => h.apart hz hx hne y hy⟩

/-- **Reads** make requests only. -/
theorem Owns.read {size : ℕ} (h : Owns v) (hx : v.inodes x = some inode) :
    Ends (inodeReadAt inode size offset) v.fs (fun _ s' => Owns ⟨s', v.inodes⟩) fun _ => True :=
  ends_inodeReadAt (h.wellFormed hx).mapped (fun _ => (h.kept hx).2) (fun _ hq => h.quiet hq)
    fun _ _ hq _ _ => h.quiet hq

/-! ### Writing -/

/-- **A write keeps the invariant**, where it moves the inode. -/
theorem Owns.moved (h : Owns v) (hx : v.inodes x = some inode) (hm : Moved v.fs inode inode' xs s') :
    Owns ⟨s', v.put x (some inode')⟩ := by
  obtain ⟨rfl, hlock⟩ := h.kept hx
  have hW : ∀ {z i}, z ≠ inode.sector → v.inodes z = some i → ∀ y ∈ z :: owned v.fs.blocks i.data,
      y ∉ ownSet v.fs inode.sector inode.data := fun hne hz y hy hw =>
    h.apart hz hx hne y hy (List.mem_cons.mpr hw)
  refine h.update (h.kept_took hm.took hW) (fun _ => rfl) ?_
  rintro _ ⟨⟩
  refine ⟨by rw [hm.same], by rw [hm.same]; exact hlock, hm.wellFormed, fun {z i} hne hz y hy hy' => ?_⟩
  rcases List.mem_cons.mp hy' with rfl | hy'
  · exact hW hne hz _ hy (.inl rfl)
  rcases hm.into y hy' with hold | hnew
  · exact hW hne hz y hy (.inr hold)
  · exact hm.took.notMem ((h.wellFormed hz).marked y hy) hnew

/-- **What `inode_write_at` does to the sectors of an inode.** -/
theorem moves_writeAt {buffer : List UInt8} (hwf : WellFormed s inode.sector inode.data)
    (hlock : inode.lockHeld = false)
    (hs : inode.denyWriteCnt = 0 → inode.data.length < offset + buffer.length → offset + buffer.length < 2 ^ 31 →
      GrowthSound s inode (offset + buffer.length)) :
    Ends (inodeWriteAt32 inode buffer offset) s (fun r s' => ∃ xs, Moved s inode r.2 xs s') fun _ => True := by
  have hsame : ∃ xs, Moved s inode inode xs s := ⟨[], .of_quiet hwf (Quiet.refl s)⟩
  have hinside : ∀ (f : ℕ → ℕ × Inode), (∀ n, (f n).2 = inode) → Ends (do
      let written ← writeLoop inode.data buffer.length buffer offset
      return f written : FsCall (ℕ × Inode)) s (fun r s' => ∃ xs, Moved s inode r.2 xs s') fun _ => True := by
    intro f hf
    refine .bind ((moves_write (.of_quiet hwf (Quiet.refl s)) buffer).mono (fun n s' h => .pure ?_) fun _ h => h)
    rw [hf]
    exact ⟨[], h⟩
  refine .ite (fun h31 => .ite (fun _ => .pure hsame) fun hdeny => .ite (fun hgrow => .bind ?_) fun _ => ?_)
    fun _ => .ite (fun _ => .pure hsame) fun _ => ?_
  · unfold lockAcquire
    rw [hlock, if_neg (by decide)]
    refine .pure (.bind ?_)
    have hs' := (hs (by omega) hgrow h31).locked (b := true)
    rw [Nat.add_comm] at hgrow hs' h31
    have hexpand := @moves_expand s { inode with lockHeld := true } _ hwf hgrow h31 hs'
    refine hexpand.mono (fun r s₁ hr => ?_) fun _ h => h
    obtain ⟨xs, hm⟩ := hr
    refine .ite (fun _ => .bind ?_) fun _ => .pure ⟨xs, Moved.released hlock hm⟩
    exact (moves_write hm buffer).mono (fun n s₂ h => .pure ⟨xs, Moved.released hlock h⟩) fun _ h => h
  · exact hinside (fun n => (n, inode)) fun _ => rfl
  · exact hinside (fun n => (n, inode)) fun _ => rfl

/-! ### Creating and removing -/

theorem ends_inodeOpen {Q : Inode → Fs → Prop} {E : Fs → Prop} (hx : x < s.freeMap.length)
    (h : Q ⟨x, false, 0, .ofSector (s.blocks x)⟩ s) : Ends (inodeOpen x) s Q E :=
  .bind (ends_bcacheRead hx (.pure h))

/-- `free_map_release` of one sector. -/
theorem ends_freeMapRelease {Q : Unit → Fs → Prop}
    (h : ∀ s', Quiet { s with freeMap := s.freeMap.set x false } s' → Q () s') :
    Ends (freeMapRelease x 1) s Q fun _ => True := by
  refine .bind (.get (.ite (fun _ => .bind (.set (.bind (ends_request ?_)))) fun _ => .throw trivial))
  exact .pure (h _ (quiet_requested _))

/-- A sector that no inode has is given back. -/
theorem Kept.release (hk : Kept v P s)
    (hno : ∀ {z i}, P z → v.inodes z = some i → x ∉ z :: owned v.fs.blocks i.data)
    (hq : Quiet { s with freeMap := s.freeMap.set x false } s') : Kept v P s' where
  blocks hP hz y hy := by rw [hq.blocks]; exact hk.blocks hP hz y hy
  marked hP hz y hy := by
    have hne : x ≠ y := fun he => hno hP hz (he ▸ hy)
    rw [hq.freeMap]
    show (s.freeMap.set x false)[y]? = _
    rw [List.getElem?_set_ne hne]
    exact hk.marked hP hz y hy
  size := by
    rw [hq.freeMap]
    exact (List.length_set).trans hk.size

/-- `inode_create` in a sector that is marked, where the sector of an index array is not refused. -/
theorem ends_inodeCreate {len : ℤ} {funcType parentSector : ℕ} (hs : s.freeMap[x]? = some true)
    (hdev : s.freeMap.length < 2 ^ 32) (hf : funcType < 2 ^ 8) (hp : parentSector < 2 ^ 32)
    (hidx : maxLarge < len → len ≤ maxHuge → ¬IndexRefused s) :
    Ends (inodeCreate x len funcType parentSector) s (fun r s' =>
      if r then ∃ d, Created s x d s' else ∃ xs, Took s xs ∅ s') fun _ => True := by
  unfold inodeCreate
  refine .ite (fun _ => .throw trivial) fun h0 => .ite (fun h1 => ?_) fun h1 => .ite (fun h2 => ?_) fun h2 =>
    .ite (fun h3 => ?_) fun _ => .pure ⟨[], Took.refl s⟩
  · have h1' : len ≤ 32768 := h1
    exact ends_inodeCreateSmall hs hdev (by show len.toNat ≤ 32768; omega) hf hp
      (fun _ _ hc _ => ⟨_, hc⟩) fun _ xs ht _ => ⟨xs, ht⟩
  · have h2' : len ≤ 65536 := h2
    exact ends_inodeCreateLarge hs hdev (by show len.toNat ≤ 65536; omega) hf hp
      (fun _ _ hc _ => ⟨_, hc⟩) fun _ xs ht _ => ⟨xs, ht⟩
  · have h2' : ¬len ≤ 65536 := h2
    have h3' : len ≤ 8388608 := h3
    refine ends_inodeCreateHuge hs hdev (by omega) (by show len.toNat ≤ 8388608; omega) hf hp
      (fun _ _ hc _ => ⟨_, hc⟩) (fun _ xs ht _ => ⟨xs, ht⟩) fun _ _ _ hr => absurd hr (hidx ?_ h3)
    show (65536 : ℤ) < len
    omega

/-- A sector that was free is none of a live inode. -/
theorem Owns.not_free (h : Owns v) {z : ℕ} {i : Inode} (hz : v.inodes z = some i)
    (hx : v.fs.freeMap[x]? = some false) : x ∉ z :: owned v.fs.blocks i.data := fun hm => by
  have := (h.wellFormed hz).marked x hm
  rw [hx] at this
  cases this

/-- **`filesys_create` keeps the invariant.** -/
theorem Owns.created {len : ℤ} {funcType : UInt8} {parentSector : UInt32} (h : Owns v)
    (hs : Sound v (.create len funcType parentSector)) :
    Ends (filesysCreate len funcType.toNat parentSector.toNat) v.fs (fun r s' =>
      Owns ⟨s', r.elim v.inodes fun inode => v.put inode.sector (some inode)⟩) fun _ => True := by
  obtain ⟨root, hroot⟩ := Option.isSome_iff_exists.mp h.rootDir
  have hdev := (h.wellFormed hroot).mapped.device
  have halloc : Ends (freeMapAllocate 1) v.fs
      (fun r s' => r.elim (Quiet v.fs s') fun x => Took v.fs [x] ∅ s') fun _ => True :=
    ends_allocateOne (fun _ _ ht _ => ht) fun _ hq _ _ => hq
  refine .bind ((halloc.and asks_allocateOne).mono (fun r s₁ hr => ?_) fun _ h => h.1)
  rcases r with _ | x
  · exact .pure (h.quiet hr.1)
  obtain ⟨h1, hasks⟩ := hr
  obtain ⟨hpos, ha, hc⟩ := hasks rfl
  have hfree : v.fs.freeMap[x]? = some false := h1.free x List.mem_cons_self
  have hidx : maxLarge < len → len ≤ maxHuge → ¬IndexRefused s₁ := by
    rintro hgt hle ⟨a1, a2, a3, a4⟩
    rw [hc.answers, hc.asked] at a1 a2 a3
    refine hs hgt hle hpos ⟨fun j hj => ?_, ?_⟩
    · obtain rfl | rfl | rfl | rfl : j = 0 ∨ j = 1 ∨ j = 2 ∨ j = 3 := by omega
      · exact ha
      · exact a1
      · exact a2
      · exact a3
    · rcases a4 with hn | hn
      · have hcount : freeCount s₁ = 0 := count_of_bitmapScan hn
        exact .inl (hc.free.symm.trans (by rw [hcount]))
      · rw [hc.answers, hc.asked] at hn
        exact .inr hn
  refine .bind ((ends_inodeCreate (h1.taken x List.mem_cons_self) (by rw [h1.size]; exact hdev)
    funcType.toNat_lt parentSector.toNat_lt hidx).mono (fun r s₂ hr => ?_) fun _ h => h)
  rcases r with _ | _
  · -- the sector of the inode is given back
    obtain ⟨xs, h2⟩ := hr
    have hk : Kept v (fun _ => True) s₂ := h.kept_took (h1.trans h2) fun _ _ _ _ hy => hy
    refine .bind (ends_freeMapRelease fun s₃ hq => .pure ?_)
    exact h.keep (hk.release (fun _ hz => h.not_free hz hfree) hq)
  · obtain ⟨d, h2⟩ := hr
    have hto : Took v.fs ([x] ++ owned s₂.blocks d) {x} s₂ := (h1.mono (Set.empty_subset _)).trans h2.took
    refine .bind (ends_inodeOpen h2.wellFormed.sector_lt (.pure ?_))
    rw [h2.wellFormed.stored]
    refine h.update (h.kept_took hto fun _ hz y hy he => h.not_free hz hfree (he ▸ hy)) (fun _ => rfl) ?_
    rintro _ ⟨⟩
    refine ⟨rfl, rfl, h2.wellFormed, fun {z i} _ hz y hy hy' => ?_⟩
    exact hto.notMem ((h.wellFormed hz).marked y hy) hy'

/-- The last close of a removed inode keeps the invariant. -/
theorem Owns.removed (h : Owns v) (hx : v.inodes x = some inode)
    (hsys : ¬(x = freeMapSector ∨ x = rootDirSector)) :
    Ends (freeMapRelease x 1) v.fs (fun _ s' => Owns ⟨s', v.put x none⟩) fun _ => True := by
  refine ends_freeMapRelease fun s' hq => ?_
  have hk : Kept v (· ≠ x) v.fs := h.kept_took (Took.refl (W := ∅) v.fs) fun _ _ _ _ hy => hy
  refine h.update (hk.release (fun hne hz hm => ?_) hq) (fun he => absurd he hsys) fun _ he => by cases he
  exact h.apart hz hx hne x hm List.mem_cons_self

/-- An inode that is opened anew is what it was. -/
theorem Owns.reopened (h : Owns v) (hx : v.inodes x = some inode) :
    Ends (inodeOpen x) v.fs (fun inode' s' => Owns ⟨s', v.put x (some inode')⟩) fun _ => True := by
  have hwf := h.wellFormed hx
  refine ends_inodeOpen hwf.sector_lt ?_
  rw [hwf.stored]
  exact h.put hx (Quiet.refl v.fs) rfl rfl rfl

/-! ### Formatting -/

theorem freeMapInit_marked {size : ℕ} (h : 2 ≤ size) : (freeMapInit size)[freeMapSector]? = some true ∧
    (freeMapInit size)[rootDirSector]? = some true := by
  unfold freeMapInit freeMapSector rootDirSector
  constructor
  · rw [List.getElem?_set_ne (by decide), List.getElem?_set_self (by rw [List.length_replicate]; omega)]
  · rw [List.getElem?_set_self (by rw [List.length_set, List.length_replicate]; omega)]

theorem freeMapInit_free {size : ℕ} (h : 2 < size) : bitmapScan (freeMapInit size) 0 1 false ≠ none := by
  refine bitmapScan_of_count (List.count_pos_iff.mpr (List.mem_of_getElem? (i := 2) ?_))
  unfold freeMapInit freeMapSector rootDirSector
  rw [List.getElem?_set_ne (by decide), List.getElem?_set_ne (by decide), List.getElem?_replicate, if_pos h]

theorem length_freeMapInit (size : ℕ) : (freeMapInit size).length = size := by
  unfold freeMapInit
  rw [List.length_set, List.length_set, List.length_replicate]

/-- The two inodes of the system. -/
theorem owns_system {d d' : InodeDisk} (h : WellFormed s freeMapSector d) (h' : WellFormed s rootDirSector d')
    (hap : ∀ y ∈ freeMapSector :: owned s.blocks d, y ∉ rootDirSector :: owned s.blocks d') :
    Owns ⟨s, systemInodes (⟨freeMapSector, false, 0, d⟩, ⟨rootDirSector, false, 0, d'⟩)⟩ := by
  have hcases : ∀ {x inode}, systemInodes (⟨freeMapSector, false, 0, d⟩, ⟨rootDirSector, false, 0, d'⟩) x =
      some inode → x = freeMapSector ∧ inode = ⟨freeMapSector, false, 0, d⟩ ∨
        x = rootDirSector ∧ inode = ⟨rootDirSector, false, 0, d'⟩ := by
    intro x inode hx
    unfold systemInodes at hx
    split_ifs at hx with h0 h1
    · exact .inl ⟨h0, (Option.some.inj hx).symm⟩
    · exact .inr ⟨h1, (Option.some.inj hx).symm⟩
  refine ⟨fun hx => ?_, fun hx => ?_, fun hx hx' hne => ?_, rfl, rfl⟩
  · rcases hcases hx with ⟨rfl, rfl⟩ | ⟨rfl, rfl⟩ <;> exact ⟨rfl, rfl⟩
  · rcases hcases hx with ⟨rfl, rfl⟩ | ⟨rfl, rfl⟩
    · exact h
    · exact h'
  · rcases hcases hx with ⟨rfl, rfl⟩ | ⟨rfl, rfl⟩ <;> rcases hcases hx' with ⟨rfl, rfl⟩ | ⟨rfl, rfl⟩
    · exact absurd rfl hne
    · exact hap
    · exact fun y hy hy' => hap y hy' hy
    · exact absurd rfl hne

/-- A device that was just formatted. -/
theorem owns_doFormat {size junk : ℕ} {blocks : ℕ → SectorData} (h2 : 2 ≤ size) (h32 : size < 2 ^ 32) :
    Ends (doFormat size) (blankFs size junk blocks) (fun r s' => Owns ⟨s', systemInodes r⟩) fun _ => True := by
  obtain ⟨hmap, hroot⟩ := freeMapInit_marked h2
  have hdev : (blankFs size junk blocks).freeMap.length < 2 ^ 32 := by
    show (freeMapInit size).length < _
    rw [length_freeMapInit]
    exact h32
  have hidx : (maxLarge : ℤ) < byteCnt size → (byteCnt size : ℤ) ≤ maxHuge →
      ¬IndexRefused (blankFs size junk blocks) := by
    rintro hgt - ⟨-, -, -, hn | hn⟩
    · refine freeMapInit_free ?_ hn
      have hgt' : 65536 < 4 * ((size + 32 - 1) / 32) := Int.ofNat_lt.mp hgt
      omega
    · cases hn
  refine .bind ((ends_inodeCreate hmap hdev (by decide) (by decide) hidx).mono (fun r s₁ hr => ?_) fun _ h => h)
  rcases r with _ | _
  · exact .throw trivial
  obtain ⟨d, h1⟩ := hr
  refine .bind ((ends_inodeCreate (h1.took.marked hroot) (by rw [h1.took.size]; exact hdev) (by decide) (by decide)
    fun hgt => absurd hgt (by decide)).mono (fun r s₂ hr => ?_) fun _ h => h)
  rcases r with _ | _
  · exact .throw trivial
  obtain ⟨d', h2⟩ := hr
  have hone : rootDirSector ∉ owned s₁.blocks d := h1.took.notMem hroot
  have hother : ∀ y ∈ freeMapSector :: owned s₁.blocks d, y ≠ rootDirSector := by
    rintro y hy rfl
    rcases List.mem_cons.mp hy with hy | hy
    · exact absurd hy (by decide)
    · exact hone hy
  have hwf : WellFormed s₂ freeMapSector d := WellFormed.of_took h1.wellFormed h2.took fun y hy he =>
    hother y hy (Set.mem_singleton_iff.mp he)
  have hown : owned s₂.blocks d = owned s₁.blocks d := owned_congr fun y hy =>
    have hy := List.mem_append_left _ hy
    h2.took.blocks (h1.wellFormed.owned_marked hy) fun he =>
      hother y (List.mem_cons_of_mem _ hy) (Set.mem_singleton_iff.mp he)
  refine .bind (ends_inodeOpen hwf.sector_lt (.bind (ends_inodeOpen h2.wellFormed.sector_lt (.pure ?_))))
  rw [hwf.stored, h2.wellFormed.stored]
  refine owns_system hwf h2.wellFormed fun y hy => ?_
  rw [hown] at hy
  refine List.not_mem_cons_of_ne_of_not_mem (hother y hy) ?_
  exact h2.took.notMem (h1.wellFormed.marked y hy)

/-! ### Runs -/

theorem Owns.answered (h : Owns v) (answers : ℕ → Bool) : Owns ⟨{ v.fs with answers := answers }, v.inodes⟩ where
  kept := h.kept
  wellFormed hx := WellFormed.frame (h.wellFormed hx) (fun _ _ => rfl) ((h.wellFormed hx).marked) rfl
  apart := h.apart
  freeMap := h.freeMap
  rootDir := h.rootDir

theorem owns_init (h : VolumeInit v) : Owns v := by
  obtain ⟨size, junk, blocks, r, s, answers, h2, h32, ho, rfl⟩ := h
  exact ((owns_doFormat h2 h32).of_outcome ho).answered answers

/-- **One step.** -/
theorem Owns.step {a : VolumeAction} (h : Owns v) (hok : Sound v a) (hs : VolumeStep v a v') : Owns v' := by
  cases a with
  | create len funcType parentSector =>
    refine Volume.after_of_ends ((h.created hok).mono (fun r s' hr => ?_) fun _ h => h) hs
    cases r <;> exact hr
  | read sector size offset =>
    obtain ⟨inode, hx, hs⟩ := Option.bind_eq_some_iff.mp hs
    exact Volume.after_of_ends (h.read hx) hs
  | write sector buffer offset =>
    obtain ⟨inode, hx, hs⟩ := Option.bind_eq_some_iff.mp hs
    obtain ⟨rfl, hlock⟩ := h.kept hx
    refine Volume.after_of_ends ((moves_writeAt (h.wellFormed hx) hlock (hok inode hx)).mono (fun r s' hr => ?_)
      fun _ h => h) hs
    obtain ⟨xs, hm⟩ := hr
    exact h.moved hx hm
  | reopen sector =>
    obtain ⟨inode, hx, hs⟩ := Option.bind_eq_some_iff.mp hs
    exact Volume.after_of_ends (h.reopened hx) hs
  | deny sector cnt =>
    obtain ⟨inode, hx, rfl⟩ := Option.map_eq_some_iff.mp hs
    exact h.put hx (Quiet.refl v.fs) (h.kept hx).1 (h.kept hx).2 rfl
  | remove sector =>
    simp only [VolumeStep, volumeNext] at hs
    split_ifs at hs with hsys
    obtain ⟨inode, hx, hs⟩ := Option.bind_eq_some_iff.mp hs
    exact Volume.after_of_ends (h.removed hx hsys) hs

theorem owns_invariant : Invariant VolumeInit (Guarded Sound VolumeStep) Owns where
  start := owns_init
  step := fun h ⟨hok, hs⟩ => h.step hok hs

/-- **In every run whose steps are sound, every sector has one owner.** -/
theorem reachable_ownership (v : Volume) (h : Reachable VolumeInit (Guarded Sound VolumeStep) v) :
    SectorOwnership v :=
  (h.of_invariant owns_invariant).ownership

/-! ### A device of seven sectors -/

def formatted : Option Volume :=
  match outcome (doFormat 7) (blankFs 7 0 fun _ => zeros) with
  | (.ok r, s) => some ⟨s, systemInodes r⟩
  | (.error _, _) => none

theorem init_of_formatted (h : formatted = some v) : VolumeInit v := by
  unfold formatted at h
  rcases ho : outcome (doFormat 7) (blankFs 7 0 fun _ => zeros) with ⟨_ | r, s⟩ <;> rw [ho] at h <;> cases h
  exact ⟨7, 0, _, r, s, s.answers, by decide, by decide, ho, rfl⟩

/-- An empty file. -/
def createEmpty : VolumeAction := .create 0 1 1

/-- Its first byte, which makes it a large one. -/
def writeFirst : VolumeAction := .write 4 [1] 0

/-- Where `byte_to_sector` finds a position of the inode at `x`. -/
def sectorAt (v : Volume) (x pos : ℕ) : Option ℕ := do
  let inode ← v.inodes x
  if pos < inode.data.length then (outcome (byteToSector inode.data pos) (granting v.fs)).1.toOption else none

/-- The file has its first sector. -/
theorem reachable_ownership_first : ∃ v, (formatted.bind fun v => [createEmpty, writeFirst].foldlM volumeNext v) =
    some v ∧ sectorAt v 4 0 = some 6 ∧ SectorOwnership v := by
  have hrun : (formatted.bind fun v => (volumeNext v createEmpty).bind fun v₁ => (volumeNext v₁ writeFirst).map
      fun v₂ => ((v₁.inodes 4).map (·.data.sizeType), sectorAt v₂ 4 0)) = some (some inodeTypeSmall, some 6) := by
    decide +kernel
  obtain ⟨v, hv, hrun⟩ := Option.bind_eq_some_iff.mp hrun
  obtain ⟨v₁, h1, hrun⟩ := Option.bind_eq_some_iff.mp hrun
  obtain ⟨v₂, h2, hrun⟩ := Option.map_eq_some_iff.mp hrun
  obtain ⟨htype, hat⟩ := Prod.mk.inj hrun
  obtain ⟨inode, hx, ht⟩ := Option.map_eq_some_iff.mp htype
  refine ⟨v₂, ?_, hat, reachable_ownership v₂ (.step (.step (.start (init_of_formatted hv)) ⟨?_, h1⟩) ⟨?_, h2⟩)⟩
  · rw [hv]
    show (volumeNext v createEmpty).bind (fun v => (volumeNext v writeFirst).bind some) = _
    rw [h1]
    show (volumeNext v₁ writeFirst).bind some = _
    rw [h2]
    rfl
  · exact fun hgt => absurd hgt (by decide)
  · intro inode' hx' _ _ _
    obtain rfl : inode = inode' := Option.some.inj (hx.symm.trans hx')
    refine ⟨⟨fun hl => ?_, fun hh => ?_⟩, fun _ hgt => absurd hgt (by decide)⟩
    · exact absurd (ht.symm.trans hl) small_ne_large
    · exact absurd (ht.symm.trans hh) small_ne_huge

/-- The device is full when the file grows by a sector: its length is the new one, and the index that was to be
written still holds the end marker. -/
theorem not_ownership : ¬∀ v, Reachable VolumeInit VolumeStep v → SectorOwnership v := by
  intro hall
  have hrun : (formatted.bind fun v => ([createEmpty, writeFirst, .write 4 [1] 512].foldlM volumeNext v).map
      fun v => ((v.inodes 4).map (·.data.length), v.fs.freeMap.length, sectorAt v 4 512)) =
        some (some 513, 7, some sectorInvalid) := by
    decide +kernel
  obtain ⟨v, hv, hrun⟩ := Option.bind_eq_some_iff.mp hrun
  obtain ⟨v', hrun, hend⟩ := Option.map_eq_some_iff.mp hrun
  simp only [Prod.mk.injEq] at hend
  obtain ⟨hlen, hsize, hat⟩ := hend
  obtain ⟨inode, hx, hlen⟩ := Option.map_eq_some_iff.mp hlen
  have hown := hall v' (.of_foldlM (fun h => h) _ (.start (init_of_formatted hv)) hrun)
  have hcount : 1 < sectorCount inode.data := by
    rw [sectorCount, hlen]
    decide
  obtain ⟨y, hy, hlt, -⟩ := hown.resolves hx 1 hcount
  have hpos : 512 < inode.data.length := by omega
  have hends := hy 512 hpos (by decide)
  have hfound : (if 512 < inode.data.length then
      (outcome (byteToSector inode.data 512) (granting v'.fs)).1.toOption else none) = some sectorInvalid := by
    rw [sectorAt, hx] at hat
    exact hat
  rw [if_pos hpos] at hfound
  unfold Ends at hends
  rcases ho : outcome (byteToSector inode.data 512) (granting v'.fs) with ⟨_ | found, s'⟩ <;>
    rw [ho] at hends hfound
  · exact hends
  · obtain rfl : found = sectorInvalid := Option.some.inj hfound
    rw [← hends, hsize] at hlt
    exact absurd hlt (by decide)

end Pintos.Filesys.Owning
