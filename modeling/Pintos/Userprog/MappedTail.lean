import Pintos.Userprog.MappedPages

/-! # The bytes behind the end of a mapped file

The last page of a mapping goes on behind the end of the file. Until the process stores to a byte there, it is zero,
and the file never gets it. -/

namespace Pintos.Userprog.MappedTail

open Pintos.Lib Pintos.Lib.Ops Pintos.Lib.Runs Pintos.Vm.State Pintos.Vm.Swap Pintos.Vm.Vpage Pintos.Vm.Effect
open Pintos.Vm.Invariant Pintos.Vm.Run Pintos.Vm.Preserve Pintos.Vm.Content Pintos.Vm.Totality Pintos.Vm.Permission
open Pintos.Userprog.Mmap Pintos.Userprog.MmapInvariant Pintos.Userprog.MmapRelease Pintos.Userprog.MmapAtomic
open Pintos.Userprog.StackGrowth Pintos.Userprog.MappedAccess Pintos.Userprog.MappedPages Pintos.Kernel.Bitmap

variable {vm vm' : VM} {m m' : Maps} {st : List Key} {p : Pid} {envs : ℕ → Env} {me : MmapEntry} {u l : ℕ}
  {j : Fin pgSize} {i : InfoLazy} {bytes bytes' : List (Key × ℕ)}

/-! ### Runs -/

/-- A run with the bytes that were stored to since their pages were registered. -/
structure ByteTraced where
  traced : Traced
  bytes : List (Key × ℕ)

/-- The byte that a step stores to. -/
def byteStored : MapAction → List (Key × ℕ)
  | .vm (.store p u j _) => [(⟨p, u⟩, j)]
  | _ => []

/-- **The transition relation**, with the record of bytes. -/
def ByteStep (y : ByteTraced) (a : MapAction) (y' : ByteTraced) : Prop :=
  MapStep y.traced a y'.traced ∧
    y'.bytes = (byteStored a ++ y.bytes).filter fun b => (y'.traced.maps.vm.find b.1).isSome

def ByteInit (y : ByteTraced) : Prop := MapInit y.traced ∧ y.bytes = []

/-! ### Zeros behind the end -/

/-- The byte `j` of the page `l` of the mapping is behind the end of the file, and was not stored to. -/
def Behind (bytes : List (Key × ℕ)) (p : Pid) (me : MmapEntry) (l : ℕ) (j : Fin pgSize) : Prop :=
  me.length ≤ l * pgSize + j ∧ ((⟨p, pageAt me.uaddr l⟩, (j : ℕ)) : Key × ℕ) ∉ bytes

theorem readPage_eq_zero {page : Page} (h : (i.length : ℕ) ≤ j) : readPage vm i page j = 0 := by
  unfold readPage
  cases i.file with
  | none => exact if_pos (Nat.zero_le _)
  | some file => exact if_pos h

theorem lazyPage_eq_zero (h : (i.length : ℕ) ≤ j) : lazyPage vm i j = 0 := by
  unfold lazyPage
  cases i.file with
  | none => rfl
  | some file => exact if_neg (Nat.not_lt.mpr h)

/-- **Behind the end of its file, a mapping shows zeros** where nothing was stored, and nothing is read there. -/
def tails (bytes : List (Key × ℕ)) : Shapes where
  shape p me l :=
    { lazy := fun i => ∀ j, Behind bytes p me l j → (i.length : ℕ) ≤ j
      page := fun page => ∀ j, Behind bytes p me l j → page j = 0
      read := fun h _ j hj => readPage_eq_zero (h j hj)
      unread := fun h j hj => lazyPage_eq_zero (h j hj) }
  dirty _ _ _ := rfl
  fresh p me l j hj := by
    have hlen : min (me.length - l * pgSize) pgSize ≤ j := by
      obtain ⟨h, -⟩ := hj
      omega
    exact hlen

theorem Behind.mono (h : Behind bytes' p me l j) (hsub : ((⟨p, pageAt me.uaddr l⟩, (j : ℕ)) : Key × ℕ) ∈ bytes →
    ((⟨p, pageAt me.uaddr l⟩, (j : ℕ)) : Key × ℕ) ∈ bytes') : Behind bytes p me l j :=
  ⟨h.1, fun hmem => h.2 (hsub hmem)⟩

/-- More bytes that were stored to, for the pages of the mappings. -/
theorem tails_mono (h : Holds m (tails bytes)) (hsub : ∀ p, ∀ me ∈ m.entries p, ∀ l < me.pageCnt, ∀ j : Fin pgSize,
    ((⟨p, pageAt me.uaddr l⟩, (j : ℕ)) : Key × ℕ) ∈ bytes →
      ((⟨p, pageAt me.uaddr l⟩, (j : ℕ)) : Key × ℕ) ∈ bytes') : Holds m (tails bytes') := by
  intro p me hme l hl
  obtain ⟨⟨page, hpage, hzero⟩, hlazy⟩ := h p me hme l hl
  exact ⟨⟨page, hpage, fun j hj => hzero j (hj.mono (hsub p me hme l hl j))⟩,
    fun i hi j hj => hlazy i hi j (hj.mono (hsub p me hme l hl j))⟩

/-- What is not registered need not be recorded. -/
theorem tails_filter (h : Holds m (tails bytes)) (hinv : MapInv m st) :
    Holds m (tails (bytes.filter fun b => (m.vm.find b.1).isSome)) := by
  refine tails_mono h fun p me hme l hl j hmem => List.mem_filter.mpr ⟨hmem, ?_⟩
  obtain ⟨b, hb, -⟩ := hinv.pages hme _ (mem_pagesOf.mpr ⟨l, hl, rfl⟩)
  obtain ⟨v, hv, -⟩ := Option.map_eq_some_iff.mp hb
  rw [hv]
  rfl

/-- **One step**: what it stores to is recorded. -/
theorem mapAct_tails {a : MapAction} (h : MapInv m st) (hvm : ∀ b, a = .vm b → Other m b ∧ Allowed m.vm b)
    (ht : Holds m (tails bytes)) : Ensures (mapAct a) m fun _ m' => Holds m' (tails (byteStored a ++ bytes)) := by
  refine mapAct_holds h hvm (fun p me hme l hl j byte page ha hzero => ?_)
    (tails_mono ht fun _ _ _ _ _ _ hmem => List.mem_append_right _ hmem)
  subst ha
  intro j' hj'
  have hne : j' ≠ j := by
    rintro rfl
    exact hj'.2 (List.mem_append_left _ List.mem_cons_self)
  rw [Function.update_of_ne hne]
  exact hzero j' hj'

/-! ### What holds in every run -/

/-- **The invariant of all runs**, with the record of bytes. -/
theorem byteInv_invariant : Invariant ByteInit ByteStep fun y =>
    MapInv y.traced.maps y.traced.stored ∧ Holds y.traced.maps (tails y.bytes) := by
  constructor
  · rintro y ⟨hinit, -⟩
    refine ⟨mapInv_init hinit, fun p me hme => ?_⟩
    rw [hinit.2.1] at hme
    cases hme
  · rintro y a y' ⟨hinv, ht⟩ ⟨hstep, hbytes⟩
    have hinv' : MapInv y'.traced.maps y'.traced.stored := mapInv_step hinv hstep
    have ht' := mapAct_tails hinv hstep.1 ht _ _ hstep.2.1
    exact ⟨hinv', hbytes ▸ tails_filter ht' hinv'⟩

/-- A byte that was not stored to is loaded as zero. -/
theorem userLoad_behind (h : Owned vm) (ht : PageAs vm ⟨p, pageAt me.uaddr l⟩ ((tails bytes).shape p me l))
    (hj : Behind bytes p me l j) : Ensures (userLoad p (pageAt me.uaddr l) j) vm fun byte _ => byte = 0 := by
  refine .bind (.get (.bind (.deref fun d hd => .bind (.deref fun e he => .pure ?_))))
  obtain ⟨page, hpage, hzero⟩ := ht.shows
  rw [contentAt_of_pte h hd he, Option.some_inj] at hpage
  rw [hpage]
  exact hzero j hj

/-- The write-back makes no file longer that is at least as long as the mapping. -/
theorem writeBack_length (h : Sound m.vm) (hlen : me.length ≤ (m.vm.files me.file).length) :
    Ensures (writeBack p envs me) m fun _ m' => (m'.vm.files me.file).length = (m.vm.files me.file).length := by
  refine .bind (.get (.ite (fun _ => .zoom ?_) fun _ => .pure rfl))
  refine (Ensures.forM (I := fun s => Sound s ∧ (s.files me.file).length = (m.vm.files me.file).length) _
    ⟨h, rfl⟩ fun i _ s hs => ?_).mono fun _ _ h => h.2
  refine .bind ((readUser_same hs.1).mono fun page s' hr => .modify ⟨?_, ?_⟩)
  · exact (keeps_files (.refl hr.1.sound) (length_le_update (le_max_left _ _))).sound
  · show (Function.update s'.files me.file (writePage (s'.files me.file) page i me.length) me.file).length = _
    rw [Function.update_self, hr.1.files, ← hs.2]
    rw [← hs.2] at hlen
    exact max_eq_left ((min_le_right _ _).trans hlen)

/-- **The end of a mapping** writes nothing behind its length. -/
theorem mmapEntryRelease_behind (h : MapInv m st) (hme : me ∈ m.entries p) :
    Ensures (mmapEntryRelease p envs me) m fun _ m' =>
      (m'.vm.files me.file).length = (m.vm.files me.file).length ∧
        ∀ n, me.length ≤ n → fileByte m'.vm me n = fileByte m.vm me n := by
  have hlen : Ensures (mmapEntryRelease p envs me) m fun _ m' =>
      (m'.vm.files me.file).length = (m.vm.files me.file).length := by
    refine .bind (.zoom ((checkPages_ensures me.pageCnt 0).mono fun _ vm hvm => .bind ?_))
    obtain rfl := hvm
    refine ((writeBack_length h.sound (h.sized hme).2).and (writeBack_keeps h.sound)).mono fun _ m₁ h₁ => ?_
    refine .bind (.zoom ((releasePages_left h₁.2.1.sound).mono fun _ vm' hl => .modify ?_))
    show (vm'.files me.file).length = _
    rw [hl.files]
    exact h₁.1
  refine (hlen.and (mmapEntryRelease_result h hme)).mono fun _ m' hr => ⟨hr.1, fun n hn => ?_⟩
  have hres := hr.2
  unfold Result at hres
  split at hres
  · exact hres.2.2 n hn
  · rw [fileByte, fileByte, hres]

/-! ### All bytes of a mapping -/

/-- **Which bytes of a mapping are usable**, in every state that a run reaches. A load of any byte goes through; a
store does exactly if `mmap_entry_get_by_addr` finds the mapping for its address, or the page is writable already.
Behind the end of the file, a byte that was not stored to is loaded as zero, and the end of the mapping writes
nothing. -/
theorem mappedBytes_usable {y : ByteTraced} (h : Reachable ByteInit ByteStep y)
    (hme : me ∈ y.traced.maps.entries p) :
    (∀ (fs : Faults) (uaddr : ℕ) (write : Bool) (left : ℕ), uaddr / pgSize ∈ pagesOf me →
      Ready p (uaddr / pgSize) (fs.env 0) y.traced.maps.vm →
      (nearStack fs.esp uaddr = true → uaddr / pgSize < stackTop →
        StackFits y.traced.maps.vm p (fs.stack 0) (uaddr / pgSize)) →
      Yields (access p fs uaddr write (left + 2) 0) y.traced.maps fun r m' =>
        (r = .cont ↔ (write = true →
          Finds me uaddr ∨ perm y.traced.maps.vm ⟨p, uaddr / pgSize⟩ = some true)) ∧
        (r = .cont → reaches m'.vm p (uaddr / pgSize) write = true)) ∧
    (∀ l < me.pageCnt, ∀ j : Fin pgSize, me.length ≤ l * pgSize + j →
      ((⟨p, pageAt me.uaddr l⟩, (j : ℕ)) : Key × ℕ) ∉ y.bytes →
      Ensures (userLoad p (pageAt me.uaddr l) j) y.traced.maps.vm fun byte _ => byte = 0) ∧
    ∀ envs, Ensures (mmapEntryRelease p envs me) y.traced.maps fun _ m' =>
      (m'.vm.files me.file).length = (y.traced.maps.vm.files me.file).length ∧
        ∀ n, me.length ≤ n → fileByte m'.vm me n = fileByte y.traced.maps.vm me n := by
  obtain ⟨hinv, ht⟩ := h.of_invariant byteInv_invariant
  refine ⟨fun fs uaddr write left hu hr hfit => access_iff hinv hme hu hr hfit left, fun l hl j hj hno => ?_,
    fun envs => mmapEntryRelease_behind hinv hme⟩
  exact userLoad_behind hinv.sound.owned (ht p me hme l hl) ⟨hj, hno⟩

/-! ### A file of 52 bytes -/

/-- A step that computes. -/
def byteNext (y : ByteTraced) (a : MapAction) : Option ByteTraced :=
  (mapNext y.traced a).map fun x => ⟨x, (byteStored a ++ y.bytes).filter fun b => (x.maps.vm.find b.1).isSome⟩

theorem byteStep_of_next {y y' : ByteTraced} {a : MapAction} (h : byteNext y a = some y') : ByteStep y a y' := by
  obtain ⟨x, hx, rfl⟩ := Option.map_eq_some_iff.mp h
  exact ⟨mapStep_of_next hx, rfl⟩

/-- The file is mapped at the page 16, and nothing was touched. -/
def mapped52 : Option ByteTraced := mapFile.foldlM byteNext ⟨booted 52, []⟩

/-- The mapping, and its page. -/
def entry52 : MmapEntry := ⟨1, 0, 16, 52, 1, false⟩

def page52 : VpageInfo := ⟨16, false, 1, .lazy ⟨some 0, 0, ⟨52, by decide⟩⟩⟩

/-- What every fault finds; the stack pointer is at the top of the stack. -/
def plentyFaults : Faults := ⟨fun _ => MmapRelease.plenty, fun _ _ => MmapRelease.plenty, 0xbffffff0⟩

theorem mapped52_eq : mapped52.map (fun y => (y.traced.maps.entries 1, y.traced.maps.vm.map,
    y.traced.maps.vm.pagedir 1, y.traced.maps.vm.userPool)) =
      some ([entry52], [page52], some 0, [false, false, false]) := by
  decide +kernel

/-- The state of that run. -/
theorem exists_mapped52 : ∃ y, mapped52 = some y ∧ Reachable ByteInit ByteStep y ∧
    entry52 ∈ y.traced.maps.entries 1 ∧ Ready 1 ((16 * pgSize + 60) / pgSize) (plentyFaults.env 0)
      y.traced.maps.vm := by
  obtain ⟨y, hy, hstate⟩ := Option.map_eq_some_iff.mp mapped52_eq
  obtain ⟨hentries, hstate⟩ := Prod.mk.inj hstate
  obtain ⟨hmap, hstate⟩ := Prod.mk.inj hstate
  obtain ⟨hdir, hpool⟩ := Prod.mk.inj hstate
  refine ⟨y, hy, .of_foldlM byteStep_of_next _ (.start ⟨mapInit_booted 52, rfl⟩) hy, ?_, ?_⟩
  · rw [hentries]
    exact List.mem_cons_self
  · refine ⟨by decide, by rw [hdir]; rfl, fun v hv i hb => ?_, rfl, fun v _ _ => .inl ?_⟩
    · rw [hmap] at hv
      obtain rfl := List.mem_singleton.mp hv
      cases hb
    · show ((bitmapScanAndFlip y.traced.maps.vm.userPool 0 1 false).map (·.1)).isSome = true
      rw [hpool]
      decide

/-- The byte 60 can be loaded, it is zero when it was, and the end of the mapping leaves the file as long as it is. -/
theorem mappedBytes_usable_page52 : ∃ y, Reachable ByteInit ByteStep y ∧
    Yields (access 1 plentyFaults (16 * pgSize + 60) false 2 0) y.traced.maps (fun r _ => r = .cont) ∧
    Ensures (userLoad 1 16 ⟨60, by decide⟩) y.traced.maps.vm (fun byte _ => byte = 0) ∧
    Ensures (mmapEntryRelease 1 (fun _ => MmapRelease.plenty) entry52) y.traced.maps fun _ m' =>
      (m'.vm.files 0).length = (y.traced.maps.vm.files 0).length := by
  obtain ⟨y, hy, hreach, hme, hready⟩ := exists_mapped52
  obtain ⟨haccess, hzero, hend⟩ := mappedBytes_usable hreach hme
  have hbytes : mapped52.map (·.bytes) = some [] := by decide +kernel
  rw [hy, Option.map_some, Option.some_inj] at hbytes
  have hnear : nearStack 0xbffffff0 (16 * pgSize + 60) = false := by decide
  refine ⟨y, hreach, ?_, hzero 0 (by decide) ⟨60, by decide⟩ (by decide) (by rw [hbytes]; simp),
    (hend _).mono fun _ _ h => h.1⟩
  refine (haccess plentyFaults (16 * pgSize + 60) false 0 (by decide) hready fun h => ?_).mono fun r m' hr =>
    hr.1.mpr fun h => by cases h
  exact absurd (hnear.symm.trans h) (by decide)

/-- The first store to the byte 60 kills the process. -/
theorem not_usable_page52 : ¬∀ (y : ByteTraced) (p : Pid) (me : MmapEntry) (fs : Faults) (uaddr : ℕ) (write : Bool),
    Reachable ByteInit ByteStep y → me ∈ y.traced.maps.entries p → uaddr / pgSize ∈ pagesOf me →
      Ready p (uaddr / pgSize) (fs.env 0) y.traced.maps.vm →
      (nearStack fs.esp uaddr = true → uaddr / pgSize < stackTop →
        StackFits y.traced.maps.vm p (fs.stack 0) (uaddr / pgSize)) →
      Yields (access p fs uaddr write 2 0) y.traced.maps fun r _ => r = .cont := by
  intro hall
  obtain ⟨y, hy, hreach, hme, hready⟩ := exists_mapped52
  have hnear : nearStack 0xbffffff0 (16 * pgSize + 60) = false := by decide
  obtain ⟨r, m', hr, rfl⟩ := hall y 1 entry52 plentyFaults (16 * pgSize + 60) true hreach hme (by decide) hready
    fun h => absurd (hnear.symm.trans h) (by decide)
  have hkill : mapped52.bind (fun y => (access 1 plentyFaults (16 * pgSize + 60) true 2 0 y.traced.maps).map (·.1)) =
      some .kill := by
    decide +kernel
  rw [hy, Option.bind_some, hr] at hkill
  cases hkill

end Pintos.Userprog.MappedTail
