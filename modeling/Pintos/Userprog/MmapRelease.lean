import Pintos.Userprog.MmapInvariant

/-! # What the end of a mapping writes

`mmap_entry_release` writes the whole mapping back as soon as one page of it was stored to. Pages that were only
loaded are written with it, as they were when they came in; a page that was never touched makes the kernel
fault while it holds the buffer cache entry. -/

namespace Pintos.Userprog.MmapRelease

open Pintos.Lib Pintos.Lib.Ops Pintos.Lib.Runs Pintos.Vm.State Pintos.Vm.Swap Pintos.Vm.Vpage
open Pintos.Vm.Effect Pintos.Vm.Invariant Pintos.Vm.Run Pintos.Vm.Preserve Pintos.Vm.Content Pintos.Vm.Totality
open Pintos.Vm.Permission Pintos.Userprog.Mmap Pintos.Userprog.MmapInvariant

/-- The page that shows the byte `k` of the mapped file. -/
def pageKey (p : Pid) (me : MmapEntry) (k : ℕ) : Key := ⟨p, pageAt me.uaddr (k / pgSize)⟩

theorem mod_pgSize_lt (k : ℕ) : k % pgSize < pgSize := Nat.mod_lt k (by decide)

/-- The mapped memory at the byte `k` of the file. -/
def mappedByte (vm : VM) (p : Pid) (me : MmapEntry) (k : ℕ) : Option UInt8 :=
  (contentAt vm (pageKey p me k)).map fun page => page ⟨k % pgSize, mod_pgSize_lt k⟩

def fileByte (vm : VM) (me : MmapEntry) (k : ℕ) : UInt8 := (vm.files me.file).bytes k

/-- **Only what was changed is written**: the pages that were not stored to are left as they are in the file,
those that were stored to are as in memory, up to the mapped length. -/
structure WroteBack (x : Traced) (p : Pid) (me : MmapEntry) (m' : Maps) : Prop where
  kept : ∀ k, k / pgSize < me.pageCnt → pageKey p me k ∉ x.stored →
    fileByte m'.vm me k = fileByte x.maps.vm me k
  changed : ∀ k < me.length, pageKey p me k ∈ x.stored →
    some (fileByte m'.vm me k) = mappedByte x.maps.vm p me k

/-- A dirty mapping shows the current bytes of the file on the pages that were not stored to; if the file may
not be written, then on the others. -/
def Agrees (x : Traced) (p : Pid) (me : MmapEntry) : Prop :=
  me.dirty = true → ∀ k < me.length, (x.maps.denied me.file = true ↔ pageKey p me k ∈ x.stored) →
    mappedByte x.maps.vm p me k = some (fileByte x.maps.vm me k)

/-- If the mapping is written, all of its pages were touched. -/
def Touched (x : Traced) (p : Pid) (me : MmapEntry) : Prop :=
  me.dirty = true → x.maps.denied me.file = false → ∀ i < me.pageCnt,
    ¬LazyAt x.maps.vm ⟨p, pageAt me.uaddr i⟩

variable {vm vm' vm₀ : VM} {m m' : Maps} {st : List Key} {p : Pid} {env : Env} {envs : ℕ → Env} {me : MmapEntry}
  {u k : ℕ} {key : Key}

/-! ### Reading a page -/

theorem pagedir_pagedIn (hin : PagedIn p env vm u vm') : vm'.pagedir = vm.pagedir :=
  pagedir_outcome (a := .fault p env u) (.pagedIn hin) id

/-- A page that came in is in memory. -/
theorem inmem_pagedIn (h : Owned vm) (hin : PagedIn p env vm u vm') :
    ∃ v i, vm'.find ⟨p, u⟩ = some v ∧ v.backend = .inmem i := by
  have henter : ∀ {s v f d}, Table.Keyed VpageInfo.key s.map → v ∈ s.map → v.key = ⟨p, u⟩ →
      (enter s v f d env.now).find ⟨p, u⟩ = some (v.withBackend (.inmem ⟨f, d, env.now⟩)) := by
    intro s v f d hs hv hk
    rw [enter, find_replace (w := v.withBackend (.inmem ⟨f, d, env.now⟩)) hs hv rfl, if_pos hk.symm]
  have hentered : ∀ {s s' v f}, Table.Keyed VpageInfo.key s.map → v ∈ s.map → v.key = ⟨p, u⟩ →
      Entered p env s v f s' → ∃ v i, s'.find ⟨p, u⟩ = some v ∧ v.backend = .inmem i := by
    intro s s' v f hs hv hk hin
    cases hin with
    | @mapped d => exact ⟨_, ⟨f, d, env.now⟩, henter hs hv hk, rfl⟩
    | @unmapped d => exact ⟨_, ⟨f, d, env.now⟩, henter hs hv hk, rfl⟩
  cases hin with
  | @lazy v i f s₁ _ hv hb hgot hin =>
    have hmem := got_mem_map hgot h.keyed (Table.mem_of_find hv) (by simp [hb])
    exact hentered (s := fillFrame s₁ f (readPage s₁ i (s₁.mem f))) (owned_got h hgot).keyed hmem
      (Table.key_of_find hv) hin
  | @swapped v i f s₁ _ hv hb hgot hin =>
    have hmem := got_mem_map hgot h.keyed (Table.mem_of_find hv) (by simp [hb])
    exact hentered (s := fillFrame (setSlot s₁ i.swapIndex false) f (slotPage s₁.swapBlock i.swapIndex))
      (owned_got h hgot).keyed hmem (Table.key_of_find hv) hin

/-- What reading a page leaves as it is. -/
structure Same (vm vm' : VM) : Prop where
  sound : Sound vm'
  content : ∀ k, contentAt vm' k = contentAt vm k
  perm : ∀ k, perm vm' k = perm vm k
  untouched : ∀ k, LazyAt vm' k ↔ LazyAt vm k
  files : vm'.files = vm.files
  pagedir : vm'.pagedir = vm.pagedir

theorem Same.refl (h : Sound vm) : Same vm vm :=
  ⟨h, fun _ => rfl, fun _ => rfl, fun _ => .rfl, rfl, rfl⟩

theorem same_pagedIn {v : VpageInfo} {i : InfoSwap} (h : Sound vm) (hs : Sound vm')
    (hv : vm.find ⟨p, u⟩ = some v) (hb : v.backend = .swapped i) (hin : PagedIn p env vm u vm') :
    Same vm vm' where
  sound := hs
  content k := by
    refine contentAt_pagedIn h.owned (fun w j hw hj => ?_) hin
    obtain rfl : v = w := Option.some.inj (hv.symm.trans hw)
    rw [hb] at hj
    cases hj
  perm k := perm_pagedIn h.owned hin
  untouched k := by
    refine (lazyAt_pagedIn h.owned hin).trans (and_iff_left_of_imp ?_)
    rintro ⟨w, j, hw, hj⟩ rfl
    obtain rfl : v = w := Option.some.inj (hv.symm.trans hw)
    rw [hb] at hj
    cases hj
  files := files_pagedIn hin
  pagedir := pagedir_pagedIn hin

/-- **Reading a page** returns its content and changes no content; a page that was not touched is not read. -/
theorem readUser_same (h : Sound vm) : Ensures (readUser p env u) vm fun page vm' =>
    Same vm vm' ∧ contentAt vm ⟨p, u⟩ = some page ∧ ¬LazyAt vm ⟨p, u⟩ := by
  refine .bind (.get (.bind (.deref fun d hd => ?_)))
  split
  · rename_i e he
    refine .pure ⟨.refl h, contentAt_of_pte h.owned hd he, ?_⟩
    obtain ⟨v, i, hv, hb, -⟩ := find_of_pte h.owned hd he
    rintro ⟨w, j, hw, hj⟩
    obtain rfl : v = w := Option.some.inj (hv.symm.trans hw)
    rw [hb] at hj
    cases hj
  · rename_i hnone
    refine .bind (.deref fun v hv => ?_)
    split
    · rename_i i hb
      have hnot : ¬LazyAt vm ⟨p, u⟩ := by
        rintro ⟨w, j, hw, hj⟩
        obtain rfl : v = w := Option.some.inj (hv.symm.trans hw)
        rw [hb] at hj
        cases hj
      refine .bind ((handleUserFault_keeps h).mono fun r vm' hr => .bind (.get (.bind (.deref fun e he => .pure ?_))))
      obtain ⟨hk, ⟨rfl, rfl⟩ | ⟨rfl, hin⟩⟩ := hr
      · rw [hnone] at he
        cases he
      · have hsame := same_pagedIn h hk.sound hv hb hin
        have hd' : vm'.pagedir p = some d := hsame.pagedir ▸ hd
        exact ⟨hsame, hsame.content _ ▸ contentAt_of_pte hk.sound.owned hd' he, hnot⟩
    · exact .halt

/-! ### Writing back -/

/-- A page that was touched does not depend on the files. -/
theorem contentAt_files {files : FileId → FileData} (hno : ¬LazyAt vm key) :
    contentAt { vm with files := files } key = contentAt vm key := by
  refine contentAt_congr rfl fun v hv => ?_
  cases hb : v.backend with
  | lazy i => exact absurd ⟨v, i, hv, hb⟩ hno
  | inmem i => rw [content_inmem hb, content_inmem hb]
  | swapped i => rw [content_swapped hb, content_swapped hb]

/-- Virtual memory after the first `i` pages of the mapping were written. -/
structure Written (vm₀ : VM) (p : Pid) (me : MmapEntry) (i : ℕ) (vm : VM) : Prop where
  sound : Sound vm
  content : ∀ j < me.pageCnt, contentAt vm ⟨p, pageAt me.uaddr j⟩ = contentAt vm₀ ⟨p, pageAt me.uaddr j⟩
  touched : ∀ j < me.pageCnt, ¬LazyAt vm ⟨p, pageAt me.uaddr j⟩
  written : ∀ k < min (i * pgSize) me.length, some (fileByte vm me k) = mappedByte vm₀ p me k
  kept : ∀ k, min (i * pgSize) me.length ≤ k → fileByte vm me k = fileByte vm₀ me k

/-- The file after one page of the mapping was written. -/
theorem fileByte_writePage {page : Page} {i : ℕ} :
    fileByte { vm with files := Function.update vm.files me.file (writePage (vm.files me.file) page i me.length) }
      me k = if i * pgSize ≤ k ∧ k < min ((i + 1) * pgSize) me.length then
        page ⟨k % pgSize, mod_pgSize_lt k⟩ else fileByte vm me k := by
  have hself : Function.update vm.files me.file (writePage (vm.files me.file) page i me.length) me.file =
      writePage (vm.files me.file) page i me.length := Function.update_self ..
  exact congrArg (fun f : FileData => f.bytes k) hself

/-- A byte of the page `i`. -/
theorem div_of_page {i : ℕ} (h1 : i * pgSize ≤ k) (h2 : k < (i + 1) * pgSize) : k / pgSize = i := by
  unfold pgSize at *
  omega

/-- **The write-back** writes what the mapping shows, up to its length. -/
theorem fileWriteMapped_written (h : Sound vm) (ht : ∀ j < me.pageCnt, ¬LazyAt vm ⟨p, pageAt me.uaddr j⟩) :
    Ensures (fileWriteMapped p envs me) vm fun _ vm' => Written vm p me me.pageCnt vm' := by
  refine .forM_range (I := Written vm p me) ⟨h, fun _ _ => rfl, ht, by simp, fun _ _ => rfl⟩ ?_
  intro i hi s hs
  refine .bind ((readUser_same hs.sound).mono fun page s' hr => .modify ?_)
  obtain ⟨hsame, hpage, -⟩ := hr
  have ht' : ∀ j < me.pageCnt, ¬LazyAt s' ⟨p, pageAt me.uaddr j⟩ := fun j hj hl =>
    hs.touched j hj ((hsame.untouched _).mp hl)
  have hold : ∀ k, fileByte s' me k = fileByte s me k := fun k => by
    rw [fileByte, fileByte, hsame.files]
  refine ⟨(keeps_files (.refl hsame.sound) (length_le_update (le_max_left _ _))).sound, fun j hj => ?_,
    fun j hj => ?_, fun k hk => ?_, fun k hk => ?_⟩
  · rw [contentAt_files (ht' j hj), hsame.content, hs.content j hj]
  · exact fun hl => ht' j hj hl
  · rw [fileByte_writePage]
    obtain ⟨hk1, hk2⟩ := lt_min_iff.mp hk
    split_ifs with hc
    · have hkey : pageKey p me k = ⟨p, pageAt me.uaddr i⟩ := by rw [pageKey, div_of_page hc.1 hk1]
      rw [mappedByte, hkey, ← hs.content i hi, hpage, Option.map_some]
    · rw [hold]
      exact hs.written k (lt_min (by by_contra hlt; exact hc ⟨by omega, hk⟩) hk2)
  · rw [fileByte_writePage, if_neg (by omega), hold]
    refine hs.kept k (le_trans (min_le_min_right _ ?_) hk)
    exact Nat.mul_le_mul_right _ (Nat.le_succ i)

/-- **A page that was not touched stops the kernel.** -/
theorem fileWriteMapped_untouched {i : ℕ} (h : Sound vm) (hi : i < me.pageCnt)
    (hl : LazyAt vm ⟨p, pageAt me.uaddr i⟩) : Ensures (fileWriteMapped p envs me) vm fun _ _ => False := by
  have hloop : Ensures (fileWriteMapped p envs me) vm fun _ vm' =>
      Sound vm' ∧ LazyAt vm' ⟨p, pageAt me.uaddr i⟩ ∧ me.pageCnt ≤ i := by
    refine .forM_range (I := fun j s => Sound s ∧ LazyAt s ⟨p, pageAt me.uaddr i⟩ ∧ j ≤ i)
      ⟨h, hl, Nat.zero_le i⟩ fun j _ s hs => ?_
    obtain ⟨hs, hl, hji⟩ := hs
    refine .bind ((readUser_same hs).mono fun page s' hr => .modify ?_)
    obtain ⟨hsame, -, hno⟩ := hr
    refine ⟨(keeps_files (.refl hsame.sound) (length_le_update (le_max_left _ _))).sound,
      (hsame.untouched _).mpr hl, ?_⟩
    have hne : j ≠ i := by
      rintro rfl
      exact hno hl
    omega
  exact hloop.mono fun _ _ h => absurd hi (Nat.not_lt.mpr h.2.2)

/-! ### When the write-back returns -/

/-- A page in memory is present. -/
theorem pte_of_inmem {d : PdId} {v : VpageInfo} {i : InfoInmem} (h : Owned vm) (hm : Mapped vm)
    (hd : vm.pagedir p = some d) (hv : vm.find ⟨p, u⟩ = some v) (hb : v.backend = .inmem i) :
    vm.pte d u = some ⟨i.paddr, v.writable⟩ := by
  obtain ⟨hmem, hk⟩ := h.keyed.find_eq_some.mp hv
  have hown := h.ownPd v hmem i hb
  rw [show v.pid = p from congrArg Key.pid hk, hd] at hown
  obtain rfl := Option.some.inj hown
  have he := hm v hmem i hb
  rw [show v.uaddr = u from congrArg Key.uaddr hk] at he
  exact he

/-- **A swapped page comes in**, and nothing else changes. -/
theorem handleUserFault_swapped {d : PdId} {v : VpageInfo} {i : InfoSwap} (h : Sound vm) (hr : Room vm)
    (hd : vm.pagedir p = some d) (hv : vm.find ⟨p, u⟩ = some v) (hb : v.backend = .swapped i)
    (ht : env.table = true) : Yields (handleUserFault p env u) vm fun r vm' =>
      r = .cont ∧ PagedIn p env vm u vm' ∧ Room vm' ∧ Same vm vm' ∧ ∃ e, vm'.pte d u = some e := by
  refine ((handleUserFault_returns h.owned h.user hr hd hv hb).and_ensures (handleUserFault_keeps h)).mono
    fun r vm' hr' => ?_
  obtain ⟨rfl, hkeep, ⟨hkill, -⟩ | ⟨-, hin⟩⟩ := hr'
  · cases hkill
  · have hroom := room_pagedIn h.owned hr ht hv hb hin
    obtain ⟨w, j, hw, hj⟩ := inmem_pagedIn h.owned hin
    have hd' : vm'.pagedir p = some d := (pagedir_pagedIn hin).symm ▸ hd
    exact ⟨rfl, hin, hroom, same_pagedIn h hkeep.sound hv hb hin, _,
      pte_of_inmem hkeep.sound.owned hroom.mapped hd' hw hj⟩

theorem readUser_yields {d : PdId} {v : VpageInfo} (h : Sound vm) (hr : Room vm) (hd : vm.pagedir p = some d)
    (hv : vm.find ⟨p, u⟩ = some v) (hno : ¬LazyAt vm ⟨p, u⟩) (ht : env.table = true) :
    Yields (readUser p env u) vm fun _ vm' => Room vm' := by
  refine .bind (.get (.bind (.deref hd ?_)))
  cases hb : v.backend with
  | lazy i => exact absurd ⟨v, i, hv, hb⟩ hno
  | inmem i =>
    rw [pte_of_inmem h.owned hr.mapped hd hv hb]
    exact .pure hr
  | swapped i =>
    rw [pte_eq_none_of_find h.owned hd hv (by simp [hb])]
    refine .bind (.deref hv ?_)
    rw [hb]
    refine .bind ((handleUserFault_swapped h hr hd hv hb ht).mono fun r vm' hr' => ?_)
    obtain ⟨-, -, hroom, -, e, he⟩ := hr'
    exact .bind (.get (.bind (.deref he (.pure hroom))))

/-- **The write-back returns** if every page was touched and memory is left. -/
theorem fileWriteMapped_yields {d : PdId} (h : Sound vm) (hr : Room vm) (hd : vm.pagedir p = some d)
    (hpages : ∀ j < me.pageCnt, perm vm ⟨p, pageAt me.uaddr j⟩ ≠ none)
    (ht : ∀ j < me.pageCnt, ¬LazyAt vm ⟨p, pageAt me.uaddr j⟩) (htable : ∀ i, (envs i).table = true) :
    Yields (fileWriteMapped p envs me) vm fun _ _ => True := by
  refine (Yields.forM_range (I := fun _ s => Sound s ∧ Room s ∧ s.pagedir p = some d ∧
    ∀ j < me.pageCnt, perm s ⟨p, pageAt me.uaddr j⟩ ≠ none ∧ ¬LazyAt s ⟨p, pageAt me.uaddr j⟩)
    ⟨h, hr, hd, fun j hj => ⟨hpages j hj, ht j hj⟩⟩ fun i hi s hs => ?_).mono fun _ _ _ => trivial
  obtain ⟨hs, hr, hd, hall⟩ := hs
  obtain ⟨hperm, hno⟩ := hall i hi
  obtain ⟨v, hv⟩ := Option.ne_none_iff_exists'.mp fun hnone => hperm (perm_eq_none.mpr hnone)
  have hread := (readUser_yields hs hr hd hv hno (htable i)).and_ensures (readUser_same hs)
  refine .bind (hread.mono fun page s' hr' => .modify ?_)
  obtain ⟨hroom, hsame, -, -⟩ := hr'
  refine ⟨(keeps_files (.refl hsame.sound) (length_le_update (le_max_left _ _))).sound,
    ⟨hroom.mapped, hroom.victim, hroom.slot⟩, hsame.pagedir.symm ▸ hd, fun j hj => ⟨?_, fun hl => ?_⟩⟩
  · exact fun hnone => (hall j hj).1 ((hsame.perm _).symm.trans hnone)
  · exact (hall j hj).2 ((hsame.untouched _).mp hl)

theorem releasePages_yields {n : ℕ} (h : Sound vm) :
    Yields (releasePages p u n) vm fun _ _ => True := by
  refine (Yields.forM_range (I := fun _ => Sound) h fun i _ s hs => ?_).mono fun _ _ _ => trivial
  have hleft : Left s (fun _ => False) s := ⟨hs, by simp, rfl⟩
  exact ((findAndRelease_returns hs.owned hs.user).and_ensures
    (findAndRelease_left hleft fun _ => Iff.rfl)).mono fun _ _ h => h.2.sound

theorem checkPages_yields : ∀ (left i : ℕ), (∀ j < i + left, perm vm ⟨p, pageAt u j⟩ ≠ none) →
    Yields (checkPages p u left i) vm fun _ vm' => vm' = vm
  | 0, _, _ => .pure rfl
  | left + 1, i, h => by
    obtain ⟨v, hv⟩ := Option.ne_none_iff_exists'.mp fun hnone =>
      h i (by omega) (perm_eq_none.mpr hnone)
    refine .bind (.get (.bind (.deref hv ?_)))
    split
    · exact checkPages_yields left (i + 1) fun j hj => h j (by omega)
    · exact .pure rfl

/-! ### The end of a mapping -/

/-- The file after `mmap_entry_release`: written as far as the mapping goes, or as before. -/
def Result (m : Maps) (p : Pid) (me : MmapEntry) (m' : Maps) : Prop :=
  if me.dirty && !m.denied me.file then
    (∀ i < me.pageCnt, ¬LazyAt m.vm ⟨p, pageAt me.uaddr i⟩) ∧
      (∀ k < me.length, some (fileByte m'.vm me k) = mappedByte m.vm p me k) ∧
      ∀ k, me.length ≤ k → fileByte m'.vm me k = fileByte m.vm me k
  else m'.vm.files = m.vm.files

theorem result_congr {m₁ : Maps} (hfiles : m'.vm.files = m₁.vm.files) (h : Result m p me m₁) :
    Result m p me m' := by
  have hbyte : ∀ k, fileByte m'.vm me k = fileByte m₁.vm me k := fun k => by
    rw [fileByte, fileByte, hfiles]
  unfold Result at h ⊢
  simp only [hbyte, hfiles]
  exact h

theorem le_pageCnt_mul {length pageCnt : ℕ} (h : pageCnt = (length + pgSize - 1) / pgSize) :
    length ≤ pageCnt * pgSize := by
  unfold pgSize at *
  omega

theorem writeBack_result (h : MapInv m st) (hme : me ∈ m.entries p) :
    Ensures (writeBack p envs me) m fun _ m' => Result m p me m' := by
  refine .bind (.get ?_)
  unfold Result
  split
  · refine onVm_ensures ?_
    by_cases ht : ∀ i < me.pageCnt, ¬LazyAt m.vm ⟨p, pageAt me.uaddr i⟩
    · refine (fileWriteMapped_written h.sound ht).mono fun _ vm' hw => ⟨ht, fun k hk => ?_, fun k hk => ?_⟩
      · exact hw.written k (by rw [min_eq_right (le_pageCnt_mul (h.sized hme).1)]; exact hk)
      · exact hw.kept k ((min_le_right _ _).trans hk)
    · push Not at ht
      obtain ⟨i, hi, hl⟩ := ht
      exact (fileWriteMapped_untouched h.sound hi hl).mono fun _ _ h => h.elim
  · exact .pure rfl

theorem mmapEntryRelease_result (h : MapInv m st) (hme : me ∈ m.entries p) :
    Ensures (mmapEntryRelease p envs me) m fun _ m' => Result m p me m' := by
  refine .bind (.zoom ((checkPages_ensures me.pageCnt 0).mono fun _ vm hvm => .bind ?_))
  obtain rfl := hvm
  refine fun r m₁ hr => ?_
  have hres : Result m p me m₁ := writeBack_result h hme r m₁ hr
  obtain ⟨hk, -⟩ := writeBack_keeps h.sound r m₁ hr
  refine .bind (onVm_ensures ((releasePages_left hk.sound).mono fun _ vm' hl => .modify ?_))
  exact result_congr hl.files hres

/-- A mapping that is not dirty was not stored to. -/
theorem notMem_stored (h : MapInv m st) (hme : me ∈ m.entries p) (hd : me.dirty = false) {i : ℕ}
    (hi : i < me.pageCnt) : (⟨p, pageAt me.uaddr i⟩ : Key) ∉ st := by
  intro hs
  obtain ⟨b, hb, hdirty⟩ := h.pages hme _ (mem_pagesOf.mpr ⟨i, hi, rfl⟩)
  obtain rfl : b = true := Option.some.inj (hb.symm.trans (h.stored _ hs))
  rw [hdirty rfl] at hd
  cases hd

theorem div_lt_pageCnt {length pageCnt : ℕ} (h : pageCnt = (length + pgSize - 1) / pgSize) (hk : k < length) :
    k / pgSize < pageCnt := by
  unfold pgSize at *
  omega

/-- **When a release writes what was changed and nothing else.** -/
theorem wroteBack_iff {x : Traced} (h : MapInv x.maps x.stored) (hme : me ∈ x.maps.entries p)
    (hr : Result x.maps p me m') : WroteBack x p me m' ↔ Agrees x p me := by
  have hpage : ∀ k < me.length, k / pgSize < me.pageCnt := fun k => div_lt_pageCnt (h.sized hme).1
  unfold Result at hr
  split at hr
  · rename_i hc
    obtain ⟨hd, hden⟩ := Bool.and_eq_true_iff.mp hc
    have hden : x.maps.denied me.file = false := by simpa using hden
    obtain ⟨-, hw, hkeep⟩ := hr
    constructor
    · intro hb _ k hk hst
      have hno : pageKey p me k ∉ x.stored := fun hs => by simpa [hden] using hst.mpr hs
      rw [← hw k hk, hb.kept k (hpage k hk) hno]
    · intro ha
      refine ⟨fun k _ hno => ?_, fun k hk _ => hw k hk⟩
      by_cases hk : k < me.length
      · have hbyte := ha hd k hk (by simp [hden, hno])
        exact Option.some.inj ((hw k hk).trans hbyte)
      · exact hkeep k (Nat.not_lt.mp hk)
  · rename_i hc
    have hsame : ∀ k, fileByte m'.vm me k = fileByte x.maps.vm me k := fun k => by
      rw [fileByte, fileByte, hr]
    cases hd : me.dirty with
    | false =>
      refine ⟨fun _ h => absurd h (by simp [hd]), fun _ => ⟨fun k _ _ => hsame k, fun k hk hs => ?_⟩⟩
      exact absurd hs (notMem_stored h hme hd (hpage k hk))
    | true =>
      have hden : x.maps.denied me.file = true := by simpa [hd] using hc
      constructor
      · intro hb _ k hk hst
        rw [← hb.changed k hk (hst.mp hden), hsame]
      · intro ha
        refine ⟨fun k _ _ => hsame k, fun k hk hs => ?_⟩
        rw [hsame, ha hd k hk (by simp [hden, hs])]

/-- A release returns if memory is left and what it writes was touched. -/
theorem mmapEntryRelease_yields {x : Traced} (h : MapInv x.maps x.stored) (hme : me ∈ x.maps.entries p)
    (hr : Room x.maps.vm) (hd : (x.maps.vm.pagedir p).isSome) (htable : ∀ i, (envs i).table = true)
    (ht : Touched x p me) : Yields (mmapEntryRelease p envs me) x.maps fun _ _ => True := by
  obtain ⟨d, hd⟩ := Option.isSome_iff_exists.mp hd
  have hpages : ∀ j < me.pageCnt, perm x.maps.vm ⟨p, pageAt me.uaddr j⟩ ≠ none := by
    intro j hj hnone
    obtain ⟨b, hb, -⟩ := h.pages hme _ (mem_pagesOf.mpr ⟨j, hj, rfl⟩)
    rw [hnone] at hb
    cases hb
  refine .bind (.zoom ((checkPages_yields me.pageCnt 0 (by simpa using hpages)).mono fun _ vm hvm => .bind ?_))
  obtain rfl := hvm
  have hwrite : Yields (writeBack p envs me) x.maps fun _ _ => True := by
    refine .bind (.get ?_)
    split
    · rename_i hc
      obtain ⟨hdirty, hden⟩ := Bool.and_eq_true_iff.mp hc
      have htouched := ht hdirty (by simpa using hden)
      exact .zoom (fileWriteMapped_yields h.sound hr hd hpages htouched htable)
    · exact .pure trivial
  refine (hwrite.and_ensures (writeBack_keeps h.sound)).mono fun _ m₁ hm₁ => ?_
  exact .bind (.zoom ((releasePages_yields hm₁.2.1.sound).mono fun _ _ _ => .modify trivial))

/-- **What the end of a mapping writes back**, in every state that a run reaches. If `mmap_entry_release`
returns, then exactly the pages that were stored to changed, to what the mapping shows, if and only if the other
pages of a dirty mapping still agree with the file. It returns, as long as memory is left, if and only if all
pages of a mapping that it writes were touched. -/
theorem mmapEntryRelease_wroteBack {x : Traced} (h : Reachable MapInit MapStep x) (hme : me ∈ x.maps.entries p) :
    (∀ envs m', mmapEntryRelease p envs me x.maps = some ((), m') → (WroteBack x p me m' ↔ Agrees x p me)) ∧
    ∀ envs : ℕ → Env, Room x.maps.vm → (x.maps.vm.pagedir p).isSome → (∀ i, (envs i).table = true) →
      ((∃ m', mmapEntryRelease p envs me x.maps = some ((), m')) ↔ Touched x p me) := by
  have hinv : MapInv x.maps x.stored := h.of_invariant mapInv_invariant
  refine ⟨fun envs m' hr => wroteBack_iff hinv hme (mmapEntryRelease_result hinv hme _ _ hr),
    fun envs hroom hd htable => ⟨?_, fun ht => ?_⟩⟩
  · rintro ⟨m', hr⟩ hdirty hden
    have hres : Result x.maps p me m' := mmapEntryRelease_result hinv hme _ _ hr
    unfold Result at hres
    rw [if_pos (by simp [hdirty, hden])] at hres
    exact hres.1
  · obtain ⟨_, m', hr, -⟩ := mmapEntryRelease_yields hinv hme hroom hd htable ht
    exact ⟨m', hr⟩

/-! ### Two runs -/

/-- A step that computes, of those that the runs below take. -/
def mapNext (x : Traced) (a : MapAction) : Option Traced :=
  let next := (mapAct a x.maps).map fun r => ⟨r.2, record x.stored a r.2.vm⟩
  match a with
  | .vm (.create p d) => if (x.maps.vm.pagedir p).isNone ∧ (x.maps.vm.pagedirs d).isNone then next else none
  | .vm (.store ..) => next
  | .vm (.fileWrite file data) => if (x.maps.vm.files file).length ≤ data.length then next else none
  | .vm _ => none
  | _ => next

theorem mapStep_of_next {x x' : Traced} {a : MapAction} (h : mapNext x a = some x') : MapStep x a x' := by
  have hnext : ∀ {a}, ((mapAct a x.maps).map fun r => (⟨r.2, record x.stored a r.2.vm⟩ : Traced)) = some x' →
      mapAct a x.maps = some ((), x'.maps) ∧ x'.stored = record x.stored a x'.maps.vm := by
    intro a h
    obtain ⟨⟨_, m'⟩, hm, rfl⟩ := Option.map_eq_some_iff.mp h
    exact ⟨hm, rfl⟩
  unfold mapNext at h
  dsimp only at h
  split at h
  · split at h
    · rename_i hc
      refine ⟨?_, hnext h⟩
      rintro _ ⟨⟩
      exact ⟨trivial, Option.isNone_iff_eq_none.mp hc.1, Option.isNone_iff_eq_none.mp hc.2⟩
    · cases h
  · refine ⟨?_, hnext h⟩
    rintro _ ⟨⟩
    exact ⟨trivial, trivial⟩
  · split at h
    · rename_i hc
      refine ⟨?_, hnext h⟩
      rintro _ ⟨⟩
      exact ⟨hc, trivial⟩
    · cases h
  · cases h
  · rename_i hno
    refine ⟨?_, hnext h⟩
    rintro b rfl
    exact absurd rfl (hno b)

/-- A file of zeros. -/
def zeros (length : ℕ) : FileData := ⟨length, fun _ => 0⟩

/-- Three free user pages and one file, before the first process. -/
def booted (length : ℕ) : Traced where
  maps :=
    { vm :=
        { map := []
          pagedirs := fun _ => none
          pagedir := fun _ => none
          userPool := [false, false, false]
          mem := fun _ _ => 0xcc
          swapMap := List.replicate 16 false
          swapBlock := fun _ _ => 0
          files := fun _ => zeros length }
      entries := fun _ => []
      midCounter := fun _ => 0
      denied := fun _ => false }
  stored := []

theorem mapInit_booted (length : ℕ) : MapInit (booted length) :=
  ⟨⟨rfl, fun _ => rfl, fun _ => rfl⟩, fun _ => rfl, rfl⟩

def plenty : Env := ⟨false, true, true, 0⟩

/-- The mapping of the file at the page 16, after a store. -/
def dirtyEntry (length pageCnt : ℕ) : MmapEntry := ⟨1, 0, 16, length, pageCnt, true⟩

/-- The process 1 maps the file at the page 16. -/
def mapFile : List MapAction :=
  [.vm (.create 1 0), .mmap 1 ⟨true, true, fun _ => plenty⟩ (some 0) (16 * pgSize)]

def touchPage (u : ℕ) (write : Bool) : MapAction := .fault 1 plenty (fun _ => plenty) 0 (u * pgSize) write

/-- One page is mapped and stored to, and the store arrives in the file. -/
theorem mmapEntryRelease_wroteBack_stored : ∃ (x : Traced) (m' : Maps), x.stored = [⟨1, 16⟩] ∧
    mmapEntryRelease 1 (fun _ => plenty) (dirtyEntry 52 1) x.maps = some ((), m') ∧
    WroteBack x 1 (dirtyEntry 52 1) m' ∧ fileByte m'.vm (dirtyEntry 52 1) 0 = 7 := by
  have hrun : ((mapFile ++ [touchPage 16 true, .vm (.store 1 16 ⟨0, by decide⟩ 7)]).foldlM mapNext
      (booted 52)).bind (fun x => (mmapEntryRelease 1 (fun _ => plenty) (dirtyEntry 52 1) x.maps).map
        fun r => (x.stored, x.maps.entries 1, x.maps.denied 0, fileByte r.2.vm (dirtyEntry 52 1) 0)) =
      some ([⟨1, 16⟩], [dirtyEntry 52 1], false, 7) := by
    decide +kernel
  obtain ⟨x, hx, hrel⟩ := Option.bind_eq_some_iff.mp hrun
  obtain ⟨⟨_, m'⟩, hm', hrel⟩ := Option.map_eq_some_iff.mp hrel
  simp only [Prod.mk.injEq] at hrel
  obtain ⟨hst, hentries, hden, hbyte⟩ := hrel
  have hreach : Reachable MapInit MapStep x := .of_foldlM mapStep_of_next _ (.start (mapInit_booted 52)) hx
  have hme : dirtyEntry 52 1 ∈ x.maps.entries 1 := by rw [hentries]; exact List.mem_cons_self
  refine ⟨x, m', hst, hm', ((mmapEntryRelease_wroteBack hreach hme).1 _ _ hm').mpr ?_, hbyte⟩
  intro _ k hk hst'
  have hk52 : k < 52 := hk
  have hpage : k / pgSize = 0 := Nat.div_eq_of_lt (hk52.trans (by decide))
  have hkey : pageKey 1 (dirtyEntry 52 1) k ∈ x.stored := by
    rw [hst, pageKey, hpage]
    decide
  have hdenied : x.maps.denied (dirtyEntry 52 1).file = true := hst'.mpr hkey
  rw [show (dirtyEntry 52 1).file = 0 from rfl, hden] at hdenied
  cases hdenied

/-- Two pages are mapped. One is loaded, the other one is stored to; what another process then writes to the
first is lost. -/
theorem not_wroteBack : ¬∀ (x : Traced) (p : Pid) (me : MmapEntry) (envs : ℕ → Env) (m' : Maps),
    Reachable MapInit MapStep x → me ∈ x.maps.entries p →
      mmapEntryRelease p envs me x.maps = some ((), m') → WroteBack x p me m' := by
  intro hall
  have hrun : ((mapFile ++ [touchPage 16 false, touchPage 17 true, .vm (.store 1 17 ⟨0, by decide⟩ 7),
      .vm (.fileWrite 0 ⟨4097, Function.update (fun _ => 0) 0 9⟩)]).foldlM mapNext (booted 4097)).bind
        (fun x => (mmapEntryRelease 1 (fun _ => plenty) (dirtyEntry 4097 2) x.maps).map
          fun r => (x.stored, x.maps.entries 1, fileByte x.maps.vm (dirtyEntry 4097 2) 0,
            fileByte r.2.vm (dirtyEntry 4097 2) 0)) =
      some ([⟨1, 17⟩], [dirtyEntry 4097 2], 9, 0) := by
    decide +kernel
  obtain ⟨x, hx, hrel⟩ := Option.bind_eq_some_iff.mp hrun
  obtain ⟨⟨_, m'⟩, hm', hrel⟩ := Option.map_eq_some_iff.mp hrel
  simp only [Prod.mk.injEq] at hrel
  obtain ⟨hst, hentries, hbefore, hafter⟩ := hrel
  have hreach : Reachable MapInit MapStep x := .of_foldlM mapStep_of_next _ (.start (mapInit_booted 4097)) hx
  have hme : dirtyEntry 4097 2 ∈ x.maps.entries 1 := by rw [hentries]; exact List.mem_cons_self
  have hkept := (hall x 1 _ _ m' hreach hme hm').kept 0 (by decide) (by rw [hst]; decide)
  rw [hbefore, hafter] at hkept
  cases hkept

end Pintos.Userprog.MmapRelease
