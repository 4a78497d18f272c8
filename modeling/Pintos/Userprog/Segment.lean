import Pintos.Userprog.UserPages
import Pintos.Vm.PageIn

/-! # A segment of an executable

The case `PT_LOAD` of `load` and `load_segment`, with the `uint32_t` arithmetic of the source: what the code
computes for a header that `validate_segment` accepts, the pages that it registers, and what the program finds
in them once they are in memory. -/

namespace Pintos.Userprog.Segment

open Pintos.Lib Pintos.Lib.Ops Pintos.Vm.State Pintos.Vm.Vpage Pintos.Vm.Effect Pintos.Vm.Content
open Pintos.Vm.PageIn Pintos.Vm.Totality Pintos.Userprog.Load
open Pintos.Userprog.UserPages (UserPage le32_lt)

/-! ### The code -/

/-- The sum of two `uint32_t`. -/
def add32 (a b : ℕ) : ℕ := (a + b) % 2 ^ 32

/-- The difference of two `uint32_t`. -/
def sub32 (a b : ℕ) : ℕ := (a + (2 ^ 32 - b)) % 2 ^ 32

/-- `ROUND_UP (x, PGSIZE)`. -/
def roundUp (x : ℕ) : ℕ := sub32 (add32 x pgSize) 1 / pgSize * pgSize

/-- `page_offset`. -/
def pageOffset (p : Phdr) : ℕ := p.pVaddr % pgSize

/-- `file_page`. -/
def filePage (p : Phdr) : ℕ := p.pOffset / pgSize * pgSize

/-- `mem_page`. -/
def memPage (p : Phdr) : ℕ := p.pVaddr / pgSize * pgSize

def readBytes (p : Phdr) : ℕ := if 0 < p.pFilesz then add32 (pageOffset p) p.pFilesz else 0

def zeroBytes (p : Phdr) : ℕ :=
  if 0 < p.pFilesz then sub32 (roundUp (add32 (pageOffset p) p.pMemsz)) (readBytes p)
  else roundUp (add32 (pageOffset p) p.pMemsz)

def writable (p : Phdr) : Bool := p.pFlags / 2 % 2 = 1

/-- The loop of `load_segment`, with at most `fuel` tests of its condition. -/
def loadSegmentLoop (pid : Pid) (envs : ℕ → Env) (file : FileId) (writable : Bool) :
    (fuel i ofs upage readBytes zeroBytes : ℕ) → Op VM Bool
  | 0, _, _, _, _, _ => halt
  | fuel + 1, i, ofs, upage, readBytes, zeroBytes =>
    if 0 < readBytes ∨ 0 < zeroBytes then do
      let pageReadBytes := min readBytes pgSize
      let pageZeroBytes := pgSize - pageReadBytes
      if ← lazyAllocate (envs i) (upage / pgSize) ⟨some file, ofs, ⟨min readBytes pgSize, min_pgSize_lt readBytes⟩⟩
          pid writable then
        loadSegmentLoop pid envs file writable fuel (i + 1) (add32 ofs pageReadBytes) (add32 upage pgSize)
          (sub32 readBytes pageReadBytes) (sub32 zeroBytes pageZeroBytes)
      else return false
    else return true

/-- `load_segment`. An address space has `2 ^ 20` pages. -/
def loadSegment (pid : Pid) (envs : ℕ → Env) (file : FileId) (ofs upage readBytes zeroBytes : ℕ)
    (writable : Bool) : Op VM Bool := do
  assert (add32 readBytes zeroBytes % pgSize = 0)
  assert (upage % pgSize = 0)
  assert (ofs % pgSize = 0)
  loadSegmentLoop pid envs file writable (2 ^ 20 + 1) 0 ofs upage readBytes zeroBytes

/-- The call of `load_segment` in `load`. -/
def loadPhdr (pid : Pid) (envs : ℕ → Env) (file : FileId) (p : Phdr) : Op VM Bool :=
  loadSegment pid envs file (filePage p) (memPage p) (readBytes p) (zeroBytes p) (writable p)

/-! ### The sizes -/

/-- The fields of a program header are words. -/
structure Words (p : Phdr) : Prop where
  pOffset : p.pOffset < 2 ^ 32
  pVaddr : p.pVaddr < 2 ^ 32
  pFilesz : p.pFilesz < 2 ^ 32
  pMemsz : p.pMemsz < 2 ^ 32

theorem words_readPhdr (f : FileData) (ofs : ℕ) : Words (readPhdr f ofs) :=
  ⟨le32_lt f _, le32_lt f _, le32_lt f _, le32_lt f _⟩

/-- **The checks of `validate_segment`**, without wrap-around. -/
structure Valid (f : FileData) (p : Phdr) : Prop where
  offset : p.pOffset % pgSize = p.pVaddr % pgSize
  inFile : p.pOffset ≤ f.length
  filesz : p.pFilesz ≤ p.pMemsz
  memsz : 0 < p.pMemsz
  below : p.pVaddr + p.pMemsz < physBase * pgSize
  above : pgSize ≤ p.pVaddr

theorem valid_of_validateSegment {f : FileData} {p : Phdr} (hw : Words p) (h : validateSegment f p = true) :
    Valid f p := by
  have h1 := hw.pVaddr
  have h2 := hw.pMemsz
  unfold validateSegment isUserVaddr at h
  simp only [Bool.and_eq_true, decide_eq_true_eq] at h
  obtain ⟨⟨⟨⟨⟨⟨⟨hofs, hin⟩, hsz⟩, hne⟩, h5⟩, h6⟩, h7⟩, h8⟩ := h
  refine ⟨hofs, hin, hsz, Nat.pos_of_ne_zero hne, ?_, h8⟩
  unfold physBase pgSize at *
  omega

/-- The first page of the segment. -/
def firstPage (p : Phdr) : ℕ := p.pVaddr / pgSize

/-- The page after the last one. -/
def endPage (p : Phdr) : ℕ := (p.pVaddr + p.pMemsz + pgSize - 1) / pgSize

/-- **The sizes are those of whole numbers**, and fill whole pages. -/
structure NoWrap (p : Phdr) : Prop where
  read : readBytes p = if 0 < p.pFilesz then pageOffset p + p.pFilesz else 0
  memory : add32 (pageOffset p) p.pMemsz = pageOffset p + p.pMemsz
  round : roundUp (pageOffset p + p.pMemsz) = (pageOffset p + p.pMemsz + pgSize - 1) / pgSize * pgSize
  zero : readBytes p + zeroBytes p = (pageOffset p + p.pMemsz + pgSize - 1) / pgSize * pgSize
  pages : pgSize ∣ readBytes p + zeroBytes p

variable {f : FileData} {p : Phdr}

theorem Valid.noWrap (h : Valid f p) : NoWrap p := by
  have hbelow := h.below
  have hsz := h.filesz
  have hmem := h.memsz
  have hread : readBytes p = if 0 < p.pFilesz then pageOffset p + p.pFilesz else 0 := by
    unfold readBytes add32 pageOffset pgSize physBase at *
    split_ifs <;> omega
  have hmemory : add32 (pageOffset p) p.pMemsz = pageOffset p + p.pMemsz := by
    unfold add32 pageOffset pgSize physBase at *
    omega
  have hround : roundUp (pageOffset p + p.pMemsz) = (pageOffset p + p.pMemsz + pgSize - 1) / pgSize * pgSize := by
    unfold roundUp sub32 add32 pageOffset pgSize physBase at *
    omega
  have hzero : readBytes p + zeroBytes p = (pageOffset p + p.pMemsz + pgSize - 1) / pgSize * pgSize := by
    unfold zeroBytes
    rw [hmemory, hround, hread]
    unfold sub32 pageOffset pgSize physBase at *
    split_ifs <;> omega
  exact ⟨hread, hmemory, hround, hzero, hzero ▸ Dvd.intro_left _ rfl⟩

/-- The number of pages. -/
theorem Valid.sizes (h : Valid f p) : readBytes p + zeroBytes p = (endPage p - firstPage p) * pgSize := by
  rw [h.noWrap.zero]
  have hmem := h.memsz
  unfold endPage firstPage pageOffset pgSize
  congr 1
  omega

/-! ### The pages -/

/-- `page_read_bytes`. -/
def pageReadBytes (readBytes : ℕ) : Fin (pgSize + 1) := ⟨min readBytes pgSize, min_pgSize_lt readBytes⟩

/-- What the page `k` of a segment is read from. -/
def segmentInfo (file : FileId) (ofs readBytes k : ℕ) : InfoLazy :=
  ⟨some file, add32 ofs (min (k * pgSize) readBytes), pageReadBytes (readBytes - k * pgSize)⟩

variable {pid : Pid} {envs : ℕ → Env} {env : Env} {file : FileId} {vm vm' : VM} {w : Bool}

/-- Lazy vpages are registered, and nothing else happens. -/
def Adds (vm vm' : VM) : Prop :=
  ∃ new : List VpageInfo, vm' = { vm with map := new ++ vm.map } ∧ ∀ v ∈ new, ∃ i, v.backend = .lazy i

theorem Adds.refl (vm : VM) : Adds vm vm := ⟨[], rfl, fun _ hv => absurd hv List.not_mem_nil⟩

theorem Adds.trans {vm₁ vm₂ : VM} (h : Adds vm vm₁) (h' : Adds vm₁ vm₂) : Adds vm vm₂ := by
  obtain ⟨new, rfl, hlazy⟩ := h
  obtain ⟨new', rfl, hlazy'⟩ := h'
  refine ⟨new' ++ new, by rw [List.append_assoc], fun v hv => ?_⟩
  exact (List.mem_append.mp hv).elim (hlazy' v) (hlazy v)

theorem adds_addVpage (vm : VM) (u : ℕ) (w : Bool) (pid : Pid) (i : InfoLazy) :
    Adds vm (addVpage vm ⟨u, w, pid, .lazy i⟩) :=
  ⟨[⟨u, w, pid, .lazy i⟩], rfl, fun _ hv => ⟨i, congrArg VpageInfo.backend (List.mem_singleton.mp hv)⟩⟩

/-- There is memory for the `n` vpages from the page `u` on, and none is there yet. -/
def CanAdd (pid : Pid) (envs : ℕ → Env) (vm : VM) (i u n : ℕ) : Prop :=
  ∀ k < n, (envs (i + k)).malloc = true ∧ vm.find ⟨pid, u + k⟩ = none

/-- The first `m` pages of a segment that starts at the page `u` are registered, and no others. -/
structure PagesIn (pid : Pid) (file : FileId) (w : Bool) (u ofs readBytes m : ℕ) (vm vm' : VM) : Prop where
  fresh : ∀ k < m, vm.find ⟨pid, u + k⟩ = none
  page : ∀ k < m, vm'.find ⟨pid, u + k⟩ = some ⟨u + k, w, pid, .lazy (segmentInfo file ofs readBytes k)⟩
  others : ∀ k : Key, ¬(k.pid = pid ∧ u ≤ k.uaddr ∧ k.uaddr < u + m) → vm'.find k = vm.find k
  adds : Adds vm vm'

theorem pagesIn_zero (pid : Pid) (file : FileId) (w : Bool) (u ofs readBytes : ℕ) (vm : VM) :
    PagesIn pid file w u ofs readBytes 0 vm vm :=
  ⟨fun _ hk => absurd hk (Nat.not_lt_zero _), fun _ hk => absurd hk (Nat.not_lt_zero _), fun _ _ => rfl, .refl vm⟩

/-- The pages behind the first one are those of a segment that starts there. -/
theorem segmentInfo_succ (file : FileId) (ofs readBytes k : ℕ) : segmentInfo file ofs readBytes (k + 1) =
    segmentInfo file (add32 ofs (min readBytes pgSize)) (readBytes - min readBytes pgSize) k := by
  have hofs : add32 ofs (min ((k + 1) * pgSize) readBytes) =
      add32 (add32 ofs (min readBytes pgSize)) (min (k * pgSize) (readBytes - min readBytes pgSize)) := by
    unfold add32 pgSize
    omega
  have hlen : min (readBytes - (k + 1) * pgSize) pgSize =
      min (readBytes - min readBytes pgSize - k * pgSize) pgSize := by
    unfold pgSize
    omega
  simp only [segmentInfo, pageReadBytes, hofs, hlen]

/-- The first page before the others. -/
theorem PagesIn.cons {u ofs readBytes m : ℕ} (hnew : vm.find ⟨pid, u⟩ = none)
    (h : PagesIn pid file w (u + 1) (add32 ofs (min readBytes pgSize)) (readBytes - min readBytes pgSize) m
      (addVpage vm ⟨u, w, pid, .lazy (segmentInfo file ofs readBytes 0)⟩) vm') :
    PagesIn pid file w u ofs readBytes (m + 1) vm vm' := by
  have hadd : ∀ k : Key, k ≠ ⟨pid, u⟩ →
      (addVpage vm ⟨u, w, pid, .lazy (segmentInfo file ofs readBytes 0)⟩).find k = vm.find k := fun k hk => by
    rw [find_addVpage, if_neg]
    exact fun he => hk he.symm
  refine ⟨?_, ?_, fun k hk => ?_, (adds_addVpage vm u w pid _).trans h.adds⟩
  · rintro (_ | k) hk
    · exact hnew
    · rw [← hadd ⟨pid, u + (k + 1)⟩ (by simp), ← Nat.add_assoc, Nat.add_right_comm]
      exact h.fresh k (by omega)
  · rintro (_ | k) hk
    · rw [Nat.add_zero, h.others ⟨pid, u⟩ (by simp), find_addVpage]
      exact if_pos rfl
    · rw [← Nat.add_assoc, Nat.add_right_comm, h.page k (by omega), segmentInfo_succ]
  · have hout : ¬(k.pid = pid ∧ u + 1 ≤ k.uaddr ∧ k.uaddr < u + 1 + m) := fun ⟨h1, h2, h3⟩ =>
      hk ⟨h1, Nat.le_of_succ_le h2, lt_of_lt_of_eq h3 (by rw [Nat.add_assoc, Nat.add_comm 1])⟩
    rw [h.others k hout, hadd]
    rintro rfl
    exact hk ⟨rfl, le_rfl, by simp⟩

theorem find_addVpage_succ (pid : Pid) (v : VpageInfo) (k : ℕ) :
    (addVpage vm v).find ⟨pid, v.uaddr + 1 + k⟩ = vm.find ⟨pid, v.uaddr + 1 + k⟩ := by
  rw [find_addVpage, if_neg]
  intro he
  have hlt : v.uaddr < v.uaddr + 1 + k := Nat.lt_of_lt_of_le (Nat.lt_succ_self _) (Nat.le_add_right _ k)
  exact hlt.ne (congrArg Key.uaddr he)

/-- The first vpage before the others. -/
theorem canAdd_succ {i u n : ℕ} {v : VpageInfo} (hv : v.uaddr = u) :
    CanAdd pid envs vm i u (n + 1) ↔ ((envs i).malloc = true ∧ vm.find ⟨pid, u⟩ = none) ∧
      CanAdd pid envs (addVpage vm v) (i + 1) (u + 1) n := by
  subst hv
  constructor
  · intro h
    refine ⟨h 0 (Nat.succ_pos n), fun k hk => ?_⟩
    have hk' := h (k + 1) (Nat.succ_lt_succ hk)
    rw [find_addVpage_succ, Nat.add_right_comm i, Nat.add_right_comm v.uaddr]
    exact hk'
  · rintro ⟨h0, h⟩ (_ | k) hk
    · exact h0
    · have hk' := h k (Nat.lt_of_succ_lt_succ hk)
      rw [find_addVpage_succ, Nat.add_right_comm i, Nat.add_right_comm v.uaddr] at hk'
      exact hk'

/-- **The loop of `load_segment`**, by induction on the pages: it ends, and has registered all the pages, or the
first ones up to one for which there is no memory or that is there already. -/
theorem loadSegmentLoop_yields : ∀ {n fuel i ofs u readBytes zeroBytes : ℕ} {vm : VM},
    readBytes + zeroBytes = n * pgSize → n < fuel → u + n ≤ physBase → ofs < 2 ^ 32 →
    Yields (loadSegmentLoop pid envs file w fuel i ofs (u * pgSize) readBytes zeroBytes) vm fun r vm' =>
      (∃ m ≤ n, PagesIn pid file w u ofs readBytes m vm vm' ∧ (r = true → m = n)) ∧
      (r = true ↔ CanAdd pid envs vm i u n) := by
  intro n
  induction n with
  | zero =>
    intro fuel i ofs u readBytes zeroBytes vm hsum hfuel _ _
    obtain ⟨fuel, rfl⟩ := Nat.exists_eq_succ_of_ne_zero hfuel.ne'
    rw [loadSegmentLoop, if_neg (by omega)]
    refine .pure ⟨⟨0, le_rfl, pagesIn_zero .., fun _ => rfl⟩, ⟨fun _ k hk => ?_, fun _ => rfl⟩⟩
    exact absurd hk (Nat.not_lt_zero k)
  | succ n ih =>
    intro fuel i ofs u readBytes zeroBytes vm hsum hfuel hu hofs
    obtain ⟨fuel, rfl⟩ := Nat.exists_eq_succ_of_ne_zero (by omega : fuel ≠ 0)
    have hpos : 0 < pgSize := by decide
    have hsum' : readBytes + zeroBytes = n * pgSize + pgSize := by rw [hsum, Nat.succ_mul]
    have hlt : n * pgSize + pgSize < 2 ^ 32 := by
      unfold pgSize physBase at *
      omega
    have hread : sub32 readBytes (min readBytes pgSize) = readBytes - min readBytes pgSize := by
      unfold sub32
      omega
    have hzero : sub32 zeroBytes (pgSize - min readBytes pgSize) = zeroBytes - (pgSize - min readBytes pgSize) := by
      unfold sub32
      omega
    have hupage : add32 (u * pgSize) pgSize = (u + 1) * pgSize := by
      unfold add32 pgSize physBase at *
      omega
    have hdiv : u * pgSize / pgSize = u := Nat.mul_div_cancel u (by decide)
    have hinfo : (⟨some file, ofs, ⟨min readBytes pgSize, min_pgSize_lt readBytes⟩⟩ : InfoLazy) =
        segmentInfo file ofs readBytes 0 := by
      have h0 : add32 ofs (min 0 readBytes) = ofs := by
        unfold add32
        omega
      simp only [segmentInfo, pageReadBytes, Nat.zero_mul, Nat.sub_zero, h0]
    rw [loadSegmentLoop, if_pos (by omega)]
    dsimp only
    rw [hread, hzero, hupage, hdiv, hinfo]
    by_cases hc : ((envs i).malloc && (vm.find ⟨pid, u⟩).isNone) = true
    · have hnew : vm.find ⟨pid, u⟩ = none := by simpa using (Bool.and_eq_true_iff.mp hc).2
      have hall : Yields (lazyAllocate (envs i) u (segmentInfo file ofs readBytes 0) pid w) vm fun r vm₁ =>
          r = true ∧ vm₁ = addVpage vm ⟨u, w, pid, .lazy (segmentInfo file ofs readBytes 0)⟩ := by
        refine .bind (.get ?_)
        rw [if_pos hc]
        exact .bind (.set (.pure ⟨rfl, rfl⟩))
      refine .bind (hall.mono ?_)
      rintro _ _ ⟨rfl, rfl⟩
      rw [if_pos rfl]
      have hsum₁ : readBytes - min readBytes pgSize + (zeroBytes - (pgSize - min readBytes pgSize)) = n * pgSize := by
        omega
      have hofs₁ : add32 ofs (min readBytes pgSize) < 2 ^ 32 := Nat.mod_lt _ (by decide)
      refine (ih hsum₁ (Nat.lt_of_succ_lt_succ hfuel) (by omega) hofs₁).mono fun r vm' ⟨⟨m, hm, hin, hr⟩, hall⟩ =>
        ⟨⟨m + 1, by omega, hin.cons hnew, fun h => ?_⟩, ?_⟩
      · rw [hr h]
      · rw [hall, canAdd_succ (v := ⟨u, w, pid, .lazy (segmentInfo file ofs readBytes 0)⟩) rfl]
        exact ⟨fun h => ⟨⟨(Bool.and_eq_true_iff.mp hc).1, hnew⟩, h⟩, And.right⟩
    · have hall : Yields (lazyAllocate (envs i) u (segmentInfo file ofs readBytes 0) pid w) vm fun r vm₁ =>
          r = false ∧ vm₁ = vm := by
        refine .bind (.get ?_)
        rw [if_neg hc]
        exact .pure ⟨rfl, rfl⟩
      refine .bind (hall.mono ?_)
      rintro _ _ ⟨rfl, rfl⟩
      rw [if_neg Bool.false_ne_true]
      refine .pure ⟨⟨0, Nat.zero_le _, pagesIn_zero .., nofun⟩, ⟨nofun, fun h => absurd ?_ hc⟩⟩
      obtain ⟨hmalloc, hnone⟩ := h 0 (Nat.succ_pos n)
      rw [Nat.add_zero] at hmalloc hnone
      rw [hmalloc, hnone]
      rfl

/-- What the page `u` of the segment is read from. -/
def pageInfo (file : FileId) (p : Phdr) (u : ℕ) : InfoLazy :=
  segmentInfo file (filePage p) (readBytes p) (u - firstPage p)

/-- The vpage that `load_segment` makes for the page `u`. -/
def segmentVpage (pid : Pid) (file : FileId) (p : Phdr) (u : ℕ) : VpageInfo :=
  ⟨u, writable p, pid, .lazy (pageInfo file p u)⟩

/-- **The pages of the segment are registered**, and no others. They were free, and are pages of the program. -/
structure Registered (pid : Pid) (file : FileId) (p : Phdr) (vm vm' : VM) : Prop where
  user : ∀ u, firstPage p ≤ u → u < endPage p → UserPage u
  fresh : ∀ u, firstPage p ≤ u → u < endPage p → vm.find ⟨pid, u⟩ = none
  page : ∀ u, firstPage p ≤ u → u < endPage p → vm'.find ⟨pid, u⟩ = some (segmentVpage pid file p u)
  others : ∀ k : Key, ¬(k.pid = pid ∧ firstPage p ≤ k.uaddr ∧ k.uaddr < endPage p) → vm'.find k = vm.find k

/-- The segment lies below `PHYS_BASE` and not on page zero. -/
theorem Valid.user (h : Valid f p) {u : ℕ} (hu : firstPage p ≤ u) (hu' : u < endPage p) : UserPage u := by
  have hbelow := h.below
  have habove := h.above
  unfold UserPage firstPage endPage pgSize physBase at *
  omega

theorem firstPage_le_endPage : firstPage p ≤ endPage p := by
  unfold firstPage endPage pgSize
  omega

theorem Valid.endPage_le (h : Valid f p) : endPage p ≤ physBase := by
  have hbelow := h.below
  unfold endPage pgSize physBase at *
  omega

/-- **The call of `load_segment` in `load`**: no assertion fails, the loop ends, and where it succeeds all pages are
registered. -/
theorem loadPhdr_yields (hw : Words p) (h : Valid f p) : Yields (loadPhdr pid envs file p) vm fun r vm' =>
    (∃ m ≤ endPage p - firstPage p,
      PagesIn pid file (writable p) (firstPage p) (filePage p) (readBytes p) m vm vm' ∧
      (r = true → m = endPage p - firstPage p)) ∧
    (r = true ↔ CanAdd pid envs vm 0 (firstPage p) (endPage p - firstPage p)) := by
  have hsizes := h.sizes
  have hend := h.endPage_le
  have hfirst := firstPage_le_endPage (p := p)
  have hofs := hw.pOffset
  have hsum : add32 (readBytes p) (zeroBytes p) % pgSize = 0 := by
    unfold add32
    rw [hsizes]
    unfold pgSize physBase at *
    omega
  have hfile : filePage p < 2 ^ 32 := lt_of_le_of_lt (Nat.div_mul_le_self _ _) hofs
  have hlast : firstPage p + (endPage p - firstPage p) ≤ physBase := by omega
  have hfuel : endPage p - firstPage p < 2 ^ 20 + 1 := by
    unfold physBase at hend
    omega
  have hstart : ∀ n, n * pgSize % pgSize = 0 := fun n => Nat.mul_mod_left n pgSize
  refine .bind (.assert (decide_eq_true hsum) (.bind (.assert (decide_eq_true (hstart _)) ?_)))
  refine .bind (.assert (decide_eq_true (hstart _)) ?_)
  exact loadSegmentLoop_yields hsizes hfuel hlast hfile

theorem registered_of_loadPhdr (hw : Words p) (h : Valid f p)
    (hload : loadPhdr pid envs file p vm = some (true, vm')) : Registered pid file p vm vm' := by
  have hrun : Yields (loadPhdr pid envs file p) vm _ := loadPhdr_yields hw h
  obtain ⟨r, vm₁, hrun, ⟨m, -, hin, hm⟩, -⟩ := hrun
  obtain ⟨rfl, rfl⟩ : r = true ∧ vm₁ = vm' := by simpa using hrun.symm.trans hload
  obtain rfl := hm rfl
  have hnth : ∀ u, firstPage p ≤ u → firstPage p + (u - firstPage p) = u := fun u hu => Nat.add_sub_cancel' hu
  refine ⟨fun u => h.user, fun u hu hu' => ?_, fun u hu hu' => ?_, fun k hk => hin.others k ?_⟩
  · have := hin.fresh (u - firstPage p) (by omega)
    rwa [hnth u hu] at this
  · have := hin.page (u - firstPage p) (by omega)
    rwa [hnth u hu] at this
  · rwa [Nat.add_sub_cancel' firstPage_le_endPage]

/-! ### The bytes -/

/-- The byte at `p_vaddr + i` that the program header asks for. -/
def segmentByte (f : FileData) (p : Phdr) (i : ℕ) : UInt8 := if i < p.pFilesz then f.bytes (p.pOffset + i) else 0

/-- The address of the byte `j` of the page `u` is in the segment. -/
def InSegment (p : Phdr) (u j : ℕ) : Prop := p.pVaddr ≤ u * pgSize + j ∧ u * pgSize + j < p.pVaddr + p.pMemsz

/-- **The page `u` shows the segment**: its bytes are those of the file up to `p_filesz`, and zero from there on. -/
def PageRight (f : FileData) (p : Phdr) (u : ℕ) (page : Page) : Prop :=
  ∀ j : Fin pgSize, InSegment p u j → page j = segmentByte f p (u * pgSize + j - p.pVaddr)

/-- The byte `j` of the page `u` comes from the file, but is not among the `served` ones. -/
def Unread (p : Phdr) (served u j : ℕ) : Prop :=
  InSegment p u j ∧ u * pgSize + j < p.pVaddr + p.pFilesz ∧ served ≤ j

/-- **What is not read does not matter**: the frame is zeroed, and so is the file. -/
def ReadIn (fresh : Bool) (f : FileData) (p : Phdr) (u served : ℕ) : Prop :=
  ∀ j < pgSize, Unread p served u j → fresh = true ∧ f.bytes (p.pOffset + (u * pgSize + j - p.pVaddr)) = 0

variable {t : VM} {u served : ℕ}

/-- **A byte of the segment in a frame** that held `page`. -/
theorem servedPage_segment (h : Valid f p) (hin : p.pOffset + p.pFilesz ≤ f.length)
    (hwrap : p.pOffset + p.pFilesz < 2 ^ 32) (hfile : t.files file = f) (hu : firstPage p ≤ u) (page : Page)
    {j : Fin pgSize} (hj : InSegment p u j) :
    (Unread p served u j → servedPage t (pageInfo file p u) served page j = page j) ∧
    (¬Unread p served u j →
      servedPage t (pageInfo file p u) served page j = segmentByte f p (u * pgSize + j - p.pVaddr)) := by
  obtain ⟨hlo, hhi⟩ := hj
  have hread := h.noWrap.read
  have hofs := h.offset
  have hlt := j.isLt
  have hlen : (j : ℕ) < ((pageInfo file p u).length : ℕ) ↔ u * pgSize + j < p.pVaddr + p.pFilesz := by
    change (j : ℕ) < min (readBytes p - (u - firstPage p) * pgSize) pgSize ↔ _
    rw [hread]
    unfold pageOffset firstPage pgSize at *
    split_ifs <;> omega
  have hoffset : (j : ℕ) < ((pageInfo file p u).length : ℕ) →
      (pageInfo file p u).offset + j = p.pOffset + (u * pgSize + j - p.pVaddr) := by
    rw [hlen]
    intro hpart
    change add32 (filePage p) (min ((u - firstPage p) * pgSize) (readBytes p)) + j = _
    rw [hread]
    unfold add32 filePage pageOffset firstPage pgSize at *
    split_ifs <;> omega
  have hserved : servedPage t (pageInfo file p u) served page j =
      zeroFrom (readInto page f (min (pageInfo file p u).length served) (pageInfo file p u).offset)
        (pageInfo file p u).length j := by
    rw [← hfile]
    rfl
  rw [hserved]
  constructor
  · rintro ⟨-, hpart, hno⟩
    rw [zeroFrom, if_neg (by omega), readInto, if_neg (by omega)]
  · intro hno
    unfold segmentByte
    by_cases hpart : u * pgSize + j < p.pVaddr + p.pFilesz
    · have hj : (j : ℕ) < served := not_le.mp fun hle => hno ⟨⟨hlo, hhi⟩, hpart, hle⟩
      have hlen' := hlen.mpr hpart
      rw [zeroFrom, if_neg (by omega), readInto, hoffset hlen', if_pos ⟨by omega, by omega⟩, if_pos (by omega)]
    · rw [zeroFrom, if_pos (not_lt.mp fun hlt => hpart (hlen.mp hlt)), if_neg (by omega)]

/-- From the frames that there can be, the page is right exactly if all that matters is read. -/
theorem pageRight_iff (h : Valid f p) (hin : p.pOffset + p.pFilesz ≤ f.length)
    (hwrap : p.pOffset + p.pFilesz < 2 ^ 32) (hfile : t.files file = f) (hu : firstPage p ≤ u) (fresh : Bool) :
    (if fresh = true then PageRight f p u (servedPage t (pageInfo file p u) served fun _ => 0)
      else ∀ page, PageRight f p u (servedPage t (pageInfo file p u) served page)) ↔
      ReadIn fresh f p u served := by
  have hbyte : ∀ (page : Page) (j : Fin pgSize), InSegment p u j →
      (Unread p served u j → servedPage t (pageInfo file p u) served page j = page j) ∧
      (¬Unread p served u j →
        servedPage t (pageInfo file p u) served page j = segmentByte f p (u * pgSize + j - p.pVaddr)) :=
    fun page _ hj => servedPage_segment h hin hwrap hfile hu page hj
  have hmissing : ∀ {j : ℕ}, Unread p served u j → segmentByte f p (u * pgSize + j - p.pVaddr) =
      f.bytes (p.pOffset + (u * pgSize + j - p.pVaddr)) := by
    rintro j ⟨⟨hlo, -⟩, hpart, -⟩
    exact if_pos (by omega)
  cases fresh with
  | true =>
    rw [if_pos rfl]
    constructor
    · intro hright j hj hun
      have hj' := hright ⟨j, hj⟩ hun.1
      rw [(hbyte _ ⟨j, hj⟩ hun.1).1 hun, hmissing hun] at hj'
      exact ⟨rfl, hj'.symm⟩
    · intro hread j hseg
      by_cases hun : Unread p served u j
      · rw [(hbyte _ j hseg).1 hun, hmissing hun, (hread j j.isLt hun).2]
      · exact (hbyte _ j hseg).2 hun
  | false =>
    rw [if_neg Bool.false_ne_true]
    constructor
    · intro hright j hj hun
      -- a frame whose byte is wrong
      have hj' := hright (fun _ => segmentByte f p (u * pgSize + j - p.pVaddr) + 1) ⟨j, hj⟩ hun.1
      rw [(hbyte _ ⟨j, hj⟩ hun.1).1 hun] at hj'
      simp at hj'
    · intro hread page j hseg
      exact (hbyte page j hseg).2 fun hun => Bool.false_ne_true (hread j j.isLt hun).1

/-- **A segment is shown exactly if what matters of it is read**: for every program header that `validate_segment`
accepts, whose part of the file is there, and every call of `load_segment` for it that succeeds, the sizes are those
of whole numbers, exactly the pages of the segment are registered, and each of them shows, from every content of
memory, the bytes of the file and zeros, exactly if the frame and the file are zero where the page was not read. -/
theorem loadPhdr_shown_iff (hw : Words p) (hvalid : validateSegment f p = true)
    (hin : p.pOffset + p.pFilesz ≤ f.length) (hwrap : p.pOffset + p.pFilesz < 2 ^ 32)
    (hload : loadPhdr pid envs file p vm = some (true, vm')) (hu : firstPage p ≤ u) (hu' : u < endPage p)
    (ht : Table.Keyed VpageInfo.key t.map) (hfind : t.find ⟨pid, u⟩ = vm'.find ⟨pid, u⟩) (hfile : t.files file = f)
    (hret : Returns (lazyToInmemServed pid env served (segmentVpage pid file p u) (pageInfo file p u)) t) :
    (NoWrap p ∧ Registered pid file p vm vm' ∧ ∀ mem swap,
      Yields (lazyToInmemServed pid env served (segmentVpage pid file p u) (pageInfo file p u)) (withMem t mem swap)
        fun _ t' => ∃ d, t'.find ⟨pid, u⟩ = some ((segmentVpage pid file p u).withBackend (.inmem d)) ∧
          PageRight f p u (t'.mem d.paddr)) ↔ ReadIn (freshFrame env t).isSome f p u served := by
  have h := valid_of_validateSegment hw hvalid
  have hreg := registered_of_loadPhdr hw h hload
  rw [← pageRight_iff (t := t) h hin hwrap hfile hu]
  have hthere : t.find (segmentVpage pid file p u).key = some (segmentVpage pid file p u) :=
    hfind.trans (hreg.page u hu hu')
  refine Iff.trans ?_ (lazyToInmem_iff ht hthere rfl hret (PageRight f p u))
  exact ⟨fun hall => hall.2.2, fun hall => ⟨h.noWrap, hreg, hall⟩⟩

/-! ### A segment of four bytes -/

/-- A segment of four bytes of the file, and four zeros. -/
def shortHeader : Phdr := ⟨1, 0, 0x8048000, 4, 8, 4⟩

/-- A file of four ones. -/
def oneFile : FileData := ⟨4, fun _ => 1⟩

/-- A free frame, and no vpages. -/
def idleMachine : VM where
  map := []
  pagedirs := fun _ => some .empty
  pagedir := fun p => some p
  userPool := [false]
  mem := fun _ _ => 9
  swapMap := List.replicate 8 false
  swapBlock := fun _ _ => 0
  files := fun _ => oneFile

/-- The machine after `load_segment`. -/
def loadedMachine : VM := addVpage idleMachine (segmentVpage 1 0 shortHeader 0x8048)

theorem load_shortHeader : loadPhdr 1 (fun _ => plenty) 0 shortHeader idleMachine = some (true, loadedMachine) := by
  have hrun : ∀ fuel, loadSegmentLoop 1 (fun _ => plenty) 0 false (fuel + 2) 0 0 0x8048000 4 4092 idleMachine =
      some (true, loadedMachine) := fun fuel => by rfl
  have hread : readBytes shortHeader = 4 := by decide
  have hzero : zeroBytes shortHeader = 4092 := by decide +kernel
  have hfuel : 2 ^ 20 + 1 = 1048575 + 2 := by decide +kernel
  have hsum : decide (add32 4 4092 % pgSize = 0) = true := by decide +kernel
  have hupage : decide (memPage shortHeader % pgSize = 0) = true := by decide +kernel
  have hofs : decide (filePage shortHeader % pgSize = 0) = true := by decide +kernel
  rw [loadPhdr, loadSegment, hread, hzero, hfuel, hsum, hupage, hofs]
  exact hrun 1048575

theorem keyed_loadedMachine : Table.Keyed VpageInfo.key loadedMachine.map := by
  unfold Table.Keyed
  decide

/-- The page, when all is read. -/
theorem loadPhdr_shown_code : NoWrap shortHeader ∧ Registered 1 0 shortHeader idleMachine loadedMachine ∧
    ∀ mem swap, Yields (lazyToInmemServed 1 plenty 4 (segmentVpage 1 0 shortHeader 0x8048)
        (pageInfo 0 shortHeader 0x8048)) (withMem loadedMachine mem swap)
      fun _ t' => ∃ d, t'.find ⟨1, 0x8048⟩ =
          some ((segmentVpage 1 0 shortHeader 0x8048).withBackend (.inmem d)) ∧
        PageRight oneFile shortHeader 0x8048 (t'.mem d.paddr) := by
  have hw : Words shortHeader := by constructor <;> decide
  refine (loadPhdr_shown_iff hw (by decide +kernel) (by decide) (by decide) load_shortHeader (by decide) (by decide)
    keyed_loadedMachine rfl rfl ⟨(), _, rfl, trivial⟩).mpr ?_
  rintro j - ⟨-, hpart, hserved⟩
  unfold shortHeader pgSize at hpart
  dsimp only at hpart
  omega

/-- **The page does not show the segment**, when `inode_read_at` finds no memory. -/
theorem not_loadPhdr_shown : validateSegment oneFile shortHeader = true ∧
    shortHeader.pOffset + shortHeader.pFilesz ≤ oneFile.length ∧
    loadPhdr 1 (fun _ => plenty) 0 shortHeader idleMachine = some (true, loadedMachine) ∧
    ¬Yields (lazyToInmemServed 1 plenty 0 (segmentVpage 1 0 shortHeader 0x8048) (pageInfo 0 shortHeader 0x8048))
      loadedMachine fun _ t' => ∃ d, t'.find ⟨1, 0x8048⟩ =
          some ((segmentVpage 1 0 shortHeader 0x8048).withBackend (.inmem d)) ∧
        PageRight oneFile shortHeader 0x8048 (t'.mem d.paddr) := by
  refine ⟨by decide +kernel, by decide, load_shortHeader, ?_⟩
  rintro ⟨a, t', hrun, d, hd, hright⟩
  have hthere : loadedMachine.find (segmentVpage 1 0 shortHeader 0x8048).key =
    some (segmentVpage 1 0 shortHeader 0x8048) :=
    rfl
  obtain ⟨j, hj, hmem⟩ := lazyToInmemServed_ensures keyed_loadedMachine hthere rfl a t' hrun
  obtain rfl : d = j := by simpa [VpageInfo.withBackend] using hd.symm.trans hj
  have hfirst := hright ⟨0, by decide⟩ (by unfold InSegment shortHeader pgSize; decide)
  rw [hmem, before, if_pos (by rfl)] at hfirst
  exact absurd hfirst (by decide +kernel)

end Pintos.Userprog.Segment
