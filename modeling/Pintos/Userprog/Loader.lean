import Pintos.Userprog.Arguments
import Pintos.Userprog.Lifecycle
import Pintos.Userprog.Segment

/-! # load

`load` of `userprog/process.c` as a whole, with its 32-bit integers and its assertions, for any file. The
operation has no result where an assertion fails, `NOT_REACHED` is reached, or the thread stores to a page that
is not mapped: the handler of the page fault follows its `process_info`, which is set after `load` only. -/

namespace Pintos.Userprog.Loader

open Pintos.Lib Pintos.Lib.Ops Pintos.Lib.ByteMemory Pintos.Kernel.Bitmap Pintos.Vm.State Pintos.Vm.Swap
open Pintos.Vm.Vpage Pintos.Vm.Effect Pintos.Vm.Preserve Pintos.Vm.PageIn Pintos.Vm.Totality Pintos.Vm.Run
open Pintos.Userprog.Load Pintos.Userprog.Segment
open Pintos.Userprog.Lifecycle (sizeofFileName stackUpage)
open Pintos.Userprog.Arguments (isSpace passArguments passArguments_returns)

/-! ### The code -/

/-- What the variable `kpage` of `setup_stack` holds before it is set. -/
inductive Unset
  | null
  /-- A page of the user pool. -/
  | user (f : Frame)
  /-- A page of the kernel pool, in use or not. -/
  | kernel (used : Bool)
  /-- No page, or a page of neither pool. -/
  | other

/-- What `load` finds outside of the file. -/
structure LoadEnv where
  /-- What `pagedir_create` returns. -/
  pagedir : Option PdId
  /-- What `filesys_open` finds. -/
  file : Option FileId
  /-- The call `n` of `file_read` finds memory. -/
  read : ℕ → Bool
  /-- The round `k` of `load_segment` for the program header `i`. -/
  segment : ℕ → ℕ → Env
  /-- The call of `vpage_info_inmem_allocate` in `setup_stack`. -/
  stack : Env
  kpage : Unset

/-- `palloc_free_page`, which does nothing for a null pointer. -/
def freeKpage : Unset → Op VM Unit
  | .null => pure ()
  | .user f => pallocFreePage f
  | .kernel used => assert used
  | .other => halt

/-- A word as an `off_t`. -/
def offT (n : ℕ) : ℤ := if n < 2 ^ 31 then n else n - 2 ^ 32

/-- The assertion of `file_seek`. -/
def fileSeek (newPos : ℤ) : Op VM Unit := assert (0 ≤ newPos)

/-- The cases of the switch on `p_type`. -/
inductive PhdrKind
  /-- `PT_LOAD`. -/
  | load
  /-- `PT_DYNAMIC`, `PT_INTERP` and `PT_SHLIB`. -/
  | refused
  | ignored

def phdrKind : ℕ → PhdrKind
  | 1 => .load
  | 2 | 3 | 5 => .refused
  | _ => .ignored

/-- The loop over the program headers, with `left` of them to go. The sum of two `off_t` does not overflow. -/
def loadPhdrs (pid : Pid) (env : LoadEnv) (file : FileId) (f : FileData) : (left i : ℕ) → (fileOfs : ℤ) → Op VM Bool
  | 0, _, _ => return true
  | left + 1, i, fileOfs =>
    if fileOfs < 0 ∨ f.length < fileOfs then return false
    else do
      fileSeek fileOfs
      if env.read (i + 1) ∧ fileOfs + sizeofPhdr ≤ f.length then do
        let p := readPhdr f fileOfs.toNat
        assert (fileOfs + sizeofPhdr < 2 ^ 31)
        match phdrKind p.pType with
        | .ignored => loadPhdrs pid env file f left (i + 1) (fileOfs + sizeofPhdr)
        | .refused => return false
        | .load =>
          if validateSegment f p then do
            if ← loadPhdr pid (env.segment i) file p then
              loadPhdrs pid env file f left (i + 1) (fileOfs + sizeofPhdr)
            else return false
          else return false
      else return false

/-- `setup_stack`. -/
def setupStack (pid : Pid) (env : LoadEnv) : Op VM Bool := do
  match ← inmemAllocate pid env.stack stackUpage pid true with
  | some _ => return true
  | none => do
    freeKpage env.kpage
    return false

theorem mod_pgSize_lt (a : ℕ) : a % pgSize < pgSize := Nat.mod_lt a (by decide)

/-- The addresses of the stack page, in a frame that holds `page`. -/
def stackMemory (page : Page) : Memory := ⟨fun a => page ⟨a % pgSize, mod_pgSize_lt a⟩, []⟩

/-- The end of `load`, in user memory: the first store is to the stack page, and so must be all others. -/
def passToStack (pid : Pid) (cmdLine : List UInt8) : Op VM Bool := do
  let s ← get
  let d ← deref (s.pagedir pid)
  let e ← deref (s.pte d stackUpage)
  assert e.writable
  let r ← deref (passArguments cmdLine UserMem.physBase (stackMemory (s.mem e.frame)))
  assert (r.1.written.all fun a => a / pgSize = stackUpage)
  set { s with mem := Function.update s.mem e.frame fun j => r.1.byte (stackUpage * pgSize + j) }
  return r.2.isSome

/-- From `setup_stack` on. -/
def loadStack (pid : Pid) (env : LoadEnv) (cmdLine : List UInt8) : Op VM Bool := do
  if ← setupStack pid env then passToStack pid cmdLine else return false

/-- `file_name_len`. -/
def fileNameLen (cmdLine : List UInt8) : ℕ := (cmdLine.takeWhile (!isSpace ·)).length

/-- `load`, with the open file. -/
def loadFile (pid : Pid) (env : LoadEnv) (file : FileId) (cmdLine : List UInt8) : Op VM Bool := do
  let s ← get
  let f := s.files file
  if env.read 0 ∧ ehdrOk f then do
    if ← loadPhdrs pid env file f (le16 f 44) 0 (offT (le32 f 28)) then loadStack pid env cmdLine else return false
  else return false

/-- `load`. -/
def load (pid : Pid) (env : LoadEnv) (cmdLine : List UInt8) : Op VM Bool :=
  match env.pagedir with
  | none => return false
  | some d => do
    modify (createPagedir · pid d)
    assert (fileNameLen cmdLine + 1 < sizeofFileName)
    match env.file with
    | none => return false
    | some file => loadFile pid env file cmdLine

/-! ### The frame of the stack page -/

variable {vm vm' : VM} {pid : Pid} {env : LoadEnv} {cmdLine : List UInt8} {d : PdId} {file : FileId} {f : FileData}

/-- The vpage that was used longest ago can go to swap. -/
def CanEvict (vm : VM) : Prop :=
  ∃ v i, vm.map.foldl lruStep none = some (v, i) ∧ v.uaddr < physBase ∧ (vm.pagedirs i.pagedir).isSome = true ∧
    ∃ n, n + pageSectors ≤ vm.swapMap.length ∧ Group vm.swapMap n pageSectors false

/-- **A frame is there.** -/
def FrameReady (e : Env) (vm : VM) : Prop := (freshFrame e vm).isSome = true ∨ CanEvict vm

theorem evictPage_returns_iff : Returns evictPage vm ↔ CanEvict vm := by
  constructor
  · rintro ⟨a, s', hevict, -⟩
    have hready : Ensures evictPage vm fun _ _ => CanEvict vm := by
      refine .bind (.get (.bind (.deref fun ⟨v, i⟩ hlru => .bind (.bind (.bind (.assert fun hu => ?_))))))
      refine .bind (.get (.bind (.deref fun pd hpd => .set (.bind (swapOut_ensures fun n hlen hfree => ?_)))))
      exact .modify (.pure ⟨v, i, hlru, of_decide_eq_true hu, hpd ▸ rfl, n, hlen, hfree⟩)
    exact hready a s' hevict
  · rintro ⟨v, i, hlru, hu, hlive, n, hlen, hfree⟩
    refine .bind (.get (.bind (.deref hlru (.bind (.bind ((pagedirClearPage_returns hu hlive).mono ?_))))))
    rintro _ _ rfl
    have hout : Returns (swapOut i.paddr) (unmapPage vm i.pagedir v.uaddr) := swapOut_returns hlen hfree
    refine .bind (hout.mono fun _ _ _ => ?_)
    exact .modify (.pure trivial)

/-- **A frame is got exactly if one is there.** -/
theorem getFrame_returns_iff {e : Env} : Returns (getFrame e) vm ↔ FrameReady e vm := by
  have hkeep : Ensures (pallocGetPage e) vm fun r vm₁ => r = none → vm₁ = vm :=
    pallocGetPage_ensures (fun _ => rfl) fun _ _ => nofun
  have hpalloc := pallocGetPage_fresh.and hkeep
  constructor
  · rintro ⟨a, s', hrun, -⟩
    have hready : Ensures (getFrame e) vm fun _ _ => FrameReady e vm := by
      refine .bind (hpalloc.mono fun r vm₁ ⟨hr, hvm⟩ => ?_)
      cases r with
      | some paddr => exact .pure (.inl (hr ▸ rfl))
      | none =>
        obtain rfl := hvm rfl
        exact fun a s' hevict => .inr (evictPage_returns_iff.mp ⟨a, s', hevict, trivial⟩)
    exact hready a s' hrun
  · intro hready
    refine .bind ((pallocGetPage_returns.and_ensures hpalloc).mono fun r vm₁ ⟨_, hr, hvm⟩ => ?_)
    cases r with
    | some paddr => exact .pure trivial
    | none =>
      obtain rfl := hvm rfl
      refine evictPage_returns_iff.mpr (hready.resolve_left ?_)
      rw [← hr]
      exact Bool.false_ne_true

/-! ### The program headers -/

/-- The segments of an executable, with their numbers, if none of its program headers is refused. -/
def accepted (env : LoadEnv) (f : FileData) : (left i ofs : ℕ) → Option (List (ℕ × Phdr))
  | 0, _, _ => some []
  | left + 1, i, ofs =>
    if env.read (i + 1) ∧ ofs + sizeofPhdr ≤ f.length then
      let p := readPhdr f ofs
      match phdrKind p.pType with
      | .ignored => accepted env f left (i + 1) (ofs + sizeofPhdr)
      | .refused => none
      | .load =>
        if validateSegment f p then (accepted env f left (i + 1) (ofs + sizeofPhdr)).map ((i, p) :: ·) else none
    else none

/-- The pages of a segment. -/
def pagesOf (p : Phdr) : List ℕ := List.range' (firstPage p) (endPage p - firstPage p)

/-- The pages of all segments. -/
def segmentPages (ps : List (ℕ × Phdr)) : List ℕ := ps.flatMap fun q => pagesOf q.2

/-- **The segments can be registered**: there is memory for the vpages, and no two segments share a page. -/
structure Fits (env : LoadEnv) (ps : List (ℕ × Phdr)) : Prop where
  memory : ∀ q ∈ ps, ∀ k < endPage q.2 - firstPage q.2, (env.segment q.1 k).malloc = true
  apart : (segmentPages ps).Nodup

/-- None of the pages is there. -/
def Free (pid : Pid) (pages : List ℕ) (vm : VM) : Prop := ∀ u ∈ pages, vm.find ⟨pid, u⟩ = none

/-- The pages that are there afterwards are those before, and these. -/
def Takes (pid : Pid) (pages : List ℕ) (vm vm' : VM) : Prop :=
  ∀ u : ℕ, vm'.find ⟨pid, u⟩ = none ↔ vm.find ⟨pid, u⟩ = none ∧ u ∉ pages

theorem mem_pagesOf {p : Phdr} {u : ℕ} : u ∈ pagesOf p ↔ firstPage p ≤ u ∧ u < endPage p := by
  have h := firstPage_le_endPage (p := p)
  unfold pagesOf
  rw [List.mem_range'_1]
  omega

theorem segmentPages_cons (i : ℕ) (p : Phdr) (ps : List (ℕ × Phdr)) :
    segmentPages ((i, p) :: ps) = pagesOf p ++ segmentPages ps := List.flatMap_cons

theorem takes_of_pagesIn {p : Phdr} {w : Bool} {ofs readBytes : ℕ}
    (h : PagesIn pid file w (firstPage p) ofs readBytes (endPage p - firstPage p) vm vm') :
    Takes pid (pagesOf p) vm vm' := by
  intro u
  rw [mem_pagesOf]
  by_cases hu : firstPage p ≤ u ∧ u < endPage p
  · have hpage := h.page (u - firstPage p) (by omega)
    rw [Nat.add_sub_cancel' hu.1] at hpage
    rw [hpage]
    exact ⟨nofun, fun hnot => absurd hu hnot.2⟩
  · rw [h.others ⟨pid, u⟩ fun hk => hu ⟨hk.2.1, ?_⟩]
    · exact ⟨fun hnone => ⟨hnone, hu⟩, And.left⟩
    · have hlt := hk.2.2
      rwa [Nat.add_sub_cancel' firstPage_le_endPage] at hlt

theorem canAdd_iff {p : Phdr} {envs : ℕ → Env} :
    CanAdd pid envs vm 0 (firstPage p) (endPage p - firstPage p) ↔
      (∀ k < endPage p - firstPage p, (envs k).malloc = true) ∧ Free pid (pagesOf p) vm := by
  constructor
  · refine fun h => ⟨fun k hk => ?_, fun u hu => ?_⟩
    · have hmalloc := (h k hk).1
      rwa [Nat.zero_add] at hmalloc
    · obtain ⟨h1, h2⟩ := mem_pagesOf.mp hu
      have hnone := (h (u - firstPage p) (by omega)).2
      rwa [Nat.add_sub_cancel' h1] at hnone
  · rintro ⟨hmalloc, hfree⟩ k hk
    rw [Nat.zero_add]
    exact ⟨hmalloc k hk, hfree _ (mem_pagesOf.mpr ⟨by omega, by omega⟩)⟩

/-- **One segment after the other.** -/
theorem fits_cons {i : ℕ} {p : Phdr} {ps : List (ℕ × Phdr)} (htakes : Takes pid (pagesOf p) vm vm') :
    Fits env ((i, p) :: ps) ∧ Free pid (segmentPages ((i, p) :: ps)) vm ↔
      CanAdd pid (env.segment i) vm 0 (firstPage p) (endPage p - firstPage p) ∧
      Fits env ps ∧ Free pid (segmentPages ps) vm' := by
  rw [canAdd_iff, segmentPages_cons]
  constructor
  · rintro ⟨⟨hmemory, hapart⟩, hfree⟩
    rw [segmentPages_cons] at hapart
    obtain ⟨-, hps, hdisj⟩ := List.nodup_append.mp hapart
    refine ⟨⟨hmemory (i, p) List.mem_cons_self, fun u hu => hfree u (List.mem_append_left _ hu)⟩,
      ⟨fun q hq => hmemory q (List.mem_cons_of_mem _ hq), hps⟩, fun u hu => (htakes u).mpr ⟨?_, fun hin => ?_⟩⟩
    · exact hfree u (List.mem_append_right _ hu)
    · exact hdisj u hin u hu rfl
  · rintro ⟨⟨hmalloc, hfree⟩, ⟨hmemory, hapart⟩, hfree'⟩
    refine ⟨⟨fun q hq => ?_, ?_⟩, fun u hu => ?_⟩
    · rcases List.mem_cons.mp hq with rfl | hq
      · exact hmalloc
      · exact hmemory q hq
    · rw [segmentPages_cons]
      refine List.nodup_append.mpr ⟨List.nodup_range', hapart, ?_⟩
      rintro u hin _ hu rfl
      exact ((htakes u).mp (hfree' u hu)).2 hin
    · exact (List.mem_append.mp hu).elim (hfree u) fun hu => ((htakes u).mp (hfree' u hu)).1

/-- The `off_t` of an offset into the file, and of one that `uint32_t` allows behind it. -/
theorem offT_of_le {ofs : ℕ} (hlen : f.length < 2 ^ 31) (hofs : ofs ≤ f.length) : offT ofs = ofs :=
  if_pos (lt_of_le_of_lt hofs hlen)

theorem offT_out {ofs : ℕ} (hofs : ofs < 2 ^ 32) (hout : f.length < ofs) :
    offT ofs < 0 ∨ (f.length : ℤ) < offT ofs := by
  unfold offT
  split_ifs <;> omega

/-- **The loop over the program headers**: no assertion fails, and it gets to the end exactly if no header is refused
and all segments can be registered. -/
theorem loadPhdrs_yields (hlen : f.length < 2 ^ 31) : ∀ {left i ofs : ℕ} {vm : VM}, ofs < 2 ^ 32 →
    Yields (loadPhdrs pid env file f left i (offT ofs)) vm fun r vm' => Adds vm vm' ∧
      (r = true ↔ ∃ ps, accepted env f left i ofs = some ps ∧ Fits env ps ∧ Free pid (segmentPages ps) vm) ∧
      (r = true → ∀ ps, accepted env f left i ofs = some ps → Takes pid (segmentPages ps) vm vm') := by
  intro left
  induction left with
  | zero =>
    intro i ofs vm _
    refine .pure ⟨.refl vm, ⟨fun _ => ⟨[], rfl, ⟨nofun, List.nodup_nil⟩, nofun⟩, fun _ => rfl⟩, ?_⟩
    rintro - ps ⟨⟩ u
    exact ⟨fun h => ⟨h, List.not_mem_nil⟩, And.left⟩
  | succ left ih =>
    intro i ofs vm hofs
    -- a header that cannot be read
    have hrefuse : ∀ vm, ¬(env.read (i + 1) ∧ ofs + sizeofPhdr ≤ f.length) → Adds vm vm ∧
        (false = true ↔ ∃ ps, accepted env f (left + 1) i ofs = some ps ∧ Fits env ps ∧
          Free pid (segmentPages ps) vm) ∧
        (false = true → ∀ ps, accepted env f (left + 1) i ofs = some ps → Takes pid (segmentPages ps) vm vm) := by
      intro vm hno
      rw [accepted, if_neg hno]
      exact ⟨.refl vm, ⟨nofun, nofun⟩, nofun⟩
    rw [loadPhdrs]
    by_cases hout : f.length < ofs
    · rw [if_pos (offT_out hofs hout)]
      exact .pure (hrefuse vm fun h => by omega)
    rw [offT_of_le hlen (not_lt.mp hout), if_neg (by omega)]
    refine .bind (.assert (decide_eq_true (Int.natCast_nonneg ofs)) ?_)
    have hcond : (env.read (i + 1) ∧ (ofs : ℤ) + sizeofPhdr ≤ f.length) ↔
        env.read (i + 1) ∧ ofs + sizeofPhdr ≤ f.length := and_congr_right fun _ => by omega
    by_cases hread : env.read (i + 1) ∧ ofs + sizeofPhdr ≤ f.length
    swap
    · rw [if_neg (hcond.not.mpr hread)]
      exact .pure (hrefuse vm hread)
    rw [if_pos (hcond.mpr hread)]
    have hnext : ((ofs : ℤ) + sizeofPhdr) = offT (ofs + sizeofPhdr) := by
      rw [offT_of_le hlen hread.2]
      rfl
    have hlt : (ofs : ℤ) + sizeofPhdr < 2 ^ 31 := by omega
    refine .bind (.assert (decide_eq_true hlt) ?_)
    have hnextlt : ofs + sizeofPhdr < 2 ^ 32 := by omega
    have hrest := fun vm => (ih hnextlt : Yields (loadPhdrs pid env file f left (i + 1) (offT (ofs + sizeofPhdr)))
      vm _)
    rw [hnext, Int.toNat_natCast, accepted, if_pos hread]
    set p := readPhdr f ofs with hp
    dsimp only
    cases hkind : phdrKind p.pType with
    | ignored => exact hrest vm
    | refused => exact .pure ⟨.refl vm, ⟨nofun, nofun⟩, nofun⟩
    | load =>
      dsimp only
      by_cases hvalid : validateSegment f p = true
      swap
      · rw [if_neg hvalid, if_neg hvalid]
        exact .pure ⟨.refl vm, ⟨nofun, nofun⟩, nofun⟩
      rw [if_pos hvalid, if_pos hvalid]
      have hw : Words p := words_readPhdr f ofs
      refine .bind ((loadPhdr_yields hw (valid_of_validateSegment hw hvalid)).mono ?_)
      rintro r vm₁ ⟨⟨m, -, hin, hm⟩, hcan⟩
      cases r with
      | false =>
        have hcannot : ¬CanAdd pid (env.segment i) vm 0 (firstPage p) (endPage p - firstPage p) := fun h =>
          Bool.false_ne_true (hcan.mpr h)
        refine .pure ⟨hin.adds, ⟨nofun, ?_⟩, nofun⟩
        rintro ⟨ps, hps, hfits, hfree⟩
        obtain ⟨rest, -, rfl⟩ := Option.map_eq_some_iff.mp hps
        refine absurd (canAdd_iff.mpr ⟨hfits.memory (i, p) List.mem_cons_self, fun u hu => hfree u ?_⟩) hcannot
        rw [segmentPages_cons]
        exact List.mem_append_left _ hu
      | true =>
        obtain rfl := hm rfl
        have htakes := takes_of_pagesIn hin
        rw [if_pos rfl]
        refine (hrest vm₁).mono fun r vm' ⟨hadds, hr, hr'⟩ => ⟨hin.adds.trans hadds, ?_, fun hrt ps hps u => ?_⟩
        · rw [hr]
          constructor
          · rintro ⟨rest, hrest, hfits⟩
            exact ⟨(i, p) :: rest, by rw [hrest]; rfl, (fits_cons htakes).mpr ⟨hcan.mp rfl, hfits⟩⟩
          · rintro ⟨ps, hps, hfits⟩
            obtain ⟨rest, hrest, rfl⟩ := Option.map_eq_some_iff.mp hps
            exact ⟨rest, hrest, ((fits_cons htakes).mp hfits).2⟩
        · obtain ⟨rest, hrest, rfl⟩ := Option.map_eq_some_iff.mp hps
          rw [hr' hrt rest hrest u, htakes u, segmentPages_cons, List.mem_append, not_or, and_assoc]

/-- **The list of the steps of `load`** is right: the program headers that are accepted give the steps of their
segments. -/
theorem phdrSteps_of_accepted {rest : List LoadStep} : ∀ {left i ofs : ℕ} {ps : List (ℕ × Phdr)},
    accepted env f left i ofs = some ps →
      phdrSteps file f rest ofs left = (ps.flatMap fun q => segmentSteps file q.2) ++ rest := by
  intro left
  induction left with
  | zero =>
    rintro i ofs ps ⟨⟩
    rfl
  | succ left ih =>
    intro i ofs ps h
    rw [accepted] at h
    split_ifs at h with hread
    rw [phdrSteps, if_neg (by omega)]
    dsimp only at h ⊢
    split
    · rename_i htype
      rw [htype] at h
      dsimp only [phdrKind] at h
      split_ifs at h with hvalid
      obtain ⟨ps, hps, rfl⟩ := Option.map_eq_some_iff.mp h
      rw [if_pos hvalid, ih hps, List.flatMap_cons, List.append_assoc]
    case h_2 htype | h_3 htype | h_4 htype =>
      rw [htype] at h
      cases h
    · rename_i h1 h2 h3 h5
      have hkind : phdrKind (readPhdr f ofs).pType = .ignored := by
        unfold phdrKind
        split <;> simp_all
      rw [hkind] at h
      exact ih h

/-! ### The stack page -/

/-- `palloc_free_page` takes the address. -/
def Harmless (vm : VM) : Unset → Prop
  | .null => True
  | .user f => vm.Allocated f
  | .kernel used => used = true
  | .other => False

theorem freeKpage_returns_iff : ∀ kpage : Unset, Returns (freeKpage kpage) vm ↔ Harmless vm kpage
  | .null => ⟨fun _ => trivial, fun _ => .pure trivial⟩
  | .user f => by
    have hfree : Ensures (pallocFreePage f) vm fun _ _ => vm.Allocated f := pallocFreePage_ensures fun h => h
    exact ⟨fun ⟨a, s', hrun, _⟩ => hfree a s' hrun, pallocFreePage_returns⟩
  | .kernel true => ⟨fun _ => rfl, fun _ => .pure trivial⟩
  | .kernel false => ⟨nofun, nofun⟩
  | .other => ⟨nofun, nofun⟩

/-- **From `setup_stack` on nothing goes wrong**: the stack page is not there yet, and there is a frame and a page
table for it, or the vpage gets no memory and the variable `kpage` happens to hold what can be freed. -/
def StackReady (pid : Pid) (env : LoadEnv) (vm : VM) : Prop :=
  if env.stack.malloc = true then
    vm.find ⟨pid, stackUpage⟩ = none ∧ FrameReady env.stack vm ∧ env.stack.table = true
  else Harmless vm env.kpage

theorem passToStack_returns {paddr : Frame} (hd : vm.pagedir pid = some d)
    (he : vm.pte d stackUpage = some ⟨paddr, true⟩) (h0 : 0 ∉ cmdLine) (hline : cmdLine.length ≤ 2047) :
    Returns (passToStack pid cmdLine) vm := by
  obtain ⟨m, r, hpass, hin, -⟩ := passArguments_returns (stackMemory (vm.mem paddr)).byte h0 hline
  have hall : (m.written.all fun a => a / pgSize = stackUpage) = true := by
    rw [List.all_eq_true]
    intro a ha
    obtain ⟨h1, h2⟩ := hin a ha
    unfold UserMem.physBase UserMem.pgSize at *
    unfold stackUpage physBase pgSize
    exact decide_eq_true (by omega)
  refine .bind (.get (.bind (.deref hd (.bind (.deref he (.bind (.assert rfl (.bind (.deref hpass ?_)))))))))
  exact .bind (.assert hall (.bind (.set (.pure trivial))))

/-- A new page directory maps nothing, also after an eviction. -/
theorem got_empty {vm₁ : VM} {paddr : Frame} (hgot : Got vm paddr vm₁) (hpd : vm.pagedirs d = some .empty) :
    (vm₁.pagedirs d).isSome = true ∧ ∀ u, vm₁.pte d u = none := by
  have hpte : ∀ u, vm.pte d u = none := fun u => by
    rw [VM.pte, hpd]
    rfl
  cases hgot with
  | take => exact ⟨hpd ▸ rfl, hpte⟩
  | @evict v i n =>
    have hlive : ((unmapPage vm i.pagedir v.uaddr).pagedirs d).isSome = (vm.pagedirs d).isSome :=
      isSome_pagedirs_setPagedir_map
    refine ⟨hlive.trans (hpd ▸ rfl), fun u => ?_⟩
    have hun : (unmapPage vm i.pagedir v.uaddr).pte d u = none := by
      rw [pte_unmapPage]
      split_ifs
      · rfl
      · exact hpte u
    exact hun

theorem hasTable_empty {vm₁ : VM} {paddr : Frame} {table : Bool} {u : ℕ} (hgot : Got vm paddr vm₁)
    (hpd : vm.pagedirs d = some .empty) : HasTable vm₁ d u table ↔ table = true := by
  rw [got_hasTable hgot]
  constructor
  · rintro (h | ⟨pd, hpd', ht⟩)
    · exact h
    · obtain rfl : PageDir.empty = pd := by simpa [hpd] using hpd'
      cases ht
  · exact .inl

section Stack

variable (hd : vm.pagedir pid = some d) (hpd : vm.pagedirs d = some .empty)
include hd hpd

/-- Without a page table the arguments cannot be stored. -/
theorem loadStack_ready (hm : env.stack.malloc = true) : Ensures (loadStack pid env cmdLine) vm fun _ _ =>
    vm.find ⟨pid, stackUpage⟩ = none ∧ FrameReady env.stack vm ∧ env.stack.table = true := by
  unfold loadStack setupStack inmemAllocate
  rw [if_pos hm]
  refine .bind (.bind (.bind fun paddr vm₁ hframe => ?_))
  have hgot := getFrame_ensures paddr vm₁ hframe
  refine .bind (.get (.bind (.deref fun d₁ hd₁ => .bind (.assert fun hnone => .bind (.set (.bind ?_))))))
  obtain rfl : d₁ = d := by
    rw [got_pagedir hgot, hd] at hd₁
    exact (Option.some.inj hd₁).symm
  refine pagedirSetPage_ensures (fun _ _ ht => .pure (.pure ?_)) fun _ => .pure (.pure ?_)
  · refine fun _ _ _ => ⟨(got_find_eq_none hgot).mp (Option.isNone_iff_eq_none.mp hnone), ?_, ?_⟩
    · exact getFrame_returns_iff.mp ⟨paddr, vm₁, hframe, trivial⟩
    · exact (hasTable_empty hgot hpd).mp ht
  · refine .bind (.get (.bind (.deref fun d₂ hd₂ => .bind (.deref fun e he => ?_))))
    obtain rfl : d₂ = d₁ := Option.some.inj (hd₂.symm.trans hd₁)
    have hpte := (got_empty hgot hpd).2 stackUpage
    cases hpte.symm.trans he

theorem loadStack_returns (hm : env.stack.malloc = true) (hnone : vm.find ⟨pid, stackUpage⟩ = none)
    (hframe : FrameReady env.stack vm) (ht : env.stack.table = true) (h0 : 0 ∉ cmdLine)
    (hline : cmdLine.length ≤ 2047) : Returns (loadStack pid env cmdLine) vm := by
  unfold loadStack setupStack inmemAllocate
  rw [if_pos hm]
  have hgot := (getFrame_returns_iff.mpr hframe).and_ensures getFrame_ensures
  refine .bind (.bind (.bind (hgot.mono fun paddr vm₁ ⟨_, hgot⟩ => ?_)))
  have hd₁ : vm₁.pagedir pid = some d := (got_pagedir hgot).symm ▸ hd
  have hnone₁ : (vm₁.find ⟨pid, stackUpage⟩).isNone = true :=
    Option.isNone_iff_eq_none.mpr ((got_find_eq_none hgot).mpr hnone)
  obtain ⟨hlive, hpte⟩ := got_empty hgot hpd
  refine .bind (.get (.bind (.deref hd₁ (.bind (.assert hnone₁ (.bind (.set (.bind ?_))))))))
  set vm₂ := addVpage vm₁ ⟨stackUpage, true, pid, .inmem ⟨paddr, d, env.stack.now⟩⟩
  have hset : Yields (pagedirSetPage d stackUpage paddr true env.stack.table) vm₂ fun _ vm₃ =>
      vm₃ = mapPage vm₂ d stackUpage ⟨paddr, true⟩ := by
    have hin : Ensures (pagedirSetPage d stackUpage paddr true env.stack.table) vm₂ fun _ vm₃ =>
        vm₃ = mapPage vm₂ d stackUpage ⟨paddr, true⟩ :=
      pagedirSetPage_ensures (fun _ _ _ => rfl) fun hno => absurd (.inl ht) hno
    have hret : Returns (pagedirSetPage d stackUpage paddr true env.stack.table) vm₂ :=
      pagedirSetPage_returns (by decide) hlive (hpte stackUpage)
    exact (hret.and_ensures hin).mono fun _ _ h => h.2
  refine hset.mono ?_
  rintro _ _ rfl
  have he : (mapPage vm₂ d stackUpage ⟨paddr, true⟩).pte d stackUpage = some ⟨paddr, true⟩ := by
    have hlive₂ : (vm₂.pagedirs d).isSome = true := hlive
    rw [pte_mapPage hlive₂, if_pos ⟨rfl, rfl⟩]
  exact .pure (.pure (passToStack_returns hd₁ he h0 hline))

/-- **From `setup_stack` on**, in a thread whose page directory is new. -/
theorem loadStack_returns_iff (h0 : 0 ∉ cmdLine) (hline : cmdLine.length ≤ 2047) :
    Returns (loadStack pid env cmdLine) vm ↔ StackReady pid env vm := by
  unfold StackReady
  by_cases hm : env.stack.malloc = true
  · rw [if_pos hm]
    constructor
    · rintro ⟨a, s', hrun, -⟩
      exact loadStack_ready hd hpd hm a s' hrun
    · exact fun ⟨hnone, hframe, ht⟩ => loadStack_returns hd hpd hm hnone hframe ht h0 hline
  · rw [if_neg hm, ← freeKpage_returns_iff]
    have hfree : Ensures (freeKpage env.kpage) vm fun _ _ => Returns (freeKpage env.kpage) vm :=
      fun a s' hrun => ⟨a, s', hrun, trivial⟩
    constructor
    · rintro ⟨a, s', hrun, -⟩
      suffices h : Ensures (loadStack pid env cmdLine) vm fun _ _ => Returns (freeKpage env.kpage) vm from h a s' hrun
      unfold loadStack setupStack inmemAllocate
      rw [if_neg hm]
      exact .bind (.bind (.pure (.bind (hfree.mono fun _ _ h => .pure (.pure h)))))
    · intro hfree
      unfold loadStack setupStack inmemAllocate
      rw [if_neg hm]
      exact .bind (.bind (.pure (.bind (hfree.mono fun _ _ _ => .pure (.pure trivial)))))

end Stack

/-! ### The whole of load -/

/-- Lazy vpages are not evicted. -/
theorem foldl_lruStep_append : ∀ (new l : List VpageInfo) (lru : Option (VpageInfo × InfoInmem)),
    (∀ v ∈ new, ∃ i, v.backend = .lazy i) → (new ++ l).foldl lruStep lru = l.foldl lruStep lru
  | [], _, _, _ => rfl
  | v :: new, l, lru, h => by
    obtain ⟨i, hi⟩ := h v List.mem_cons_self
    have hv : lruStep lru v = lru := by rw [lruStep, hi]
    rw [List.cons_append, List.foldl_cons, hv]
    exact foldl_lruStep_append new l lru fun w hw => h w (List.mem_cons_of_mem v hw)

theorem frameReady_of_adds {e : Env} (h : Adds vm vm') : FrameReady e vm' ↔ FrameReady e vm := by
  obtain ⟨new, rfl, hlazy⟩ := h
  unfold FrameReady CanEvict
  rw [foldl_lruStep_append new vm.map none hlazy]
  rfl

/-- **The end of `load` is safe**: no segment covers the stack page, and there is a frame and a page table for it, or
the vpage gets no memory and the variable `kpage` happens to hold what can be freed. -/
def StackSafe (env : LoadEnv) (ps : List (ℕ × Phdr)) (vm : VM) : Prop :=
  if env.stack.malloc = true then
    stackUpage ∉ segmentPages ps ∧ FrameReady env.stack vm ∧ env.stack.table = true
  else Harmless vm env.kpage

/-- `load` gets to `setup_stack` with these segments. -/
structure Reaches (env : LoadEnv) (f : FileData) (ps : List (ℕ × Phdr)) : Prop where
  read : env.read 0 = true
  ehdr : ehdrOk f = true
  accepted : accepted env f (le16 f 44) 0 (le32 f 28) = some ps
  fits : Fits env ps

theorem stackReady_iff {ps : List (ℕ × Phdr)} (hadds : Adds vm vm') (htakes : Takes pid (segmentPages ps) vm vm')
    (hnew : ∀ u, vm.find ⟨pid, u⟩ = none) : StackReady pid env vm' ↔ StackSafe env ps vm := by
  have hharmless : Harmless vm' env.kpage ↔ Harmless vm env.kpage := by
    obtain ⟨new, rfl, -⟩ := hadds
    cases env.kpage <;> rfl
  unfold StackReady StackSafe
  rw [frameReady_of_adds hadds, htakes stackUpage, hharmless]
  split_ifs with hm
  · exact and_congr_left fun _ => ⟨And.right, fun h => ⟨hnew _, h⟩⟩
  · exact Iff.rfl

/-- The program headers, and from `setup_stack` on, for a file that is open. -/
theorem loadFile_returns_iff (hd : vm.pagedir pid = some d) (hpd : vm.pagedirs d = some .empty)
    (hnew : ∀ u, vm.find ⟨pid, u⟩ = none) (hlen : (vm.files file).length < 2 ^ 31) (h0 : 0 ∉ cmdLine)
    (hline : cmdLine.length ≤ 2047) :
    Returns (loadFile pid env file cmdLine) vm ↔ ∀ ps, Reaches env (vm.files file) ps → StackSafe env ps vm := by
  set f := vm.files file with hf
  have hofs : le32 f 28 < 2 ^ 32 := UserPages.le32_lt f 28
  have hphdrs : Yields (loadPhdrs pid env file f (le16 f 44) 0 (offT (le32 f 28))) vm _ := loadPhdrs_yields hlen hofs
  obtain ⟨r, vm₁, hrun, hadds, hr, htakes⟩ := hphdrs
  have hd₁ : vm₁.pagedir pid = some d := by
    obtain ⟨new, rfl, -⟩ := hadds
    exact hd
  have hpd₁ : vm₁.pagedirs d = some .empty := by
    obtain ⟨new, rfl, -⟩ := hadds
    exact hpd
  have hstack : Returns (loadStack pid env cmdLine) vm₁ ↔ StackReady pid env vm₁ :=
    loadStack_returns_iff hd₁ hpd₁ h0 hline
  by_cases hc : env.read 0 = true ∧ ehdrOk f = true
  swap
  · refine ⟨fun _ ps hps => absurd ⟨hps.read, hps.ehdr⟩ hc, fun _ => .bind (.get ?_)⟩
    rw [if_neg hc]
    exact .pure trivial
  have hrest : Returns (loadFile pid env file cmdLine) vm ↔
      Returns (if r = true then loadStack pid env cmdLine else pure false) vm₁ := by
    have heq : loadFile pid env file cmdLine vm =
        (if r = true then loadStack pid env cmdLine else pure false : Op VM Bool) vm₁ := by
      show (if env.read 0 = true ∧ ehdrOk f = true then _ else _ : Op VM Bool) vm = _
      rw [if_pos hc, bind_apply, hrun]
      rfl
    unfold Returns Yields
    rw [heq]
  rw [hrest]
  cases r with
  | false =>
    refine ⟨fun _ ps hps => absurd (hr.mpr ⟨ps, hps.accepted, hps.fits, fun u _ => hnew u⟩) Bool.false_ne_true, ?_⟩
    exact fun _ => .pure trivial
  | true =>
    rw [if_pos rfl, hstack]
    obtain ⟨ps, hps, hfits, -⟩ := hr.mp rfl
    rw [stackReady_iff hadds (htakes rfl ps hps) hnew]
    refine ⟨fun hsafe ps' hps' => ?_, fun h => h ps ⟨hc.1, hc.2, hps, hfits⟩⟩
    obtain rfl : ps = ps' := Option.some.inj (hps.symm.trans hps'.accepted)
    exact hsafe

/-- **`load` returns exactly if its end is safe**, for every file, every command line with a name that fits, and
whatever the rest of the kernel does: it gives up before `setup_stack`, or finds there what it needs. -/
theorem load_returns_iff (hnew : ∀ u, vm.find ⟨pid, u⟩ = none) (hlen : ∀ file, (vm.files file).length < 2 ^ 31)
    (h0 : 0 ∉ cmdLine) (hline : cmdLine.length ≤ 2047) (hname : fileNameLen cmdLine + 1 < sizeofFileName) :
    Returns (load pid env cmdLine) vm ↔ ∀ d file, env.pagedir = some d → env.file = some file →
      ∀ ps, Reaches env (vm.files file) ps → StackSafe env ps (createPagedir vm pid d) := by
  unfold load
  cases hd : env.pagedir with
  | none => exact ⟨fun _ => nofun, fun _ => .pure trivial⟩
  | some d =>
    have hname' : decide (fileNameLen cmdLine + 1 < sizeofFileName) = true := decide_eq_true hname
    dsimp only
    rw [hname']
    cases hfile : env.file with
    | none => exact ⟨fun _ => nofun, fun _ => .bind (.modify (.bind (.assert rfl (.pure trivial))))⟩
    | some file =>
      have hpagedir : (createPagedir vm pid d).pagedir pid = some d := by simp [createPagedir]
      have hpd : (createPagedir vm pid d).pagedirs d = some .empty := by simp [createPagedir, VM.setPagedir]
      have hiff : Returns (loadFile pid env file cmdLine) (createPagedir vm pid d) ↔ _ :=
        loadFile_returns_iff hpagedir hpd hnew (hlen file) h0 hline
      constructor
      · rintro hret d' file' hd' hfile'
        obtain rfl := Option.some.inj hd'
        obtain rfl := Option.some.inj hfile'
        exact hiff.mp hret
      · exact fun h => hiff.mpr (h d file rfl rfl)

/-! ### A segment on the stack page -/

/-- An executable with one segment of a zero byte, at the address with these bytes. -/
def oneSegment (vaddr : List UInt8) : FileData where
  length := 84
  bytes i :=
    (elfMagic ++ [0, 0, 0, 0, 0, 0, 0, 0, 0] ++ [2, 0, 3, 0, 1, 0, 0, 0] ++ [0, 0, 0, 0, 52, 0, 0, 0, 0, 0, 0, 0] ++
      [0, 0, 0, 0, 52, 0, 32, 0, 1, 0, 0, 0, 0, 0, 0, 0] ++ [1, 0, 0, 0, 0, 0, 0, 0] ++ vaddr ++
      [0, 0, 0, 0, 0, 0, 0, 0, 1, 0, 0, 0, 6, 0, 0, 0, 0, 16, 0, 0]).getD i 0

/-- There is plenty of memory. -/
def plentyEnv : LoadEnv := ⟨some 0, some 0, fun _ => true, fun _ _ => plenty, plenty, .null⟩

/-- A machine without processes, and with a free frame. -/
def freshMachine (f : FileData) : VM where
  map := []
  pagedirs := fun _ => none
  pagedir := fun _ => none
  userPool := [false]
  mem := fun _ _ => 0
  swapMap := List.replicate 8 false
  swapBlock := fun _ _ => 0
  files := fun _ => f

/-- **`NOT_REACHED` is reached** by a segment at `0xbffff000`. -/
theorem not_load_returns : ¬Returns (load 1 plentyEnv [97]) (freshMachine (oneSegment [0, 0xf0, 0xff, 0xbf])) := by
  have hnone : (load 1 plentyEnv [97] (freshMachine (oneSegment [0, 0xf0, 0xff, 0xbf]))).isNone = true := by
    decide +kernel
  rintro ⟨a, s', hrun, -⟩
  rw [hrun] at hnone
  cases hnone

/-- A segment at `0x08048000`. -/
theorem load_returns_code : Returns (load 1 plentyEnv [97]) (freshMachine (oneSegment [0, 0x80, 0x04, 0x08])) := by
  set f := oneSegment [0, 0x80, 0x04, 0x08] with hf
  have hlen : f.length < 2 ^ 31 := by decide
  refine (load_returns_iff (fun _ => rfl) (fun _ => hlen) (by decide) (by decide) (by decide)).mpr ?_
  intro d file _ _ ps hps
  have hpages : (accepted plentyEnv f (le16 f 44) 0 (le32 f 28)).map segmentPages = some [0x8048] := by decide +kernel
  have haccepted : accepted plentyEnv f (le16 f 44) 0 (le32 f 28) = some ps := hps.accepted
  rw [haccepted] at hpages
  have hseg : segmentPages ps = [0x8048] := Option.some.inj hpages
  have hm : plentyEnv.stack.malloc = true := rfl
  unfold StackSafe
  rw [if_pos hm, hseg]
  exact ⟨by decide, .inl rfl, rfl⟩

end Pintos.Userprog.Loader
