import Pintos.Userprog.PageEntries

/-! # Page directories

`userprog/pagedir.c`: the two-level tables of a page directory in memory. Memory is read and written by
page and index, a page has 1024 words. What the page allocator returns is told to each call; a page that is
freed is noted and its contents are lost. -/

namespace Pintos.Userprog.PageDirectory

open Pintos.Lib.Ops Pintos.Userprog.PageEntries

/-- Memory, and the pages freed so far. -/
structure State where
  mem : Word → ℕ → Word
  freed : List Word

/-- Overwrites a page. -/
def fill (p : Word) (words : ℕ → Word) : Op State Unit :=
  modify fun s => { s with mem := Function.update s.mem p words }

/-- `p[i] = w`. -/
def store (p : Word) (i : ℕ) (w : Word) : Op State Unit := modify fun s =>
  { s with mem := Function.update s.mem p (Function.update (s.mem p) i w) }

/-- `palloc_get_page`, which returns `alloc`. -/
def pallocGetPage (zero : Bool) (alloc : Option Word) : Op State (Option Word) :=
  match alloc with
  | some p => if zero then do
      fill p fun _ => 0
      pure (some p)
    else pure (some p)
  | none => pure none

/-- `palloc_free_page`, which fills the page with `0xcc`. -/
def pallocFreePage (p : Word) : Op State Unit := do
  fill p fun _ => 0xcccccccc#32
  modify fun s => { s with freed := s.freed ++ [p] }

variable (initPageDir : Word) (initRamPages : ℕ)

/-- `pagedir_create`. -/
def pagedirCreate (alloc : Option Word) : Op State (Option Word) := do
  match ← pallocGetPage false alloc with
  | some pd => do
    let s ← get
    fill pd (s.mem initPageDir)
    pure (some pd)
  | none => pure none

/-- The page table for `vaddr` in `paging_init`. -/
def pagingInitTable (alloc : Option Word) (pd pt vaddr : Word) : Op State Word := do
  let s ← get
  if s.mem pd (pdNo vaddr) = 0 then do
    let pt ← deref (← pallocGetPage true alloc)
    store pd (pdNo vaddr) (← pdeCreate pt)
    pure pt
  else pure pt

/-- The loop of `paging_init`, over the pages of memory: `inKernelText` are the addresses of the kernel's code. -/
def pagingInitLoop (inKernelText : Word → Bool) (alloc : ℕ → Option Word) (pd : Word) : ℕ → ℕ → Word → Op State Unit
  | 0, _, _ => pure ()
  | pages + 1, page, pt => do
    let vaddr ← ptov (BitVec.ofNat 32 page <<< 12)
    let pt ← pagingInitTable (alloc page) pd pt vaddr
    let pte ← pteCreateKernel vaddr (!inKernelText vaddr)
    store pt (ptNo vaddr) pte
    pagingInitLoop inKernelText alloc pd pages (page + 1) pt

/-- `paging_init`; it returns `init_page_dir`. -/
def pagingInit (inKernelText : Word → Bool) (alloc₀ : Option Word) (alloc : ℕ → Option Word) : Op State Word := do
  let pd ← deref (← pallocGetPage true alloc₀)
  pagingInitLoop inKernelText alloc pd initRamPages 0 0
  pure pd

/-- `pagedir_destroy`. -/
def pagedirDestroy (pd : Word) : Op State Unit :=
  if pd = 0 then pure () else do
    assert (pd ≠ initPageDir)
    (List.range (pdNo physBase)).forM fun i => do
      let s ← get
      let pde := s.mem pd i
      if pde &&& pteP ≠ 0 then do
        let pt ← pdeGetPt pde
        (List.range 1024).forM fun j => do
          let s ← get
          let pte := s.mem pt j
          if pte &&& pteP ≠ 0 then do
            let page ← pteGetPage pte
            pallocFreePage page
          else pure ()
        pallocFreePage pt
      else pure ()
    pallocFreePage pd

/-- The entry for `vaddr` in the page table of a directory entry. -/
def tableEntry (pde vaddr : Word) : Op State (Option (Word × ℕ)) := do
  let pt ← pdeGetPt pde
  pure (some (pt, ptNo vaddr))

/-- `lookup_page`; the result is a pointer to an entry or a null pointer. -/
def lookupPage (pd vaddr : Word) (create : Bool) (alloc : Option Word) : Op State (Option (Word × ℕ)) := do
  assert (pd ≠ 0)
  assert (!create || isUserVaddr vaddr)
  let s ← get
  if s.mem pd (pdNo vaddr) = 0 then
    if create then do
      match ← pallocGetPage true alloc with
      | some pt => do
        let pde ← pdeCreate pt
        store pd (pdNo vaddr) pde
        tableEntry pde vaddr
      | none => pure none
    else pure none
  else tableEntry (s.mem pd (pdNo vaddr)) vaddr

/-- The rest of `pagedir_set_page`, where there is an entry. -/
def setEntry (pt : Word) (i : ℕ) (kpage : Word) (writable : Bool) : Op State Bool := do
  let s ← get
  assert (s.mem pt i &&& pteP = 0)
  let pte ← pteCreateUser kpage writable
  store pt i pte
  pure true

/-- `pagedir_set_page`. -/
def pagedirSetPage (pd upage kpage : Word) (writable : Bool) (alloc : Option Word) : Op State Bool := do
  assert (pgOfs upage = 0)
  assert (pgOfs kpage = 0)
  assert (isUserVaddr upage)
  let p ← vtop kpage
  assert ((p >>> 12).toNat < initRamPages)
  assert (pd ≠ initPageDir)
  match ← lookupPage pd upage true alloc with
  | some (pt, i) => setEntry pt i kpage writable
  | none => pure false

/-- `pagedir_get_page`; `none` is a null pointer. -/
def pagedirGetPage (pd uaddr : Word) : Op State (Option Word) := do
  assert (isUserVaddr uaddr)
  match ← lookupPage pd uaddr false none with
  | some (pt, i) => do
    let s ← get
    if s.mem pt i &&& pteP ≠ 0 then do
      let page ← pteGetPage (s.mem pt i)
      pure (some (page + pgOfs uaddr))
    else pure none
  | none => pure none

/-- `pagedir_clear_page`; the translation buffer is not modelled. -/
def pagedirClearPage (pd upage : Word) : Op State Unit := do
  assert (pgOfs upage = 0)
  assert (isUserVaddr upage)
  match ← lookupPage pd upage false none with
  | some (pt, i) => do
    let s ← get
    if s.mem pt i &&& pteP ≠ 0 then store pt i (s.mem pt i &&& ~~~pteP) else pure ()
  | none => pure ()

/-! ### Directories as maps -/

/-- What a directory stands for: the page tables it has, by directory index, and the frames of its user pages,
by page number. -/
structure Directory where
  table : ℕ → Option Word
  frame : ℕ → Option Word

/-- A directory without user pages. -/
def Directory.empty : Directory := ⟨fun _ => none, fun _ => none⟩

/-- The entry says which frame a page has. -/
def Holds (w : Word) : Option Word → Prop
  | some f => KernelPage f ∧ Points w f
  | none => w &&& pteP = 0

/-- The directory at `pd` stands for `d`. -/
structure Maps (pd : Word) (mem : Word → ℕ → Word) (d : Directory) : Prop where
  nonnull : pd ≠ 0
  none_iff : ∀ i < 768, mem pd i = 0 ↔ d.table i = none
  points : ∀ i t, d.table i = some t → Points (mem pd i) t
  table : ∀ i t, d.table i = some t → i < 768 ∧ KernelPage t ∧ t ≠ pd
  inj : ∀ i i' t, d.table i = some t → d.table i' = some t → i = i'
  entry : ∀ i t, d.table i = some t → ∀ j < 1024, Holds (mem t j) (d.frame (i * 1024 + j))
  mapped : ∀ n f, d.frame n = some f → d.table (n / 1024) ≠ none ∧ f ≠ pd ∧ ∀ i, d.table i ≠ some f

variable {initPageDir initRamPages} {pd t u k w : Word} {mem : Word → ℕ → Word} {d : Directory} {s : State} {i : ℕ}
  {alloc : Option Word} {create writable : Bool}

namespace Maps

/-- A table that is created is one that nothing else uses, full of zeros. -/
theorem addTable (h : Maps pd mem d) (hi : i < 768) (hnone : d.table i = none) (ht : KernelPage t) (htpd : t ≠ pd)
    (hfresh : ∀ i, d.table i ≠ some t) (hframe : ∀ n, d.frame n ≠ some t) (hw : Points w t) :
    Maps pd (Function.update (Function.update mem t fun _ => 0) pd
      (Function.update (Function.update mem t (fun _ => 0) pd) i w))
      ⟨Function.update d.table i (some t), d.frame⟩ := by
  set mem' := Function.update (Function.update mem t fun _ => 0) pd
    (Function.update (Function.update mem t (fun _ => 0) pd) i w) with hmem'
  have hpd : ∀ i', mem' pd i' = if i' = i then w else mem pd i' := by
    intro i'
    rw [hmem', Function.update_self, Function.update_of_ne htpd.symm, Function.update_apply]
  have hpage : ∀ p, p ≠ pd → mem' p = if p = t then fun _ => 0 else mem p := by
    intro p hp
    rw [hmem', Function.update_of_ne hp, Function.update_apply]
  have htable : ∀ i', (Directory.mk (Function.update d.table i (some t)) d.frame).table i' =
      if i' = i then some t else d.table i' :=
    fun i' => Function.update_apply ..
  refine ⟨h.nonnull, fun i' hi' => ?_, fun i' t' h' => ?_, fun i' t' h' => ?_, fun i₁ i₂ t' h₁ h₂ => ?_,
    fun i' t' h' j hj => ?_, fun n f hf => ?_⟩
  · rw [hpd, htable]
    split_ifs
    · exact iff_of_false hw.ne_zero not_false
    · exact h.none_iff i' hi'
  · rw [htable] at h'
    rw [hpd]
    split_ifs at h' ⊢
    · obtain rfl := Option.some.inj h'
      exact hw
    · exact h.points i' t' h'
  · rw [htable] at h'
    split_ifs at h' with heq
    · obtain rfl := Option.some.inj h'
      exact ⟨heq ▸ hi, ht, htpd⟩
    · exact h.table i' t' h'
  · rw [htable] at h₁ h₂
    split_ifs at h₁ h₂ with heq₁ heq₂ heq₂
    · rw [heq₁, heq₂]
    · exact absurd (h₂.trans h₁.symm) (hfresh i₂)
    · exact absurd (h₁.trans h₂.symm) (hfresh i₁)
    · exact h.inj i₁ i₂ t' h₁ h₂
  · rw [htable] at h'
    split_ifs at h' with heq
    · obtain rfl := Option.some.inj h'
      have hunmapped : d.frame (i' * 1024 + j) = none := by
        by_contra hsome
        obtain ⟨f, hf⟩ := Option.ne_none_iff_exists'.mp hsome
        have hdiv : (i' * 1024 + j) / 1024 = i' := by omega
        exact (h.mapped _ f hf).1 (by rw [hdiv, heq, hnone])
      rw [hunmapped, hpage t htpd, if_pos rfl]
      exact BitVec.zero_and
    · rw [hpage t' (h.table i' t' h').2.2, if_neg fun e : t' = t => hfresh i' (e ▸ h')]
      exact h.entry i' t' h' j hj
  · obtain ⟨h1, h2, h3⟩ := h.mapped n f hf
    refine ⟨?_, h2, fun i' => ?_⟩
    · rw [htable]
      split_ifs
      · exact Option.some_ne_none t
      · exact h1
    · rw [htable]
      split_ifs
      · intro e
        exact hframe n (hf.trans e.symm)
      · exact h3 i'

/-- **An entry is written**, for a page whose table is there. -/
theorem storeEntry (h : Maps pd mem d) (ht : d.table (pdNo u) = some t) {o : Option Word} (hw : Holds w o)
    (ho : ∀ f, o = some f → f ≠ pd ∧ ∀ i, d.table i ≠ some f) :
    Maps pd (Function.update mem t (Function.update (mem t) (ptNo u) w))
      ⟨d.table, Function.update d.frame (pgNo u) o⟩ := by
  obtain ⟨hi, -, htpd⟩ := h.table _ t ht
  have hpd : Function.update mem t (Function.update (mem t) (ptNo u) w) pd = mem pd :=
    Function.update_of_ne htpd.symm ..
  have hno := pgNo_eq_pdNo_ptNo u
  have hptNo := ptNo_lt u
  refine ⟨h.nonnull, fun i hi => ?_, fun i t' h' => ?_, h.table, h.inj, fun i t' h' j hj => ?_, fun n f hf => ?_⟩
  · rw [hpd]
    exact h.none_iff i hi
  · rw [hpd]
    exact h.points i t' h'
  · have hentry := h.entry i t' h' j hj
    show Holds _ (Function.update d.frame (pgNo u) o (i * 1024 + j))
    by_cases htt : t' = t
    · subst htt
      obtain rfl := h.inj i _ _ h' ht
      rw [Function.update_self, Function.update_apply, Function.update_apply]
      split_ifs with h1 h2 h2
      · exact hw
      · omega
      · omega
      · exact hentry
    · have hne : i ≠ pdNo u := fun e => htt (Option.some.inj ((e ▸ h').symm.trans ht))
      rw [Function.update_of_ne htt, Function.update_of_ne (by omega)]
      exact hentry
  · have hf' : Function.update d.frame (pgNo u) o n = some f := hf
    by_cases hn : n = pgNo u
    · rw [hn, Function.update_self] at hf'
      have hdiv : n / 1024 = pdNo u := by omega
      exact ⟨by rw [hdiv, ht]; exact Option.some_ne_none t, ho f hf'⟩
    · rw [Function.update_of_ne hn] at hf'
      exact h.mapped n f hf'

end Maps

/-! ### Single operations -/

/-- Pages that are not of the directory, and the kernel's part of it, are as they were. -/
structure Kept (pd : Word) (mem mem' : Word → ℕ → Word) (d' : Directory) : Prop where
  pages : ∀ p, p ≠ pd → (∀ i, d'.table i ≠ some p) → mem' p = mem p
  kernel : ∀ i, 768 ≤ i → mem' pd i = mem pd i

theorem Kept.refl : Kept pd mem mem d := ⟨fun _ _ _ => rfl, fun _ _ => rfl⟩

theorem Kept.trans {mem₁ mem₂ : Word → ℕ → Word} {d₁ d₂ : Directory} (h : Kept pd mem mem₁ d₁)
    (h' : Kept pd mem₁ mem₂ d₂)
    (hd : ∀ i t, d₁.table i = some t → d₂.table i = some t) : Kept pd mem mem₂ d₂ := by
  refine ⟨fun p hp hfree => ?_, fun i hi => (h'.kernel i hi).trans (h.kernel i hi)⟩
  exact (h'.pages p hp hfree).trans (h.pages p hp fun i hi => hfree i (hd i p hi))

theorem tableEntry_yields {Q : Option (Word × ℕ) → State → Prop} (ht : KernelPage t) (hw : Points w t)
    (hQ : Q (some (t, ptNo u)) s) : Yields (tableEntry w u) s Q :=
  Yields.bind (pdeGetPt_yields ht hw (Yields.pure hQ))

namespace Maps

/-- `lookup_page` where the table is there. -/
theorem lookupPage_some {Q : Option (Word × ℕ) → State → Prop} (h : Maps pd s.mem d) (hu : isUserVaddr u = true)
    (ht : d.table (pdNo u) = some t) (hQ : Q (some (t, ptNo u)) s) : Yields (lookupPage pd u create alloc) s Q := by
  obtain ⟨hi, htk, -⟩ := h.table _ t ht
  have hpoints := h.points _ t ht
  refine Yields.bind (Yields.assert (decide_eq_true h.nonnull) ?_)
  refine Yields.bind (Yields.assert (by rw [hu, Bool.or_true]) (Yields.bind (Yields.get ?_)))
  rw [if_neg hpoints.ne_zero]
  exact tableEntry_yields htk hpoints hQ

/-- `lookup_page` where there is no table and none is made. -/
theorem lookupPage_none {Q : Option (Word × ℕ) → State → Prop} (h : Maps pd s.mem d) (hu : isUserVaddr u = true)
    (ht : d.table (pdNo u) = none) (hcreate : create = true → alloc = none) (hQ : Q none s) :
    Yields (lookupPage pd u create alloc) s Q := by
  refine Yields.bind (Yields.assert (decide_eq_true h.nonnull) ?_)
  refine Yields.bind (Yields.assert (by rw [hu, Bool.or_true]) (Yields.bind (Yields.get ?_)))
  rw [if_pos ((h.none_iff _ (pdNo_lt_of_user hu)).mpr ht)]
  cases create with
  | true =>
    rw [if_pos rfl, hcreate rfl]
    exact Yields.bind (Yields.pure (Yields.pure hQ))
  | false => exact Yields.pure hQ

/-- `lookup_page` that makes a table. -/
theorem lookupPage_create (h : Maps pd s.mem d) (hu : isUserVaddr u = true) (hnone : d.table (pdNo u) = none)
    (ht : KernelPage t)
    (htpd : t ≠ pd) (hfresh : ∀ i, d.table i ≠ some t) (hframe : ∀ n, d.frame n ≠ some t) :
    Yields (lookupPage pd u true (some t)) s fun r s' => r = some (t, ptNo u) ∧ s'.freed = s.freed ∧
      Maps pd s'.mem ⟨Function.update d.table (pdNo u) (some t), d.frame⟩ ∧
      Kept pd s.mem s'.mem ⟨Function.update d.table (pdNo u) (some t), d.frame⟩ := by
  have hi := pdNo_lt_of_user hu
  refine Yields.bind (Yields.assert (decide_eq_true h.nonnull) ?_)
  refine Yields.bind (Yields.assert (by rw [hu, Bool.or_true]) (Yields.bind (Yields.get ?_)))
  rw [if_pos ((h.none_iff _ hi).mpr hnone), if_pos rfl]
  refine Yields.bind (Yields.bind (Yields.modify (Yields.pure ?_)))
  refine Yields.bind (pdeCreate_yields ht fun w hw => Yields.bind (Yields.modify ?_))
  refine tableEntry_yields ht hw ⟨rfl, rfl, h.addTable hi hnone ht htpd hfresh hframe hw, fun p hp hfree => ?_,
    fun i hi' => ?_⟩
  · have hpt : p ≠ t := fun e => hfree (pdNo u) (by rw [e]; exact Function.update_self ..)
    show Function.update (Function.update s.mem t fun _ => 0) pd _ p = s.mem p
    rw [Function.update_of_ne hp]
    exact Function.update_of_ne hpt ..
  · show Function.update (Function.update s.mem t fun _ => 0) pd (Function.update _ (pdNo u) w) pd i = s.mem pd i
    rw [Function.update_self, Function.update_of_ne (by omega)]
    exact congrFun (Function.update_of_ne htpd.symm ..) i

end Maps

/-! ### Runs -/

/-- A call on the directory. -/
inductive Request where
  | set (upage kpage : Word) (writable : Bool) (alloc : Option Word)
  | get (uaddr : Word)
  | clear (upage : Word)

/-- What a call returns. -/
inductive Reply where
  | set (success : Bool)
  | get (page : Option Word)
  | clear
  deriving DecidableEq

/-- A call and its result. -/
def perform (initPageDir : Word) (initRamPages : ℕ) (pd : Word) : Request → Op State Reply
  | .set upage kpage writable alloc =>
    return .set (← pagedirSetPage initPageDir initRamPages pd upage kpage writable alloc)
  | .get uaddr => return .get (← pagedirGetPage pd uaddr)
  | .clear upage => do
    pagedirClearPage pd upage
    return .clear

/-- A sequence of calls. -/
def performAll (initPageDir : Word) (initRamPages : ℕ) (pd : Word) : List Request → Op State (List Reply)
  | [] => pure []
  | request :: requests => do
    let reply ← perform initPageDir initRamPages pd request
    let replies ← performAll initPageDir initRamPages pd requests
    pure (reply :: replies)

/-- What a call means for the map: a page is set unless its page table is missing and cannot be made. -/
def answer (d : Directory) : Request → Directory × Reply
  | .set upage kpage _ alloc =>
    match d.table (pdNo upage), alloc with
    | none, none => (d, .set false)
    | none, some t => (⟨Function.update d.table (pdNo upage) (some t),
        Function.update d.frame (pgNo upage) (some kpage)⟩, .set true)
    | some _, _ => (⟨d.table, Function.update d.frame (pgNo upage) (some kpage)⟩, .set true)
  | .get uaddr => (d, .get ((d.frame (pgNo uaddr)).map (· + pgOfs uaddr)))
  | .clear upage => (⟨d.table, Function.update d.frame (pgNo upage) none⟩, .clear)

/-- What a sequence of calls means. -/
def answers (d : Directory) : List Request → Directory × List Reply
  | [] => (d, [])
  | request :: requests =>
    let r := answer d request
    let rs := answers r.1 requests
    (rs.1, r.2 :: rs.2)

/-- What a caller of `pagedir_set_page` keeps to: the page is not present, and the frame is a page of memory
that is not part of the directory. -/
structure SetOk (initRamPages : ℕ) (pd : Word) (d : Directory) (upage kpage : Word) : Prop where
  aligned : pgOfs upage = 0
  user : isUserVaddr upage = true
  page : KernelPage kpage
  ram : ((kpage - physBase) >>> 12).toNat < initRamPages
  absent : d.frame (pgNo upage) = none
  apart : kpage ≠ pd ∧ ∀ i, d.table i ≠ some kpage

/-- What the page allocator keeps to: a page that it returns is not in use. `busy` are the pages in use elsewhere. -/
structure AllocOk (busy : Word → Prop) (pd : Word) (d : Directory) (kpage t : Word) : Prop where
  page : KernelPage t
  free : ¬busy t
  ne_pd : t ≠ pd
  ne_kpage : t ≠ kpage
  no_table : ∀ i, d.table i ≠ some t
  no_frame : ∀ n, d.frame n ≠ some t

/-- A call as its caller and the page allocator keep to. -/
def RequestOk (busy : Word → Prop) (initRamPages : ℕ) (pd : Word) (d : Directory) : Request → Prop
  | .set upage kpage _ alloc => SetOk initRamPages pd d upage kpage ∧ ∀ t, alloc = some t → AllocOk busy pd d kpage t
  | .get uaddr => isUserVaddr uaddr = true
  | .clear upage => pgOfs upage = 0 ∧ isUserVaddr upage = true

/-- A sequence of such calls. -/
def RequestsOk (busy : Word → Prop) (initRamPages : ℕ) (pd : Word) : Directory → List Request → Prop
  | _, [] => True
  | d, request :: requests => RequestOk busy initRamPages pd d request ∧
      RequestsOk busy initRamPages pd (answer d request).1 requests

/-- What a call keeps. -/
structure Step (pd : Word) (s s' : State) (d d' : Directory) : Prop where
  maps : Maps pd s'.mem d'
  kept : Kept pd s.mem s'.mem d'
  grows : ∀ i t, d.table i = some t → d'.table i = some t
  freed : s'.freed = s.freed

theorem answer_set_some (ht : d.table (pdNo u) = some t) : answer d (.set u k writable alloc) =
    (⟨d.table, Function.update d.frame (pgNo u) (some k)⟩, .set true) := by
  simp only [answer, ht]

theorem answer_set_none (ht : d.table (pdNo u) = none) : answer d (.set u k writable none) = (d, .set false) := by
  simp only [answer, ht]

theorem answer_set_create (ht : d.table (pdNo u) = none) : answer d (.set u k writable (some t)) =
    (⟨Function.update d.table (pdNo u) (some t), Function.update d.frame (pgNo u) (some k)⟩, .set true) := by
  simp only [answer, ht]

/-- Without a page table there is no frame. -/
theorem Maps.frame_none (h : Maps pd mem d) (ht : d.table (pdNo u) = none) : d.frame (pgNo u) = none := by
  by_contra hsome
  obtain ⟨f, hf⟩ := Option.ne_none_iff_exists'.mp hsome
  have hdiv : pgNo u / 1024 = pdNo u := by
    have h1 := pgNo_eq_pdNo_ptNo u
    have h2 := ptNo_lt u
    omega
  exact (h.mapped _ f hf).1 (by rw [hdiv, ht])

theorem Maps.setEntry_yields (h : Maps pd s.mem d) (hok : SetOk initRamPages pd d u k)
    (ht : d.table (pdNo u) = some t) :
    Yields (setEntry t (ptNo u) k writable) s fun r s' =>
      r = true ∧ Step pd s s' d ⟨d.table, Function.update d.frame (pgNo u) (some k)⟩ := by
  have hentry := h.entry _ t ht (ptNo u) (ptNo_lt u)
  rw [← pgNo_eq_pdNo_ptNo, hok.absent] at hentry
  refine Yields.bind (Yields.get (Yields.bind (Yields.assert (decide_eq_true hentry) ?_)))
  refine Yields.bind (pteCreateUser_yields hok.page fun w hw => Yields.bind (Yields.modify (Yields.pure ⟨rfl, ?_⟩)))
  obtain ⟨-, -, htpd⟩ := h.table _ t ht
  refine ⟨h.storeEntry ht ⟨hok.page, hw⟩ ?_, ⟨fun p hp hfree => ?_, fun i _ => ?_⟩, fun _ _ => id, rfl⟩
  · rintro f ⟨⟩
    exact hok.apart
  · exact Function.update_of_ne (fun e => hfree (pdNo u) (by rw [e]; exact ht)) ..
  · exact congrFun (Function.update_of_ne htpd.symm ..) i

variable {busy : Word → Prop}

/-- **`pagedir_set_page`**: its assertions hold, and it fails only for want of a page table. -/
theorem Maps.pagedirSetPage_yields (h : Maps pd s.mem d) (hpd : pd ≠ initPageDir) (hok : SetOk initRamPages pd d u k)
    (halloc : ∀ t, alloc = some t → AllocOk busy pd d k t) :
    Yields (pagedirSetPage initPageDir initRamPages pd u k writable alloc) s fun r s' =>
      Reply.set r = (answer d (.set u k writable alloc)).2 ∧
        Step pd s s' d (answer d (.set u k writable alloc)).1 := by
  refine Yields.bind (Yields.assert (decide_eq_true hok.aligned)
    (Yields.bind (Yields.assert (decide_eq_true hok.page.aligned) ?_)))
  refine Yields.bind (Yields.assert hok.user (Yields.bind (vtop_yields hok.page ?_)))
  refine Yields.bind (Yields.assert (decide_eq_true hok.ram)
    (Yields.bind (Yields.assert (decide_eq_true hpd) (Yields.bind ?_))))
  cases ht : d.table (pdNo u) with
  | some t =>
    rw [answer_set_some ht]
    refine h.lookupPage_some hok.user ht ((h.setEntry_yields hok ht).mono ?_)
    rintro _ s' ⟨rfl, hstep⟩
    exact ⟨rfl, hstep⟩
  | none =>
    cases alloc with
    | none =>
      rw [answer_set_none ht]
      exact h.lookupPage_none hok.user ht (fun _ => rfl) (Yields.pure ⟨rfl, h, Kept.refl, fun _ _ => id, rfl⟩)
    | some t =>
      rw [answer_set_create ht]
      obtain ⟨hpage, -, htpd, htk, hfresh, hframe⟩ := halloc t rfl
      refine (h.lookupPage_create hok.user ht hpage htpd hfresh hframe).mono ?_
      rintro _ s₁ ⟨rfl, hfreed, hmaps, hkept⟩
      have htable : Function.update d.table (pdNo u) (some t) (pdNo u) = some t := Function.update_self ..
      have hok' : SetOk initRamPages pd ⟨Function.update d.table (pdNo u) (some t), d.frame⟩ u k := by
        refine ⟨hok.aligned, hok.user, hok.page, hok.ram, hok.absent, hok.apart.1, fun i hi => ?_⟩
        have hi' : Function.update d.table (pdNo u) (some t) i = some k := hi
        rw [Function.update_apply] at hi'
        split_ifs at hi'
        · exact htk (Option.some.inj hi')
        · exact hok.apart.2 i hi'
      refine (hmaps.setEntry_yields hok' htable).mono ?_
      rintro _ s₂ ⟨rfl, hstep⟩
      refine ⟨rfl, hstep.maps, hkept.trans hstep.kept hstep.grows, fun i t' hi => ?_, hstep.freed.trans hfreed⟩
      have hne : i ≠ pdNo u := fun e => by simp [e, ht] at hi
      exact (Function.update_of_ne hne ..).trans hi

/-- **`pagedir_get_page`** returns the address of the frame, with the offset. -/
theorem Maps.pagedirGetPage_yields (h : Maps pd s.mem d) (hu : isUserVaddr u = true) :
    Yields (pagedirGetPage pd u) s fun r s' => r = (d.frame (pgNo u)).map (· + pgOfs u) ∧ s' = s := by
  refine Yields.bind (Yields.assert hu (Yields.bind ?_))
  cases ht : d.table (pdNo u) with
  | some t =>
    refine h.lookupPage_some hu ht (Yields.bind (Yields.get ?_))
    have hentry := h.entry _ t ht (ptNo u) (ptNo_lt u)
    rw [← pgNo_eq_pdNo_ptNo] at hentry
    cases hf : d.frame (pgNo u) with
    | some f =>
      rw [hf] at hentry
      rw [if_pos hentry.2.present]
      exact Yields.bind (pteGetPage_yields hentry.1 hentry.2 (Yields.pure ⟨rfl, rfl⟩))
    | none =>
      rw [hf] at hentry
      have habsent : s.mem t (ptNo u) &&& pteP = 0 := hentry
      rw [if_neg (not_not_intro habsent)]
      exact Yields.pure ⟨rfl, rfl⟩
  | none =>
    rw [h.frame_none ht]
    exact h.lookupPage_none hu ht nofun (Yields.pure ⟨rfl, rfl⟩)

/-- **`pagedir_clear_page`** makes the page not present. -/
theorem Maps.pagedirClearPage_yields (h : Maps pd s.mem d) (hofs : pgOfs u = 0) (hu : isUserVaddr u = true) :
    Yields (pagedirClearPage pd u) s fun _ s' => Step pd s s' d ⟨d.table, Function.update d.frame (pgNo u) none⟩ := by
  have hsame : d.frame (pgNo u) = none → Step pd s s d ⟨d.table, Function.update d.frame (pgNo u) none⟩ :=
    fun hnone => by
    have hd : (⟨d.table, Function.update d.frame (pgNo u) none⟩ : Directory) = d := by
      rw [← hnone, Function.update_eq_self]
    rw [hd]
    exact ⟨h, Kept.refl, fun _ _ => id, rfl⟩
  refine Yields.bind (Yields.assert (decide_eq_true hofs) (Yields.bind (Yields.assert hu (Yields.bind ?_))))
  cases ht : d.table (pdNo u) with
  | some t =>
    obtain ⟨-, -, htpd⟩ := h.table _ t ht
    refine h.lookupPage_some hu ht (Yields.bind (Yields.get ?_))
    have hentry := h.entry _ t ht (ptNo u) (ptNo_lt u)
    rw [← pgNo_eq_pdNo_ptNo] at hentry
    split_ifs with hp
    · refine Yields.modify ⟨h.storeEntry ht (and_not_pteP_and_pteP _) nofun, ⟨fun p hpd hfree => ?_, fun i _ => ?_⟩,
        fun _ _ => id, rfl⟩
      · exact Function.update_of_ne (fun e => hfree (pdNo u) (by rw [e]; exact ht)) ..
      · exact congrFun (Function.update_of_ne htpd.symm ..) i
    · refine Yields.pure (hsame ?_)
      cases hf : d.frame (pgNo u) with
      | none => rfl
      | some f =>
        rw [hf] at hentry
        exact absurd hentry.2.present hp
  | none => exact h.lookupPage_none hu ht nofun (Yields.pure (hsame (h.frame_none ht)))

/-- **One call** does what it means. -/
theorem Maps.perform_yields (h : Maps pd s.mem d) (hpd : pd ≠ initPageDir) {request : Request}
    (hok : RequestOk busy initRamPages pd d request) :
      Yields (perform initPageDir initRamPages pd request) s fun reply s' =>
      reply = (answer d request).2 ∧ Step pd s s' d (answer d request).1 := by
  cases request with
  | set upage kpage writable alloc =>
    refine Yields.bind ((h.pagedirSetPage_yields hpd hok.1 hok.2).mono fun r s' hr => ?_)
    exact Yields.pure hr
  | get uaddr =>
    refine Yields.bind ((h.pagedirGetPage_yields hok).mono ?_)
    rintro _ _ ⟨rfl, rfl⟩
    exact Yields.pure ⟨rfl, h, Kept.refl, fun _ _ => id, rfl⟩
  | clear upage =>
    refine Yields.bind ((h.pagedirClearPage_yields hok.1 hok.2).mono fun _ s' hstep => ?_)
    exact Yields.pure ⟨rfl, hstep⟩

/-- A table that is added is one that the page allocator returned. -/
theorem not_busy_of_answer {request : Request} (hok : RequestOk busy initRamPages pd d request)
    (hbusy : ∀ i t, d.table i = some t → ¬busy t) : ∀ i t, (answer d request).1.table i = some t → ¬busy t := by
  intro i t hi
  cases request with
  | set upage kpage writable alloc =>
    cases ht : d.table (pdNo upage) with
    | some t' =>
      rw [answer_set_some ht] at hi
      exact hbusy i t hi
    | none =>
      cases alloc with
      | none =>
        rw [answer_set_none ht] at hi
        exact hbusy i t hi
      | some t' =>
        rw [answer_set_create ht] at hi
        have hi' : Function.update d.table (pdNo upage) (some t') i = some t := hi
        rw [Function.update_apply] at hi'
        split_ifs at hi'
        · exact Option.some.inj hi' ▸ (hok.2 t' rfl).free
        · exact hbusy i t hi'
  | get uaddr => exact hbusy i t hi
  | clear upage => exact hbusy i t hi

/-- **Any sequence of calls** is answered as its meaning says. -/
theorem Maps.performAll_yields (hpd : pd ≠ initPageDir) : ∀ {requests : List Request} {s : State} {d : Directory},
    Maps pd s.mem d → (∀ i t, d.table i = some t → ¬busy t) → RequestsOk busy initRamPages pd d requests →
    Yields (performAll initPageDir initRamPages pd requests) s fun replies s' => replies = (answers d requests).2 ∧
      Step pd s s' d (answers d requests).1 ∧ ∀ i t, (answers d requests).1.table i = some t → ¬busy t
  | [], _, _, h, hbusy, _ => Yields.pure ⟨rfl, ⟨h, Kept.refl, fun _ _ => id, rfl⟩, hbusy⟩
  | request :: requests, s, d, h, hbusy, ⟨hok, hoks⟩ => by
    refine Yields.bind ((h.perform_yields hpd hok).mono ?_)
    rintro _ s₁ ⟨rfl, hstep⟩
    refine Yields.bind ((performAll_yields hpd hstep.maps (not_busy_of_answer hok hbusy) hoks).mono ?_)
    rintro _ s₂ ⟨rfl, hstep', hbusy'⟩
    refine Yields.pure ⟨rfl, ⟨hstep'.maps, hstep.kept.trans hstep'.kept hstep'.grows, fun i t hi => ?_, ?_⟩, hbusy'⟩
    · exact hstep'.grows i t (hstep.grows i t hi)
    · exact hstep'.freed.trans hstep.freed

/-! ### Destroying -/

/-- The frames of the pages under the `i`-th entry of the directory. -/
def framesAt (d : Directory) (i : ℕ) : List Word := (List.range 1024).filterMap fun j => d.frame (i * 1024 + j)

/-- The frames of all present user pages, one for each page. -/
def frames (d : Directory) : List Word := (List.range 768).flatMap (framesAt d)

/-- The page tables. -/
def tables (d : Directory) : List Word := (List.range 768).filterMap d.table

/-- What is freed for the `i`-th entry. -/
def releasedAt (d : Directory) (i : ℕ) : List Word :=
  match d.table i with
  | some t => framesAt d i ++ [t]
  | none => []

theorem pallocFreePage_yields {p : Word} {Q : Unit → State → Prop}
    (hQ : ∀ s', s'.freed = s.freed ++ [p] → (∀ q, q ≠ p → s'.mem q = s.mem q) → Q () s') :
      Yields (pallocFreePage p) s Q :=
  Yields.bind (Yields.modify (Yields.modify (hQ _ rfl fun _ hq => Function.update_of_ne hq ..)))

/-- The pages of a page table are freed. -/
theorem Maps.freeFrames_yields {s₀ : State} (h : Maps pd s₀.mem d) (ht : d.table i = some t)
    (hmem : s.mem t = s₀.mem t) :
    Yields ((List.range 1024).forM fun j => do
      let s ← get
      let pte := s.mem t j
      if pte &&& pteP ≠ 0 then do
        let page ← pteGetPage pte
        pallocFreePage page
      else pure ()) s fun _ s' => s'.freed = s.freed ++ framesAt d i ∧
        ∀ p, (∀ n, d.frame n ≠ some p) → s'.mem p = s.mem p := by
  have htframe : ∀ n, d.frame n ≠ some t := fun n hf => (h.mapped n t hf).2.2 i ht
  refine Yields.forM_range (I := fun j (s' : State) => s'.freed = s.freed ++
    (List.range j).filterMap (fun j => d.frame (i * 1024 + j)) ∧
    ∀ p, (∀ n, d.frame n ≠ some p) → s'.mem p = s.mem p) ⟨by simp, fun _ _ => rfl⟩ ?_
  rintro j hj s₁ ⟨hfreed, hsame⟩
  refine Yields.bind (Yields.get ?_)
  have hentry := h.entry i t ht j hj
  rw [← hmem, ← hsame t htframe] at hentry
  dsimp only
  rw [List.range_succ, List.filterMap_append, ← List.append_assoc, ← hfreed]
  cases hf : d.frame (i * 1024 + j) with
  | some f =>
    rw [hf] at hentry
    rw [if_pos hentry.2.present]
    refine Yields.bind (pteGetPage_yields hentry.1 hentry.2 (pallocFreePage_yields fun s₂ hfreed₂ hmem₂ =>
      ⟨?_, fun p hp => ?_⟩))
    · rw [hfreed₂]
      simp [hf]
    · rw [hmem₂ p fun e => hp _ (e ▸ hf), hsame p hp]
  | none =>
    rw [hf] at hentry
    have habsent : s₁.mem t j &&& pteP = 0 := hentry
    rw [if_neg (not_not_intro habsent)]
    refine Yields.pure ⟨?_, hsame⟩
    simp [hf]

/-- **`pagedir_destroy`** frees, entry by entry, the frames of a page table and the table, and then the directory. -/
theorem Maps.pagedirDestroy_yields (h : Maps pd s.mem d) (hpd : pd ≠ initPageDir) :
    Yields (pagedirDestroy initPageDir pd) s fun _ s' =>
      s'.freed = s.freed ++ ((List.range 768).flatMap (releasedAt d) ++ [pd]) := by
  unfold pagedirDestroy
  rw [if_neg h.nonnull, show pdNo physBase = 768 from by decide]
  have hpdframe : ∀ n, d.frame n ≠ some pd := fun n hf => (h.mapped n pd hf).2.1 rfl
  have hpdtable : ∀ i, d.table i ≠ some pd := fun i hi => (h.table i pd hi).2.2 rfl
  refine Yields.bind (Yields.assert (decide_eq_true hpd) (Yields.bind ?_))
  refine (Yields.forM_range (I := fun i (s' : State) => s'.freed = s.freed ++ (List.range i).flatMap (releasedAt d) ∧
    ∀ p, (∀ n, d.frame n ≠ some p) → (∀ i' < i, d.table i' ≠ some p) → s'.mem p = s.mem p)
    ⟨by simp, fun _ _ _ => rfl⟩ ?_).mono ?_
  · rintro i hi s₁ ⟨hfreed, hsame⟩
    refine Yields.bind (Yields.get ?_)
    dsimp only
    rw [hsame pd hpdframe fun i' _ => hpdtable i', List.range_succ (n := i), List.flatMap_append, ← List.append_assoc,
      ← hfreed]
    cases ht : d.table i with
    | some t =>
      obtain ⟨-, htk, -⟩ := h.table i t ht
      have hpoints := h.points i t ht
      have htframe : ∀ n, d.frame n ≠ some t := fun n hf => (h.mapped n t hf).2.2 i ht
      have htmem : s₁.mem t = s.mem t := hsame t htframe fun i' hi' h' => hi'.ne (h.inj i' i t h' ht)
      rw [if_pos hpoints.present]
      refine Yields.bind (pdeGetPt_yields htk hpoints (Yields.bind ((h.freeFrames_yields ht htmem).mono ?_)))
      rintro _ s₂ ⟨hfreed₂, hsame₂⟩
      refine pallocFreePage_yields fun s₃ hfreed₃ hmem₃ => ⟨?_, fun p hp hp' => ?_⟩
      · rw [hfreed₃, hfreed₂]
        simp [releasedAt, ht]
      · rw [hmem₃ p fun e => hp' i (Nat.lt_succ_self i) (e ▸ ht), hsame₂ p hp]
        exact hsame p hp fun i' hi' => hp' i' (Nat.lt_succ_of_lt hi')
    | none =>
      rw [(h.none_iff i hi).mpr ht, if_neg (by decide)]
      refine Yields.pure ⟨by simp [releasedAt, ht], fun p hp hp' => ?_⟩
      exact hsame p hp fun i' hi' => hp' i' (Nat.lt_succ_of_lt hi')
  · rintro _ s₁ ⟨hfreed, -⟩
    exact pallocFreePage_yields fun s₂ hfreed₂ _ => by rw [hfreed₂, hfreed, List.append_assoc]

theorem Maps.perm_released (h : Maps pd mem d) :
    ((List.range 768).flatMap (releasedAt d)).Perm (frames d ++ tables d) := by
  have hat : ∀ i, releasedAt d i = framesAt d i ++ (d.table i).toList := by
    intro i
    unfold releasedAt
    cases ht : d.table i with
    | some t => rfl
    | none =>
      have hnone : framesAt d i = [] := by
        rw [framesAt, List.filterMap_eq_nil_iff]
        intro j hj
        by_contra hsome
        obtain ⟨f, hf⟩ := Option.ne_none_iff_exists'.mp hsome
        have hdiv : (i * 1024 + j) / 1024 = i := by
          have := List.mem_range.mp hj
          omega
        exact (h.mapped _ f hf).1 (by rw [hdiv, ht])
      rw [hnone]
      rfl
  rw [List.flatMap_congr fun i _ => hat i]
  refine (List.flatMap_append_perm _ _ _).symm.trans (List.Perm.append_left _ ?_)
  rw [tables, List.filterMap_eq_flatMap_toList]

theorem Maps.nodup_tables (h : Maps pd mem d) : (tables d ++ [pd]).Nodup := by
  refine List.nodup_append.mpr ⟨List.nodup_range.filterMap h.inj, List.nodup_singleton pd, fun a ha b hb => ?_⟩
  obtain ⟨i, -, hi⟩ := List.mem_filterMap.mp ha
  rw [List.mem_singleton.mp hb]
  exact (h.table i a hi).2.2

theorem mem_frames {f : Word} (hf : f ∈ frames d) : ∃ n, d.frame n = some f := by
  obtain ⟨i, -, hf⟩ := List.mem_flatMap.mp hf
  obtain ⟨j, -, hf⟩ := List.mem_filterMap.mp hf
  exact ⟨_, hf⟩

/-- No page is freed twice if no frame is mapped twice. -/
theorem Maps.nodup_frames (h : Maps pd mem d) (hinj : ∀ n n' f, d.frame n = some f → d.frame n' = some f → n = n') :
    (frames d ++ (tables d ++ [pd])).Nodup := by
  refine List.nodup_append.mpr ⟨List.nodup_flatMap.mpr ⟨fun i _ => ?_, ?_⟩, h.nodup_tables, fun a ha b hb => ?_⟩
  · exact List.nodup_range.filterMap fun j j' f hf hf' => by
      have := hinj _ _ f hf hf'
      omega
  · refine List.nodup_range.imp_of_mem fun {i i'} _ _ hne f hf hf' => hne ?_
    obtain ⟨j, hj, hf⟩ := List.mem_filterMap.mp hf
    obtain ⟨j', hj', hf'⟩ := List.mem_filterMap.mp hf'
    have heq := hinj _ _ f hf hf'
    rw [List.mem_range] at hj hj'
    omega
  · obtain ⟨n, hn⟩ := mem_frames ha
    obtain ⟨-, hpd, htable⟩ := h.mapped n a hn
    rintro rfl
    rcases List.mem_append.mp hb with hb | hb
    · obtain ⟨i, -, hi⟩ := List.mem_filterMap.mp hb
      exact htable i hi
    · exact hpd (List.mem_singleton.mp hb)

/-! ### From the start -/

/-- A failed `pagedir_set_page` changes nothing. -/
theorem pagedirSetPage_ensures : Ensures (pagedirSetPage initPageDir initRamPages pd u k writable alloc) s fun r s' =>
    r = false → s' = s := by
  have hentry : ∀ t i s₁, Ensures (setEntry t i k writable) s₁ fun r s' => r = false → s' = s := fun t i s₁ =>
    Ensures.bind (Ensures.get (Ensures.bind (Ensures.assert fun _ => Ensures.bind fun pte s₂ _ =>
      Ensures.bind (Ensures.modify (Ensures.pure nofun)))))
  have hlookup : Ensures (lookupPage pd u true alloc) s fun r s' => r = none → s' = s := by
    refine Ensures.bind (Ensures.assert fun _ => Ensures.bind (Ensures.assert fun _ => ?_))
    refine Ensures.bind (Ensures.get (Ensures.ite (fun _ => ?_) fun _ => ?_))
    · rw [if_pos rfl]
      cases alloc with
      | none => exact Ensures.bind (Ensures.pure (Ensures.pure fun _ => rfl))
      | some t =>
        refine Ensures.bind (Ensures.bind (Ensures.modify (Ensures.pure (Ensures.bind fun pde s₁ _ => ?_))))
        exact Ensures.bind (Ensures.modify (Ensures.bind fun _ _ _ => Ensures.pure nofun))
    · exact Ensures.bind fun _ _ _ => Ensures.pure nofun
  refine Ensures.bind (Ensures.assert fun _ => Ensures.bind (Ensures.assert fun _ =>
    Ensures.bind (Ensures.assert fun _ => ?_)))
  refine Ensures.bind (Ensures.bind (Ensures.assert fun _ => Ensures.pure ?_))
  refine Ensures.bind (Ensures.assert fun _ => Ensures.bind (Ensures.assert fun _ => Ensures.bind (hlookup.mono ?_)))
  rintro (_ | ⟨t, i⟩) s₁ hs
  · exact Ensures.pure fun _ => hs rfl
  · exact hentry t i s₁

/-- The kernel's addresses are behind the user's part of a directory. -/
theorem pdNo_physical {page : ℕ} (h : page < 2 ^ 18) : 768 ≤ pdNo (BitVec.ofNat 32 page <<< 12 + physBase) := by
  rw [pdNo_eq, BitVec.toNat_add, BitVec.toNat_shiftLeft, BitVec.toNat_ofNat, Nat.shiftLeft_eq]
  show 768 ≤ ((page % 2 ^ 32 * 2 ^ 12) % 2 ^ 32 + 0xc0000000) % 2 ^ 32 / 4194304
  omega

theorem pagingInitTable_ensures {pt vaddr : Word} (hfresh : ∀ t, alloc = some t → t ≠ pd) (hv : 768 ≤ pdNo vaddr)
    (hpt : pt ≠ pd)
    (hzero : ∀ i < 768, s.mem pd i = 0) : Ensures (pagingInitTable alloc pd pt vaddr) s fun pt' s' =>
      pt' ≠ pd ∧ ∀ i < 768, s'.mem pd i = 0 := by
  refine Ensures.bind (Ensures.get (Ensures.ite (fun _ => ?_) fun _ => Ensures.pure ⟨hpt, hzero⟩))
  cases alloc with
  | none => exact Ensures.bind (Ensures.pure (Ensures.bind Ensures.halt))
  | some t =>
    have ht := hfresh t rfl
    refine Ensures.bind (Ensures.bind (Ensures.modify (Ensures.pure (Ensures.bind (Ensures.pure ?_)))))
    refine Ensures.bind (Ensures.bind (Ensures.assert fun _ => Ensures.bind (Ensures.bind (Ensures.assert fun _ =>
      Ensures.pure (Ensures.pure (Ensures.bind (Ensures.modify (Ensures.pure ⟨ht, fun i hi => ?_⟩))))))))
    show Function.update (Function.update s.mem t fun _ => 0) pd (Function.update _ (pdNo vaddr) _) pd i = 0
    rw [Function.update_self, Function.update_of_ne (by omega)]
    exact (congrFun (Function.update_of_ne ht.symm ..) i).trans (hzero i hi)

/-- Each page of memory is mapped in the kernel's part. -/
theorem pagingInitLoop_ensures {inKernelText : Word → Bool} {alloc : ℕ → Option Word}
    (hfresh : ∀ page t, alloc page = some t → t ≠ pd) :
    ∀ {pages page : ℕ} {pt : Word} {s : State}, page + pages ≤ 2 ^ 18 → pt ≠ pd → (∀ i < 768, s.mem pd i = 0) →
    Ensures (pagingInitLoop inKernelText alloc pd pages page pt) s fun _ s' => ∀ i < 768, s'.mem pd i = 0
  | 0, _, _, _, _, _, hzero => Ensures.pure hzero
  | pages + 1, page, pt, s, hle, hpt, hzero => by
    have hidx : 768 ≤ pdNo (BitVec.ofNat 32 page <<< 12 + physBase) := pdNo_physical (by omega)
    refine Ensures.bind (Ensures.bind (Ensures.assert fun _ => Ensures.pure (Ensures.bind ?_)))
    refine (pagingInitTable_ensures (hfresh page) hidx hpt hzero).mono ?_
    rintro pt' s' ⟨hpt', hzero'⟩
    refine Ensures.bind (Ensures.bind (Ensures.assert fun _ => Ensures.bind (Ensures.bind (Ensures.assert fun _ =>
      Ensures.pure (Ensures.pure (Ensures.bind (Ensures.modify ?_)))))))
    refine pagingInitLoop_ensures hfresh (by omega) hpt' fun i hi => ?_
    exact (congrFun (Function.update_of_ne hpt'.symm ..) i).trans (hzero' i hi)

/-- **`paging_init`** leaves the user's part of `init_page_dir` zero, on a machine of at most a gigabyte. -/
theorem pagingInit_ensures {inKernelText : Word → Bool} {alloc₀ : Option Word} {alloc : ℕ → Option Word}
    (hram : initRamPages ≤ 2 ^ 18) (hfresh : ∀ page t, alloc page = some t → alloc₀ ≠ some t)
    (hnull : alloc₀ ≠ some 0) :
    Ensures (pagingInit initRamPages inKernelText alloc₀ alloc) s fun pd s' => ∀ i < 768, s'.mem pd i = 0 := by
  cases alloc₀ with
  | none => exact Ensures.bind (Ensures.pure (Ensures.bind Ensures.halt))
  | some pd =>
    refine Ensures.bind (Ensures.bind (Ensures.modify (Ensures.pure (Ensures.bind (Ensures.pure (Ensures.bind ?_))))))
    have hpd : ∀ page t, alloc page = some t → t ≠ pd := fun page t ht e => hfresh page t ht (e ▸ rfl)
    have hzero : ∀ i < 768, Function.update s.mem pd (fun _ => 0) pd i = 0 := fun i _ => by rw [Function.update_self]
    refine (pagingInitLoop_ensures hpd (by omega) (fun e => hnull (e ▸ rfl)) hzero).mono fun _ s' hs =>
      Ensures.pure hs

/-- A created directory is empty. -/
theorem maps_pagedirCreate {s₀ : State} (hnull : pd ≠ 0) (hinit : ∀ i < 768, s.mem initPageDir i = 0)
    (hcreate : pagedirCreate initPageDir alloc s = some (some pd, s₀)) :
    Maps pd s₀.mem Directory.empty ∧ ∀ i, s₀.mem pd i = s.mem initPageDir i := by
  have hensures : Ensures (pagedirCreate initPageDir alloc) s fun r s' => ∀ p, r = some p →
      s'.mem = Function.update s.mem p (s.mem initPageDir) := by
    cases alloc with
    | none => exact Ensures.bind (Ensures.pure (Ensures.pure nofun))
    | some p =>
      refine Ensures.bind (Ensures.pure (Ensures.bind (Ensures.get
        (Ensures.bind (Ensures.modify (Ensures.pure ?_))))))
      rintro _ ⟨⟩
      rfl
  have hmem : ∀ i, s₀.mem pd i = s.mem initPageDir i := fun i => by
    rw [hensures _ _ hcreate pd rfl, Function.update_self]
  exact ⟨⟨hnull, fun i hi => iff_of_true ((hmem i).trans (hinit i hi)) rfl, nofun, nofun, nofun, nofun, nofun⟩, hmem⟩

/-! ### The history of a page -/

/-- What a call and its result say about page `n`: its new frame, no frame, or nothing. -/
def effect (n : ℕ) : Request × Reply → Option (Option Word)
  | (.set upage kpage _ _, .set true) => if pgNo upage = n then some (some kpage) else none
  | (.clear upage, _) => if pgNo upage = n then some none else none
  | _ => none

/-- The frame of the last successful set of page `n`, if the page was not cleared since. -/
def lastSet (n : ℕ) (history : List (Request × Reply)) : Option Word :=
  (history.reverse.findSome? (effect n)).getD none

theorem frame_answer (n : ℕ) (d : Directory) (request : Request) :
    (answer d request).1.frame n = (effect n (request, (answer d request).2)).getD (d.frame n) := by
  have hupdate : ∀ (u : Word) (o : Option Word), Function.update d.frame (pgNo u) o n =
      (if pgNo u = n then some o else none).getD (d.frame n) := by
    intro u o
    split_ifs with h
    · rw [← h, Function.update_self]
      rfl
    · exact Function.update_of_ne (Ne.symm h) ..
  cases request with
  | set u k w alloc =>
    cases ht : d.table (pdNo u) with
    | some t =>
      rw [answer_set_some ht]
      exact hupdate u (some k)
    | none =>
      cases alloc with
      | none =>
        rw [answer_set_none ht]
        rfl
      | some t =>
        rw [answer_set_create ht]
        exact hupdate u (some k)
  | get u => rfl
  | clear u => exact hupdate u none

/-- The map holds the frame of the last successful set that was not cleared. -/
theorem frame_answers (n : ℕ) : ∀ (requests : List Request) (d : Directory), (answers d requests).1.frame n =
    ((requests.zip (answers d requests).2).reverse.findSome? (effect n)).getD (d.frame n)
  | [], _ => rfl
  | request :: requests, d => by
    have hcons : (answers d (request :: requests)).1 = (answers (answer d request).1 requests).1 := rfl
    have hzip : (request :: requests).zip (answers d (request :: requests)).2 =
        (request, (answer d request).2) :: requests.zip (answers (answer d request).1 requests).2 := rfl
    rw [hcons, hzip, frame_answers n requests, frame_answer, List.reverse_cons, List.findSome?_append]
    cases (requests.zip (answers (answer d request).1 requests).2).reverse.findSome? (effect n) with
    | some o => rfl
    | none => simp

/-- **A page directory is a partial map** from user pages to frames: after any sequence of calls on a new
directory, with any failures to make a page table, a page has the frame of its last successful set that was not
cleared; a failed set changes nothing; the kernel's part of the directory and the pages in use elsewhere are as
they were; destroying the directory frees the frame of each present page, each page table and the directory
once. -/
theorem pagedir_isMap {s₀ : State} {busy : Word → Prop} {requests : List Request} (hpage : KernelPage pd)
    (hpd : pd ≠ initPageDir)
    (hinit : ∀ i < 768, s.mem initPageDir i = 0) (hcreate : pagedirCreate initPageDir alloc s = some (some pd, s₀))
    (hok : RequestsOk busy initRamPages pd Directory.empty requests) :
    (Yields (performAll initPageDir initRamPages pd requests) s₀ fun replies s₁ =>
      replies = (answers Directory.empty requests).2 ∧
      (∀ uaddr, isUserVaddr uaddr = true → Yields (pagedirGetPage pd uaddr) s₁ fun page s₂ =>
        page = (lastSet (pgNo uaddr) (requests.zip replies)).map (· + pgOfs uaddr) ∧ s₂ = s₁) ∧
      (∀ i, 768 ≤ i → s₁.mem pd i = s.mem initPageDir i) ∧ (∀ p, busy p → p ≠ pd → s₁.mem p = s₀.mem p) ∧
      s₁.freed = s₀.freed ∧
      Yields (pagedirDestroy initPageDir pd) s₁ fun _ s₂ => ∃ released, s₂.freed = s₁.freed ++ released ∧
        released.Perm (frames (answers Directory.empty requests).1 ++
        (tables (answers Directory.empty requests).1 ++ [pd])) ∧
        (tables (answers Directory.empty requests).1 ++ [pd]).Nodup ∧
        ((∀ n n' f, (answers Directory.empty requests).1.frame n = some f →
        (answers Directory.empty requests).1.frame n' = some f →
          n = n') → released.Nodup)) ∧
    ∀ u k writable alloc s₁ s₂, pagedirSetPage initPageDir initRamPages pd u k writable alloc s₁ = some (false, s₂) →
      s₂ = s₁ := by
  have hnull : pd ≠ 0 := fun e => by
    have h := hpage.kernel
    rw [e] at h
    exact absurd h (by decide)
  obtain ⟨hmaps, hkernel⟩ := maps_pagedirCreate hnull hinit hcreate
  refine ⟨?_, fun u k writable alloc s₁ s₂ h => pagedirSetPage_ensures _ _ h rfl⟩
  refine (hmaps.performAll_yields hpd nofun hok).mono ?_
  rintro _ s₁ ⟨rfl, hstep, hbusy⟩
  refine ⟨rfl, fun uaddr hu => ?_, fun i hi => ?_, fun p hp hne => ?_, hstep.freed, ?_⟩
  · refine (hstep.maps.pagedirGetPage_yields hu).mono ?_
    rintro page s₂ ⟨hpage', rfl⟩
    have hframe : (answers Directory.empty requests).1.frame (pgNo uaddr) =
        lastSet (pgNo uaddr) (requests.zip (answers Directory.empty requests).2) := frame_answers _ requests _
    exact ⟨by rw [hpage', hframe], rfl⟩
  · exact (hstep.kept.kernel i hi).trans (hkernel i)
  · exact hstep.kept.pages p hne fun i hi => hbusy i p hi hp
  · refine (hstep.maps.pagedirDestroy_yields hpd).mono fun _ s₂ hfreed => ⟨_, hfreed, ?_⟩
    have hperm := (hstep.maps.perm_released.append_right [pd]).trans (.of_eq (List.append_assoc ..))
    exact ⟨hperm, hstep.maps.nodup_tables, fun hinj => hperm.nodup_iff.mpr (hstep.maps.nodup_frames hinj)⟩

/-- A page that is set, read and cleared. -/
theorem pagedir_isMap_page : Yields (performAll 0xc0001000#32 512 0xc0002000#32
      [.set 0x08048000#32 0xc0004000#32 true (some 0xc0003000#32), .get 0x08048123#32, .clear 0x08048000#32])
      ⟨fun _ _ => 0, []⟩ fun replies s₁ =>
    replies = [.set true, .get (some 0xc0004123#32), .clear] ∧ s₁.freed = [] ∧
      Yields (pagedirGetPage 0xc0002000#32 0x08048123#32) s₁ fun page s₂ => page = none ∧ s₂ = s₁ := by
  have hcreate : pagedirCreate 0xc0001000#32 (some 0xc0002000#32) (⟨fun _ _ => 0, []⟩ : State) =
      some (some 0xc0002000#32, ⟨fun _ _ => 0, []⟩) := by
    have hmem : Function.update (fun (_ : Word) (_ : ℕ) => (0 : Word)) 0xc0002000#32 (fun _ => 0) = fun _ _ => 0 :=
      Function.update_eq_self ..
    have h : pagedirCreate 0xc0001000#32 (some 0xc0002000#32) (⟨fun _ _ => 0, []⟩ : State) =
        some (some 0xc0002000#32, ⟨Function.update (fun _ _ => 0) 0xc0002000#32 fun _ => 0, []⟩) := rfl
    rw [h, hmem]
  have hset : RequestOk (fun _ => False) 512 0xc0002000#32 Directory.empty
      (.set 0x08048000#32 0xc0004000#32 true (some 0xc0003000#32)) := by
    refine ⟨⟨by decide, by decide, ⟨by decide, by decide⟩, by decide, rfl, by decide, nofun⟩, ?_⟩
    rintro t ⟨⟩
    exact ⟨⟨by decide, by decide⟩, not_false, by decide, by decide, nofun, nofun⟩
  have hok : RequestsOk (fun _ => False) 512 0xc0002000#32 Directory.empty
      [.set 0x08048000#32 0xc0004000#32 true (some 0xc0003000#32), .get 0x08048123#32, .clear 0x08048000#32] :=
    ⟨hset, (by decide : isUserVaddr 0x08048123#32 = true), ⟨by decide, by decide⟩, trivial⟩
  refine (pagedir_isMap ⟨by decide, by decide⟩ (by decide) (fun _ _ => rfl) hcreate hok).1.mono ?_
  rintro replies s₁ ⟨rfl, hget, -, -, hfreed, -⟩
  refine ⟨by decide, hfreed, (hget 0x08048123#32 (by decide)).mono ?_⟩
  rintro page s₂ ⟨rfl, rfl⟩
  exact ⟨by decide, rfl⟩

end Pintos.Userprog.PageDirectory
