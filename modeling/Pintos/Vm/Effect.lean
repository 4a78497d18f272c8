import Pintos.Vm.Vpage

/-! # What the functions of vpage.c do

One lemma a function: from which state it returns what, with the state after it built from a few changes
(a frame is taken or freed, a page is mapped or unmapped, a vpage is paged out or in). No later proof looks
into a function again. -/

namespace Pintos.Vm.Effect

open Pintos.Lib Pintos.Lib.Ops Pintos.Kernel.Bitmap Pintos.Vm.State Pintos.Vm.Swap Pintos.Vm.Vpage

/-! ### The changes -/

/-- A zeroed frame is taken from the pool. -/
def takeFrame (s : VM) (f : Frame) : VM :=
  { s with userPool := s.userPool.set f true, mem := Function.update s.mem f fun _ => 0 }

/-- A frame goes back to the pool. -/
def freeFrame (s : VM) (f : Frame) : VM :=
  { s with userPool := s.userPool.set f false, mem := Function.update s.mem f fun _ => 0xcc }

/-- The page `u` becomes present under `d`. -/
def mapPage (s : VM) (d : PdId) (u : Upage) (e : Pte) : VM :=
  s.setPagedir d ((s.pagedirs d).map (·.set u e))

/-- The page `u` becomes not present under `d`. -/
def unmapPage (s : VM) (d : PdId) (u : Upage) : VM :=
  s.setPagedir d ((s.pagedirs d).map (·.clear u))

/-- The frame of a page gets other bytes. -/
def fillFrame (s : VM) (f : Frame) (p : Page) : VM := { s with mem := Function.update s.mem f p }

/-- Eight swap sectors are marked or unmarked. -/
def setSlot (s : VM) (n : ℕ) (value : Bool) : VM :=
  { s with swapMap := setBits s.swapMap n value pageSectors }

/-- The vpage `v`, in memory as `i` says, moves to the swap sectors from `n` on. -/
def pageOut (s : VM) (v : VpageInfo) (i : InfoInmem) (n : ℕ) : VM :=
  { (setSlot (unmapPage s i.pagedir v.uaddr) n true).replace (v.withBackend (.swapped ⟨n⟩)) with
    swapBlock := blockWrites s.swapBlock n (s.mem i.paddr) pageSectors }

/-- The vpage `v` is in the frame `f` under `d` from now on. -/
def enter (s : VM) (v : VpageInfo) (f : Frame) (d : PdId) (now : ℕ) : VM :=
  s.replace (v.withBackend (.inmem ⟨f, d, now⟩))

/-- A vpage is added to the table. -/
def addVpage (s : VM) (v : VpageInfo) : VM := { s with map := v :: s.map }

/-- The bytes that a lazy vpage stands for. -/
def lazyPage (s : VM) (i : InfoLazy) : Page := fun j =>
  match i.file with
  | some file => if j < (i.length : ℕ) then (s.files file).bytes (i.offset + j) else 0
  | none => 0

/-- `file_read_at` returns the full length for this lazy vpage. -/
def FullRead (s : VM) (i : InfoLazy) : Prop :=
  ∀ file, i.file = some file → i.offset + i.length ≤ (s.files file).length

/-- `pagedir_set_page` finds the page table of `u`, or one is created. -/
def HasTable (s : VM) (d : PdId) (u : Upage) (table : Bool) : Prop :=
  table = true ∨ ∃ pd, s.pagedirs d = some pd ∧ pd.tables (pdNo u) = true

variable {s s' : VM} {env : Env} {v : VpageInfo} {f : Frame} {d d' : PdId} {u u' : Upage} {e : Pte}

/-! ### What is present after a change -/

theorem isSome_pagedirs_setPagedir_map {g : PageDir → PageDir} :
    ((s.setPagedir d ((s.pagedirs d).map g)).pagedirs d').isSome = (s.pagedirs d').isSome := by
  by_cases h : d' = d
  · subst h
    simp [VM.setPagedir]
  · simp [VM.setPagedir, h]

theorem pte_mapPage (hd : (s.pagedirs d).isSome) :
    (mapPage s d u e).pte d' u' = if d' = d ∧ u' = u then some e else s.pte d' u' := by
  obtain ⟨pd, hpd⟩ := Option.isSome_iff_exists.mp hd
  by_cases h : d' = d
  · subst h
    simp [VM.pte, mapPage, VM.setPagedir, hpd, PageDir.get_set]
  · simp [VM.pte, mapPage, VM.setPagedir, h]

theorem pte_unmapPage :
    (unmapPage s d u).pte d' u' = if d' = d ∧ u' = u then none else s.pte d' u' := by
  by_cases h : d' = d
  · subst h
    cases hpd : s.pagedirs d' with
    | none => simp [VM.pte, unmapPage, VM.setPagedir, hpd]
    | some pd => simp [VM.pte, unmapPage, VM.setPagedir, hpd, PageDir.get_clear]
  · simp [VM.pte, unmapPage, VM.setPagedir, h]

/-! ### palloc.c and pagedir.c -/

theorem pallocGetPage_ensures {Q : Option Frame → VM → Prop} (hnone : Q none s)
    (hsome : ∀ f, s.userPool[f]? = some false → Q (some f) (takeFrame s f)) :
    Ensures (pallocGetPage env) s Q := by
  refine .bind (.get ?_)
  cases hscan : (if env.exhausted then none else bitmapScanAndFlip s.userPool 0 1 false) with
  | none => exact .pure hnone
  | some r =>
    obtain ⟨f, used⟩ := r
    have hs : bitmapScanAndFlip s.userPool 0 1 false = some (f, used) := by
      cases he : env.exhausted <;> simp_all
    obtain ⟨-, -, hfree, rfl⟩ := bitmapScanAndFlip_eq_some hs
    exact .bind (.set (.pure (hsome f (hfree f le_rfl (by omega)))))

theorem pallocFreePage_ensures {Q : Unit → VM → Prop}
    (h : s.Allocated f → Q () (freeFrame s f)) : Ensures (pallocFreePage f) s Q := by
  refine .bind (.get (.bind (.deref fun all hall => .bind (.assert fun ht =>
    .bind (.deref fun used hused => .set ?_)))))
  obtain ⟨hlen, rfl⟩ := bitmapSetMultiple_eq_some hused
  subst ht
  have hc : bitmapContains s.userPool f 1 false = false := by
    simpa [bitmapAll, hlen] using hall
  have hg : Group s.userPool f 1 true := group_of_not_contains hlen hc
  exact h (hg f le_rfl (by omega))

theorem pagedirClearPage_ensures {Q : Unit → VM → Prop}
    (h : (s.pagedirs d).isSome → Q () (unmapPage s d u)) :
    Ensures (pagedirClearPage d u) s Q := by
  refine .bind (.assert fun _ => .bind (.get (.bind (.deref fun pd hpd => .set ?_))))
  have hu : unmapPage s d u = s.setPagedir d (some (pd.clear u)) := by
    rw [unmapPage, hpd, Option.map_some]
  exact hu ▸ h (by rw [hpd, Option.isSome_some])

theorem pagedirSetPage_ensures {w table : Bool} {Q : Bool → VM → Prop}
    (htrue : (s.pagedirs d).isSome → s.pte d u = none → HasTable s d u table →
      Q true (mapPage s d u ⟨f, w⟩))
    (hfalse : ¬HasTable s d u table → Q false s) :
    Ensures (pagedirSetPage d u f w table) s Q := by
  refine .bind (.assert fun _ => .bind (.get (.bind (.deref fun pd hpd => .ite (fun hc => ?_)
    fun hc => .pure (hfalse ?_)))))
  · refine .bind (.assert fun hnone => .bind (.set (.pure ?_)))
    have hm : mapPage s d u ⟨f, w⟩ = s.setPagedir d (some (pd.set u ⟨f, w⟩)) := by
      rw [mapPage, hpd, Option.map_some]
    refine hm ▸ htrue (by rw [hpd, Option.isSome_some]) ?_ ?_
    · simpa [VM.pte, hpd] using hnone
    · rcases Bool.or_eq_true_iff.mp hc with ht | ht
      · exact .inr ⟨pd, hpd, ht⟩
      · exact .inl ht
  · rintro (ht | ⟨pd', hpd', ht⟩)
    · exact hc (by rw [ht, Bool.or_true])
    · obtain rfl : pd = pd' := by simpa [hpd] using hpd'
      exact hc (by rw [ht, Bool.true_or])

/-! ### Getting a frame -/

theorem lruStep_foldl {i : InfoInmem} : ∀ (l : List VpageInfo) (lru : Option (VpageInfo × InfoInmem)),
    l.foldl lruStep lru = some (v, i) → lru = some (v, i) ∨ v ∈ l ∧ v.backend = .inmem i
  | [], _, h => .inl h
  | x :: l, lru, h => by
    rcases lruStep_foldl l _ h with hx | ⟨hv, hb⟩
    · unfold lruStep at hx
      split at hx
      · split at hx
        · split_ifs at hx
          · obtain ⟨rfl, rfl⟩ : x = v ∧ _ = i := by simpa using hx
            exact .inr ⟨List.mem_cons_self, by assumption⟩
          · exact .inl hx
        · obtain ⟨rfl, rfl⟩ : x = v ∧ _ = i := by simpa using hx
          exact .inr ⟨List.mem_cons_self, by assumption⟩
      · exact .inl hx
    · exact .inr ⟨List.mem_cons_of_mem x hv, hb⟩

/-- **`evict_page` moves a vpage in memory to free swap sectors and hands out its frame.** -/
theorem evictPage_ensures {Q : Frame → VM → Prop}
    (h : ∀ v ∈ s.map, ∀ i, v.backend = .inmem i → ∀ n, Group s.swapMap n pageSectors false →
      n + pageSectors ≤ s.swapMap.length → Q i.paddr (pageOut s v i n)) :
    Ensures evictPage s Q := by
  refine .bind (.get (.bind (.deref ?_)))
  rintro ⟨v, i⟩ hlru
  obtain ⟨hv, hb⟩ : v ∈ s.map ∧ v.backend = .inmem i := by
    simpa using lruStep_foldl s.map none hlru
  refine .bind (.bind (pagedirClearPage_ensures fun _ => .bind (swapOut_ensures ?_)))
  intro n hlen hfree
  exact .modify (.pure (h v hv i hb n hfree hlen))

/-- The frame that a call gets, and the state after it. -/
inductive Got (s : VM) : Frame → VM → Prop
  | take {f : Frame} (hf : s.userPool[f]? = some false) : Got s f (takeFrame s f)
  | evict {v : VpageInfo} {i : InfoInmem} {n : ℕ} (hv : v ∈ s.map) (hb : v.backend = .inmem i)
      (hfree : Group s.swapMap n pageSectors false) (hlen : n + pageSectors ≤ s.swapMap.length) :
      Got s i.paddr (pageOut s v i n)

theorem getFrame_ensures : Ensures (getFrame env) s (Got s) := by
  refine .bind (pallocGetPage_ensures ?_ ?_)
  · exact evictPage_ensures fun v hv i hb n hfree hlen => .evict hv hb hfree hlen
  · exact fun f hf => .pure (.take hf)

/-! ### Faulting in -/

/-- How a vpage enters memory in a frame: it is mapped, unless no page table could be had. -/
inductive Entered (self : Pid) (env : Env) (s : VM) (v : VpageInfo) (f : Frame) : VM → Prop
  | mapped {d : PdId} (hd : s.pagedir self = some d) (hlive : (s.pagedirs d).isSome)
      (hnone : s.pte d v.uaddr = none) :
      Entered self env s v f (mapPage (enter s v f d env.now) d v.uaddr ⟨f, v.writable⟩)
  | unmapped {d : PdId} (hd : s.pagedir self = some d) (ht : ¬HasTable s d v.uaddr env.table) :
      Entered self env s v f (enter s v f d env.now)

theorem setInmem_ensures {self : Pid} :
    Ensures (setInmem self env v f) s fun _ => Entered self env s v f := by
  refine .bind (.get (.bind (.deref fun d hd => .bind (.set (.bind ?_)))))
  exact pagedirSetPage_ensures (fun hlive hnone _ => .pure (.mapped hd hlive hnone))
    fun ht => .pure (.unmapped hd ht)

/-- The page that `vpage_info_lazy_to_inmem` makes in a frame that holds `p`. -/
def readPage (s : VM) (i : InfoLazy) (p : Page) : Page :=
  match i.file with
  | some file => zeroFrom (readInto p (s.files file) i.length i.offset) i.length
  | none => zeroFrom p 0

/-- Reading the full length leaves nothing of what the frame held. -/
theorem readPage_eq_lazyPage {i : InfoLazy} (h : FullRead s i) (p : Page) :
    readPage s i p = lazyPage s i := by
  funext j
  cases hf : i.file with
  | none => simp [readPage, lazyPage, hf, zeroFrom]
  | some file =>
    have hlen := h file hf
    by_cases hj : (j : ℕ) < i.length
    · have hin : i.offset + (j : ℕ) < (s.files file).length := by omega
      simp [readPage, lazyPage, hf, zeroFrom, readInto, hj, hin, Nat.not_le.mpr hj]
    · simp [readPage, lazyPage, hf, zeroFrom, hj, Nat.not_lt.mp hj]

theorem lazyToInmem_ensures {self : Pid} {i : InfoLazy} :
    Ensures (lazyToInmem self env v i) s fun _ s' => ∃ f s₁, Got s f s₁ ∧
      Entered self env (fillFrame s₁ f (readPage s₁ i (s₁.mem f))) v f s' := by
  refine .bind (getFrame_ensures.mono fun f s₁ hgot => ?_)
  have hset : Ensures (setInmem self env v f) (fillFrame s₁ f (readPage s₁ i (s₁.mem f)))
      fun _ s' => ∃ f s₁, Got s f s₁ ∧
        Entered self env (fillFrame s₁ f (readPage s₁ i (s₁.mem f))) v f s' :=
    setInmem_ensures.mono fun _ s' h => ⟨f, s₁, hgot, h⟩
  cases hf : i.file with
  | none =>
    have hp : readPage s₁ i (s₁.mem f) = zeroFrom (s₁.mem f) 0 := by rw [readPage, hf]
    rw [hp] at hset
    exact .bind (.bind (.get (.set hset)))
  | some file =>
    have hp : readPage s₁ i (s₁.mem f) =
        zeroFrom (readInto (s₁.mem f) (s₁.files file) i.length i.offset) i.length := by
      rw [readPage, hf]
    rw [hp] at hset
    refine .bind (.bind (.get (.set (.bind (.bind (.get (.set ?_)))))))
    simpa [fillFrame] using hset

theorem swapToInmem_ensures {self : Pid} {i : InfoSwap} :
    Ensures (swapToInmem self env v i) s fun _ s' => ∃ f s₁, Got s f s₁ ∧
      Entered self env
        (fillFrame (setSlot s₁ i.swapIndex false) f (slotPage s₁.swapBlock i.swapIndex)) v f s' := by
  refine .bind (getFrame_ensures.mono fun f s₁ hgot => .bind (swapIn_ensures fun _ => ?_))
  exact setInmem_ensures.mono fun _ s' h => ⟨f, s₁, hgot, h⟩

/-- **A page fault that brings a vpage in.** -/
inductive PagedIn (self : Pid) (env : Env) (s : VM) (u : Upage) : VM → Prop
  | lazy {v : VpageInfo} {i : InfoLazy} {f : Frame} {s₁ s' : VM}
      (hv : s.find ⟨self, u⟩ = some v) (hb : v.backend = .lazy i) (hgot : Got s f s₁)
      (hin : Entered self env (fillFrame s₁ f (readPage s₁ i (s₁.mem f))) v f s') :
      PagedIn self env s u s'
  | swapped {v : VpageInfo} {i : InfoSwap} {f : Frame} {s₁ s' : VM}
      (hv : s.find ⟨self, u⟩ = some v) (hb : v.backend = .swapped i) (hgot : Got s f s₁)
      (hin : Entered self env
        (fillFrame (setSlot s₁ i.swapIndex false) f (slotPage s₁.swapBlock i.swapIndex)) v f s') :
      PagedIn self env s u s'

/-- **`vpage_handle_user_fault`**: nothing happens, or a lazy or swapped vpage of the process comes in. -/
theorem handleUserFault_ensures {self : Pid} :
    Ensures (handleUserFault self env u) s fun r s' =>
      r = .kill ∧ s = s' ∨ r = .cont ∧ PagedIn self env s u s' := by
  refine .bind (.get ?_)
  cases hf : s.find ⟨self, u⟩ with
  | none => exact .pure (.inl ⟨rfl, rfl⟩)
  | some v =>
    cases hb : v.backend with
    | inmem i => simpa [hb] using Ensures.pure (.inl ⟨rfl, rfl⟩)
    | lazy i =>
      have h : Ensures (lazyToInmem self env v i) s fun _ s' => PagedIn self env s u s' :=
        lazyToInmem_ensures.mono fun _ _ ⟨_, _, hgot, hin⟩ => .lazy hf hb hgot hin
      simpa [hb] using Ensures.bind (h.mono fun _ _ h => .pure (.inr ⟨rfl, h⟩))
    | swapped i =>
      have h : Ensures (swapToInmem self env v i) s fun _ s' => PagedIn self env s u s' :=
        swapToInmem_ensures.mono fun _ _ ⟨_, _, hgot, hin⟩ => .swapped hf hb hgot hin
      simpa [hb] using Ensures.bind (h.mono fun _ _ h => .pure (.inr ⟨rfl, h⟩))

/-! ### Allocating -/

theorem lazyAllocate_ensures {i : InfoLazy} {pid : Pid} {w : Bool} {Q : Bool → VM → Prop}
    (hfail : Q false s)
    (hadd : s.find ⟨pid, u⟩ = none → Q true (addVpage s ⟨u, w, pid, .lazy i⟩)) :
    Ensures (lazyAllocate env u i pid w) s Q := by
  refine .bind (.get (.ite (fun hc => .bind (.set (.pure (hadd ?_)))) fun _ => .pure hfail))
  simpa using (Bool.and_eq_true_iff.mp hc).2

/-- **A vpage that is allocated in memory.** -/
inductive Placed (self : Pid) (env : Env) (s : VM) (u : Upage) (pid : Pid) (w : Bool) (f : Frame) :
    VM → Prop
  | mapped {s₁ : VM} {d : PdId} (hgot : Got s f s₁) (hnew : s₁.find ⟨pid, u⟩ = none)
      (hd : s₁.pagedir self = some d) (hlive : (s₁.pagedirs d).isSome) (hnone : s₁.pte d u = none) :
      Placed self env s u pid w f
        (mapPage (addVpage s₁ ⟨u, w, pid, .inmem ⟨f, d, env.now⟩⟩) d u ⟨f, w⟩)
  | unmapped {s₁ : VM} {d : PdId} (hgot : Got s f s₁) (hnew : s₁.find ⟨pid, u⟩ = none)
      (hd : s₁.pagedir self = some d) (ht : ¬HasTable s₁ d u env.table) :
      Placed self env s u pid w f (addVpage s₁ ⟨u, w, pid, .inmem ⟨f, d, env.now⟩⟩)

theorem inmemAllocate_ensures {self pid : Pid} {w : Bool} :
    Ensures (inmemAllocate self env u pid w) s fun r s' =>
      (env.malloc = false ∧ r = none ∧ s = s') ∨ env.malloc = true ∧ ∃ f,
        r = some f ∧ Placed self env s u pid w f s' := by
  refine .ite (fun hm => .bind (getFrame_ensures.mono fun f s₁ hgot => ?_)) fun hm =>
    .pure (.inl ⟨by simpa using hm, rfl, rfl⟩)
  refine .bind (.get (.bind (.deref fun d hd => .bind (.assert fun hnone => .bind (.set (.bind ?_))))))
  have hnew : s₁.find ⟨pid, u⟩ = none := by simpa using hnone
  refine pagedirSetPage_ensures (fun hlive hpte _ => .pure (.inr ⟨hm, f, rfl, ?_⟩))
    fun ht => .pure (.inr ⟨hm, f, rfl, ?_⟩)
  · exact .mapped hgot hnew hd hlive hpte
  · exact .unmapped hgot hnew hd ht

/-! ### Releasing -/

/-- The state after `vpage_info_release_inner`. -/
def releaseVpage (s : VM) (v : VpageInfo) : VM :=
  match v.backend with
  | .inmem i => (freeFrame (unmapPage s i.pagedir v.uaddr) i.paddr).erase v.key
  | .lazy _ => s.erase v.key
  | .swapped i => (setSlot s i.swapIndex false).erase v.key

theorem map_releaseVpage (s : VM) (v : VpageInfo) :
    (releaseVpage s v).map = Table.erase VpageInfo.key s.map v.key := by
  unfold releaseVpage
  split <;> rfl

theorem releaseInner_ensures {Q : Unit → VM → Prop} (h : Q () (releaseVpage s v)) :
    Ensures (releaseInner v) s Q := by
  unfold releaseVpage at h
  unfold releaseInner
  cases hb : v.backend with
  | lazy i =>
    simp only [hb] at h ⊢
    exact .bind (.pure (.modify h))
  | inmem i =>
    simp only [hb] at h ⊢
    exact .bind (pagedirClearPage_ensures fun _ => .bind (pallocFreePage_ensures fun _ => .modify h))
  | swapped i =>
    simp only [hb] at h ⊢
    exact .bind (swapFree_ensures fun _ => .modify h)

theorem length_releaseVpage (hv : v ∈ s.map) : (releaseVpage s v).map.length < s.map.length := by
  rw [map_releaseVpage]
  exact List.length_filter_lt_length_iff_exists.mpr ⟨v, hv, by simp⟩

/-- **`vpage_info_release_all`** keeps what every release keeps, and leaves no vpage of the process. -/
theorem releaseAll_ensures {pid : Pid} {I : VM → Prop} (h0 : I s)
    (h1 : ∀ s v, I s → v ∈ s.map → v.pid = pid → I (releaseVpage s v)) :
    Ensures (releaseAll pid) s fun _ s' => I s' ∧ ∀ v ∈ s'.map, v.pid ≠ pid := by
  have hloop : ∀ fuel s, I s → s.map.length ≤ fuel →
      Ensures (releaseAllLoop pid fuel) s fun _ s' => I s' ∧ ∀ v ∈ s'.map, v.pid ≠ pid := by
    intro fuel
    induction fuel with
    | zero =>
      intro s hs hlen
      have hnil : s.map = [] := List.length_eq_zero_iff.mp (by omega)
      exact .pure ⟨hs, by simp [hnil]⟩
    | succ fuel ih =>
      intro s hs hlen
      refine .bind (.get ?_)
      cases hf : s.map.find? (·.pid = pid) with
      | none => exact .pure ⟨hs, by simpa using hf⟩
      | some v =>
        have hv : v ∈ s.map := List.mem_of_find?_eq_some hf
        have hp : v.pid = pid := by simpa using List.find?_some hf
        have hlt := length_releaseVpage hv
        exact .bind (releaseInner_ensures (ih _ (h1 s v hs hv hp) (by omega)))
  exact .bind (.get (hloop _ s h0 le_rfl))

theorem release_ensures {k : Key} {Q : Unit → VM → Prop}
    (h : ∀ v, s.find k = some v → Q () (releaseVpage s v)) : Ensures (release k) s Q :=
  .bind (.get (.bind (.deref fun v hv => releaseInner_ensures (h v hv))))

theorem findAndRelease_ensures {pid : Pid} {Q : Unit → VM → Prop} (hnone : Q () s)
    (h : ∀ v, s.find ⟨pid, u⟩ = some v → Q () (releaseVpage s v)) :
    Ensures (findAndRelease u pid) s Q := by
  refine .bind (.get ?_)
  cases hf : s.find ⟨pid, u⟩ with
  | none => exact .pure hnone
  | some v => exact releaseInner_ensures (h v hf)

/-! ### Changing the permission -/

/-- A page that is present has its page table. -/
theorem hasTable_of_pte {table : Bool} (h : s.pte d u = some e) : HasTable s d u table := by
  obtain ⟨pd, hpd, hget⟩ := Option.bind_eq_some_iff.mp h
  exact .inr ⟨pd, hpd, pd.backed u (AList.lookup_isSome.mp (by rw [PageDir.get] at hget; simp [hget]))⟩

theorem hasTable_unmapPage {table : Bool} :
    HasTable (unmapPage s d u) d u table ↔ HasTable s d u table := by
  refine or_congr_right ?_
  cases hpd : s.pagedirs d <;> simp [unmapPage, VM.setPagedir, hpd, PageDir.clear]

/-- **`vpage_info_set_writable`**: a page in memory is mapped again, now with the new permission. -/
theorem setWritable_ensures {pid : Pid} {w : Bool} {Q : Bool → VM → Prop} (hnone : Q false s)
    (hout : ∀ v, s.find ⟨pid, u⟩ = some v → (∀ i, v.backend ≠ .inmem i) →
      Q false (s.replace (v.withWritable w)))
    (hin : ∀ v i e, s.find ⟨pid, u⟩ = some v → v.backend = .inmem i → s.pte i.pagedir u = some e →
      Q true (mapPage (unmapPage (s.replace (v.withWritable w)) i.pagedir u) i.pagedir u
        ⟨e.frame, w⟩)) :
    Ensures (setWritable env u pid w) s Q := by
  refine .bind (.get ?_)
  cases hf : s.find ⟨pid, u⟩ with
  | none => exact .pure hnone
  | some v =>
    refine .bind (.set ?_)
    cases hb : v.backend with
    | lazy i => simpa [hb] using Ensures.pure (hout v hf (by simp [hb]))
    | swapped i => simpa [hb] using Ensures.pure (hout v hf (by simp [hb]))
    | inmem i =>
      refine .bind (.deref fun e he => .bind (pagedirClearPage_ensures fun _ => .bind ?_))
      have hs : (s.replace (v.withWritable w)).pte i.pagedir u = some e := he
      have ht : HasTable (unmapPage (s.replace (v.withWritable w)) i.pagedir u) i.pagedir u
          env.table := hasTable_unmapPage.mpr (hasTable_of_pte hs)
      exact pagedirSetPage_ensures (fun _ _ _ => .pure (hin v i e hf hb he)) fun hn => absurd ht hn

end Pintos.Vm.Effect
