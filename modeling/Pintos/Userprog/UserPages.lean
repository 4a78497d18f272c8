import Pintos.Userprog.Mmap
import Pintos.Userprog.StaleVpages

/-! # Only user pages are registered

The segments of an executable are checked when it is loaded, and the stack page is the last one below
`PHYS_BASE`. `sys_mmap` checks neither the end of the mapping nor that it starts below `PHYS_BASE`, and the
stack may grow from page zero on. -/

namespace Pintos.Userprog.UserPages

open Pintos.Lib Pintos.Lib.Ops Pintos.Lib.Runs Pintos.Filesys.Path Pintos.Vm.State Pintos.Vm.Vpage
open Pintos.Vm.Effect Pintos.Vm.Run Pintos.Userprog.Load Pintos.Userprog.Lifecycle Pintos.Userprog.Mmap

/-! ### The system -/

structure Machine where
  life : Sys
  entries : Pid → List MmapEntry
  midCounter : Pid → ℕ
  denied : FileId → Bool
  /-- The process is in `sys_exit`. -/
  killed : Pid → Bool

/-- The part of the state that mappings are about. -/
def Machine.maps (s : Machine) : Maps := ⟨s.life.vm, s.entries, s.midCounter, s.denied⟩

def Machine.putMaps (s : Machine) (m : Maps) : Machine :=
  { s with
    life := { s.life with vm := m.vm }
    entries := m.entries
    midCounter := m.midCounter
    denied := m.denied }

def onMaps {α : Type} (m : Op Maps α) : Op Machine α := zoom Machine.maps Machine.putMaps m

def onLife {α : Type} (m : Op Sys α) : Op Machine α :=
  zoom Machine.life (fun s life => { s with life := life }) m

/-- What the processor does for a process. -/
def Access : Action → Bool
  | .load .. | .store .. | .fileWrite .. => true
  | _ => false

inductive PageAction
  /-- `process_execute`, in the new thread. -/
  | start (cmdLine : CStr) (file : Option FileId) (d : Option PdId)
  | load (p : Pid) (env : Env) (kpage : Option Frame)
  | mmap (p : Pid) (env : MmapEnv) (file : Option FileId) (data : ℕ)
  | munmap (p : Pid) (envs : ℕ → Env) (mid : ℤ)
  | fault (p : Pid) (env : Env) (envs : ℕ → Env) (esp uaddr : ℕ) (write : Bool)
  | access (p : Pid) (a : Action)
  /-- `process_exit` up to `vpage_info_release_all`. -/
  | exit (p : Pid) (envs : ℕ → ℕ → Env)
  | destroy (p : Pid)
  | rehash (m : List VpageInfo)

/-- The process runs user code, or a system call. -/
def runs (p : Pid) : Op Machine Unit := do
  let s ← get
  assert (s.life.phase p = .running && !s.killed p)

def pageAct : PageAction → Op Machine Unit
  | .start cmdLine file d => onLife (startProcess cmdLine file d)
  | .load p env kpage => onLife (loadNext p env kpage)
  | .mmap p env file data => do
    runs p
    let _ ← onMaps (sysMmap p env file data)
  | .munmap p envs mid => do
    runs p
    onMaps (sysMunmap p envs mid)
  | .fault p env envs esp uaddr write => do
    runs p
    match ← onMaps (vmHandleUserFault p env envs esp uaddr write) with
    | .kill => modify fun s => { s with killed := Function.update s.killed p true }
    | .cont => return ()
  | .access p a => do
    assert (Access a)
    onLife (own p a)
  | .exit p envs => do
    onMaps (releaseEntries p envs)
    onLife (exitRunning p)
  | .destroy p => onLife (destroyPagedir p)
  | .rehash m => onLife (lifeAct (.rehash m))

def PageStep (s : Machine) (a : PageAction) (s' : Machine) : Prop :=
  (∀ m, a = .rehash m → s.life.vm.map.Perm m) ∧ pageAct a s = some ((), s')

def PageInit (s : Machine) : Prop := LifeInit s.life

/-- A page from `PGSIZE` on, and below `PHYS_BASE`. -/
def UserPage (u : ℕ) : Prop := 1 ≤ u ∧ u < physBase

/-- Mappings lie below `PHYS_BASE`, and the stack does not grow from page zero on. -/
def Below (s : Machine) : PageAction → Prop
  | .mmap _ _ (some file) data => data + (s.life.vm.files file).length ≤ physBase * pgSize
  | .fault _ _ _ esp uaddr _ => nearStack esp uaddr = true → pgSize ≤ uaddr
  | _ => True

/-! ### Segments -/

theorem le32_lt (f : FileData) (ofs : ℕ) : le32 f ofs < 2 ^ 32 := by
  have h : ∀ k, (f.bytes k).toNat < 2 ^ 8 := fun k => (f.bytes k).toNat_lt
  have h0 := h ofs
  have h1 := h (ofs + 1)
  have h2 := h (ofs + 2)
  have h3 := h (ofs + 3)
  unfold le32 le16
  rw [show ofs + 2 + 1 = ofs + 3 from rfl]
  omega

theorem mem_loadSegment {file : FileId} {w w' : Bool} {i : InfoLazy} {u : ℕ} :
    ∀ (n ofs upage readBytes : ℕ),
      LoadStep.segmentPage u i w' ∈ loadSegment file ofs upage readBytes w n → upage ≤ u ∧ u < upage + n
  | 0, _, _, _, h => (List.not_mem_nil h).elim
  | n + 1, ofs, upage, readBytes, h => by
    rcases List.mem_cons.mp h with h | h
    · obtain ⟨rfl, -, -⟩ := LoadStep.segmentPage.inj h
      omega
    · have := mem_loadSegment n _ _ _ h
      omega

/-- **The pages of a valid segment are user pages.** -/
theorem userPage_of_valid {f : FileData} {file : FileId} {ofs u : ℕ} {i : InfoLazy} {w : Bool}
    (hv : validateSegment f (readPhdr f ofs) = true)
    (h : LoadStep.segmentPage u i w ∈ segmentSteps file (readPhdr f ofs)) : UserPage u := by
  have hvaddr := le32_lt f (ofs + 8)
  have hmemsz := le32_lt f (ofs + 20)
  unfold validateSegment isUserVaddr at hv
  simp only [Bool.and_eq_true, decide_eq_true_eq] at hv
  obtain ⟨⟨⟨⟨⟨⟨⟨-, -⟩, -⟩, -⟩, h5⟩, h6⟩, h7⟩, h8⟩ := hv
  have hm := mem_loadSegment _ _ _ _ h
  unfold UserPage
  unfold readPhdr at h5 h6 h7 h8 hm
  unfold physBase pgSize at *
  dsimp only at h5 h6 h7 h8 hm
  omega

theorem userPage_of_phdrSteps {file : FileId} {f : FileData} {rest : List LoadStep} {u : ℕ} {i : InfoLazy}
    {w : Bool} (hrest : LoadStep.segmentPage u i w ∈ rest → UserPage u) : ∀ (cnt ofs : ℕ),
      LoadStep.segmentPage u i w ∈ phdrSteps file f rest ofs cnt → UserPage u
  | 0, _, h => hrest h
  | cnt + 1, ofs, h => by
    unfold phdrSteps at h
    split at h
    · simp at h
    dsimp only at h
    split at h
    · split at h
      · rcases List.mem_append.mp h with h | h
        · exact userPage_of_valid ‹_› h
        · exact userPage_of_phdrSteps hrest cnt _ h
      · simp at h
    · simp at h
    · simp at h
    · simp at h
    · exact userPage_of_phdrSteps hrest cnt _ h

theorem userPage_of_loadSteps {file : FileId} {f : FileData} {cmdLine : CStr} {u : ℕ} {i : InfoLazy}
    {w : Bool} (h : LoadStep.segmentPage u i w ∈ loadSteps file f cmdLine) : UserPage u := by
  unfold loadSteps at h
  split at h
  · refine userPage_of_phdrSteps (fun h => ?_) _ _ h
    unfold stackSteps at h
    split at h <;> simp at h
  · simp at h

/-! ### Virtual memory -/

/-- Every registered page is a user page. -/
def UserKeys (vm : VM) : Prop := ∀ k ∈ vm.map.map VpageInfo.key, UserPage k.uaddr

variable {vm vm' : VM} {p : Pid} {env : Env} {envs : ℕ → Env} {a : Action} {r : Option UInt8}

theorem userKeys_outcome (h : UserKeys vm) (hadds : ∀ k, Adds k a → UserPage k.uaddr)
    (ho : Outcome vm a r vm') : UserKeys vm' := by
  intro k hk
  rcases keys_outcome ho hk with hk | hk
  · exact h k hk
  · exact hadds k hk

/-- One action on virtual memory. -/
theorem userKeys_act (h : UserKeys vm) (hd : ∀ p, a ≠ .destroy p) (ha : Allowed vm a)
    (hadds : ∀ k, Adds k a → UserPage k.uaddr) : Ensures (act a) vm fun _ vm' => UserKeys vm' :=
  (outcome_of_not_destroy hd ha).mono fun _ _ ho => userKeys_outcome h hadds ho

theorem userKeys_add {u : ℕ} {w : Bool} {i : InfoLazy} (h : UserKeys vm) (hu : UserPage u) :
    UserKeys (addVpage vm ⟨u, w, p, .lazy i⟩) := by
  intro k hk
  rcases List.mem_cons.mp hk with rfl | hk
  · exact hu
  · exact h k hk

theorem userKeys_lazyAllocate {u : ℕ} {w : Bool} {i : InfoLazy} (h : UserKeys vm) (hu : UserPage u) :
    Ensures (lazyAllocate env u i p w) vm fun _ vm' => UserKeys vm' :=
  lazyAllocate_ensures h fun _ => userKeys_add h hu

theorem userKeys_release {v : VpageInfo} (h : UserKeys vm) : UserKeys (releaseVpage vm v) := by
  intro k hk
  rw [map_releaseVpage] at hk
  exact h k ((List.filter_sublist.map _).mem hk)

theorem userKeys_findAndRelease {u : ℕ} (h : UserKeys vm) :
    Ensures (findAndRelease u p) vm fun _ vm' => UserKeys vm' :=
  findAndRelease_ensures h fun _ _ => userKeys_release h

theorem userKeys_handleUserFault {u : ℕ} (h : UserKeys vm) :
    Ensures (handleUserFault p env u) vm fun _ vm' => UserKeys vm' := by
  refine handleUserFault_ensures.mono fun _ vm' hr => ?_
  rcases hr with ⟨-, rfl⟩ | ⟨-, hin⟩
  · exact h
  · exact userKeys_outcome (a := .fault p env u) h (fun _ hk => hk.elim) (.pagedIn hin)

theorem userKeys_setWritable {u : ℕ} {w : Bool} (h : UserKeys vm) :
    Ensures (setWritable env u p w) vm fun _ vm' => UserKeys vm' := by
  have hreplace : ∀ v, UserKeys (vm.replace v) := fun v k hk => h k (keys_replace vm v ▸ hk)
  exact setWritable_ensures h (fun v _ _ => hreplace _) fun v _ _ _ _ _ => hreplace (v.withWritable w)

theorem userKeys_releasePages {u : ℕ} (n : ℕ) (h : UserKeys vm) :
    Ensures (releasePages p u n) vm fun _ vm' => UserKeys vm' :=
  .forM _ h fun _ _ _ h => userKeys_findAndRelease h

/-! ### The calls -/

/-- **Mapping** registers the pages from `upage` on. -/
theorem userKeys_mapPages {file : FileId} {upage : ℕ} : ∀ (left i remLength curOffset : ℕ) {vm : VM},
    UserKeys vm → (∀ j, i ≤ j → j < i + left → UserPage (pageAt upage j)) →
    Ensures (mapPages p envs file upage left i remLength curOffset) vm fun _ vm' => UserKeys vm'
  | 0, _, _, _, _, h, _ => .pure h
  | left + 1, i, _, _, _, h, hu => by
    refine .bind ((userKeys_lazyAllocate h (hu i le_rfl (by omega))).mono fun ok vm' h' => ?_)
    cases ok with
    | true => exact userKeys_mapPages left (i + 1) _ _ h' fun j h1 h2 => hu j (by omega) (by omega)
    | false => exact .bind ((userKeys_releasePages i h').mono fun _ _ h => .pure h)

/-- The stack grows within the pages below the last one. -/
theorem userKeys_growStack : ∀ (left : ℕ) {cur : ℕ} {new : List Upage} {vm : VM}, UserKeys vm →
    1 ≤ cur → cur + left < physBase →
    Ensures (growStack p envs left cur new) vm fun _ vm' => UserKeys vm'
  | 0, _, _, _, h, _, _ => .pure h
  | left + 1, cur, new, vm, h, h1, h2 => by
    refine .ite (fun _ => .pure h) fun _ => .bind (.get (.ite (fun _ => ?_) fun _ => ?_))
    · exact userKeys_growStack left h (by omega) (by omega)
    · have hu : UserPage cur := ⟨h1, by omega⟩
      refine .bind ((userKeys_lazyAllocate h hu).mono fun ok vm' h' => ?_)
      cases ok with
      | true => exact userKeys_growStack left h' (by omega) (by omega)
      | false =>
        have hloop := Ensures.forM (f := fun u => release ⟨p, u⟩) (I := UserKeys) new h' fun _ _ _ h =>
          release_ensures fun _ _ => userKeys_release h
        exact .bind (hloop.mono fun _ _ h => .pure h)

theorem userKeys_fileWriteMapped {me : MmapEntry} (h : UserKeys vm) :
    Ensures (fileWriteMapped p envs me) vm fun _ vm' => UserKeys vm' := by
  refine .forM _ h fun i _ vm h => .bind ?_
  suffices hread : Ensures (readUser p (envs i) (pageAt me.uaddr i)) vm fun _ vm' => UserKeys vm' from
    hread.mono fun _ _ h => .modify h
  refine .bind (.get (.bind (.deref fun d _ => ?_)))
  split
  · exact .pure h
  · refine .bind (.deref fun vpi _ => ?_)
    split
    · exact .bind ((userKeys_handleUserFault h).mono fun _ _ h =>
        .bind (.get (.bind (.deref fun _ _ => .pure h))))
    · exact .halt

theorem userKeys_checkPages {upage : ℕ} : ∀ (left i : ℕ), UserKeys vm →
    Ensures (checkPages p upage left i) vm fun _ vm' => UserKeys vm'
  | 0, _, h => .pure h
  | left + 1, i, h => by
    refine .bind (.get (.bind (.deref fun vpi _ => ?_)))
    split
    · exact userKeys_checkPages left (i + 1) h
    · exact .pure h

section Maps

variable {m : Maps}

theorem onVm_ensures {α : Type} {op : Op VM α} (h : Ensures op m.vm fun _ vm' => UserKeys vm') :
    Ensures (onVm op) m fun _ m' => UserKeys m'.vm :=
  .zoom h

theorem userKeys_mmapEntryRelease {me : MmapEntry} (h : UserKeys m.vm) :
    Ensures (mmapEntryRelease p envs me) m fun _ m' => UserKeys m'.vm := by
  refine .bind ((onVm_ensures (userKeys_checkPages _ _ h)).mono fun _ m₁ h1 => .bind ?_)
  have hwrite : Ensures (writeBack p envs me) m₁ fun _ m' => UserKeys m'.vm :=
    .bind (.get (.ite (fun _ => onVm_ensures (userKeys_fileWriteMapped h1)) fun _ => .pure h1))
  exact hwrite.mono fun _ m₂ h2 =>
    .bind ((onVm_ensures (userKeys_releasePages _ h2)).mono fun _ _ h3 => .modify h3)

theorem userKeys_sysMunmap {mid : ℤ} (h : UserKeys m.vm) :
    Ensures (sysMunmap p envs mid) m fun _ m' => UserKeys m'.vm :=
  .bind (.get (.bind (.deref fun _ _ => userKeys_mmapEntryRelease h)))

theorem userKeys_releaseEntries {envs : ℕ → ℕ → Env} (h : UserKeys m.vm) :
    Ensures (releaseEntries p envs) m fun _ m' => UserKeys m'.vm :=
  .bind (.get (.forM _ h fun _ _ _ h => userKeys_mmapEntryRelease h))

/-- The pages of a mapping that ends below `PHYS_BASE` are user pages. -/
theorem userPage_pageAt {upage length i : ℕ} (h1 : 1 ≤ upage)
    (h2 : upage * pgSize + length ≤ physBase * pgSize) (hi : i < (length + pgSize - 1) / pgSize) :
    UserPage (pageAt upage i) := by
  unfold pgSize physBase at h2
  unfold pgSize at hi
  unfold UserPage pageAt pages physBase
  omega

theorem userKeys_sysMmap {menv : MmapEnv} {file : Option FileId} {data : ℕ} (h : UserKeys m.vm)
    (hb : ∀ f, file = some f → data + (m.vm.files f).length ≤ physBase * pgSize) :
    Ensures (sysMmap p menv file data) m fun _ m' => UserKeys m'.vm := by
  refine .ite (fun _ => .pure h) fun h0 => ?_
  cases file with
  | none => exact .pure h
  | some f =>
    refine .ite (fun _ => .pure h) fun halign => .bind ?_
    have hdata : data / pgSize * pgSize + (m.vm.files f).length ≤ physBase * pgSize := by
      rw [not_not.mp halign]
      exact hb f rfl
    refine Ensures.mono (P := fun _ m' => UserKeys m'.vm) ?_ fun _ _ h => .pure h
    refine .ite (fun _ => .bind (.assert fun _ => .bind (.get (.bind (.set (.bind ?_)))))) fun _ => .pure h
    have hu : ∀ j, 0 ≤ j → j < 0 + ((m.vm.files f).length + pgSize - 1) / pgSize →
        UserPage (pageAt (data / pgSize) j) := fun j _ hj =>
      userPage_pageAt (Nat.one_le_iff_ne_zero.mpr h0) hdata (by omega)
    have hmap : Ensures (mapPages p menv.pages f (data / pgSize) _ 0 (m.vm.files f).length 0) m.vm
        fun _ vm' => UserKeys vm' := userKeys_mapPages _ 0 _ 0 h hu
    refine (Ensures.zoom (Q := fun _ m' => UserKeys m'.vm) hmap).mono fun ok m' h' => ?_
    cases ok with
    | true => exact .bind (.modify (.pure h'))
    | false => exact .pure h'

theorem userKeys_handleStack {esp uaddr : ℕ} (h : UserKeys vm)
    (hb : nearStack esp uaddr = true → pgSize ≤ uaddr) :
    Ensures (handleStack p envs esp uaddr) vm fun _ vm' => UserKeys vm' := by
  refine .ite (fun hn => ?_) fun _ => .pure h
  have hu : 1 ≤ uaddr / pgSize := (Nat.one_le_div_iff (by decide)).mpr (hb hn)
  generalize hleft : physBase - 1 - uaddr / pgSize = left
  by_cases hlt : uaddr / pgSize < physBase
  · exact userKeys_growStack left h hu (by omega)
  · obtain rfl : left = 0 := by omega
    exact .pure h

theorem userKeys_handleMmapDirty {uaddr : ℕ} {write : Bool} (h : UserKeys m.vm) :
    Ensures (handleMmapDirty p env uaddr write) m fun _ m' => UserKeys m'.vm := by
  refine .bind (.get ?_)
  split
  · exact .bind (.modify (onVm_ensures (userKeys_setWritable h)))
  · exact .pure h

theorem userKeys_vmHandleUserFault {esp uaddr : ℕ} {write : Bool} (h : UserKeys m.vm)
    (hb : nearStack esp uaddr = true → pgSize ≤ uaddr) :
    Ensures (vmHandleUserFault p env envs esp uaddr write) m fun _ m' => UserKeys m'.vm := by
  refine .bind ((onVm_ensures (userKeys_handleStack h hb)).mono fun _ _ h1 => .ite (fun _ => ?_) fun _ =>
    .pure h1)
  exact .bind ((userKeys_handleMmapDirty h1).mono fun _ _ h2 => .ite (fun _ => .pure h2) fun _ =>
    onVm_ensures (userKeys_handleUserFault h2))

end Maps

/-! ### Loading and ending -/

/-- What holds between two steps: the pages that a `load` has yet to register are user pages, too. -/
structure InUser (s : Sys) : Prop where
  keys : UserKeys s.vm
  loads : ∀ {p n rest}, s.phase p = .loading n rest → ∀ {u i w}, .segmentPage u i w ∈ rest → UserPage u

variable {s : Sys} {ph : Phase}

theorem inUser_setPhase (h : UserKeys vm) (hs : InUser s)
    (hph : ∀ n rest, ph = .loading n rest → ∀ u i w, .segmentPage u i w ∈ rest → UserPage u) :
    InUser (Sys.setPhase { s with vm := vm } p ph) := by
  refine ⟨h, fun {q n rest} hq => ?_⟩
  by_cases hqp : q = p
  · subst hqp
    have hq' : ph = .loading n rest := by simpa [Sys.setPhase] using hq
    exact hph n rest hq' _ _ _
  · have hq' : s.phase q = .loading n rest := by simpa [Sys.setPhase, hqp] using hq
    exact hs.loads hq'

/-- A phase that is not in `load`. -/
theorem inUser_setPhase' (h : UserKeys vm) (hs : InUser s) (hph : ∀ n rest, ph ≠ .loading n rest) :
    InUser (Sys.setPhase { s with vm := vm } p ph) :=
  inUser_setPhase h hs fun n rest he => absurd he (hph n rest)

theorem inUser_start {cmdLine : CStr} {file : Option FileId} {d : Option PdId} (hs : InUser s) :
    Ensures (startProcess cmdLine file d) s fun _ s' => InUser s' := by
  have hs' : InUser { s with lastPid := s.lastPid + 1 } := ⟨hs.keys, hs.loads⟩
  refine .bind (.get (.bind (.set ?_)))
  cases d with
  | none => exact .modify (inUser_setPhase' hs.keys hs' (by simp))
  | some d =>
    refine .bind (.assert fun _ => .bind (Lifetimes.onVM_ensures (.modify (.bind (.assert fun _ => ?_)))))
    have hkeys : UserKeys (createPagedir s.vm s.lastPid d) := hs.keys
    cases file with
    | none =>
      refine .modify (inUser_setPhase hkeys hs' ?_)
      rintro n rest hph u i w hm
      obtain ⟨-, rfl⟩ := Phase.loading.inj hph
      simp at hm
    | some file =>
      refine .modify (inUser_setPhase hkeys hs' ?_)
      rintro n rest hph u i w hm
      obtain ⟨-, rfl⟩ := Phase.loading.inj hph
      exact userPage_of_loadSteps hm

theorem inUser_load {kpage : Option Frame} (hs : InUser s) :
    Ensures (loadNext p env kpage) s fun _ s' => InUser s' := by
  have hrest : ∀ {n n' st rest}, s.phase p = .loading n (st :: rest) → ∀ m rest',
      Phase.loading n' rest = .loading m rest' → ∀ u i w, .segmentPage u i w ∈ rest' → UserPage u := by
    rintro n n' st rest hp m rest' he u i w hm
    obtain ⟨-, rfl⟩ := Phase.loading.inj he
    exact hs.loads hp (List.mem_cons_of_mem st hm)
  refine .bind (.get ?_)
  split
  · rename_i n u i w rest hp
    have hu := hs.loads hp List.mem_cons_self
    refine .bind (Lifetimes.onVM_ensures ((userKeys_lazyAllocate hs.keys hu).mono fun ok vm' h => ?_))
    cases ok with
    | true => exact .modify (inUser_setPhase h hs (hrest hp))
    | false => exact .modify (inUser_setPhase' h hs (by simp))
  · rename_i n rest hp
    have hstack : UserPage stackUpage := by
      unfold UserPage stackUpage physBase
      omega
    have hact := userKeys_act (a := .inmemAllocate p env stackUpage true) hs.keys (by simp) trivial
      fun k hk => by
        obtain rfl := hk
        exact hstack
    refine .bind (Lifetimes.onVM_ensures ?_)
    intro r vm' hr
    have h : UserKeys vm' := hact none vm' (by simp [act, bind_apply, hr, pure_apply])
    cases r with
    | some f => exact .modify (inUser_setPhase h hs (hrest hp))
    | none =>
      have hfree : Ensures (freeUnset kpage) vm' fun _ vm'' => UserKeys vm'' := by
        cases kpage with
        | none => exact .pure h
        | some f => exact pallocFreePage_ensures fun _ => h
      have hs' : InUser { s with vm := vm' } := ⟨h, hs.loads⟩
      exact .bind (Lifetimes.onVM_ensures (hfree.mono fun _ _ h => .modify (inUser_setPhase' h hs' (by simp))))
  · exact .modify (inUser_setPhase' hs.keys hs (by simp))
  · exact .modify (inUser_setPhase' hs.keys hs (by simp))
  · exact .halt

theorem inUser_access (hs : InUser s) (ha : Access a = true) :
    Ensures (own p a) s fun _ s' => InUser s' := by
  refine .bind (.get (.bind (.assert fun _ => .bind (Lifetimes.onVM_ensures ?_))))
  have hact : Ensures (act a) s.vm fun _ vm' => UserKeys vm' := by
    cases a with
    | load | store | fileWrite => exact userKeys_act hs.keys (by simp) trivial fun _ hk => hk.elim
    | _ => cases ha
  exact hact.mono fun _ _ h => .pure ⟨h, hs.loads⟩

theorem inUser_exit (hs : InUser s) : Ensures (exitRunning p) s fun _ s' => InUser s' := by
  refine .bind (.get (.bind (.assert fun _ => .bind (Lifetimes.onVM_ensures ?_))))
  have hact := userKeys_act (a := .releaseAll p) hs.keys (by simp) trivial fun _ hk => hk.elim
  intro r vm' hr
  have h : UserKeys vm' := hact none vm' (by simp [act, bind_apply, hr, pure_apply])
  exact .modify (inUser_setPhase' h hs (by simp))

/-- `pagedir_destroy` frees frames, and leaves the table alone. -/
theorem inUser_destroy (hs : InUser s) : Ensures (destroyPagedir p) s fun _ s' => InUser s' := by
  refine .bind (.get (.bind (.assert fun _ => .bind (Lifetimes.onVM_ensures ?_))))
  refine .bind (.get (.bind (.deref fun d _ => .bind (.set ?_))))
  refine .bind (.get (.bind (.deref fun pd _ => .bind ?_)))
  have hloop := Ensures.forM (f := fun e => pallocFreePage e.2.frame) (I := UserKeys) pd.ptes.entries
    (s := { s.vm with pagedir := Function.update s.vm.pagedir p none }) hs.keys fun _ _ _ h =>
      pallocFreePage_ensures fun _ => h
  exact hloop.mono fun _ vm' h => .modify (.modify (inUser_setPhase' h hs (by simp)))

theorem inUser_rehash {m : List VpageInfo} (hs : InUser s) (hm : s.vm.map.Perm m) :
    Ensures (lifeAct (.rehash m)) s fun _ s' => InUser s' := by
  have hact := userKeys_act (a := .rehash m) hs.keys (by simp) hm fun _ hk => hk.elim
  exact .bind (Lifetimes.onVM_ensures (hact.mono fun _ _ h => .pure ⟨h, hs.loads⟩))

/-! ### All steps -/

section Machine

variable {x x' : Machine}

theorem onLife_ensures {op : Op Sys Unit} (h : Ensures op x.life fun _ s' => InUser s') :
    Ensures (onLife op) x fun _ x' => InUser x'.life :=
  .zoom h

theorem onMaps_ensures {α : Type} {op : Op Maps α} (hx : InUser x.life)
    (h : Ensures op x.maps fun _ m' => UserKeys m'.vm) :
    Ensures (onMaps op) x fun _ x' => InUser x'.life :=
  .zoom (h.mono fun _ _ h => ⟨h, hx.loads⟩)

theorem inUser_pageAct {b : PageAction} (hx : InUser x.life) (hb : Below x b)
    (hr : ∀ m, b = .rehash m → x.life.vm.map.Perm m) : Ensures (pageAct b) x fun _ x' => InUser x'.life := by
  cases b with
  | start cmdLine file d => exact onLife_ensures (inUser_start hx)
  | load p env kpage => exact onLife_ensures (inUser_load hx)
  | mmap p env file data =>
    refine .bind (.bind (.get (.assert fun _ => .bind ?_)))
    have hmap : Ensures (sysMmap p env file data) x.maps fun _ m' => UserKeys m'.vm :=
      userKeys_sysMmap hx.keys (by rintro f rfl; exact hb)
    exact (onMaps_ensures hx hmap).mono fun _ _ h => .pure h
  | munmap p envs mid =>
    exact .bind (.bind (.get (.assert fun _ => onMaps_ensures hx (userKeys_sysMunmap hx.keys))))
  | fault p env envs esp uaddr write =>
    refine .bind (.bind (.get (.assert fun _ => .bind ?_)))
    refine (onMaps_ensures hx (userKeys_vmHandleUserFault hx.keys hb)).mono fun r _ h => ?_
    cases r with
    | kill => exact .modify h
    | cont => exact .pure h
  | access p a => exact .bind (.assert fun ha => onLife_ensures (inUser_access hx ha))
  | exit p envs =>
    refine .bind ((onMaps_ensures hx (userKeys_releaseEntries hx.keys)).mono fun _ _ h => ?_)
    exact onLife_ensures (inUser_exit h)
  | destroy p => exact onLife_ensures (inUser_destroy hx)
  | rehash m => exact onLife_ensures (inUser_rehash hx (hr m rfl))

theorem inUser_invariant : Invariant PageInit (Guarded Below PageStep) fun x => InUser x.life where
  start {x} h := by
    obtain ⟨⟨hmap, -⟩, hph, -⟩ := h
    refine ⟨?_, fun {p n rest} hp => ?_⟩
    · unfold UserKeys
      rw [hmap]
      simp
    · rw [hph p] at hp
      cases hp
  step hx h := inUser_pageAct hx h.1 h.2.1 () _ h.2.2

end Machine

/-! ### Two runs -/

instance (s : Machine) : (a : PageAction) → Decidable (Below s a)
  | .mmap _ _ (some file) data =>
    inferInstanceAs (Decidable (data + (s.life.vm.files file).length ≤ physBase * pgSize))
  | .fault _ _ _ esp uaddr _ => inferInstanceAs (Decidable (nearStack esp uaddr = true → pgSize ≤ uaddr))
  | .mmap _ _ none _ | .start .. | .load .. | .munmap .. | .access .. | .exit .. | .destroy _ | .rehash _ =>
    isTrue trivial

/-- A step that computes, with the table left in its order. -/
def pageNext (s : Machine) : PageAction → Option Machine
  | .rehash _ => none
  | a => (pageAct a s).map Prod.snd

theorem pageStep_of_next {x x' : Machine} {b : PageAction} (h : pageNext x b = some x') : PageStep x b x' := by
  cases b with
  | rehash m => cases h
  | _ =>
    obtain ⟨⟨_, y⟩, hy, rfl⟩ := Option.map_eq_some_iff.mp h
    exact ⟨by simp, hy⟩

def belowNext (s : Machine) (a : PageAction) : Option Machine := if Below s a then pageNext s a else none

theorem guarded_of_next {x x' : Machine} {b : PageAction} (h : belowNext x b = some x') :
    Guarded Below PageStep x b x' := by
  unfold belowNext at h
  split at h
  · exact ⟨‹_›, pageStep_of_next h⟩
  · cases h

/-- The machine with two free user pages and one file, before the first process. -/
def bootedMachine : Machine where
  life := StaleVpages.booted
  entries _ := []
  midCounter _ := 0
  denied _ := false
  killed _ := false

theorem pageInit_bootedMachine : PageInit bootedMachine := StaleVpages.lifeInit_booted

/-- A process is loaded, maps the file at `data`, and touches the mapping. -/
def mapRun (data : ℕ) : List PageAction :=
  let env := StaleVpages.plenty
  [.start ['a'] (some 0) (some 0), .load 1 env none, .load 1 env none,
    .mmap 1 ⟨true, true, fun _ => env⟩ (some 0) data]

/-- The first touch of the mapping. -/
def touch (data : ℕ) : PageAction := .fault 1 StaleVpages.plenty (fun _ => StaleVpages.plenty) 0 data false

end Pintos.Userprog.UserPages
