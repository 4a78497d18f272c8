import Pintos.Userprog.MmapAtomic
import Pintos.Userprog.MmapInvariant
import Pintos.Userprog.StackGrowth

/-! # The references of mappings

`sys_mmap` and `sys_munmap` with the references to the inode that they take and drop: `file_reopen` and `file_close`
on the way of a mapping, page by page. -/

namespace Pintos.Userprog.MmapRefs

open Pintos.Lib Pintos.Lib.Ops Pintos.Vm.State Pintos.Vm.Vpage Pintos.Vm.Effect Pintos.Vm.Preserve
open Pintos.Userprog.Mmap Pintos.Userprog.MmapAtomic Pintos.Userprog.StackGrowth
open Pintos.Userprog.MmapInvariant (checkPages_ensures)

structure RefMaps where
  maps : Maps
  /-- `inode->open_cnt` of each file. -/
  openCnt : FileId → ℤ

def onMaps {α : Type} (m : Op Maps α) : Op RefMaps α := zoom RefMaps.maps (fun s maps => { s with maps := maps }) m

/-- An operation on virtual memory. -/
def onMem {α : Type} (m : Op VM α) : Op RefMaps α := onMaps (onVm m)

/-- `open_cnt` grows by `d`. -/
def RefMaps.count (s : RefMaps) (file : FileId) (d : ℤ) : RefMaps :=
  { s with openCnt := Function.update s.openCnt file (s.openCnt file + d) }

theorem openCnt_count (s : RefMaps) (f file : FileId) (d : ℤ) :
    (s.count f d).openCnt file = if file = f then s.openCnt file + d else s.openCnt file := by
  show Function.update s.openCnt f (s.openCnt f + d) file = _
  rw [Function.update_apply]
  split_ifs with h
  · rw [h]
  · rfl

/-! ### file.c -/

/-- `file_reopen`. Without memory for the `struct file`, the reference is dropped again. -/
def fileReopen (memory : Bool) (file : FileId) : Op RefMaps Bool :=
  if memory then do
    modify (·.count file 1)
    return true
  else return false

/-- `file_close`. -/
def fileClose (file : FileId) : Op RefMaps Unit := modify (·.count file (-1))

/-! ### vpage.c -/

/-- What there is for a page: memory for the `file_reopen` of `mmap_entry_append`, for the vpage, and for the
`file_reopen` of `vpage_info_lazy_allocate`. -/
structure PageEnv where
  copy : Bool
  malloc : Bool
  reopen : Bool

/-- Nothing runs out in the rest of a call. -/
def enough : Env := ⟨false, true, true, 0⟩

/-- `vpage_info_lazy_allocate` of a page of a file. -/
def lazyAllocateRef (env : PageEnv) (uaddr : Upage) (file : FileId) (offset : ℕ) (length : Fin (pgSize + 1))
    (pid : Pid) (writable : Bool) : Op RefMaps Bool :=
  if env.malloc then do
    if ← fileReopen env.reopen file then
      onMem (lazyAllocate enough uaddr ⟨some file, offset, length⟩ pid writable)
    else return false
  else return false

/-- The `file_close` of a vpage that is lazy no more. -/
def closeLazy (vpi : VpageInfo) : Op RefMaps Unit :=
  match vpi.backend with
  | .lazy ⟨some file, _, _⟩ => fileClose file
  | _ => return ()

/-- `vpage_info_find_and_release`. -/
def findAndReleaseRef (upage : Upage) (pid : Pid) : Op RefMaps Unit := do
  let s ← get
  match s.maps.vm.find ⟨pid, upage⟩ with
  | some vpi => do
    closeLazy vpi
    onMem (releaseInner vpi)
  | none => return ()

/-- `vpage_handle_user_fault`. -/
def handleUserFaultRef (self : Pid) (env : Env) (upage : Upage) : Op RefMaps UserFaultType := do
  let s ← get
  match ← onMem (handleUserFault self env upage) with
  | .kill => return .kill
  | .cont => do
    let vpi ← deref (s.maps.vm.find ⟨self, upage⟩)
    closeLazy vpi
    return .cont

/-! ### mmap -/

/-- The loop that gives up the first `n` pages. -/
def releasePagesRef (p : Pid) (upage : Upage) (n : ℕ) : Op RefMaps Unit :=
  (List.range n).forM fun j => findAndReleaseRef (pageAt upage j) p

/-- A round of the loop of `mmap_entry_append`. What `file_reopen` returns is only used to reopen it once more. -/
def mapPageRef (p : Pid) (env : PageEnv) (file : FileId) (upage : Upage) (offset : ℕ)
    (length : Fin (pgSize + 1)) : Op RefMaps Bool := do
  if ← fileReopen env.copy file then lazyAllocateRef env upage file offset length p false
  else return false

/-- The loop of `mmap_entry_append` from page `i` on, with `left` rounds to go. -/
def mapPagesRef (p : Pid) (envs : ℕ → PageEnv) (file : FileId) (upage : Upage) :
    (left i remLength curOffset : ℕ) → Op RefMaps Bool
  | 0, _, _, _ => return true
  | left + 1, i, remLength, curOffset => do
    let curLength := min remLength pgSize
    if ← mapPageRef p (envs i) file (pageAt upage i) curOffset ⟨curLength, min_pgSize_lt remLength⟩ then
      mapPagesRef p envs file upage left (i + 1) (remLength - curLength) (curOffset + pgSize)
    else do
      releasePagesRef p upage i
      return false

structure RefEnv where
  reopen : Bool
  entry : Bool
  pages : ℕ → PageEnv

/-- `mmap_entry_append`, with what `file_reopen` returned. -/
def mmapEntryAppendRef (p : Pid) (env : RefEnv) (reopened : Bool) (file : FileId) (upage : Upage) :
    Op RefMaps (Option MmapEntry) :=
  if env.entry then do
    assert reopened
    let s ← get
    let mid := s.maps.midCounter p + 1
    set { s with maps := { s.maps with midCounter := Function.update s.maps.midCounter p mid } }
    let length := (s.maps.vm.files file).length
    let pageCnt := (length + pgSize - 1) / pgSize
    if ← mapPagesRef p env.pages file upage pageCnt 0 length 0 then do
      let entry := ⟨mid, file, upage, length, pageCnt, false⟩
      modify fun s => { s with maps := s.maps.setEntries p (s.maps.entries p ++ [entry]) }
      return some entry
    else return none
  else return none

/-- `sys_mmap`. -/
def sysMmapRef (p : Pid) (env : RefEnv) (file : Option FileId) (data : ℕ) : Op RefMaps (Option ℕ) :=
  if data / pgSize = 0 then return none
  else
    match file with
    | none => return none
    | some file => do
      let reopened ← fileReopen env.reopen file
      if data / pgSize * pgSize ≠ data then return none
      else do
        let entry ← mmapEntryAppendRef p env reopened file (data / pgSize)
        return entry.map (·.mid)

/-! ### vm_handle_user_fault and munmap -/

/-- What a page fault finds, and the stack pointer of its frame. -/
structure FaultEnv where
  env : Env
  stack : ℕ → Env
  esp : ℕ

/-- `vm_handle_user_fault`. -/
def vmHandleUserFaultRef (p : Pid) (env : FaultEnv) (uaddr : ℕ) (write : Bool) : Op RefMaps UserFaultType := do
  if ← onMem (handleStack p env.stack env.esp uaddr) then do
    if ← onMaps (handleMmapDirty p env.env uaddr write) then return .cont
    else handleUserFaultRef p env.env (uaddr / pgSize)
  else return .kill

/-- A page that the kernel reads for a process, whatever faults on the way. -/
def readUserRef (p : Pid) (env : FaultEnv) (upage : Upage) : Op RefMaps Page := do
  let s ← get
  let d ← deref (s.maps.vm.pagedir p)
  match s.maps.vm.pte d upage with
  | some e => return s.maps.vm.mem e.frame
  | none => do
    match ← vmHandleUserFaultRef p env (upage * pgSize) false with
    | .kill => halt
    | .cont => do
      let s ← get
      let e ← deref (s.maps.vm.pte d upage)
      return s.maps.vm.mem e.frame

/-- `file_write` from the mapped pages. -/
def fileWriteMappedRef (p : Pid) (envs : ℕ → FaultEnv) (me : MmapEntry) : Op RefMaps Unit :=
  (List.range me.pageCnt).forM fun i => do
    let page ← readUserRef p (envs i) (pageAt me.uaddr i)
    onMem (modify fun s => { s with
      files := Function.update s.files me.file (writePage (s.files me.file) page i me.length) })

/-- The write-back of `mmap_entry_release`. -/
def writeBackRef (p : Pid) (envs : ℕ → FaultEnv) (me : MmapEntry) : Op RefMaps Unit := do
  let s ← get
  if me.dirty && !s.maps.denied me.file then fileWriteMappedRef p envs me else return ()

/-- `mmap_entry_release`. -/
def mmapEntryReleaseRef (p : Pid) (envs : ℕ → FaultEnv) (me : MmapEntry) : Op RefMaps Unit := do
  onMem (checkPages p me.uaddr me.pageCnt 0)
  writeBackRef p envs me
  fileClose me.file
  releasePagesRef p me.uaddr me.pageCnt
  modify fun s => { s with maps := s.maps.setEntries p ((s.maps.entries p).erase me) }

/-- `sys_munmap`. -/
def sysMunmapRef (p : Pid) (envs : ℕ → FaultEnv) (mid : ℤ) : Op RefMaps Unit := do
  let s ← get
  let me ← deref (mmapEntryGet s.maps p mid)
  mmapEntryReleaseRef p envs me

/-! ### The references of lazy vpages -/

/-- A lazy vpage holds a reference to its file. -/
def holds (file : FileId) (v : VpageInfo) : Bool :=
  match v.backend with
  | .lazy ⟨some f, _, _⟩ => f = file
  | _ => false

/-- The references that the vpages with keys in `Q` hold. -/
def heldAt (file : FileId) (Q : Key → Bool) (vm : VM) : ℕ := vm.map.countP fun v => holds file v && Q v.key

/-- What a vpage adds to `heldAt`. -/
def weight (file : FileId) (Q : Key → Bool) (v : VpageInfo) : ℕ := if holds file v && Q v.key then 1 else 0

/-- All keys. -/
def anywhere : Key → Bool := fun _ => true

variable {file : FileId} {Q : Key → Bool} {vm vm' vm₁ : VM} {v w : VpageInfo} {k : Key} {p q : Pid}
  {s s' s'' : RefMaps} {f : Frame} {u : Upage}

theorem weight_of_not_holds (h : holds file v = false) : weight file Q v = 0 := by
  rw [weight, h]
  rfl

theorem holds_eq_false (h : ∀ i, v.backend ≠ .lazy i) : holds file v = false := by
  unfold holds
  split
  · exact absurd ‹_› (h _)
  · rfl

theorem heldAt_of_map (file : FileId) (Q : Key → Bool) (h : vm'.map = vm.map) :
    heldAt file Q vm' = heldAt file Q vm := by
  rw [heldAt, heldAt, h]

theorem heldAt_cons (file : FileId) (Q : Key → Bool) (v : VpageInfo) (vm : VM) :
    heldAt file Q { vm with map := v :: vm.map } = heldAt file Q vm + weight file Q v := List.countP_cons

/-- A table with the vpage `v` is `v` in front of the rest. -/
theorem heldAt_erase (file : FileId) (Q : Key → Bool) (hs : Table.Keyed VpageInfo.key vm.map) (hv : v ∈ vm.map) :
    heldAt file Q vm = heldAt file Q (vm.erase v.key) + weight file Q v :=
  ((hs.perm_cons_erase hv).countP_eq _).trans List.countP_cons

theorem heldAt_replace (file : FileId) (Q : Key → Bool) (hs : Table.Keyed VpageInfo.key vm.map) (hv : v ∈ vm.map)
    (hk : w.key = v.key) :
    heldAt file Q (vm.replace w) + weight file Q v = heldAt file Q vm + weight file Q w := by
  have h1 := ((hs.perm_cons_replace hv hk).countP_eq fun v => holds file v && Q v.key).trans List.countP_cons
  have h2 := heldAt_erase file Q hs hv
  unfold heldAt weight at *
  unfold VM.replace VM.erase at *
  dsimp only at *
  omega

/-- Getting a frame takes no reference. -/
theorem heldAt_got (file : FileId) (Q : Key → Bool) (hs : Table.Keyed VpageInfo.key vm.map) (hgot : Got vm f vm₁) :
    heldAt file Q vm₁ = heldAt file Q vm := by
  cases hgot with
  | take => rfl
  | @evict v i n hv hb =>
    have hout : ∀ b : Backend, (∀ j, b ≠ .lazy j) → weight file Q (v.withBackend b) = 0 := fun b h =>
      weight_of_not_holds (holds_eq_false h)
    have h := heldAt_replace (w := v.withBackend (.swapped ⟨n⟩)) file Q hs hv rfl
    rw [hout _ (by simp), weight_of_not_holds (holds_eq_false (by simp [hb]))] at h
    exact h

theorem keyed_got (hs : Table.Keyed VpageInfo.key vm.map) (hgot : Got vm f vm₁) :
    Table.Keyed VpageInfo.key vm₁.map := by
  unfold Table.Keyed at *
  rw [got_map_key hgot]
  exact hs

/-- **A page comes in**: a lazy vpage gives up its reference. -/
theorem heldAt_entered (file : FileId) (Q : Key → Bool) {env : Env} (hs : Table.Keyed VpageInfo.key vm.map)
    (hv : v ∈ vm.map) (hin : Entered q env vm v f vm') :
    heldAt file Q vm' + weight file Q v = heldAt file Q vm ∧ Table.Keyed VpageInfo.key vm'.map := by
  have hall : ∀ d, heldAt file Q (enter vm v f d env.now) + weight file Q v = heldAt file Q vm := by
    intro d
    have h := heldAt_replace (w := v.withBackend (.inmem ⟨f, d, env.now⟩)) file Q hs hv rfl
    have hzero : weight file Q (v.withBackend (.inmem ⟨f, d, env.now⟩)) = 0 :=
      weight_of_not_holds (holds_eq_false (by simp))
    rw [hzero] at h
    exact h
  have hkeys : ∀ d, Table.Keyed VpageInfo.key (enter vm v f d env.now).map := fun d => hs.replace
  cases hin with
  | mapped => exact ⟨hall _, hkeys _⟩
  | unmapped => exact ⟨hall _, hkeys _⟩

/-- The vpage that faulted gives up its reference, if it is lazy. -/
theorem heldAt_pagedIn (file : FileId) (Q : Key → Bool) {env : Env} (hs : Table.Keyed VpageInfo.key vm.map)
    (hv : vm.find ⟨q, u⟩ = some v) (hin : PagedIn q env vm u vm') :
    heldAt file Q vm' + weight file Q v = heldAt file Q vm ∧ Table.Keyed VpageInfo.key vm'.map := by
  cases hin with
  | @lazy v' i f s₁ _ hv' hb hgot hin =>
    obtain rfl : v = v' := Option.some.inj (hv.symm.trans hv')
    have hmem := got_mem_map hgot hs (Table.mem_of_find hv) (by simp [hb])
    have hkeys : Table.Keyed VpageInfo.key s₁.map := keyed_got hs hgot
    have hkeyed : Table.Keyed VpageInfo.key (fillFrame s₁ f (readPage s₁ i (s₁.mem f))).map := hkeys
    have hgiven : heldAt file Q s₁ = heldAt file Q vm := heldAt_got file Q hs hgot
    have hheld : heldAt file Q (fillFrame s₁ f (readPage s₁ i (s₁.mem f))) = heldAt file Q vm := hgiven
    rw [← hheld]
    exact heldAt_entered file Q hkeyed hmem hin
  | @swapped v' i f s₁ _ hv' hb hgot hin =>
    obtain rfl : v = v' := Option.some.inj (hv.symm.trans hv')
    have hmem := got_mem_map hgot hs (Table.mem_of_find hv) (by simp [hb])
    have hkeys : Table.Keyed VpageInfo.key s₁.map := keyed_got hs hgot
    have hkeyed : Table.Keyed VpageInfo.key (fillFrame (setSlot s₁ i.swapIndex false) f
        (Vm.Swap.slotPage s₁.swapBlock i.swapIndex)).map := hkeys
    have hgiven : heldAt file Q s₁ = heldAt file Q vm := heldAt_got file Q hs hgot
    have hheld : heldAt file Q (fillFrame (setSlot s₁ i.swapIndex false) f
        (Vm.Swap.slotPage s₁.swapBlock i.swapIndex)) = heldAt file Q vm := hgiven
    rw [← hheld]
    exact heldAt_entered file Q hkeyed hmem hin

/-! ### Pages of the stack -/

theorem not_holds_stackPage : holds file (stackPage p u) = false := rfl

theorem heldAt_withStack (file : FileId) (Q : Key → Bool) (vm : VM) (p : Pid) (new : List Upage) :
    heldAt file Q (withStack vm p new) = heldAt file Q vm := by
  have hzero : (new.reverse.map (stackPage p)).countP (fun v => holds file v && Q v.key) = 0 := by
    rw [List.countP_eq_zero]
    intro v hv
    obtain ⟨u, -, rfl⟩ := List.mem_map.mp hv
    rw [not_holds_stackPage, Bool.false_and]
    decide
  unfold heldAt withStack
  rw [List.countP_append, hzero, Nat.zero_add]

theorem keyed_withStack {start : Upage} {new : List Upage} (hs : Table.Keyed VpageInfo.key vm.map)
    (hnew : NewPages vm p start new) : Table.Keyed VpageInfo.key (withStack vm p new).map := by
  have hkeys : ((new.reverse.map (stackPage p)).map VpageInfo.key) = new.reverse.map (Key.mk p) := by
    rw [List.map_map]
    rfl
  unfold Table.Keyed withStack at *
  rw [List.map_append, List.nodup_append, hkeys]
  refine ⟨(List.nodup_reverse.mpr hnew.nodup).map fun a b h => congrArg Key.uaddr h, hs, ?_⟩
  intro a ha b hb hab
  obtain ⟨u, hu, rfl⟩ := List.mem_map.mp ha
  obtain ⟨v, hv, rfl⟩ := List.mem_map.mp hb
  have hnone := (mem_missing.mp (hnew.absent u (List.mem_reverse.mp hu))).2
  exact Table.find_eq_none.mp hnone v hv hab.symm

/-! ### Steps that keep the balance -/

/-- The references to the file other than those of lazy vpages in `Q`. -/
def unheld (file : FileId) (Q : Key → Bool) (s : RefMaps) : ℤ := s.openCnt file - heldAt file Q s.maps.vm

/-- A mapping as it was made. -/
def clean (me : MmapEntry) : MmapEntry := { me with dirty := false }

/-- **A quiet step**: the only references to the file that come or go are those of lazy vpages in `Q`, and no mapping
comes or goes. -/
structure Steady (file : FileId) (Q : Key → Bool) (s s' : RefMaps) : Prop where
  keyed : Table.Keyed VpageInfo.key s'.maps.vm.map
  unheld : unheld file Q s' = unheld file Q s
  entries : ∀ p mid, (mmapEntryGet s'.maps p mid).map clean = (mmapEntryGet s.maps p mid).map clean
  midCounter : s'.maps.midCounter = s.maps.midCounter

/-- A lazy vpage of the file is in `Q`, if it has the key `k`. -/
def Guarded (file : FileId) (Q : Key → Bool) (vm : VM) (k : Key) : Prop :=
  ∀ v ∈ vm.map, v.key = k → holds file v = true → Q k = true

theorem weight_of_guarded (hg : Guarded file Q vm k) (hv : v ∈ vm.map) (hk : v.key = k) :
    weight file Q v = if holds file v then 1 else 0 := by
  unfold weight
  by_cases hh : holds file v = true
  · rw [hh, hk, hg v hv hk hh, Bool.and_true]
  · rw [Bool.not_eq_true] at hh
    rw [hh, Bool.false_and]

theorem Steady.refl (hs : Table.Keyed VpageInfo.key s.maps.vm.map) : Steady file Q s s :=
  ⟨hs, rfl, fun _ _ => rfl, rfl⟩

theorem Steady.trans (h : Steady file Q s s') (h' : Steady file Q s' s'') : Steady file Q s s'' :=
  ⟨h'.keyed, h'.unheld.trans h.unheld, fun p mid => (h'.entries p mid).trans (h.entries p mid),
    h'.midCounter.trans h.midCounter⟩

/-- Virtual memory changes, and no lazy vpage of the file with it. -/
theorem steady_memory (hs : Table.Keyed VpageInfo.key vm'.map) (hheld : heldAt file Q vm' = heldAt file Q s.maps.vm) :
    Steady file Q s { s with maps := { s.maps with vm := vm' } } := by
  refine ⟨hs, ?_, fun _ _ => rfl, rfl⟩
  unfold MmapRefs.unheld
  rw [hheld]

theorem onMem_ensures {α : Type} {m : Op VM α} {R : α → RefMaps → Prop}
    (h : Ensures m s.maps.vm fun a vm' => R a { s with maps := { s.maps with vm := vm' } }) :
    Ensures (onMem m) s R := by
  unfold onMem onMaps onVm
  exact .zoom (.zoom h)

theorem guarded_withStack {new : List Upage} (h : Guarded file Q vm k) : Guarded file Q (withStack vm p new) k := by
  intro v hv hk hh
  rcases List.mem_append.mp hv with hv | hv
  · obtain ⟨u, -, rfl⟩ := List.mem_map.mp hv
    cases hh
  · exact h v hv hk hh

theorem handleStack_steady {envs : ℕ → Env} {esp uaddr : ℕ} (hs : Table.Keyed VpageInfo.key s.maps.vm.map)
    (hg : Guarded file Q s.maps.vm k) : Ensures (onMem (handleStack p envs esp uaddr)) s fun _ s' =>
      Steady file Q s s' ∧ Guarded file Q s'.maps.vm k := by
  refine onMem_ensures ((handleStack_yields s.maps.vm p envs esp uaddr).ensures.mono fun _ vm' h => ?_)
  obtain ⟨new, hnew, rfl⟩ := h
  exact ⟨steady_memory (keyed_withStack hs hnew) (heldAt_withStack file Q _ p new), guarded_withStack hg⟩

/-! ### Dirty mappings -/

theorem map_find?_replace {α β : Type} [BEq α] [LawfulBEq α] {P : α → Bool} {g : α → β} {a b : α}
    (hP : P b = P a) (hg : g b = g a) : ∀ l : List α, ((l.replace a b).find? P).map g = (l.find? P).map g
  | [] => rfl
  | x :: l => by
    have hrec := map_find?_replace hP hg l
    rw [List.replace_cons]
    cases hx : a == x with
    | true =>
      obtain rfl : a = x := eq_of_beq hx
      show ((b :: l).find? P).map g = ((a :: l).find? P).map g
      rw [List.find?_cons, List.find?_cons, hP]
      cases P a
      · exact congrArg (Option.map g) rfl
      · exact congrArg some hg
    | false =>
      show ((x :: l.replace a b).find? P).map g = ((x :: l).find? P).map g
      rw [List.find?_cons, List.find?_cons]
      cases P x
      · exact hrec
      · rfl

theorem get_markDirty (m : Maps) (me : MmapEntry) (mid : ℤ) :
    (mmapEntryGet (m.markDirty p me) q mid).map clean = (mmapEntryGet m q mid).map clean := by
  unfold mmapEntryGet Maps.markDirty Maps.setEntries
  dsimp only
  by_cases hq : q = p
  · subst hq
    rw [Function.update_self]
    exact map_find?_replace (a := me) (b := { me with dirty := true }) rfl rfl (m.entries q)
  · rw [Function.update_of_ne hq]

theorem setWritable_held {env : Env} (hs : Table.Keyed VpageInfo.key vm.map) (hg : Guarded file Q vm k) :
    Ensures (setWritable env u p true) vm fun _ vm' =>
      Table.Keyed VpageInfo.key vm'.map ∧ heldAt file Q vm' = heldAt file Q vm ∧ Guarded file Q vm' k := by
  have hreplace : ∀ v, vm.find ⟨p, u⟩ = some v →
      Table.Keyed VpageInfo.key (vm.replace (v.withWritable true)).map ∧
        heldAt file Q (vm.replace (v.withWritable true)) = heldAt file Q vm ∧
        Guarded file Q (vm.replace (v.withWritable true)) k := by
    intro v hv
    have hmem := Table.mem_of_find hv
    refine ⟨hs.replace, ?_, fun w hw hk hh => ?_⟩
    · have h := heldAt_replace (w := v.withWritable true) file Q hs hmem rfl
      have hsame : weight file Q (v.withWritable true) = weight file Q v := rfl
      omega
    · rcases Table.mem_replace.mp hw with ⟨rfl, -⟩ | ⟨hw, -⟩
      · exact hg v hmem hk hh
      · exact hg w hw hk hh
  exact setWritable_ensures ⟨hs, rfl, hg⟩ (fun v hv _ => hreplace v hv) fun v i e hv _ _ => hreplace v hv

theorem handleMmapDirty_steady {env : Env} {uaddr : ℕ} {write : Bool} (hs : Table.Keyed VpageInfo.key s.maps.vm.map)
    (hg : Guarded file Q s.maps.vm k) : Ensures (onMaps (handleMmapDirty p env uaddr write)) s fun _ s' =>
      Steady file Q s s' ∧ Guarded file Q s'.maps.vm k := by
  refine Ensures.zoom (.bind (.get ?_))
  split
  · rename_i me _
    refine .bind (.modify (.zoom ((setWritable_held hs hg).mono fun _ vm' h => ?_)))
    obtain ⟨hk, hheld, hg'⟩ := h
    have hquiet := steady_memory (s := s) hk hheld
    exact ⟨⟨hk, hquiet.unheld, fun q mid => get_markDirty s.maps me mid, rfl⟩, hg'⟩
  · exact .pure ⟨.refl hs, hg⟩

/-! ### Faults -/

/-- What `file_close` does for a vpage that is lazy no more. -/
theorem closeLazy_ensures (v : VpageInfo) (file : FileId) : Ensures (closeLazy v) s fun _ s' =>
    s'.maps = s.maps ∧ s'.openCnt file = s.openCnt file - if holds file v then 1 else 0 := by
  unfold closeLazy holds
  split
  · rename_i f _ _ _
    refine .modify ⟨rfl, ?_⟩
    rw [openCnt_count]
    by_cases hf : f = file
    · subst hf
      rw [if_pos rfl, if_pos (decide_eq_true rfl)]
      omega
    · rw [if_neg (Ne.symm hf), if_neg (by simpa using hf), sub_zero]
  · exact .pure ⟨rfl, (sub_zero _).symm⟩

/-- **A vpage comes in** and its reference is dropped. -/
theorem handleUserFaultRef_steady {env : Env} (hs : Table.Keyed VpageInfo.key s.maps.vm.map)
    (hg : Guarded file Q s.maps.vm ⟨p, u⟩) :
    Ensures (handleUserFaultRef p env u) s fun _ s' => Steady file Q s s' := by
  refine .bind (.get (.bind (onMem_ensures (handleUserFault_ensures.mono fun r vm' h => ?_))))
  rcases h with ⟨rfl, rfl⟩ | ⟨rfl, hin⟩
  · exact .pure (.refl hs)
  · refine .bind (.deref fun v hv => .bind ((closeLazy_ensures v file).mono fun _ s₁ h₁ => .pure ?_))
    obtain ⟨hmaps, hcnt⟩ := h₁
    obtain ⟨hheld, hkeyed⟩ := heldAt_pagedIn file Q hs hv hin
    have hw := weight_of_guarded hg (Table.mem_of_find hv) (Table.key_of_find hv)
    refine ⟨hmaps ▸ hkeyed, ?_, fun q mid => ?_, by rw [hmaps]⟩
    · unfold MmapRefs.unheld
      rw [hmaps, hcnt]
      dsimp only
      split_ifs at hw ⊢ <;> omega
    · rw [hmaps]
      rfl

theorem vmHandleUserFaultRef_steady {env : FaultEnv} {uaddr : ℕ} {write : Bool}
    (hs : Table.Keyed VpageInfo.key s.maps.vm.map) (hg : Guarded file Q s.maps.vm ⟨p, uaddr / pgSize⟩) :
    Ensures (vmHandleUserFaultRef p env uaddr write) s fun _ s' => Steady file Q s s' := by
  refine .bind ((handleStack_steady hs hg).mono fun r s₁ h₁ => ?_)
  obtain ⟨h₁, hg₁⟩ := h₁
  split_ifs
  · refine .bind ((handleMmapDirty_steady h₁.keyed hg₁).mono fun r s₂ h₂ => ?_)
    obtain ⟨h₂, hg₂⟩ := h₂
    split_ifs
    · exact .pure (h₁.trans h₂)
    · exact (handleUserFaultRef_steady h₂.keyed hg₂).mono fun _ s₃ h₃ => (h₁.trans h₂).trans h₃
  · exact .pure h₁

/-! ### Tidy states -/

/-- No two vpages have the same key, and `mid_counter` is past the mappings. -/
structure Tidy (s : RefMaps) : Prop where
  keyed : Table.Keyed VpageInfo.key s.maps.vm.map
  mids : ∀ p, ∀ me ∈ s.maps.entries p, me.mid ≤ s.maps.midCounter p

theorem Steady.tidy (h : Steady file Q s s') (hs : Tidy s) : Tidy s' := by
  refine ⟨h.keyed, fun p me hme => ?_⟩
  have hsome : (mmapEntryGet s'.maps p me.mid).isSome = true :=
    List.find?_isSome.mpr ⟨me, hme, decide_eq_true rfl⟩
  have hold : (mmapEntryGet s.maps p me.mid).isSome = true := by
    rw [← Option.isSome_map, ← h.entries, Option.isSome_map]
    exact hsome
  obtain ⟨old, hmem, hmid⟩ := List.find?_isSome.mp hold
  have hle := hs.mids p old hmem
  rw [decide_eq_true_iff] at hmid
  rw [h.midCounter]
  omega

/-- A list of mappings that the counter is past. -/
theorem Tidy.setEntries (hs : Tidy s) {mes : List MmapEntry} (h : ∀ me ∈ mes, me.mid ≤ s.maps.midCounter p) :
    Tidy { s with maps := s.maps.setEntries p mes } := by
  refine ⟨hs.keyed, fun q me hme => ?_⟩
  change me ∈ Function.update s.maps.entries p mes q at hme
  show me.mid ≤ s.maps.midCounter q
  by_cases hq : q = p
  · subst hq
    rw [Function.update_self] at hme
    exact h me hme
  · rw [Function.update_of_ne hq] at hme
    exact hs.mids q me hme

theorem Tidy.erase (hs : Tidy s) (me : MmapEntry) :
    Tidy { s with maps := s.maps.setEntries p ((s.maps.entries p).erase me) } :=
  hs.setEntries fun old hold => hs.mids p old (List.mem_of_mem_erase hold)

theorem Tidy.append (hs : Tidy s) {me : MmapEntry} (h : me.mid ≤ s.maps.midCounter p) :
    Tidy { s with maps := s.maps.setEntries p (s.maps.entries p ++ [me]) } := by
  refine hs.setEntries fun old hold => ?_
  rcases List.mem_append.mp hold with hold | hold
  · exact hs.mids p old hold
  · rw [List.mem_singleton.mp hold]
    exact h

/-! ### munmap -/

/-- The pages of a mapping. -/
def inside (p : Pid) (upage : Upage) (n : ℕ) : Key → Bool := fun k => decide (∃ i < n, k = ⟨p, pageAt upage i⟩)

theorem inside_pageAt {i n : ℕ} (hi : i < n) : inside p u n ⟨p, pageAt u i⟩ = true := decide_eq_true ⟨i, hi, rfl⟩

theorem guarded_of_mem (h : Q k = true) : Guarded file Q vm k := fun _ _ _ _ => h

theorem readUserRef_steady {env : FaultEnv} (hs : Table.Keyed VpageInfo.key s.maps.vm.map) (hQ : Q ⟨p, u⟩ = true) :
    Ensures (readUserRef p env u) s fun _ s' => Steady file Q s s' := by
  refine .bind (.get (.bind (.deref fun d _ => ?_)))
  split
  · exact .pure (.refl hs)
  · have hpage : u * pgSize / pgSize = u := Nat.mul_div_cancel u (by decide)
    have hg : Guarded file Q s.maps.vm ⟨p, u * pgSize / pgSize⟩ := guarded_of_mem (hpage.symm ▸ hQ)
    refine .bind ((vmHandleUserFaultRef_steady hs hg).mono fun r s₁ h₁ => ?_)
    cases r with
    | kill => exact .halt
    | cont => exact .bind (.get (.bind (.deref fun e _ => .pure h₁)))

theorem fileWriteMappedRef_steady {envs : ℕ → FaultEnv} {me : MmapEntry}
    (hs : Table.Keyed VpageInfo.key s.maps.vm.map) (hQ : ∀ i < me.pageCnt, Q ⟨p, pageAt me.uaddr i⟩ = true) :
    Ensures (fileWriteMappedRef p envs me) s fun _ s' => Steady file Q s s' := by
  refine Ensures.forM (I := Steady file Q s) _ (.refl hs) fun i hi s₁ h₁ => ?_
  have hread : Ensures (readUserRef p (envs i) (pageAt me.uaddr i)) s₁ fun _ s' => Steady file Q s₁ s' :=
    readUserRef_steady h₁.keyed (hQ i (List.mem_range.mp hi))
  refine .bind (hread.mono fun page s₂ h₂ => ?_)
  exact onMem_ensures (.modify ((h₁.trans h₂).trans (steady_memory h₂.keyed rfl)))

theorem writeBackRef_steady {envs : ℕ → FaultEnv} {me : MmapEntry} (hs : Table.Keyed VpageInfo.key s.maps.vm.map)
    (hQ : ∀ i < me.pageCnt, Q ⟨p, pageAt me.uaddr i⟩ = true) :
    Ensures (writeBackRef p envs me) s fun _ s' => Steady file Q s s' := by
  refine .bind (.get (.ite (fun _ => fileWriteMappedRef_steady hs hQ) fun _ => .pure (.refl hs)))

/-- **A page is given up**, and the reference that it holds. -/
theorem findAndReleaseRef_steady (hs : Table.Keyed VpageInfo.key s.maps.vm.map) (hQ : Q ⟨p, u⟩ = true) :
    Ensures (findAndReleaseRef u p) s fun _ s' => Steady file Q s s' ∧
      s'.maps.vm.map = Table.erase VpageInfo.key s.maps.vm.map ⟨p, u⟩ := by
  refine .bind (.get ?_)
  split
  · rename_i v hv
    have hmem := Table.mem_of_find hv
    have hkey : v.key = ⟨p, u⟩ := Table.key_of_find hv
    refine .bind ((closeLazy_ensures v file).mono fun _ s₁ h₁ => onMem_ensures (releaseInner_ensures ?_))
    obtain ⟨hmaps, hcnt⟩ := h₁
    have hmap : (releaseVpage s₁.maps.vm v).map = (s.maps.vm.erase v.key).map := by
      rw [map_releaseVpage, hmaps]
      rfl
    have hg : Guarded file Q s.maps.vm ⟨p, u⟩ := guarded_of_mem hQ
    have hw := weight_of_guarded hg hmem hkey
    have hheld := heldAt_erase file Q hs hmem
    have hmid : s₁.maps.midCounter = s.maps.midCounter := congrArg Maps.midCounter hmaps
    refine ⟨⟨?_, ?_, fun q mid => ?_, hmid⟩, hkey ▸ hmap⟩
    · show Table.Keyed VpageInfo.key (releaseVpage s₁.maps.vm v).map
      rw [hmap]
      exact hs.erase v.key
    · show s₁.openCnt file - heldAt file Q (releaseVpage s₁.maps.vm v) = s.openCnt file - heldAt file Q s.maps.vm
      rw [heldAt_of_map file Q hmap, hcnt]
      split_ifs at hw ⊢ <;> omega
    · show (mmapEntryGet { s₁.maps with vm := _ } q mid).map clean = _
      rw [hmaps]
      rfl
  · rename_i hnone
    exact .pure ⟨.refl hs, (Table.erase_of_forall (Table.find_eq_none.mp hnone)).symm⟩

/-- The pages of a mapping are given up one after the other. -/
theorem releasePagesRef_steady (file : FileId) {n : ℕ} (hs : Table.Keyed VpageInfo.key s.maps.vm.map)
    (hQ : ∀ i < n, Q ⟨p, pageAt u i⟩ = true) : Ensures (releasePagesRef p u n) s fun _ s' =>
      Steady file Q s s' ∧ ∀ i < n, ∀ v ∈ s'.maps.vm.map, v.key ≠ ⟨p, pageAt u i⟩ := by
  refine Ensures.forM_range (I := fun j s' => Steady file Q s s' ∧
    ∀ i < j, ∀ v ∈ s'.maps.vm.map, v.key ≠ ⟨p, pageAt u i⟩) ⟨.refl hs, fun i hi => by omega⟩ ?_
  rintro j hj s₁ ⟨h₁, hgone⟩
  refine (findAndReleaseRef_steady h₁.keyed (hQ j hj)).mono fun _ s₂ h₂ => ⟨h₁.trans h₂.1, fun i hi v hv => ?_⟩
  rw [h₂.2] at hv
  obtain ⟨hold, hne⟩ := Table.mem_erase.mp hv
  rcases Nat.lt_succ_iff_lt_or_eq.mp hi with hi | rfl
  · exact hgone i hi v hold
  · exact hne

theorem heldAt_inside_eq_zero {n : ℕ} (h : ∀ i < n, ∀ v ∈ vm.map, v.key ≠ ⟨p, pageAt u i⟩) :
    heldAt file (inside p u n) vm = 0 := by
  unfold heldAt
  rw [List.countP_eq_zero]
  intro v hv hin
  obtain ⟨i, hi, hk⟩ := of_decide_eq_true (Bool.and_eq_true_iff.mp hin).2
  exact h i hi v hv hk

/-- **munmap** drops the reference of the mapping and those of its lazy pages. -/
theorem mmapEntryReleaseRef_openCnt {envs : ℕ → FaultEnv} {me : MmapEntry} (hs : Tidy s) :
    Ensures (mmapEntryReleaseRef p envs me) s fun _ s' => Tidy s' ∧
      s'.openCnt me.file = unheld me.file (inside p me.uaddr me.pageCnt) s - 1 := by
  have hQ : ∀ i < me.pageCnt, inside p me.uaddr me.pageCnt ⟨p, pageAt me.uaddr i⟩ = true := fun i hi =>
    inside_pageAt hi
  refine .bind (onMem_ensures ((checkPages_ensures me.pageCnt 0).mono fun _ vm' hvm => ?_))
  subst hvm
  have hwrite : Ensures (writeBackRef p envs me) s fun _ s' =>
      Steady me.file (inside p me.uaddr me.pageCnt) s s' := writeBackRef_steady hs.keyed hQ
  refine .bind (hwrite.mono fun _ s₁ h₁ => ?_)
  refine .bind (.modify ?_)
  have hs₁ : Tidy (s₁.count me.file (-1)) := ⟨h₁.keyed, (h₁.tidy hs).mids⟩
  have hrelease := releasePagesRef_steady me.file hs₁.keyed hQ
  refine .bind (hrelease.mono fun _ s₂ h₂ => .modify ⟨(h₂.1.tidy hs₁).erase me, ?_⟩)
  show s₂.openCnt me.file = _
  have hzero : heldAt me.file (inside p me.uaddr me.pageCnt) s₂.maps.vm = 0 := heldAt_inside_eq_zero h₂.2
  have hrel := h₂.1.unheld
  have hback := h₁.unheld
  have hclose : unheld me.file (inside p me.uaddr me.pageCnt) (s₁.count me.file (-1)) =
      unheld me.file (inside p me.uaddr me.pageCnt) s₁ - 1 := by
    unfold unheld
    rw [openCnt_count, if_pos rfl]
    show s₁.openCnt me.file + -1 - (heldAt me.file _ s₁.maps.vm : ℤ) = _
    omega
  have hend : unheld me.file (inside p me.uaddr me.pageCnt) s₂ = s₂.openCnt me.file := by
    unfold unheld
    rw [hzero]
    exact sub_zero _
  omega

/-! ### mmap -/

/-- The page was registered; two references were taken, and the vpage holds one of them. -/
structure PageTaken (p : Pid) (file : FileId) (u : Upage) (s s' : RefMaps) : Prop where
  absent : ∀ v ∈ s.maps.vm.map, v.key ≠ ⟨p, u⟩
  openCnt : s'.openCnt file = s.openCnt file + 2
  map : ∃ v, v.key = ⟨p, u⟩ ∧ holds file v = true ∧ s'.maps.vm.map = v :: s.maps.vm.map
  entries : s'.maps.entries = s.maps.entries
  midCounter : s'.maps.midCounter = s.maps.midCounter

theorem fileReopen_ensures {memory : Bool} (file : FileId) : Ensures (fileReopen memory file) s fun r s' =>
    (r = true ∧ memory = true ∧ s' = s.count file 1) ∨ r = false ∧ memory = false ∧ s' = s := by
  unfold fileReopen
  split_ifs with h
  · exact .bind (.modify (.pure (.inl ⟨rfl, h, rfl⟩)))
  · exact .pure (.inr ⟨rfl, by simpa using h, rfl⟩)

theorem openCnt_count_self (s : RefMaps) (file : FileId) (d : ℤ) :
    (s.count file d).openCnt file = s.openCnt file + d :=
  (openCnt_count s file file d).trans (if_pos rfl)

/-- **A page of a mapping** takes two references, or it takes some and fails. -/
theorem mapPageRef_ensures {env : PageEnv} {offset : ℕ} {length : Fin (pgSize + 1)} :
    Ensures (mapPageRef p env file u offset length) s fun r s' =>
      (r = true ∧ PageTaken p file u s s') ∨
        r = false ∧ s.openCnt file ≤ s'.openCnt file ∧ s'.maps = s.maps := by
  refine .bind ((fileReopen_ensures file).mono fun r s₁ h₁ => ?_)
  rcases h₁ with ⟨rfl, -, rfl⟩ | ⟨rfl, -, rfl⟩
  · have hone := openCnt_count_self s file 1
    rw [if_pos rfl]
    unfold lazyAllocateRef
    split_ifs
    · refine .bind ((fileReopen_ensures file).mono fun r s₂ h₂ => ?_)
      rcases h₂ with ⟨rfl, -, rfl⟩ | ⟨rfl, -, rfl⟩
      · have htwo := openCnt_count_self (s.count file 1) file 1
        rw [if_pos rfl]
        refine onMem_ensures (lazyAllocate_ensures (.inr ⟨rfl, ?_, rfl⟩) fun hnone => .inl ⟨rfl, ?_⟩)
        · show s.openCnt file ≤ ((s.count file 1).count file 1).openCnt file
          omega
        · have hholds : holds file ⟨u, false, p, .lazy ⟨some file, offset, length⟩⟩ = true := decide_eq_true rfl
          refine ⟨Table.find_eq_none.mp hnone, ?_, ⟨_, rfl, hholds, rfl⟩, rfl, rfl⟩
          show ((s.count file 1).count file 1).openCnt file = s.openCnt file + 2
          omega
      · rw [if_neg (by decide)]
        exact .pure (.inr ⟨rfl, by omega, rfl⟩)
    · exact .pure (.inr ⟨rfl, by omega, rfl⟩)
  · rw [if_neg (by decide)]
    exact .pure (.inr ⟨rfl, le_rfl, rfl⟩)

/-- Giving up a page drops one reference at most. -/
theorem findAndReleaseRef_openCnt (file : FileId) : Ensures (findAndReleaseRef u p) s fun _ s' =>
    s.openCnt file ≤ s'.openCnt file + 1 := by
  refine .bind (.get ?_)
  split
  · rename_i v _
    refine .bind ((closeLazy_ensures v file).mono fun _ s₁ h₁ => onMem_ensures (releaseInner_ensures ?_))
    have hcnt := h₁.2
    show s.openCnt file ≤ s₁.openCnt file + 1
    split_ifs at hcnt <;> omega
  · exact .pure (by omega)

theorem releasePagesRef_openCnt (file : FileId) (n : ℕ) : Ensures (releasePagesRef p u n) s fun _ s' =>
    s.openCnt file ≤ s'.openCnt file + n := by
  refine Ensures.forM_range (I := fun j (s' : RefMaps) => s.openCnt file ≤ s'.openCnt file + j) (by simp) ?_
  intro j _ s₁ h₁
  refine (findAndReleaseRef_openCnt file).mono fun _ s₂ h₂ => ?_
  push_cast
  omega

/-- A page more of a mapping, which was not there. -/
theorem heldAt_inside_succ {i : ℕ} (h : PageTaken p file (pageAt u i) s s') :
    heldAt file (inside p u (i + 1)) s'.maps.vm = heldAt file (inside p u i) s.maps.vm + 1 := by
  obtain ⟨v, hkey, hh, hmap⟩ := h.map
  have hv : weight file (inside p u (i + 1)) v = 1 := by
    rw [weight, hh, hkey, inside_pageAt (Nat.lt_succ_self i), Bool.and_true, if_pos rfl]
  have hold : heldAt file (inside p u (i + 1)) s.maps.vm = heldAt file (inside p u i) s.maps.vm := by
    refine List.countP_congr fun w hw => ?_
    have hne : w.key ≠ ⟨p, pageAt u i⟩ := h.absent w hw
    have hiff : inside p u (i + 1) w.key = true ↔ inside p u i w.key = true := by
      rw [inside, inside, decide_eq_true_iff, decide_eq_true_iff]
      constructor
      · rintro ⟨j, hj, hk⟩
        rcases Nat.lt_succ_iff_lt_or_eq.mp hj with hj | rfl
        · exact ⟨j, hj, hk⟩
        · exact absurd hk hne
      · rintro ⟨j, hj, hk⟩
        exact ⟨j, Nat.lt_succ_of_lt hj, hk⟩
    rw [Bool.and_eq_true, Bool.and_eq_true, hiff]
  have hnew := heldAt_cons file (inside p u (i + 1)) v s.maps.vm
  have hsame : heldAt file (inside p u (i + 1)) s'.maps.vm =
      heldAt file (inside p u (i + 1)) { s.maps.vm with map := v :: s.maps.vm.map } := heldAt_of_map file _ hmap
  rw [hsame, hnew, hold, hv]

/-- The pages from `i` on were registered, `left` of them. -/
structure PagesTaken (p : Pid) (file : FileId) (u : Upage) (left i : ℕ) (s s' : RefMaps) : Prop where
  unheld : unheld file (inside p u (i + left)) s' = unheld file (inside p u i) s + left
  entries : s'.maps.entries = s.maps.entries
  midCounter : s'.maps.midCounter = s.maps.midCounter

theorem PageTaken.tidy (h : PageTaken p file u s s') (hs : Tidy s) : Tidy s' := by
  obtain ⟨v, hkey, -, hmap⟩ := h.map
  refine ⟨?_, fun q me hme => ?_⟩
  · rw [hmap]
    exact Table.keyed_cons.mpr ⟨fun w hw => hkey ▸ h.absent w hw, hs.keyed⟩
  · rw [h.entries] at hme
    rw [h.midCounter]
    exact hs.mids q me hme

theorem PagesTaken.cons {left i : ℕ} (h' : PagesTaken p file u left (i + 1) s' s'')
    (h : PageTaken p file (pageAt u i) s s') : PagesTaken p file u (left + 1) i s s'' := by
  have hrest := h'.unheld
  have hheld := heldAt_inside_succ h
  have hcnt := h.openCnt
  refine ⟨?_, h'.entries.trans h.entries, h'.midCounter.trans h.midCounter⟩
  rw [show i + 1 + left = i + (left + 1) by omega] at hrest
  rw [hrest]
  unfold MmapRefs.unheld
  rw [hheld, hcnt]
  push_cast
  omega

/-- **The loop of `mmap_entry_append`**: each page keeps two references; when one fails, each page before it gives up
one only. -/
theorem mapPagesRef_ensures {envs : ℕ → PageEnv} : ∀ (left i remLength curOffset : ℕ) {s : RefMaps}, Tidy s →
    Ensures (mapPagesRef p envs file u left i remLength curOffset) s fun r s' => Tidy s' ∧
      ((r = true ∧ PagesTaken p file u left i s s') ∨ r = false ∧ s.openCnt file ≤ s'.openCnt file + i)
  | 0, i, remLength, curOffset, s, hs => .pure ⟨hs, .inl ⟨rfl, by simp, rfl, rfl⟩⟩
  | left + 1, i, remLength, curOffset, s, hs => by
    rw [mapPagesRef]
    refine .bind (mapPageRef_ensures.mono fun r s₁ h₁ => ?_)
    rcases h₁ with ⟨rfl, h₁⟩ | ⟨rfl, h₁, hmaps⟩
    · rw [if_pos rfl]
      have hcnt := h₁.openCnt
      refine (mapPagesRef_ensures left (i + 1) _ _ (h₁.tidy hs)).mono fun r s₂ h₂ => ⟨h₂.1, ?_⟩
      rcases h₂.2 with ⟨rfl, htaken⟩ | ⟨rfl, hfail⟩
      · exact .inl ⟨rfl, htaken.cons h₁⟩
      · refine .inr ⟨rfl, ?_⟩
        push_cast at hfail
        omega
    · rw [if_neg (by decide)]
      have hs₁ : Tidy s₁ := ⟨hmaps ▸ hs.keyed, hmaps ▸ hs.mids⟩
      have hquiet : Ensures (releasePagesRef p u i) s₁ fun _ s' => Steady file anywhere s₁ s' :=
        (releasePagesRef_steady file hs₁.keyed fun _ _ => rfl).mono fun _ _ h => h.1
      refine .bind ((hquiet.and (releasePagesRef_openCnt file i)).mono fun _ s₂ h₂ => .pure ⟨h₂.1.tidy hs₁, ?_⟩)
      exact .inr ⟨rfl, by omega⟩

/-- `mid_allocate`, and the counter is still past the mappings. -/
theorem Tidy.allocate (hs : Tidy s) (p : Pid) : Tidy
    { s with maps := { s.maps with
      midCounter := Function.update s.maps.midCounter p (s.maps.midCounter p + 1) } } := by
  refine ⟨hs.keyed, fun q me hme => ?_⟩
  have hle := hs.mids q me hme
  show me.mid ≤ Function.update s.maps.midCounter p (s.maps.midCounter p + 1) q
  rw [Function.update_apply]
  split_ifs with hq
  · subst hq
    omega
  · exact hle

theorem get_append {m : Maps} {me : MmapEntry} (h : ∀ old ∈ m.entries p, old.mid < me.mid) :
    mmapEntryGet (m.setEntries p (m.entries p ++ [me])) p me.mid = some me := by
  have hold : (m.entries p).find? (fun x => (x.mid : ℤ) = me.mid) = none := by
    rw [List.find?_eq_none]
    intro old hmem
    have hlt := h old hmem
    rw [decide_eq_true_iff]
    omega
  unfold mmapEntryGet Maps.setEntries
  dsimp only
  rw [Function.update_self, List.find?_append, hold]
  simp

/-- The mapping is there. It took no reference that is not taken into account before, and two for each page, of which
the vpage holds one. -/
structure Mapped (p : Pid) (file : FileId) (u : Upage) (s s' : RefMaps) : Prop where
  unheld : unheld file (inside p u (newEntry s.maps p file u).pageCnt) s' =
    s.openCnt file + (newEntry s.maps p file u).pageCnt
  entry : mmapEntryGet s'.maps p (newEntry s.maps p file u).mid = some (newEntry s.maps p file u)

theorem unheld_inside_zero : unheld file (inside p u 0) s = s.openCnt file := by
  have hzero : heldAt file (inside p u 0) s.maps.vm = 0 := heldAt_inside_eq_zero fun i hi => by omega
  rw [unheld, hzero]
  exact sub_zero _

/-- **`mmap_entry_append`**: no reference is given up that was not taken. -/
theorem mmapEntryAppendRef_ensures {env : RefEnv} {reopened : Bool} (hs : Tidy s) :
    Ensures (mmapEntryAppendRef p env reopened file u) s fun r s' => Tidy s' ∧
      ((r = some (newEntry s.maps p file u) ∧ reopened = true ∧ Mapped p file u s s') ∨
        r = none ∧ s.openCnt file ≤ s'.openCnt file) := by
  unfold mmapEntryAppendRef
  split_ifs
  · refine .bind (.assert fun hre => .bind (.get (.bind (.set (.bind ?_)))))
    refine (mapPagesRef_ensures _ 0 _ 0 (hs.allocate p)).mono fun r s₁ h₁ => ?_
    obtain ⟨hs₁, ⟨rfl, htaken⟩ | ⟨rfl, hfail⟩⟩ := h₁
    · rw [if_pos rfl]
      have hunheld := htaken.unheld
      rw [unheld_inside_zero, Nat.zero_add] at hunheld
      have hcounter : s₁.maps.midCounter p = s.maps.midCounter p + 1 := by
        rw [htaken.midCounter]
        exact Function.update_self p _ s.maps.midCounter
      have hentries : s₁.maps.entries = s.maps.entries := htaken.entries
      have hold : ∀ old ∈ s₁.maps.entries p, old.mid < (newEntry s.maps p file u).mid := by
        intro old hmem
        rw [hentries] at hmem
        exact Nat.lt_succ_of_le (hs.mids p old hmem)
      exact .bind (.modify (.pure ⟨hs₁.append hcounter.ge, .inl ⟨rfl, hre, hunheld, get_append hold⟩⟩))
    · rw [if_neg (by decide)]
      exact .pure ⟨hs₁, .inr ⟨rfl, by simpa using hfail⟩⟩
  · exact .pure ⟨hs, .inr ⟨rfl, le_rfl⟩⟩

/-- Without the reopened file there is no mapping, and `file_length` asserts the file. -/
theorem mmapEntryAppendRef_unopened {env : RefEnv} :
    Ensures (mmapEntryAppendRef p env false file u) s fun r s' => r = none ∧ s' = s := by
  unfold mmapEntryAppendRef
  split_ifs
  · refine .bind (.assert fun h => ?_)
    cases h
  · exact .pure ⟨rfl, rfl⟩

/-- **`sys_mmap`**: a call that fails gives up less than it took, if it took anything. -/
theorem sysMmapRef_ensures {env : RefEnv} {data : ℕ} (hs : Tidy s) :
    Ensures (sysMmapRef p env (some file) data) s fun r s' => Tidy s' ∧
      ((r = some (newEntry s.maps p file (data / pgSize)).mid ∧ Mapped p file (data / pgSize) (s.count file 1) s') ∨
        r = none ∧ (s'.openCnt file = s.openCnt file ↔ data / pgSize = 0 ∨ env.reopen = false)) := by
  have hone := openCnt_count_self s file 1
  unfold sysMmapRef
  by_cases hzero : data / pgSize = 0
  · rw [if_pos hzero]
    exact .pure ⟨hs, .inr ⟨rfl, fun _ => .inl hzero, fun _ => rfl⟩⟩
  · rw [if_neg hzero]
    refine .bind ((fileReopen_ensures file).mono fun r s₁ h₁ => ?_)
    rcases h₁ with ⟨rfl, hre, rfl⟩ | ⟨rfl, hre, rfl⟩
    · have htook : ∀ s' : RefMaps, (s.count file 1).openCnt file ≤ s'.openCnt file →
          (s'.openCnt file = s.openCnt file ↔ data / pgSize = 0 ∨ env.reopen = false) := by
        intro s' hle
        refine ⟨fun he => by omega, fun h => ?_⟩
        rcases h with h | h
        · exact absurd h hzero
        · rw [hre] at h
          cases h
      have hs₁ : Tidy (s.count file 1) := ⟨hs.keyed, hs.mids⟩
      refine .ite (fun _ => .pure ⟨hs₁, .inr ⟨rfl, htook _ le_rfl⟩⟩) fun _ => ?_
      refine .bind ((mmapEntryAppendRef_ensures hs₁).mono fun r s₂ h₂ => .pure ⟨h₂.1, ?_⟩)
      rcases h₂.2 with ⟨rfl, -, hmapped⟩ | ⟨rfl, hle⟩
      · exact .inl ⟨rfl, hmapped⟩
      · exact .inr ⟨rfl, htook _ hle⟩
    · refine .ite (fun _ => .pure ⟨hs, .inr ⟨rfl, fun _ => .inr hre, fun _ => rfl⟩⟩) fun _ => ?_
      refine .bind (mmapEntryAppendRef_unopened.mono fun r s₂ h₂ => .pure ?_)
      obtain ⟨rfl, rfl⟩ := h₂
      exact ⟨hs, .inr ⟨rfl, fun _ => .inr hre, fun _ => rfl⟩⟩

/-! ### Between mmap and munmap -/

/-- **What happens to the mapping of `n` pages at `upage` in between**: processes fault, which brings pages in
and sends others to swap, store bytes and write files. No lazy page of the file outside the mapping comes in. -/
inductive Use (file : FileId) (p : Pid) (upage : Upage) (n : ℕ) (s : RefMaps) : RefMaps → Prop
  | fault {s' : RefMaps} (q : Pid) (env : FaultEnv) (uaddr : ℕ) (write : Bool)
      (hguard : Guarded file (inside p upage n) s.maps.vm ⟨q, uaddr / pgSize⟩)
      (h : vmHandleUserFaultRef q env uaddr write s = some (.cont, s')) : Use file p upage n s s'
  | store {s' : RefMaps} (q : Pid) (u : Upage) (j : Fin pgSize) (byte : UInt8)
      (h : onMem (userStore q u j byte) s = some ((), s')) : Use file p upage n s s'
  | write (files : FileId → FileData) :
      Use file p upage n s { s with maps := { s.maps with vm := { s.maps.vm with files := files } } }

theorem userStore_steady {j : Fin pgSize} {byte : UInt8} (hs : Table.Keyed VpageInfo.key s.maps.vm.map) :
    Ensures (onMem (userStore q u j byte)) s fun _ s' => Steady file Q s s' := by
  refine onMem_ensures (.bind (.get (.bind (.deref fun d _ => .bind (.deref fun e _ => .bind ?_)))))
  exact .assert fun _ => .set (steady_memory hs rfl)

theorem Use.steady {n : ℕ} (h : Use file p u n s s') (hs : Table.Keyed VpageInfo.key s.maps.vm.map) :
    Steady file (inside p u n) s s' := by
  cases h with
  | fault q env uaddr write hguard hrun => exact vmHandleUserFaultRef_steady hs hguard _ _ hrun
  | store q u j byte hrun => exact userStore_steady hs _ _ hrun
  | write files => exact steady_memory hs rfl

/-- However long the mapping is used. -/
theorem uses_steady {n : ℕ} (h : Relation.ReflTransGen (Use file p u n) s s')
    (hs : Table.Keyed VpageInfo.key s.maps.vm.map) : Steady file (inside p u n) s s' := by
  induction h with
  | refl => exact .refl hs
  | tail _ hstep ih => exact ih.trans (hstep.steady ih.keyed)

/-- **munmap of a mapping** that was made once drops one reference and those that its lazy pages hold. -/
theorem sysMunmapRef_openCnt {envs : ℕ → FaultEnv} {me : MmapEntry} {mid : ℤ}
    (hs : Tidy s) (hme : (mmapEntryGet s.maps p mid).map clean = some (clean me)) :
    Ensures (sysMunmapRef p envs mid) s fun _ s' =>
      s'.openCnt me.file = unheld me.file (inside p me.uaddr me.pageCnt) s - 1 := by
  refine .bind (.get (.bind (.deref fun cur hcur => ?_)))
  rw [hcur, Option.map_some, Option.some_inj] at hme
  have hall : (clean cur).file = (clean me).file ∧ (clean cur).uaddr = (clean me).uaddr ∧
      (clean cur).pageCnt = (clean me).pageCnt := by
    rw [hme]
    exact ⟨rfl, rfl, rfl⟩
  obtain ⟨hfile, huaddr, hpages⟩ : cur.file = me.file ∧ cur.uaddr = me.uaddr ∧ cur.pageCnt = me.pageCnt := hall
  rw [← hfile, ← huaddr, ← hpages]
  exact (mmapEntryReleaseRef_openCnt hs).mono fun _ _ h => h.2

/-- A step of the processes. -/
inductive Step (s : RefMaps) : RefMaps → Prop
  | mmap {s' : RefMaps} (p : Pid) (env : RefEnv) (target : Option FileId) (data : ℕ) (r : Option ℕ)
      (h : sysMmapRef p env target data s = some (r, s')) : Step s s'
  | munmap {s' : RefMaps} (p : Pid) (envs : ℕ → FaultEnv) (mid : ℤ)
      (h : sysMunmapRef p envs mid s = some ((), s')) : Step s s'
  | fault {s' : RefMaps} (p : Pid) (env : FaultEnv) (uaddr : ℕ) (write : Bool) (r : UserFaultType)
      (h : vmHandleUserFaultRef p env uaddr write s = some (r, s')) : Step s s'
  | store {s' : RefMaps} (p : Pid) (u : Upage) (j : Fin pgSize) (byte : UInt8)
      (h : onMem (userStore p u j byte) s = some ((), s')) : Step s s'

theorem sysMmapRef_none {env : RefEnv} {data : ℕ} :
    Ensures (sysMmapRef p env none data) s fun r s' => r = none ∧ s' = s := by
  unfold sysMmapRef
  rw [ite_self]
  exact .pure ⟨rfl, rfl⟩

/-- **Every step keeps the state tidy.** -/
theorem Step.tidy (h : Step s s') (hs : Tidy s) : Tidy s' := by
  cases h with
  | mmap p env target data r hrun =>
    cases target with
    | none => exact (sysMmapRef_none _ _ hrun).2 ▸ hs
    | some f => exact (sysMmapRef_ensures hs _ _ hrun).1
  | munmap p envs mid hrun =>
    have hun : Ensures (sysMunmapRef p envs mid) s fun _ s' => Tidy s' :=
      .bind (.get (.bind (.deref fun me _ => (mmapEntryReleaseRef_openCnt hs).mono fun _ _ h => h.1)))
    exact hun _ _ hrun
  | fault p env uaddr write r hrun =>
    have hsteady : Steady 0 anywhere s s' := vmHandleUserFaultRef_steady hs.keyed (guarded_of_mem rfl) _ _ hrun
    exact hsteady.tidy hs
  | store p u j byte hrun =>
    have hsteady : Steady 0 anywhere s s' := userStore_steady hs.keyed _ _ hrun
    exact hsteady.tidy hs

/-- So does a run. -/
theorem tidy_of_steps (h : Relation.ReflTransGen Step s s') (hs : Tidy s) : Tidy s' := by
  induction h with
  | refl => exact hs
  | tail _ hstep ih => exact hstep.tidy ih

theorem pageCnt_eq_zero {length : ℕ} : pageCnt length = 0 ↔ length = 0 := by
  unfold pageCnt pgSize
  omega

/-- A mapping that is made, used and given up keeps a reference for each of its pages. -/
theorem munmap_openCnt {env : RefEnv} {data mid : ℕ} {s₁ s₂ s₃ : RefMaps} {envs : ℕ → FaultEnv} (hs : Tidy s)
    (hmap : sysMmapRef p env (some file) data s = some (some mid, s₁))
    (huse : Relation.ReflTransGen (Use file p (data / pgSize) (pageCnt (s.maps.vm.files file).length)) s₁ s₂)
    (hunmap : sysMunmapRef p envs mid s₂ = some ((), s₃)) :
    s₃.openCnt file = s.openCnt file + pageCnt (s.maps.vm.files file).length := by
  obtain ⟨hs₁, ⟨hmid, hmapped⟩ | ⟨hnone, -⟩⟩ := sysMmapRef_ensures hs _ _ hmap
  · have hsteady := uses_steady huse hs₁.keyed
    obtain rfl : mid = (newEntry s.maps p file (data / pgSize)).mid := Option.some.inj hmid
    have hentry : (mmapEntryGet s₂.maps p (newEntry s.maps p file (data / pgSize)).mid).map clean =
        some (clean (newEntry s.maps p file (data / pgSize))) := by
      rw [hsteady.entries]
      exact congrArg (Option.map clean) hmapped.entry
    have hend : s₃.openCnt file =
        unheld file (inside p (data / pgSize) (pageCnt (s.maps.vm.files file).length)) s₂ - 1 :=
      sysMunmapRef_openCnt (hsteady.tidy hs₁) hentry _ _ hunmap
    have htook : unheld file (inside p (data / pgSize) (pageCnt (s.maps.vm.files file).length)) s₁ =
        (s.count file 1).openCnt file + pageCnt (s.maps.vm.files file).length := hmapped.unheld
    have hused := hsteady.unheld
    rw [openCnt_count_self] at htook
    omega
  · cases hnone

/-- **The references of mappings.** A call of `sys_mmap` that fails leaves the count of the inode as it was exactly if
it does not get as far as `file_reopen` or that fails; `sys_mmap` and `sys_munmap` do exactly if the file is empty. -/
theorem mmap_neutral_iff (s : RefMaps) (p : Pid) (env : RefEnv) (data : ℕ) (hs : Tidy s) :
    (∀ target file s', (∀ f, target = some f → f = file) → sysMmapRef p env target data s = some (none, s') →
      (s'.openCnt file = s.openCnt file ↔ data / pgSize = 0 ∨ target = none ∨ env.reopen = false)) ∧
    ∀ file mid s₁ s₂ s₃ envs, sysMmapRef p env (some file) data s = some (some mid, s₁) →
      Relation.ReflTransGen (Use file p (data / pgSize) (pageCnt (s.maps.vm.files file).length)) s₁ s₂ →
      sysMunmapRef p envs mid s₂ = some ((), s₃) →
      (s₃.openCnt file = s.openCnt file ↔ (s.maps.vm.files file).length = 0) := by
  constructor
  · intro target file s' htarget hrun
    cases target with
    | none =>
      obtain ⟨-, rfl⟩ := sysMmapRef_none _ _ hrun
      exact ⟨fun _ => .inr (.inl rfl), fun _ => rfl⟩
    | some f =>
      obtain rfl : f = file := htarget f rfl
      obtain ⟨-, ⟨hmid, -⟩ | ⟨-, hiff⟩⟩ := sysMmapRef_ensures hs _ _ hrun
      · cases hmid
      · rw [hiff]
        simp
  · intro file mid s₁ s₂ s₃ envs hmap huse hunmap
    rw [munmap_openCnt hs hmap huse hunmap, ← pageCnt_eq_zero]
    omega

/-! ### A leak -/

/-- A file of a page that is open once, and a process with nothing mapped. -/
def openOnce : RefMaps := ⟨{ stackOnly with vm := { stackOnly.vm with files := fun _ => ⟨4096, fun _ => 1⟩ } },
    fun _ => 1⟩

/-- Nothing runs out. -/
def allThereRef : RefEnv := ⟨true, true, fun _ => ⟨true, true, true⟩⟩

/-- A page fault that finds enough of everything, with the stack pointer at the top of the stack. -/
def faultThere : FaultEnv := ⟨⟨false, true, true, 0⟩, fun _ => ⟨false, true, true, 0⟩, 0xbffffff0⟩

/-- The process maps the file, reads its page and gives the mapping up. -/
def mapReadUnmap : Op RefMaps (Option ℕ × UserFaultType) := do
  let mid ← sysMmapRef 1 allThereRef (some 0) (0x10000 * pgSize)
  let r ← vmHandleUserFaultRef 1 faultThere (0x10000 * pgSize) false
  sysMunmapRef 1 (fun _ => faultThere) 1
  return (mid, r)

/-- The file counts as open twice from then on. At an address that is not the start of a page, `sys_mmap` fails and
leaves a reference. -/
theorem openOnce_leaks :
    (mapReadUnmap openOnce).map (fun r => (r.1, r.2.openCnt 0)) = some ((some 1, .cont), 2) ∧
      (sysMmapRef 1 allThereRef (some 0) (0x10000 * pgSize + 1) openOnce).map (fun r => (r.1, r.2.openCnt 0)) =
        some (none, 2) ∧ openOnce.openCnt 0 = 1 := by
  refine ⟨?_, ?_, rfl⟩ <;> decide +kernel

theorem tidy_openOnce : Tidy openOnce := ⟨List.nodup_singleton _, fun p me hme => by cases hme⟩

/-- The states of that run. -/
theorem mmap_neutral_iff_openOnce : ∃ s₁ s₂ s₃,
    sysMmapRef 1 allThereRef (some 0) (0x10000 * pgSize) openOnce = some (some 1, s₁) ∧
      Use 0 1 0x10000 1 s₁ s₂ ∧ sysMunmapRef 1 (fun _ => faultThere) 1 s₂ = some ((), s₃) ∧
      (s₃.openCnt 0 = openOnce.openCnt 0 ↔ (openOnce.maps.vm.files 0).length = 0) := by
  have hrun : (mapReadUnmap openOnce).map (·.1) = some (some 1, .cont) := by decide +kernel
  obtain ⟨⟨r, s'⟩, hr, hfst⟩ := Option.map_eq_some_iff.mp hrun
  obtain rfl : r = (some 1, .cont) := hfst
  unfold mapReadUnmap at hr
  rw [bind_apply] at hr
  obtain ⟨⟨mid, s₁⟩, h₁, hr⟩ := Option.bind_eq_some_iff.mp hr
  rw [bind_apply] at hr
  obtain ⟨⟨ft, s₂⟩, h₂, hr⟩ := Option.bind_eq_some_iff.mp hr
  rw [bind_apply] at hr
  obtain ⟨⟨u, s₃⟩, h₃, hr⟩ := Option.bind_eq_some_iff.mp hr
  obtain ⟨hpair, -⟩ := Prod.mk.inj (Option.some.inj hr)
  obtain ⟨rfl, rfl⟩ := Prod.mk.inj hpair
  have huse : Use 0 1 0x10000 1 s₁ s₂ := .fault 1 faultThere (0x10000 * pgSize) false
    (guarded_of_mem (inside_pageAt (p := 1) (u := 0x10000) (i := 0) (by decide))) h₂
  exact ⟨s₁, s₂, s₃, h₁, huse, h₃, (mmap_neutral_iff openOnce 1 allThereRef (0x10000 * pgSize) tidy_openOnce).2
    0 1 s₁ s₂ s₃ (fun _ => faultThere) h₁ (.single huse) h₃⟩

end Pintos.Userprog.MmapRefs
