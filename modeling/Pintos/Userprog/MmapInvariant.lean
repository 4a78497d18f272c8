import Pintos.Userprog.Mmap
import Pintos.Vm.Permission

/-! # Runs with memory-mapped files

Processes map files, load and store through their mappings, unmap and exit, while others write the files. Which
pages a process stored to is recorded beside the state. A page of a mapping is registered as long as the mapping
is there, and writable only once the mapping is dirty; a store needs a writable page. -/

namespace Pintos.Userprog.MmapInvariant

open Pintos.Lib Pintos.Lib.Ops Pintos.Lib.Runs Pintos.Vm.State Pintos.Vm.Vpage Pintos.Vm.Effect
open Pintos.Vm.Invariant Pintos.Vm.Run Pintos.Vm.Preserve Pintos.Vm.Content Pintos.Vm.Totality
open Pintos.Vm.Permission Pintos.Userprog.Mmap

/-! ### The system -/

/-- The state, with the pages that were stored to since they were registered. -/
structure Traced where
  maps : Maps
  stored : List Key

inductive MapAction
  /-- A step of virtual memory that is none of the calls below. -/
  | vm (a : Action)
  | mmap (p : Pid) (env : MmapEnv) (file : Option FileId) (data : ℕ)
  | munmap (p : Pid) (envs : ℕ → Env) (mid : ℤ)
  /-- `process_exit` releases the next mapping. -/
  | exit (p : Pid) (envs : ℕ → Env)
  | fault (p : Pid) (env : Env) (envs : ℕ → Env) (esp uaddr : ℕ) (write : Bool)
  /-- `file_deny_write` or `file_allow_write`. -/
  | deny (file : FileId) (b : Bool)

/-- The other steps of virtual memory: a process releases what is left when its mappings are released, and
`file_write` makes no file shorter. -/
def Other (m : Maps) : Action → Prop
  | .fault .. | .setWritable .. | .release _ | .findAndRelease .. => False
  | .releaseAll p => m.entries p = []
  | .fileWrite file data => (m.vm.files file).length ≤ data.length
  | _ => True

/-- The page that a step stores to. -/
def storedBy : MapAction → List Key
  | .vm (.store p u _ _) => [⟨p, u⟩]
  | _ => []

/-- A step of virtual memory. -/
def actVm (a : Action) : Op VM Unit := do
  let _ ← act a

def exitNext (p : Pid) (envs : ℕ → Env) : Op Maps Unit := do
  let s ← get
  match s.entries p with
  | [] => return ()
  | me :: _ => mmapEntryRelease p envs me

def mapAct : MapAction → Op Maps Unit
  | .vm a => onVm (actVm a)
  | .mmap p env file data => do
    let _ ← sysMmap p env file data
  | .munmap p envs mid => sysMunmap p envs mid
  | .exit p envs => exitNext p envs
  | .fault p env envs esp uaddr write => do
    let _ ← vmHandleUserFault p env envs esp uaddr write
  | .deny file b => modify fun s => { s with denied := Function.update s.denied file b }

/-- The record after a step: a page that is not there was not stored to. -/
def record (st : List Key) (a : MapAction) (vm : VM) : List Key :=
  (storedBy a ++ st).filter fun k => (vm.find k).isSome

/-- **The transition relation.** -/
def MapStep (x : Traced) (a : MapAction) (x' : Traced) : Prop :=
  (∀ b, a = .vm b → Other x.maps b ∧ Allowed x.maps.vm b) ∧ mapAct a x.maps = some ((), x'.maps) ∧
    x'.stored = record x.stored a x'.maps.vm

def MapInit (x : Traced) : Prop := Init x.maps.vm ∧ (∀ p, x.maps.entries p = []) ∧ x.stored = []

/-! ### The invariant -/

/-- The pages of a mapping. -/
def pagesOf (me : MmapEntry) : List Upage := (List.range me.pageCnt).map (pageAt me.uaddr)

/-- **What holds between two steps**: the pages of the mappings of a process are registered, no two mappings
share a page, a page is writable only in a dirty mapping, and a page that was stored to is writable. -/
structure MapInv (m : Maps) (st : List Key) : Prop where
  sound : Sound m.vm
  pages : ∀ {p me}, me ∈ m.entries p → ∀ u ∈ pagesOf me,
    ∃ b, perm m.vm ⟨p, u⟩ = some b ∧ (b = true → me.dirty = true)
  apart : ∀ p, (m.entries p).Pairwise fun a b => (pagesOf a).Disjoint (pagesOf b)
  sized : ∀ {p me}, me ∈ m.entries p →
    me.pageCnt = (me.length + pgSize - 1) / pgSize ∧ me.length ≤ (m.vm.files me.file).length
  stored : ∀ k ∈ st, perm m.vm k = some true

variable {m m' : Maps} {vm vm' vm₀ : VM} {st : List Key} {p q : Pid} {env : Env} {envs : ℕ → Env} {me a b : MmapEntry}
  {u : ℕ} {k : Key}

theorem MapInv.eq_of_page (h : MapInv m st) (ha : a ∈ m.entries p) (hb : b ∈ m.entries p)
    (hua : u ∈ pagesOf a) (hub : u ∈ pagesOf b) : a = b := by
  have hsymm : Std.Symm fun a b : MmapEntry => (pagesOf a).Disjoint (pagesOf b) :=
    ⟨fun _ _ h => h.symm⟩
  by_contra hne
  exact (h.apart p).forall ha hb hne hua hub

/-- A step that loses no page keeps the invariant. -/
theorem MapInv.keeps (h : MapInv m st) (hk : Keeps m.vm vm') : MapInv { m with vm := vm' } st where
  sound := hk.sound
  pages {p me} hme u hu := by
    obtain ⟨b, hb, hd⟩ := h.pages hme u hu
    exact ⟨b, hk.perm hb, hd⟩
  apart := h.apart
  sized {p me} hme := by
    obtain ⟨h1, h2⟩ := h.sized hme
    exact ⟨h1, h2.trans (hk.grown _)⟩
  stored k hs := hk.perm (h.stored k hs)

/-! ### Steps of virtual memory -/

theorem inmemAllocate_keeps {wr : Bool} (h : Sound vm) :
    Ensures (inmemAllocate p env u p wr) vm fun _ vm' => Keeps vm vm' := by
  intro r vm' hr
  have hbelow := inmemAllocate_below r vm' hr
  rcases inmemAllocate_ensures r vm' hr with ⟨-, -, rfl⟩ | ⟨-, f, rfl, hpl⟩
  · exact .refl h
  · refine ⟨⟨owned_placed h.owned hpl, inUserSpace_placed h.user (hbelow rfl) hpl⟩, fun {k b} hk => ?_, ?_⟩
    · rw [perm_placed h.owned hpl, if_neg, hk]
      rintro rfl
      rw [perm_eq_none.mpr (find_placed hpl)] at hk
      cases hk
    · intro file
      cases hpl with
      | mapped hgot => exact (congrArg FileData.length (congrFun (got_files hgot) file)).symm.le
      | unmapped hgot => exact (congrArg FileData.length (congrFun (got_files hgot) file)).symm.le

/-- A change of what neither the table nor a file depends on. -/
theorem keeps_of_eq (h : Sound vm) (ho : Owned vm') (hmap : vm'.map = vm.map)
    (hfiles : ∀ file, (vm.files file).length ≤ (vm'.files file).length) : Keeps vm vm' where
  sound := ⟨ho, fun v hv => h.user v (hmap ▸ hv)⟩
  perm {k b} hk := by
    have hfind : vm'.find k = vm.find k := by rw [VM.find, VM.find, hmap]
    rw [perm_congr hfind, hk]
  grown := hfiles

/-- Writing a file does not make the files shorter, if the written one does not become shorter. -/
theorem length_le_update {files : FileId → FileData} {file : FileId} {data : FileData}
    (h : (files file).length ≤ data.length) (f : FileId) :
    (files f).length ≤ (Function.update files file data f).length := by
  by_cases hf : f = file
  · subst hf
    rw [Function.update_self]
    exact h
  · rw [Function.update_of_ne hf]

/-- **What the other steps keep.** -/
theorem actVm_keeps {a : Action} (h : Sound m.vm) (ha : Other m a) (hal : Allowed m.vm a)
    (hrel : ∀ p, a ≠ .releaseAll p) : Ensures (actVm a) m.vm fun _ vm' => Keeps m.vm vm' := by
  have hout : Ensures (act a) m.vm fun r vm' => Outcome m.vm a r vm' := outcome_of_act h.owned hal
  have howned : ∀ {r vm'}, Outcome m.vm a r vm' → Owned vm' := owned_outcome h.owned
  refine .bind (Ensures.mono (P := fun _ vm' => Keeps m.vm vm') ?_ fun _ _ h => .pure h)
  cases a with
  | fault | setWritable | release | findAndRelease => exact ha.elim
  | releaseAll p => exact absurd rfl (hrel p)
  | inmemAllocate p env u w => exact .bind ((inmemAllocate_keeps h).mono fun _ _ h => .pure h)
  | lazyAllocate env u i p w => exact .bind ((lazyAllocate_keeps h).mono fun _ _ h => .pure h.1)
  | rehash l =>
    refine hout.mono fun r vm' ho => ?_
    have h' := howned ho
    cases ho with
    | same hf => exact hf.elim
    | released hf => exact hf.elim
    | rehashed hp =>
      refine ⟨⟨h', fun v hv => h.user v (hp.mem_iff.mpr hv)⟩, fun {k b} hk => ?_, fun _ => le_rfl⟩
      have hfind : VM.find { m.vm with map := l } k = m.vm.find k := h.owned.keyed.find_perm hp k
      rw [perm_congr hfind, hk]
  | fileWrite file data =>
    refine hout.mono fun r vm' ho => ?_
    have h' := howned ho
    cases ho with
    | same hf => exact hf.elim
    | released hf => exact hf.elim
    | wrote => exact keeps_of_eq h h' rfl (length_le_update ha)
  | create | destroy | load | store =>
    refine hout.mono fun r vm' ho => ?_
    have h' := howned ho
    cases ho with
    | same hf => exact hf.elim
    | released hf => exact hf.elim
    | _ => exact keeps_of_eq h h' rfl fun _ => le_rfl

/-! ### Releasing pages -/

/-- What releasing pages leaves: the others, and the files. -/
structure Left (vm₀ : VM) (gone : Key → Prop) (vm : VM) : Prop where
  sound : Sound vm
  perm : ∀ {k b}, perm vm k = some b ↔ perm vm₀ k = some b ∧ ¬gone k
  files : vm.files = vm₀.files

theorem files_releaseVpage (s : VM) (v : VpageInfo) : (releaseVpage s v).files = s.files := by
  unfold releaseVpage
  split <;> rfl

/-- One more page goes. -/
theorem findAndRelease_left {gone gone' : Key → Prop} (h : Left vm₀ gone vm)
    (hgone : ∀ k, gone' k ↔ gone k ∨ k = ⟨p, u⟩) :
    Ensures (findAndRelease u p) vm fun _ vm' => Left vm₀ gone' vm' := by
  refine .bind (.get ?_)
  cases hv : vm.find ⟨p, u⟩ with
  | none =>
    refine .pure ⟨h.sound, fun {k b} => ?_, h.files⟩
    rw [h.perm, hgone, not_or]
    refine and_congr_right fun hk => (and_iff_left_of_imp fun hg he => ?_).symm
    subst he
    have hsome := h.perm.mpr ⟨hk, hg⟩
    rw [perm_eq_none.mpr hv] at hsome
    cases hsome
  | some v =>
    refine releaseInner_ensures ⟨⟨owned_releaseVpage h.sound.owned (Table.mem_of_find hv),
      inUserSpace_releaseVpage h.sound.user⟩, fun {k b} => ?_, (files_releaseVpage vm v).trans h.files⟩
    rw [perm_releaseVpage h.sound.owned.keyed, Table.key_of_find hv, hgone, not_or]
    split_ifs with hk
    · simp [hk]
    · rw [h.perm]
      tauto

theorem releasePages_left {n : ℕ} (h : Sound vm) : Ensures (releasePages p u n) vm fun _ vm' =>
    Left vm (fun k => ∃ j < n, k = ⟨p, pageAt u j⟩) vm' := by
  refine .forM_range (I := fun i s => Left vm (fun k => ∃ j < i, k = ⟨p, pageAt u j⟩) s)
    ⟨h, by simp, rfl⟩ fun i _ s hs => findAndRelease_left hs fun k => ?_
  constructor
  · rintro ⟨j, hj, rfl⟩
    rcases Nat.lt_succ_iff_lt_or_eq.mp hj with hj | rfl
    · exact .inl ⟨j, hj, rfl⟩
    · exact .inr rfl
  · rintro (⟨j, hj, rfl⟩ | rfl)
    · exact ⟨j, Nat.lt_succ_of_lt hj, rfl⟩
    · exact ⟨i, Nat.lt_succ_self i, rfl⟩

/-- Releasing pages that were not there before loses nothing of before. -/
theorem keeps_of_left {gone : Key → Prop} (h : Left vm gone vm') (hk : Keeps vm₀ vm)
    (hgone : ∀ k, gone k → perm vm₀ k = none) : Keeps vm₀ vm' where
  sound := h.sound
  perm {k b} hb := by
    refine h.perm.mpr ⟨hk.perm hb, fun hg => ?_⟩
    rw [hgone k hg] at hb
    cases hb
  grown file := by
    rw [h.files]
    exact hk.grown file

/-! ### Mapping and growing the stack -/

/-- **Mapping** registers pages that were not there, read-only, or nothing. -/
theorem mapPages_keeps {file : FileId} : ∀ (left i remLength curOffset : ℕ) {vm : VM}, Keeps vm₀ vm →
    (∀ j < i, perm vm₀ ⟨p, pageAt u j⟩ = none ∧ perm vm ⟨p, pageAt u j⟩ = some false) →
    Ensures (mapPages p envs file u left i remLength curOffset) vm fun r vm' => Keeps vm₀ vm' ∧
      (r = true → ∀ j < i + left, perm vm₀ ⟨p, pageAt u j⟩ = none ∧ perm vm' ⟨p, pageAt u j⟩ = some false)
  | 0, _, _, _, _, h, hpages => .pure ⟨h, fun _ => hpages⟩
  | left + 1, i, _, _, vm, h, hpages => by
    refine .bind ((lazyAllocate_keeps h.sound).mono fun r vm' hr => ?_)
    obtain ⟨hk, hnew⟩ := hr
    have hk' : Keeps vm₀ vm' := h.trans hk
    cases r with
    | true =>
      obtain ⟨hnone, hfalse⟩ := hnew rfl
      have hpages' : ∀ j < i + 1, perm vm₀ ⟨p, pageAt u j⟩ = none ∧
          perm vm' ⟨p, pageAt u j⟩ = some false := by
        intro j hj
        rcases Nat.lt_succ_iff_lt_or_eq.mp hj with hj | rfl
        · exact ⟨(hpages j hj).1, hk.perm (hpages j hj).2⟩
        · exact ⟨perm_eq_none_of_keeps h hnone, hfalse⟩
      refine (mapPages_keeps left (i + 1) _ _ hk' hpages').mono fun r vm'' hr => ⟨hr.1, fun h j hj => ?_⟩
      exact hr.2 h j (by omega)
    | false =>
      refine .bind ((releasePages_left hk'.sound).mono fun _ vm'' hl => .pure ⟨?_, fun h => by cases h⟩)
      refine keeps_of_left hl hk' ?_
      rintro k ⟨j, hj, rfl⟩
      exact (hpages j hj).1

/-- **The stack grows** by pages that were not there. -/
theorem growStack_keeps : ∀ (left : ℕ) {cur : ℕ} {new : List Upage} {vm : VM}, Keeps vm₀ vm →
    (∀ u ∈ new, perm vm₀ ⟨p, u⟩ = none) →
    Ensures (growStack p envs left cur new) vm fun _ vm' => Keeps vm₀ vm'
  | 0, _, _, _, h, _ => .pure h
  | left + 1, cur, new, vm, h, hnew => by
    refine .ite (fun _ => .pure h) fun _ => .bind (.get (.ite (fun _ => ?_) fun _ => ?_))
    · exact growStack_keeps left h hnew
    · refine .bind ((lazyAllocate_keeps h.sound).mono fun r vm' hr => ?_)
      obtain ⟨hk, hcur⟩ := hr
      cases r with
      | true =>
        refine growStack_keeps left (h.trans hk) fun u hu => ?_
        rcases List.mem_append.mp hu with hu | hu
        · exact hnew u hu
        · obtain rfl := List.mem_singleton.mp hu
          exact perm_eq_none_of_keeps h (hcur rfl).1
      | false =>
        have hloop := Ensures.forM (f := fun u => release ⟨p, u⟩) (I := Keeps vm₀) new (h.trans hk)
          fun u hu vm hvm => release_ensures fun v hv => keeps_releaseVpage hvm hv (hnew u hu)
        exact .bind (hloop.mono fun _ _ h => .pure h)

theorem handleStack_keeps {esp uaddr : ℕ} (h : Sound vm) :
    Ensures (handleStack p envs esp uaddr) vm fun _ vm' => Keeps vm vm' :=
  .ite (fun _ => growStack_keeps _ (.refl h) (by simp)) fun _ => .pure (.refl h)

/-! ### Reading and writing back -/

theorem readUser_keeps (h : Sound vm) :
    Ensures (readUser p env u) vm fun _ vm' => Keeps vm vm' := by
  refine .bind (.get (.bind (.deref fun d _ => ?_)))
  split
  · exact .pure (.refl h)
  · refine .bind (.deref fun vpi _ => ?_)
    split
    · exact .bind ((handleUserFault_keeps h).mono fun _ _ h =>
        .bind (.get (.bind (.deref fun _ _ => .pure h.1))))
    · exact .halt

theorem keeps_files {files : FileId → FileData} (h : Keeps vm₀ vm)
    (hf : ∀ f, (vm.files f).length ≤ (files f).length) : Keeps vm₀ { vm with files := files } where
  sound := ⟨⟨h.sound.owned.keyed, h.sound.owned.frames, h.sound.owned.slots, h.sound.owned.ownPd,
    h.sound.owned.pdInj, h.sound.owned.pdLive, h.sound.owned.pteOwned⟩, h.sound.user⟩
  perm := h.perm
  grown f := (h.grown f).trans (hf f)

theorem fileWriteMapped_keeps (h : Sound vm) :
    Ensures (fileWriteMapped p envs me) vm fun _ vm' => Keeps vm vm' :=
  .forM (I := Keeps vm) _ (.refl h) fun _ _ _ hs => .bind ((readUser_keeps hs.sound).mono fun _ _ hr =>
    .modify (keeps_files (hs.trans hr) (length_le_update (le_max_left _ _))))

theorem checkPages_ensures : ∀ (left i : ℕ),
    Ensures (checkPages p u left i) vm fun _ vm' => vm' = vm
  | 0, _ => .pure rfl
  | left + 1, i => by
    refine .bind (.get (.bind (.deref fun vpi _ => ?_)))
    split
    · exact checkPages_ensures left (i + 1)
    · exact .pure rfl

/-! ### The list of mappings -/

theorem mem_pagesOf : u ∈ pagesOf me ↔ ∃ i < me.pageCnt, pageAt me.uaddr i = u := by
  simp [pagesOf]

theorem MapInv.filter (h : MapInv m st) (f : Key → Bool) : MapInv m (st.filter f) :=
  ⟨h.sound, h.pages, h.apart, h.sized, fun k hk => h.stored k (List.mem_filter.mp hk).1⟩

theorem entries_setEntries {l : List MmapEntry} :
    (m.setEntries p l).entries q = if q = p then l else m.entries q :=
  Function.update_apply _ _ _ _

/-- The mappings of one process change. -/
theorem MapInv.setEntries {l : List MmapEntry} (h : MapInv m st)
    (hpages : ∀ me ∈ l, ∀ u ∈ pagesOf me, ∃ b, perm m.vm ⟨p, u⟩ = some b ∧ (b = true → me.dirty = true))
    (hapart : l.Pairwise fun a b => (pagesOf a).Disjoint (pagesOf b))
    (hsized : ∀ me ∈ l, me.pageCnt = (me.length + pgSize - 1) / pgSize ∧
      me.length ≤ (m.vm.files me.file).length) : MapInv (m.setEntries p l) st where
  sound := h.sound
  pages {q me} hme := by
    rw [entries_setEntries] at hme
    split_ifs at hme with hq
    · subst hq
      exact hpages me hme
    · exact h.pages hme
  apart q := by
    rw [entries_setEntries]
    split_ifs with hq
    · exact hapart
    · exact h.apart q
  sized {q me} hme := by
    rw [entries_setEntries] at hme
    split_ifs at hme with hq
    · exact hsized me hme
    · exact h.sized hme
  stored := h.stored

/-- A new mapping. -/
theorem MapInv.append (h : MapInv m st) (hpages : ∀ u ∈ pagesOf me, perm m.vm ⟨p, u⟩ = some false)
    (hnew : ∀ a ∈ m.entries p, (pagesOf a).Disjoint (pagesOf me))
    (hsized : me.pageCnt = (me.length + pgSize - 1) / pgSize ∧ me.length ≤ (m.vm.files me.file).length) :
    MapInv (m.setEntries p (m.entries p ++ [me])) st := by
  refine h.setEntries (fun a ha u hu => ?_) ?_ fun a ha => ?_
  · rcases List.mem_append.mp ha with ha | ha
    · exact h.pages ha u hu
    · obtain rfl := List.mem_singleton.mp ha
      exact ⟨false, hpages u hu, by simp⟩
  · refine List.pairwise_append.mpr ⟨h.apart p, List.pairwise_singleton _ _, fun a ha b hb => ?_⟩
    obtain rfl := List.mem_singleton.mp hb
    exact hnew a ha
  · rcases List.mem_append.mp ha with ha | ha
    · exact h.sized ha
    · obtain rfl := List.mem_singleton.mp ha
      exact hsized

theorem replace_eq_append {l : List MmapEntry} (h : a ∈ l) :
    ∃ l₁ l₂, l = l₁ ++ a :: l₂ ∧ l.replace a b = l₁ ++ b :: l₂ := by
  obtain ⟨l₁, l₂, rfl, hno⟩ := List.eq_append_cons_of_mem h
  exact ⟨l₁, l₂, rfl, by rw [List.replace_append_right hno, List.replace_cons_self]⟩

/-- **A mapping becomes dirty.** -/
theorem MapInv.markDirty (h : MapInv m st) (hme : me ∈ m.entries p) : MapInv (m.markDirty p me) st ∧
    { me with dirty := true } ∈ (m.markDirty p me).entries p := by
  obtain ⟨l₁, l₂, hl, hr⟩ := replace_eq_append (b := { me with dirty := true }) hme
  have hmem : ∀ a ∈ (m.entries p).replace me { me with dirty := true },
      a ∈ m.entries p ∨ a = { me with dirty := true } := by
    intro a ha
    rw [hr] at ha
    rw [hl]
    simp only [List.mem_append, List.mem_cons] at ha ⊢
    tauto
  refine ⟨h.setEntries (fun a ha u hu => ?_) ?_ fun a ha => ?_, ?_⟩
  · rcases hmem a ha with ha | rfl
    · exact h.pages ha u hu
    · obtain ⟨b, hb, -⟩ := h.pages hme u hu
      exact ⟨b, hb, fun _ => rfl⟩
  · rw [hr]
    have hapart := h.apart p
    rw [hl] at hapart
    simp only [List.pairwise_append, List.pairwise_cons, List.mem_cons] at hapart ⊢
    obtain ⟨h1, ⟨h2, h3⟩, h4⟩ := hapart
    refine ⟨h1, ⟨h2, h3⟩, fun a ha b hb => ?_⟩
    rcases hb with rfl | hb
    · exact h4 a ha me (.inl rfl)
    · exact h4 a ha b (.inr hb)
  · rcases hmem a ha with ha | rfl
    · exact h.sized ha
    · have hs := h.sized hme
      exact hs
  · unfold Maps.markDirty
    rw [entries_setEntries, if_pos rfl, hr]
    simp

/-- A mapping is taken off the list. -/
theorem MapInv.erase (h : MapInv m st) : MapInv (m.setEntries p ((m.entries p).erase me)) st :=
  h.setEntries (fun _ ha => h.pages (List.mem_of_mem_erase ha))
    ((h.apart p).sublist List.erase_sublist) fun _ ha => h.sized (List.mem_of_mem_erase ha)

/-- The other mappings share no page with it. -/
theorem MapInv.disjoint_of_erase (h : MapInv m st) (hme : me ∈ m.entries p)
    (ha : a ∈ (m.entries p).erase me) : (pagesOf me).Disjoint (pagesOf a) := by
  have hp : ((m.entries p)).Perm (me :: (m.entries p).erase me) := List.perm_cons_erase hme
  have hall := (h.apart p).perm hp fun hd => hd.symm
  exact (List.pairwise_cons.mp hall).1 a ha

/-- **Pages are released** that belong to no mapping. -/
theorem MapInv.left {gone : Key → Prop} (h : MapInv m st) (hl : Left m.vm gone vm')
    (hgone : ∀ q me u, me ∈ m.entries q → u ∈ pagesOf me → ¬gone ⟨q, u⟩) :
    MapInv { m with vm := vm' } (st.filter fun k => (vm'.find k).isSome) where
  sound := hl.sound
  pages {q me} hme u hu := by
    obtain ⟨b, hb, hd⟩ := h.pages hme u hu
    exact ⟨b, hl.perm.mpr ⟨hb, hgone q me u hme hu⟩, hd⟩
  apart := h.apart
  sized {q me} hme := by
    have hfiles := congrFun hl.files me.file
    exact hfiles ▸ h.sized hme
  stored k hk := by
    obtain ⟨hk, hsome⟩ := List.mem_filter.mp hk
    obtain ⟨v, hv⟩ := Option.isSome_iff_exists.mp hsome
    obtain ⟨hb, hno⟩ := hl.perm.mp (perm_of_find hv)
    exact hl.perm.mpr ⟨h.stored k hk, hno⟩

/-! ### The calls -/

theorem onVm_ensures {α : Type} {op : Op VM α} {Q : α → Maps → Prop}
    (h : Ensures op m.vm fun a vm' => Q a { m with vm := vm' }) : Ensures (onVm op) m Q := .zoom h

theorem onVm_keeps {α : Type} {op : Op VM α} (h : MapInv m st)
    (hop : Ensures op m.vm fun _ vm' => Keeps m.vm vm') : Ensures (onVm op) m fun _ m' => MapInv m' st :=
  .zoom (hop.mono fun _ _ hk => h.keeps hk)

theorem mmapEntryAppend_inv {menv : MmapEnv} {file : FileId} {upage : ℕ} (h : MapInv m st) :
    Ensures (mmapEntryAppend p menv file upage) m fun _ m' => MapInv m' st := by
  refine .ite (fun _ => .bind (.assert fun _ => .bind (.get (.bind (.set (.bind ?_)))))) fun _ => .pure h
  generalize hm : ({ m with midCounter := _ } : Maps) = m₁
  have hvm : m₁.vm = m.vm := by rw [← hm]
  have h1 : MapInv m₁ st := by
    rw [← hm]
    exact ⟨h.sound, h.pages, h.apart, h.sized, h.stored⟩
  refine .zoom ((mapPages_keeps _ 0 _ 0 (.refl h1.sound) (by simp)).mono fun r vm' hr => ?_)
  obtain ⟨hk, hnew⟩ := hr
  have h2 : MapInv { m₁ with vm := vm' } st := h1.keeps hk
  cases r with
  | false => exact .pure h2
  | true =>
    refine .bind (.modify (.pure (h2.append ?_ (fun a ha u hu hu' => ?_) ⟨rfl, ?_⟩)))
    · intro u hu
      obtain ⟨i, hi, rfl⟩ := mem_pagesOf.mp hu
      exact (hnew rfl i (by simpa using hi)).2
    · obtain ⟨i, hi, rfl⟩ := mem_pagesOf.mp hu'
      obtain ⟨b, hb, -⟩ := h1.pages ha _ hu
      rw [(hnew rfl i (by simpa using hi)).1] at hb
      cases hb
    · exact hvm ▸ hk.grown file

theorem sysMmap_inv {menv : MmapEnv} {file : Option FileId} {data : ℕ} (h : MapInv m st) :
    Ensures (sysMmap p menv file data) m fun _ m' => MapInv m' st := by
  refine .ite (fun _ => .pure h) fun _ => ?_
  split
  · exact .pure h
  · exact .ite (fun _ => .pure h) fun _ => .bind ((mmapEntryAppend_inv h).mono fun _ _ h => .pure h)

/-- An address between the start and the end of a mapping is on one of its pages. -/
theorem pageAt_sub {upage length uaddr : ℕ} (hlo : upage * pgSize ≤ uaddr)
    (hhi : uaddr < (upage * pgSize + length) % 2 ^ 32) :
    uaddr / pgSize - upage < (length + pgSize - 1) / pgSize ∧
      pageAt upage (uaddr / pgSize - upage) = uaddr / pgSize := by
  unfold pgSize at *
  have hpage : (upage + (uaddr / 4096 - upage)) % 2 ^ 20 = uaddr / 4096 := by omega
  exact ⟨by omega, hpage⟩

/-- The page that `mmap_entry_get_by_addr` finds a mapping for is in the mapping. -/
theorem mem_of_getByAddr {uaddr : ℕ} (h : MapInv m st) (hme : mmapEntryGetByAddr m p uaddr = some me) :
    me ∈ m.entries p ∧ uaddr / pgSize ∈ pagesOf me := by
  have hmem := List.mem_of_find?_eq_some hme
  have hin := List.find?_some hme
  obtain ⟨hlo, hhi⟩ : me.uaddr * pgSize ≤ uaddr ∧ uaddr < (me.uaddr * pgSize + me.length) % 2 ^ 32 := by
    simpa only [Bool.and_eq_true, decide_eq_true_eq] using hin
  obtain ⟨h1, h2⟩ := pageAt_sub hlo hhi
  exact ⟨hmem, mem_pagesOf.mpr ⟨uaddr / pgSize - me.uaddr, (h.sized hmem).1 ▸ h1, h2⟩⟩

theorem setWritable_inv (h : MapInv m st) (hme : me ∈ m.entries p) (hu : u ∈ pagesOf me)
    (hd : me.dirty = true) : Ensures (setWritable env u p true) m.vm fun _ vm' =>
      MapInv { m with vm := vm' } st := by
  -- only the permission of the page of the dirty mapping changes
  have hinv : ∀ vm', Sound vm' → vm'.files = m.vm.files →
      (∀ k, perm vm' k = if k = ⟨p, u⟩ then some true else perm m.vm k) → MapInv { m with vm := vm' } st := by
    intro vm' hs hfiles hperm
    refine ⟨hs, fun {q a} ha u' hu' => ?_, h.apart, fun {q a} ha => hfiles ▸ h.sized ha, fun k hk => ?_⟩
    · obtain ⟨b, hb, hdirty⟩ := h.pages ha u' hu'
      by_cases hk : (⟨q, u'⟩ : Key) = ⟨p, u⟩
      · obtain ⟨rfl, rfl⟩ := Key.mk.inj hk
        obtain rfl : a = me := h.eq_of_page ha hme hu' hu
        exact ⟨true, by rw [hperm, if_pos rfl], fun _ => hd⟩
      · exact ⟨b, by rw [hperm, if_neg hk, hb], hdirty⟩
    · rw [hperm]
      split_ifs
      · rfl
      · exact h.stored k hk
  have hreplace : ∀ v, m.vm.find ⟨p, u⟩ = some v → ∀ k,
      perm (m.vm.replace (v.withWritable true)) k = if k = ⟨p, u⟩ then some true else perm m.vm k := by
    intro v hv k
    have hk : v.key = ⟨p, u⟩ := Table.key_of_find hv
    rw [← hk]
    exact perm_replace (w := v.withWritable true) h.sound.owned.keyed (Table.mem_of_find hv) rfl
  have huser : ∀ v, m.vm.find ⟨p, u⟩ = some v → InUserSpace (m.vm.replace (v.withWritable true)) :=
    fun v hv => inUserSpace_replace h.sound.user fun hb => h.sound.user v (Table.mem_of_find hv) hb
  refine setWritable_ensures (h.keeps (.refl h.sound)) (fun v hv hb => ?_) fun v i e hv hb he => ?_
  · refine hinv _ ⟨?_, huser v hv⟩ rfl (hreplace v hv)
    exact owned_withWritable h.sound.owned (Table.mem_of_find hv) fun i hi => absurd hi (hb i)
  · obtain ⟨hmem, hk⟩ := h.sound.owned.keyed.find_eq_some.mp hv
    obtain rfl : v.uaddr = u := congrArg Key.uaddr hk
    exact hinv _ ⟨owned_remap h.sound.owned hmem hb he, huser v hv⟩ rfl (hreplace v hv)

theorem handleMmapDirty_inv {uaddr : ℕ} {write : Bool} (h : MapInv m st) :
    Ensures (handleMmapDirty p env uaddr write) m fun _ m' => MapInv m' st := by
  refine .bind (.get ?_)
  split
  · rename_i me hme
    obtain ⟨-, hget⟩ : write = true ∧ mmapEntryGetByAddr m p uaddr = some me := by
      cases write
      · cases hme
      · exact ⟨rfl, hme⟩
    obtain ⟨hmem, hu⟩ := mem_of_getByAddr h hget
    obtain ⟨hinv, hmem'⟩ := h.markDirty hmem
    have hu' : uaddr / pgSize ∈ pagesOf { me with dirty := true } := hu
    exact .bind (.modify (.zoom (setWritable_inv hinv hmem' hu' rfl)))
  · exact .pure h

theorem vmHandleUserFault_inv {esp uaddr : ℕ} {write : Bool} (h : MapInv m st) :
    Ensures (vmHandleUserFault p env envs esp uaddr write) m fun _ m' => MapInv m' st := by
  refine .bind ((onVm_keeps h (handleStack_keeps h.sound)).mono fun _ m₁ h1 => .ite (fun _ => ?_) fun _ =>
    .pure h1)
  refine .bind ((handleMmapDirty_inv h1).mono fun _ m₂ h2 => .ite (fun _ => .pure h2) fun _ => ?_)
  exact onVm_keeps h2 ((handleUserFault_keeps h2.sound).mono fun _ _ h => h.1)

/-- What `mmap_entry_release` does to the table, after the write-back. -/
theorem writeBack_keeps (h : Sound m.vm) : Ensures (writeBack p envs me) m fun _ m' =>
    Keeps m.vm m'.vm ∧ m' = { m with vm := m'.vm } :=
  .bind (.get (.ite (fun _ => .zoom ((fileWriteMapped_keeps h).mono fun _ _ hk => ⟨hk, rfl⟩)) fun _ =>
    .pure ⟨.refl h, rfl⟩))

theorem mmapEntryRelease_inv (h : MapInv m st) (hme : me ∈ m.entries p) :
    Ensures (mmapEntryRelease p envs me) m fun _ m' =>
      MapInv m' (st.filter fun k => (m'.vm.find k).isSome) := by
  refine .bind (.zoom ((checkPages_ensures me.pageCnt 0).mono fun _ vm hvm => .bind ?_))
  obtain rfl := hvm
  refine (writeBack_keeps h.sound).mono fun _ m₁ hm₁ => ?_
  obtain ⟨hk, hm₁⟩ := hm₁
  have h1 : MapInv m₁ st := hm₁ ▸ h.keeps hk
  have hme1 : me ∈ m₁.entries p := hm₁ ▸ hme
  refine .bind (.zoom ((releasePages_left h1.sound).mono fun _ vm' hl => .modify ?_))
  have herase : MapInv (m₁.setEntries p ((m₁.entries p).erase me)) st := h1.erase
  refine herase.left hl fun q a u ha hu => ?_
  rintro ⟨j, hj, hkey⟩
  obtain ⟨rfl, rfl⟩ := Key.mk.inj hkey
  rw [entries_setEntries, if_pos rfl] at ha
  exact h1.disjoint_of_erase hme1 ha (mem_pagesOf.mpr ⟨j, hj, rfl⟩) hu

/-! ### All steps -/

/-- The record after a step. -/
theorem MapInv.record {a : MapAction} (h : MapInv m st) (hs : ∀ k ∈ storedBy a, perm m.vm k = some true) :
    MapInv m (record st a m.vm) := by
  refine MapInv.filter ⟨h.sound, h.pages, h.apart, h.sized, fun k hk => ?_⟩ _
  rcases List.mem_append.mp hk with hk | hk
  · exact hs k hk
  · exact h.stored k hk

/-- The processor stores to writable pages only. -/
theorem perm_of_pte {d : PdId} {e : Pte} (h : Owned vm) (hd : vm.pagedir p = some d)
    (he : vm.pte d u = some e) : perm vm ⟨p, u⟩ = some e.writable := by
  obtain ⟨v, hv, ho⟩ := h.pteOwned d u e he
  obtain ⟨i, hb, hi, -⟩ := ho.inmem
  have hp : v.pid = p := h.pdInj _ _ _ (hi ▸ h.ownPd v hv i hb) hd
  have hk : v.key = ⟨p, u⟩ := by rw [VpageInfo.key, hp, ho.uaddr]
  rw [perm_of_find (h.keyed.find_eq_some.mpr ⟨hv, hk⟩), ho.writable]

theorem actVm_stored {a : Action} (h : Sound m.vm) (hal : Allowed m.vm a) :
    Ensures (actVm a) m.vm fun _ _ => ∀ k ∈ storedBy (.vm a), perm m.vm k = some true := by
  refine .bind ((outcome_of_act h.owned hal).mono fun r vm' ho => .pure fun k hk => ?_)
  cases a with
  | store p u j byte =>
    obtain rfl := List.mem_singleton.mp hk
    cases ho with
    | same hf => exact hf.elim
    | released hf => exact hf.elim
    | stored hd he hw => rw [perm_of_pte h.owned hd he, hw]
  | _ => cases hk

/-- A process without mappings releases what is left. -/
theorem releaseAll_inv (h : MapInv m st) (hp : m.entries p = []) :
    Ensures (actVm (.releaseAll p)) m.vm fun _ vm' =>
      MapInv { m with vm := vm' } (st.filter fun k => (vm'.find k).isSome) := by
  have hloop : Ensures (releaseAll p) m.vm fun _ vm' =>
      (∃ gone : Key → Prop, (∀ k, gone k → k.pid = p) ∧ Left m.vm gone vm') ∧ ∀ v ∈ vm'.map, v.pid ≠ p := by
    refine releaseAll_ensures (I := fun vm => ∃ gone : Key → Prop, (∀ k, gone k → k.pid = p) ∧ Left m.vm gone vm)
      ⟨fun _ => False, by simp, h.sound, by simp, rfl⟩ ?_
    rintro vm v ⟨gone, hgone, hl⟩ hv hvp
    refine ⟨fun k => gone k ∨ k = v.key, ?_, ⟨owned_releaseVpage hl.sound.owned hv,
      inUserSpace_releaseVpage hl.sound.user⟩, fun {k b} => ?_, (files_releaseVpage vm v).trans hl.files⟩
    · rintro k (hk | rfl)
      · exact hgone k hk
      · exact hvp
    · rw [perm_releaseVpage hl.sound.owned.keyed]
      split_ifs with hk
      · simp [hk]
      · rw [hl.perm]
        tauto
  refine .bind (.bind (hloop.mono fun _ vm' hvm => .pure (.pure ?_)))
  obtain ⟨⟨gone, hgone, hl⟩, -⟩ := hvm
  refine h.left hl fun q a u ha _ hg => ?_
  obtain rfl : q = p := hgone _ hg
  rw [hp] at ha
  cases ha

theorem exitNext_inv (h : MapInv m st) : Ensures (exitNext p envs) m fun _ m' =>
    MapInv m' (st.filter fun k => (m'.vm.find k).isSome) := by
  refine .bind (.get ?_)
  split
  · exact .pure (h.filter _)
  · rename_i me l hl
    exact mmapEntryRelease_inv h (hl ▸ List.mem_cons_self)

theorem sysMunmap_inv {mid : ℤ} (h : MapInv m st) : Ensures (sysMunmap p envs mid) m fun _ m' =>
    MapInv m' (st.filter fun k => (m'.vm.find k).isSome) :=
  .bind (.get (.bind (.deref fun _ hme => mmapEntryRelease_inv h (List.mem_of_find?_eq_some hme))))

/-- **Every step keeps the invariant.** -/
theorem mapInv_step {x x' : Traced} {a : MapAction} (h : MapInv x.maps x.stored) (hs : MapStep x a x') :
    MapInv x'.maps x'.stored := by
  obtain ⟨hvm, hact, hst⟩ := hs
  rw [hst]
  suffices he : Ensures (mapAct a) x.maps fun _ m' => MapInv m' (record x.stored a m'.vm) from he _ _ hact
  cases a with
  | vm a =>
    obtain ⟨ho, hal⟩ := hvm a rfl
    by_cases hrel : ∃ p, a = .releaseAll p
    · obtain ⟨p, rfl⟩ := hrel
      exact onVm_ensures (releaseAll_inv h ho)
    · have hk := actVm_keeps h.sound ho hal (not_exists.mp hrel)
      have hsb := actVm_stored h.sound hal
      refine onVm_ensures fun r vm' hr => ?_
      exact (h.keeps (hk r vm' hr)).record fun k hm => (hk r vm' hr).perm (hsb r vm' hr k hm)
  | mmap p env file data =>
    exact .bind ((sysMmap_inv h).mono fun _ _ h => .pure (h.record (by simp [storedBy])))
  | munmap p envs mid => exact sysMunmap_inv h
  | exit p envs => exact exitNext_inv h
  | fault p env envs esp uaddr write =>
    exact .bind ((vmHandleUserFault_inv h).mono fun _ _ h => .pure (h.record (by simp [storedBy])))
  | deny file b =>
    have h' : MapInv { x.maps with denied := Function.update x.maps.denied file b } x.stored :=
      ⟨h.sound, h.pages, h.apart, h.sized, h.stored⟩
    exact .modify (h'.record (by simp [storedBy]))

theorem mapInv_init {x : Traced} (h : MapInit x) : MapInv x.maps x.stored := by
  obtain ⟨hvm, hentries, hst⟩ := h
  refine ⟨⟨owned_init hvm, ?_⟩, fun {p me} hme => ?_, fun p => ?_, fun {p me} hme => ?_, ?_⟩
  · intro v hv
    rw [hvm.1] at hv
    cases hv
  · rw [hentries] at hme
    cases hme
  · rw [hentries]
    exact .nil
  · rw [hentries] at hme
    cases hme
  · rw [hst]
    simp

/-- **The invariant of all runs.** -/
theorem mapInv_invariant : Invariant MapInit MapStep fun x => MapInv x.maps x.stored :=
  ⟨mapInv_init, mapInv_step⟩

end Pintos.Userprog.MmapInvariant
