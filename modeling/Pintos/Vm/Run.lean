import Pintos.Lib.Runs
import Pintos.Vm.Preserve

/-! # Runs of virtual memory

The steps that processes take: a page directory is made and destroyed, the functions of vpage.c are called,
user code loads and stores, files are written. `outcome_of_act` says once what a step can do; the invariants
are read off it. A page directory is destroyed only when its process has no vpage left. -/

namespace Pintos.Vm.Run

open Pintos.Lib Pintos.Lib.Ops Pintos.Lib.Ownership Pintos.Lib.Runs
open Pintos.Vm.State Pintos.Vm.Swap Pintos.Vm.Vpage Pintos.Vm.Effect Pintos.Vm.Invariant
open Pintos.Vm.Preserve

/-- A step. Each is one critical section of `vm_lock`, or one access of the processor. -/
inductive Action
  /-- `pagedir_create` for the thread of the process `p`. -/
  | create (p : Pid) (d : PdId)
  | lazyAllocate (env : Env) (u : Upage) (i : InfoLazy) (p : Pid) (w : Bool)
  /-- `vpage_info_inmem_allocate`, called by `p` for itself. -/
  | inmemAllocate (p : Pid) (env : Env) (u : Upage) (w : Bool)
  | fault (p : Pid) (env : Env) (u : Upage)
  | setWritable (env : Env) (u : Upage) (p : Pid) (w : Bool)
  | release (k : Key)
  | findAndRelease (u : Upage) (p : Pid)
  | releaseAll (p : Pid)
  /-- `pagedir_destroy` for the thread of the process `p`. -/
  | destroy (p : Pid)
  | load (p : Pid) (u : Upage) (j : Fin pgSize)
  | store (p : Pid) (u : Upage) (j : Fin pgSize) (byte : UInt8)
  | fileWrite (file : FileId) (data : FileData)
  /-- The hash table goes through its elements in another order from now on. -/
  | rehash (m : List VpageInfo)

/-- `load` gets an empty page directory for its thread. -/
def createPagedir (s : VM) (p : Pid) (d : PdId) : VM :=
  { s.setPagedir d (some PageDir.empty) with pagedir := Function.update s.pagedir p (some d) }

/-- The end of `process_exit`. -/
def exitPagedir (p : Pid) : Op VM Unit := do
  let s ← get
  let d ← deref (s.pagedir p)
  set { s with pagedir := Function.update s.pagedir p none }
  pagedirDestroy d

/-- The state after it, when nothing was mapped. -/
def dropPagedir (s : VM) (p : Pid) (d : PdId) : VM :=
  { s.setPagedir d none with pagedir := Function.update s.pagedir p none }

/-- What a step does, and what a load returns. -/
def act : Action → Op VM (Option UInt8)
  | .create p d => do modify (createPagedir · p d); return none
  | .lazyAllocate env u i p w => do let _ ← lazyAllocate env u i p w; return none
  | .inmemAllocate p env u w => do let _ ← inmemAllocate p env u p w; return none
  | .fault p env u => do let _ ← handleUserFault p env u; return none
  | .setWritable env u p w => do let _ ← setWritable env u p w; return none
  | .release k => do release k; return none
  | .findAndRelease u p => do findAndRelease u p; return none
  | .releaseAll p => do releaseAll p; return none
  | .destroy p => do exitPagedir p; return none
  | .load p u j => do let byte ← userLoad p u j; return some byte
  | .store p u j byte => do userStore p u j byte; return none
  | .fileWrite file data => do
    modify fun s => { s with files := Function.update s.files file data }
    return none
  | .rehash m => do modify fun s => { s with map := m }; return none

/-- When a step may be taken. -/
def Allowed (s : VM) : Action → Prop
  | .create p d => s.pagedir p = none ∧ s.pagedirs d = none
  | .destroy p => ∀ v ∈ s.map, v.pid ≠ p
  | .rehash m => s.map.Perm m
  | _ => True

/-- **The transition relation.** -/
def Step (s : VM) (a : Action) (s' : VM) : Prop := Allowed s a ∧ ∃ r, act a s = some (r, s')

/-- Before the first process, whatever memory, swap and files hold. -/
def Init (s : VM) : Prop :=
  s.map = [] ∧ (∀ p, s.pagedir p = none) ∧ ∀ d, s.pagedirs d = none

/-! ### What a step can do -/

/-- One vpage of the process is released. -/
def ReleaseOne (p : Pid) (s s' : VM) : Prop := ∃ v ∈ s.map, v.pid = p ∧ s' = releaseVpage s v

/-- The calls that may leave everything as it is. -/
def MayFail : Action → Prop
  | .lazyAllocate _ _ _ _ _ => True
  | .inmemAllocate _ _ _ _ => True
  | .fault _ _ _ => True
  | .setWritable _ _ _ _ => True
  | .findAndRelease _ _ => True
  | _ => False

/-- The calls that release vpages. -/
def Releases : Action → Prop
  | .release _ => True
  | .findAndRelease _ _ => True
  | .releaseAll _ => True
  | _ => False

/-- **Everything a step can do.** -/
inductive Outcome (s : VM) : Action → Option UInt8 → VM → Prop
  | same {a : Action} (ha : MayFail a) : Outcome s a none s
  | created {p : Pid} {d : PdId} (hp : s.pagedir p = none) (hd : s.pagedirs d = none) :
      Outcome s (.create p d) none (createPagedir s p d)
  | added {env : Env} {u : Upage} {i : InfoLazy} {p : Pid} {w : Bool}
      (hnew : s.find ⟨p, u⟩ = none) :
      Outcome s (.lazyAllocate env u i p w) none (addVpage s ⟨u, w, p, .lazy i⟩)
  | placed {p : Pid} {env : Env} {u : Upage} {w : Bool} {f : Frame} {s' : VM}
      (hm : env.malloc = true) (h : Placed p env s u p w f s') :
      Outcome s (.inmemAllocate p env u w) none s'
  | pagedIn {p : Pid} {env : Env} {u : Upage} {s' : VM} (h : PagedIn p env s u s') :
      Outcome s (.fault p env u) none s'
  | allowed {env : Env} {u : Upage} {p : Pid} {w : Bool} {v : VpageInfo}
      (hv : s.find ⟨p, u⟩ = some v) (hb : ∀ i, v.backend ≠ .inmem i) :
      Outcome s (.setWritable env u p w) none (s.replace (v.withWritable w))
  | remapped {env : Env} {u : Upage} {p : Pid} {w : Bool} {v : VpageInfo} {i : InfoInmem} {e : Pte}
      (hv : s.find ⟨p, u⟩ = some v) (hb : v.backend = .inmem i) (he : s.pte i.pagedir u = some e) :
      Outcome s (.setWritable env u p w) none
        (mapPage (unmapPage (s.replace (v.withWritable w)) i.pagedir u) i.pagedir u ⟨e.frame, w⟩)
  | released {a : Action} {v : VpageInfo} (ha : Releases a) (hv : v ∈ s.map) :
      Outcome s a none (releaseVpage s v)
  | releasedAll {p : Pid} {s' : VM} (h : Relation.ReflTransGen (ReleaseOne p) s s')
      (hno : ∀ v ∈ s'.map, v.pid ≠ p) : Outcome s (.releaseAll p) none s'
  | dropped {p : Pid} {d : PdId} (hd : s.pagedir p = some d) (hno : ∀ v ∈ s.map, v.pid ≠ p) :
      Outcome s (.destroy p) none (dropPagedir s p d)
  | loaded {p : Pid} {u : Upage} {j : Fin pgSize} {d : PdId} {e : Pte} (hd : s.pagedir p = some d)
      (he : s.pte d u = some e) : Outcome s (.load p u j) (some (s.mem e.frame j)) s
  | stored {p : Pid} {u : Upage} {j : Fin pgSize} {byte : UInt8} {d : PdId} {e : Pte}
      (hd : s.pagedir p = some d) (he : s.pte d u = some e) (hw : e.writable = true) :
      Outcome s (.store p u j byte) none
        (fillFrame s e.frame (Function.update (s.mem e.frame) j byte))
  | wrote {file : FileId} {data : FileData} :
      Outcome s (.fileWrite file data) none { s with files := Function.update s.files file data }
  | rehashed {m : List VpageInfo} (hm : s.map.Perm m) :
      Outcome s (.rehash m) none { s with map := m }

variable {s s' : VM} {a : Action} {r : Option UInt8} {p : Pid} {d : PdId}

/-- A process without vpages has nothing mapped. -/
theorem pte_eq_none (h : Owned s) (hd : s.pagedir p = some d) (hno : ∀ v ∈ s.map, v.pid ≠ p)
    (u : Upage) : s.pte d u = none := by
  cases he : s.pte d u with
  | none => rfl
  | some e =>
    obtain ⟨v, hv, ho⟩ := h.pteOwned d u e he
    obtain ⟨i, hb, hi, -⟩ := ho.inmem
    have hpd : s.pagedir v.pid = some d := hi ▸ h.ownPd v hv i hb
    exact absurd (h.pdInj _ _ _ hpd hd) (hno v hv)

theorem entries_eq_nil {pd : PageDir} (h : ∀ u, pd.get u = none) : pd.ptes.entries = [] := by
  cases he : pd.ptes.entries with
  | nil => rfl
  | cons x l =>
    have hx : x.1 ∈ pd.ptes := by
      rw [AList.mem_keys, AList.keys, he]
      simp
    have hnone := h x.1
    rw [PageDir.get, AList.lookup_eq_none] at hnone
    exact absurd hx hnone

theorem exitPagedir_ensures (h : Owned s) (hno : ∀ v ∈ s.map, v.pid ≠ p) :
    Ensures (exitPagedir p) s fun _ s' => ∃ d, s.pagedir p = some d ∧ s' = dropPagedir s p d := by
  refine .bind (.get (.bind (.deref fun d hd => .bind (.set (.bind (.get (.bind (.deref ?_))))))))
  intro pd hpd
  have hnil : pd.ptes.entries = [] := by
    refine entries_eq_nil fun u => ?_
    have hpd' : s.pagedirs d = some pd := hpd
    simpa [VM.pte, hpd'] using pte_eq_none h hd hno u
  rw [hnil]
  exact .bind (.pure (.modify ⟨d, hd, rfl⟩))

theorem releaseAll_steps :
    Ensures (releaseAll p) s fun _ s' =>
      Relation.ReflTransGen (ReleaseOne p) s s' ∧ ∀ v ∈ s'.map, v.pid ≠ p :=
  releaseAll_ensures .refl fun _ v ht hv hp => ht.tail ⟨v, hv, hp, rfl⟩

/-- What a step can do, if it does not destroy a page directory. -/
theorem outcome_of_not_destroy (hd : ∀ p, a ≠ .destroy p) (ha : Allowed s a) :
    Ensures (act a) s fun r s' => Outcome s a r s' := by
  cases a with
  | create p d => exact .bind (.modify (.pure (.created ha.1 ha.2)))
  | lazyAllocate env u i p w =>
    exact .bind (lazyAllocate_ensures (.pure (.same trivial)) fun hnew => .pure (.added hnew))
  | inmemAllocate p env u w =>
    refine .bind (inmemAllocate_ensures.mono ?_)
    rintro r s' (⟨-, -, rfl⟩ | ⟨hm, f, -, hpl⟩)
    · exact .pure (.same trivial)
    · exact .pure (.placed hm hpl)
  | fault p env u =>
    refine .bind (handleUserFault_ensures.mono ?_)
    rintro r s' (⟨-, rfl⟩ | ⟨-, hin⟩)
    · exact .pure (.same trivial)
    · exact .pure (.pagedIn hin)
  | setWritable env u p w =>
    exact .bind (setWritable_ensures (.pure (.same trivial)) (fun v hv hb => .pure (.allowed hv hb))
      fun v i e hv hb he => .pure (.remapped hv hb he))
  | release k =>
    exact .bind (release_ensures fun v hv => .pure (.released trivial (Table.mem_of_find hv)))
  | findAndRelease u p =>
    exact .bind (findAndRelease_ensures (.pure (.same trivial)) fun v hv =>
      .pure (.released trivial (Table.mem_of_find hv)))
  | releaseAll p =>
    exact .bind (releaseAll_steps.mono fun _ s' h => .pure (.releasedAll h.1 h.2))
  | destroy p => exact absurd rfl (hd p)
  | load p u j =>
    exact .bind (.bind (.get (.bind (.deref fun d hd => .bind (.deref fun e he =>
      .pure (.pure (.loaded hd he)))))))
  | store p u j byte =>
    exact .bind (.bind (.get (.bind (.deref fun d hd => .bind (.deref fun e he =>
      .bind (.assert fun hw => .set (.pure (.stored hd he hw))))))))
  | fileWrite file data => exact .bind (.modify (.pure .wrote))
  | rehash m => exact .bind (.modify (.pure (.rehashed ha)))

/-- **What a step can do.** -/
theorem outcome_of_act (h : Owned s) (ha : Allowed s a) :
    Ensures (act a) s fun r s' => Outcome s a r s' := by
  by_cases hd : ∃ p, a = .destroy p
  · obtain ⟨p, rfl⟩ := hd
    refine .bind ((exitPagedir_ensures h ha).mono ?_)
    rintro _ s' ⟨d, hd, rfl⟩
    exact .pure (.dropped hd ha)
  · exact outcome_of_not_destroy (not_exists.mp hd) ha

/-! ### What every step keeps -/

theorem owned_createPagedir (h : Owned s) (hp : s.pagedir p = none) (hd : s.pagedirs d = none) :
    Owned (createPagedir s p d) := by
  have hpte : ∀ d' u, (createPagedir s p d).pte d' u = s.pte d' u := by
    intro d' u
    by_cases hdd : d' = d
    · subst hdd
      simp [VM.pte, createPagedir, VM.setPagedir, hd]
    · simp [VM.pte, createPagedir, VM.setPagedir, hdd]
  have hold : ∀ q d', s.pagedir q = some d' → q ≠ p ∧ d' ≠ d := by
    intro q d' hq
    have hlive := h.pdLive q d' hq
    constructor
    · rintro rfl
      rw [hp] at hq
      cases hq
    · rintro rfl
      rw [hd] at hlive
      cases hlive
  refine ⟨h.keyed, h.frames, h.slots, fun v hv i hb => ?_, fun q q' d' hq hq' => ?_, fun q d' hq => ?_,
    fun d' u e he => h.pteOwned d' u e (hpte d' u ▸ he)⟩
  · have hv := h.ownPd v hv i hb
    simpa [createPagedir, (hold _ _ hv).1] using hv
  · simp only [createPagedir, Function.update_apply] at hq hq'
    split_ifs at hq hq' with h1 h2
    · rw [h1, h2]
    · exact absurd (Option.some.inj hq).symm (hold _ _ hq').2
    · exact absurd (Option.some.inj hq').symm (hold _ _ hq).2
    · exact h.pdInj q q' d' hq hq'
  · simp only [createPagedir, Function.update_apply] at hq
    split_ifs at hq with h1
    · obtain rfl : d = d' := by simpa using hq
      simp [createPagedir, VM.setPagedir]
    · simpa [createPagedir, VM.setPagedir, (hold _ _ hq).2] using h.pdLive q d' hq

theorem owned_dropPagedir (h : Owned s) (hd : s.pagedir p = some d) (hno : ∀ v ∈ s.map, v.pid ≠ p) :
    Owned (dropPagedir s p d) where
  keyed := h.keyed
  frames := h.frames
  slots := h.slots
  ownPd v hv i hb := by
    simpa [dropPagedir, hno v hv] using h.ownPd v hv i hb
  pdInj q q' d' hq hq' := by
    simp only [dropPagedir, Function.update_apply] at hq hq'
    split_ifs at hq hq'
    exact h.pdInj q q' d' hq hq'
  pdLive q d' hq := by
    simp only [dropPagedir, Function.update_apply] at hq
    split_ifs at hq with hqp
    have hne : d' ≠ d := by
      rintro rfl
      exact hqp (h.pdInj q p d' hq hd)
    simpa [dropPagedir, VM.setPagedir, hne] using h.pdLive q d' hq
  pteOwned d' u e he := by
    have hne : d' ≠ d := by
      rintro rfl
      simp [VM.pte, dropPagedir, VM.setPagedir] at he
    have he' : s.pte d' u = some e := by
      simpa [VM.pte, dropPagedir, VM.setPagedir, hne] using he
    exact h.pteOwned d' u e he'

/-- **Every step keeps `Owned`.** -/
theorem owned_outcome (h : Owned s) (ho : Outcome s a r s') : Owned s' := by
  cases ho with
  | same => exact h
  | created hp hd => exact owned_createPagedir h hp hd
  | added hnew =>
    refine h.add (Table.find_eq_none.mp hnew) ?_ ?_ ?_ <;> simp [VpageInfo.frames, VpageInfo.slots]
  | placed _ hpl => exact owned_placed h hpl
  | pagedIn hin => exact owned_pagedIn h hin
  | allowed hv hb =>
    exact owned_withWritable h (Table.mem_of_find hv) fun i hi => absurd hi (hb i)
  | @remapped env u p w v i e hv hb he =>
    obtain ⟨hmem, hk⟩ := h.keyed.find_eq_some.mp hv
    obtain rfl : v.uaddr = u := congrArg Key.uaddr hk
    exact owned_remap h hmem hb he
  | released _ hv => exact owned_releaseVpage h hv
  | releasedAll hrel hno =>
    clear hno
    induction hrel with
    | refl => exact h
    | tail _ hone ih =>
      obtain ⟨v, hv, -, rfl⟩ := hone
      exact owned_releaseVpage ih hv
  | dropped hd hno => exact owned_dropPagedir h hd hno
  | loaded => exact h
  | stored => exact h.fillFrame _ _
  | wrote => exact ⟨h.keyed, h.frames, h.slots, h.ownPd, h.pdInj, h.pdLive, h.pteOwned⟩
  | rehashed hm => exact h.perm hm

theorem owned_init (h : Init s) : Owned s := by
  obtain ⟨hmap, hp, hd⟩ := h
  refine ⟨?_, ?_, ?_, ?_, ?_, ?_, ?_⟩
  · simp [Table.Keyed, hmap]
  · exact hmap ▸ .nil
  · exact hmap ▸ .nil
  · simp [hmap]
  · simp [hp]
  · simp [hp]
  · simp [VM.pte, hd]

/-- **`Owned` is an invariant of all runs.** -/
theorem owned_invariant : Invariant Init Step Owned where
  start := owned_init
  step := fun h ⟨ha, _, hact⟩ => owned_outcome h (outcome_of_act h ha _ _ hact)

/-! ### What a step adds, and where page directories stay -/

/-- The key that a step adds a vpage for. -/
def Adds (k : Key) : Action → Prop
  | .lazyAllocate _ u _ p _ => k = ⟨p, u⟩
  | .inmemAllocate p _ u _ => k = ⟨p, u⟩
  | _ => False

/-- The step makes or destroys a page directory. -/
def TouchesPagedir : Action → Prop
  | .create _ _ => True
  | .destroy _ => True
  | _ => False

variable {k : Key}

theorem keys_replace (s : VM) (v : VpageInfo) :
    (s.replace v).map.map VpageInfo.key = s.map.map VpageInfo.key := Table.map_key_replace

theorem keys_entered {v : VpageInfo} {f : Frame} {env : Env} (hin : Entered p env s v f s') :
    s'.map.map VpageInfo.key = s.map.map VpageInfo.key := by
  cases hin <;> exact Table.map_key_replace

theorem keys_outcome (ho : Outcome s a r s') (hk : k ∈ s'.map.map VpageInfo.key) :
    k ∈ s.map.map VpageInfo.key ∨ Adds k a := by
  cases ho with
  | same => exact .inl hk
  | created => exact .inl hk
  | added hnew =>
    rcases List.mem_cons.mp hk with rfl | hk
    · exact .inr rfl
    · exact .inl hk
  | placed hmalloc hpl =>
    cases hpl with
    | mapped hgot =>
      rcases List.mem_cons.mp hk with rfl | hk
      · exact .inr rfl
      · exact .inl (got_map_key hgot ▸ hk)
    | unmapped hgot =>
      rcases List.mem_cons.mp hk with rfl | hk
      · exact .inr rfl
      · exact .inl (got_map_key hgot ▸ hk)
  | pagedIn hin =>
    left
    cases hin with
    | lazy hv hb hgot hin => exact got_map_key hgot ▸ keys_entered hin ▸ hk
    | swapped hv hb hgot hin => exact got_map_key hgot ▸ keys_entered hin ▸ hk
  | allowed => exact .inl (keys_replace s _ ▸ hk)
  | remapped => exact .inl (keys_replace s _ ▸ hk)
  | released =>
    rw [map_releaseVpage] at hk
    exact .inl ((List.filter_sublist.map _).mem hk)
  | releasedAll hrel hno =>
    left
    clear hno
    induction hrel with
    | refl => exact hk
    | tail _ hone ih =>
      obtain ⟨v, -, -, rfl⟩ := hone
      rw [map_releaseVpage] at hk
      exact ih ((List.filter_sublist.map _).mem hk)
  | dropped => exact .inl hk
  | loaded => exact .inl hk
  | stored => exact .inl hk
  | wrote => exact .inl hk
  | rehashed hm => exact .inl ((hm.map _).mem_iff.mpr hk)

theorem pagedir_entered {v : VpageInfo} {f : Frame} {env : Env} (hin : Entered p env s v f s') :
    s'.pagedir = s.pagedir := by
  cases hin <;> rfl

theorem pagedir_releaseVpage (s : VM) (v : VpageInfo) : (releaseVpage s v).pagedir = s.pagedir := by
  unfold releaseVpage
  split <;> rfl

theorem pagedir_outcome (ho : Outcome s a r s') (ha : ¬TouchesPagedir a) :
    s'.pagedir = s.pagedir := by
  cases ho with
  | same => rfl
  | created => exact absurd trivial ha
  | added => rfl
  | placed hmalloc hpl =>
    cases hpl with
    | mapped hgot =>
      have hpd := got_pagedir hgot
      exact hpd
    | unmapped hgot =>
      have hpd := got_pagedir hgot
      exact hpd
  | pagedIn hin =>
    cases hin with
    | lazy hv hb hgot hin =>
      have hpd := got_pagedir hgot
      exact (pagedir_entered hin).trans hpd
    | swapped hv hb hgot hin =>
      have hpd := got_pagedir hgot
      exact (pagedir_entered hin).trans hpd
  | allowed => rfl
  | remapped => rfl
  | released => exact pagedir_releaseVpage s _
  | releasedAll hrel hno =>
    clear hno ha
    induction hrel with
    | refl => rfl
    | tail _ hone ih =>
      obtain ⟨v, -, -, rfl⟩ := hone
      exact (pagedir_releaseVpage _ v).trans ih
  | dropped => exact absurd trivial ha
  | loaded => rfl
  | stored => rfl
  | wrote => rfl
  | rehashed => rfl

end Pintos.Vm.Run
