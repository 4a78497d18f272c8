import Pintos.Vm.Run

/-! # Frame ownership

The frames of vpages in memory are theirs alone, and the page directories say what `vpage_info_map` says.
This rests on `pagedir_set_page` finding memory for a page table: vpage.c does not look at its result, and a
vpage whose page table could not be made is in memory without being mapped. -/

namespace Pintos.Vm.FrameOwnership

open Pintos.Lib.Runs Pintos.Vm.State Pintos.Vm.Vpage Pintos.Vm.Effect Pintos.Vm.Invariant
open Pintos.Vm.Preserve Pintos.Vm.Run

/-- What `vpage_info_map`, the user pool and the page directories agree on. -/
structure Consistent (s : VM) : Prop where
  keys_unique : (s.map.map VpageInfo.key).Nodup
  frames_distinct : (s.map.flatMap VpageInfo.frames).Nodup
  frames_allocated : ∀ v ∈ s.map, ∀ i, v.backend = .inmem i → s.Allocated i.paddr
  /-- The recorded page directory maps the page to the frame, with the permission. -/
  mapped : ∀ v ∈ s.map, ∀ i, v.backend = .inmem i →
    s.pte i.pagedir v.uaddr = some ⟨i.paddr, v.writable⟩
  /-- A lazy or swapped page is not present for its process. -/
  absent : ∀ v ∈ s.map, (∀ i, v.backend ≠ .inmem i) → ∀ d, s.pagedir v.pid = some d →
    s.pte d v.uaddr = none
  /-- What is present anywhere is a vpage in memory. -/
  present : ∀ d u e, s.pte d u = some e → ∃ v ∈ s.map, Owner v d u e

/-- The page table that a step needs is there, or the kernel pool has a page for it. -/
def TableReady (s : VM) : Action → Prop
  | .inmemAllocate p env u _ =>
    env.malloc = true → ∀ d, s.pagedir p = some d → HasTable s d u env.table
  | .fault p env u => ∀ v, s.find ⟨p, u⟩ = some v → (∀ i, v.backend ≠ .inmem i) →
    ∀ d, s.pagedir p = some d → HasTable s d u env.table
  | _ => True

variable {s s' : VM} {a : Action} {r : Option UInt8}

theorem mapped_createPagedir {p : Pid} {d : PdId} (hm : Mapped s) (hd : s.pagedirs d = none) :
    Mapped (createPagedir s p d) := by
  intro v hv i hb
  have hi : s.pte i.pagedir v.uaddr = some ⟨i.paddr, v.writable⟩ := hm v hv i hb
  have hne : i.pagedir ≠ d := by
    rintro rfl
    simp [VM.pte, hd] at hi
  simpa [VM.pte, createPagedir, VM.setPagedir, hne] using hi

theorem mapped_dropPagedir {p : Pid} {d : PdId} (h : Owned s) (hm : Mapped s)
    (hd : s.pagedir p = some d) (hno : ∀ v ∈ s.map, v.pid ≠ p) : Mapped (dropPagedir s p d) := by
  intro v hv i hb
  have hne : i.pagedir ≠ d := by
    intro he
    have hpd : s.pagedir v.pid = some d := he ▸ h.ownPd v hv i hb
    exact hno v hv (h.pdInj _ _ _ hpd hd)
  simpa [VM.pte, dropPagedir, VM.setPagedir, hne] using hm v hv i hb

/-- Every step that has its page table keeps the vpages in memory mapped. -/
theorem mapped_outcome (h : Owned s) (hm : Mapped s) (ht : TableReady s a) (ho : Outcome s a r s') :
    Mapped s' := by
  cases ho with
  | same => exact hm
  | created hp hd => exact mapped_createPagedir hm hd
  | added hnew =>
    intro v hv i hb
    rcases List.mem_cons.mp hv with rfl | hv
    · cases hb
    · exact hm v hv i hb
  | placed hmalloc hpl => exact mapped_placed h hm (ht hmalloc) hpl
  | pagedIn hin =>
    refine mapped_pagedIn h hm ?_ hin
    cases hin with
    | lazy hv hb => exact ht _ hv (by simp [hb])
    | swapped hv hb => exact ht _ hv (by simp [hb])
  | allowed hv hb => exact mapped_withWritable hm hb
  | @remapped env u p w v i e hv hb he =>
    obtain ⟨hmem, hk⟩ := h.keyed.find_eq_some.mp hv
    obtain rfl : v.uaddr = u := congrArg Key.uaddr hk
    exact mapped_remap h hm hmem hb he
  | released _ hv => exact mapped_releaseVpage h hm hv
  | releasedAll hrel hno =>
    clear hno ht
    have hboth : Owned s' ∧ Mapped s' := by
      induction hrel with
      | refl => exact ⟨h, hm⟩
      | tail _ hone ih =>
        obtain ⟨v, hv, -, rfl⟩ := hone
        exact ⟨owned_releaseVpage ih.1 hv, mapped_releaseVpage ih.1 ih.2 hv⟩
    exact hboth.2
  | dropped hd hno => exact mapped_dropPagedir h hm hd hno
  | loaded => exact hm
  | stored => exact hm
  | wrote => exact hm
  | rehashed hp => exact fun v hv => hm v (hp.mem_iff.mpr hv)

theorem mapped_invariant :
    Invariant Init (Guarded TableReady Step) fun s => Owned s ∧ Mapped s :=
  owned_invariant.guarded (fun h v hv => by simp [h.1] at hv)
    fun h hm ht ⟨ha, _, hact⟩ => mapped_outcome h hm ht (outcome_of_act h ha _ _ hact)

theorem consistent_of_mapped (h : Owned s) (hm : Mapped s) : Consistent s where
  keys_unique := h.keyed
  frames_distinct := h.frames.nodup
  frames_allocated v hv i hb := h.frames.used v hv _ (by simp [frames_inmem hb])
  mapped := hm
  absent v hv hout d hd := by
    cases he : s.pte d v.uaddr with
    | none => rfl
    | some e =>
      obtain ⟨w, hw, ho⟩ := h.pteOwned d _ e he
      obtain ⟨i, hb, hi, -⟩ := ho.inmem
      have hp : w.pid = v.pid := h.pdInj _ _ _ (hi ▸ h.ownPd w hw i hb) hd
      obtain rfl : w = v := h.keyed.eq_of_key hw hv (key_eq_iff.mpr ⟨hp, ho.uaddr⟩)
      exact absurd hb (hout i)
  present := h.pteOwned

/-- **Frame ownership.** In every run whose steps find the page tables they need, the table of vpages, the
pool and the page directories agree. -/
theorem consistent_of_reachable (h : Reachable Init (Guarded TableReady Step) s) :
    Consistent s :=
  have hs := h.of_invariant mapped_invariant
  consistent_of_mapped hs.1 hs.2

/-! ### Two runs -/

/-- A machine with one free user page and one swap slot. -/
def booted : VM where
  map := []
  pagedirs := fun _ => none
  pagedir := fun _ => none
  userPool := [false]
  mem := fun _ _ => 0
  swapMap := List.replicate 8 false
  swapBlock := fun _ _ => 0
  files := fun _ => ⟨0, fun _ => 0⟩

/-- The only process is 1, with the page directory 0. -/
def started : VM := createPagedir booted 1 0

theorem init_booted : Init booted := ⟨rfl, fun _ => rfl, fun _ => rfl⟩

/-- The stack page of a process, with or without a page for its page table. -/
def stackPage (table : Bool) : Action := .inmemAllocate 1 ⟨false, table, true, 0⟩ 0xbffff true

theorem consistent_of_reachable_stackPage :
    ∃ s, act (stackPage true) started = some (none, s) ∧ s.map.length = 1 ∧ Consistent s := by
  have h0 : Guarded TableReady Step booted (.create 1 0) started :=
    ⟨trivial, ⟨rfl, rfl⟩, _, rfl⟩
  refine ⟨_, rfl, rfl, consistent_of_reachable (.step (.step (.start init_booted) h0)
    (a := stackPage true) ⟨fun _ _ _ => .inl rfl, trivial, _, rfl⟩)⟩

/-- Without a page for the page table the stack page is in memory and not mapped. -/
theorem not_consistent_of_reachable : ¬∀ s, Reachable Init Step s → Consistent s := by
  intro hall
  obtain ⟨s, hs, i, hmap, hpte⟩ : ∃ s, act (stackPage false) started = some (none, s) ∧
      ∃ i, s.map = [⟨0xbffff, true, 1, .inmem i⟩] ∧ s.pte i.pagedir 0xbffff = none :=
    ⟨_, rfl, _, rfl, rfl⟩
  have h0 : Step booted (.create 1 0) started := ⟨⟨rfl, rfl⟩, _, rfl⟩
  have h1 : Step started (stackPage false) s := ⟨trivial, _, hs⟩
  have hown := hall s (.step (.step (.start init_booted) h0) h1)
  have he := hown.mapped ⟨0xbffff, true, 1, .inmem i⟩ (by simp [hmap]) i rfl
  rw [hpte] at he
  cases he

end Pintos.Vm.FrameOwnership
