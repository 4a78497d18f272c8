import Pintos.Lib.Ownership
import Pintos.Vm.Effect

/-! # Who owns a frame, a swap sector and a page table entry

`Owned` holds in every state, `Mapped` as long as no page table is missing. Both are carried over the
changes that the functions of vpage.c are made of: a vpage leaves the table, its resources are given back or
taken, and it enters the table again. -/

namespace Pintos.Vm.Invariant

open Pintos.Lib Pintos.Lib.Ownership Pintos.Kernel.Bitmap
open Pintos.Vm.State Pintos.Vm.Vpage Pintos.Vm.Effect

/-- The vpage that a present entry of a page directory belongs to. -/
structure Owner (v : VpageInfo) (d : PdId) (u : Upage) (e : Pte) : Prop where
  uaddr : v.uaddr = u
  writable : v.writable = e.writable
  inmem : ∃ i, v.backend = .inmem i ∧ i.pagedir = d ∧ i.paddr = e.frame

/-- **What always holds**: keys are unique, frames and swap sectors have one owner and are in use, a vpage in
memory records the page directory of its process, and every present page belongs to a vpage in memory. -/
structure Owned (s : VM) : Prop where
  keyed : Table.Keyed VpageInfo.key s.map
  frames : Exclusive VpageInfo.frames s.Allocated s.map
  slots : Exclusive VpageInfo.slots s.Marked s.map
  ownPd : ∀ v ∈ s.map, ∀ i, v.backend = .inmem i → s.pagedir v.pid = some i.pagedir
  pdInj : ∀ p q d, s.pagedir p = some d → s.pagedir q = some d → p = q
  pdLive : ∀ p d, s.pagedir p = some d → (s.pagedirs d).isSome
  pteOwned : ∀ d u e, s.pte d u = some e → ∃ v ∈ s.map, Owner v d u e

/-- **What the code relies on**: a vpage in memory is mapped as it says. -/
def Mapped (s : VM) : Prop :=
  ∀ v ∈ s.map, ∀ i, v.backend = .inmem i → s.pte i.pagedir v.uaddr = some ⟨i.paddr, v.writable⟩

/-- An allocated frame without an owner. -/
structure Loose (s : VM) (f : Frame) : Prop where
  allocated : s.Allocated f
  free : ∀ v ∈ s.map, f ∉ v.frames

variable {s s' : VM} {v w : VpageInfo} {i : InfoInmem} {f : Frame} {d : PdId} {u : Upage} {e : Pte}
  {n : ℕ} {p : Page} {m : List VpageInfo}

theorem frames_inmem (h : v.backend = .inmem i) : v.frames = [i.paddr] := by
  simp [VpageInfo.frames, h]

theorem frames_eq_nil (h : ∀ i, v.backend ≠ .inmem i) : v.frames = [] := by
  unfold VpageInfo.frames
  split
  · exact absurd ‹_› (h _)
  · rfl

theorem slots_swapped {i : InfoSwap} (h : v.backend = .swapped i) :
    v.slots = List.range' i.swapIndex pageSectors := by
  simp [VpageInfo.slots, h]

theorem slots_eq_nil (h : ∀ i, v.backend ≠ .swapped i) : v.slots = [] := by
  unfold VpageInfo.slots
  split
  · exact absurd ‹_› (h _)
  · rfl

theorem key_eq_iff : v.key = w.key ↔ v.pid = w.pid ∧ v.uaddr = w.uaddr := by
  simp [VpageInfo.key]

namespace Owned

/-! ### The table -/

theorem perm (h : Owned s) (hm : s.map.Perm m) : Owned { s with map := m } where
  keyed := h.keyed.perm hm
  frames := h.frames.perm hm
  slots := h.slots.perm hm
  ownPd v hv := h.ownPd v (hm.mem_iff.mpr hv)
  pdInj := h.pdInj
  pdLive := h.pdLive
  pteOwned d u e he := by
    obtain ⟨v, hv, ho⟩ := h.pteOwned d u e he
    exact ⟨v, hm.mem_iff.mp hv, ho⟩

/-- A vpage that is not mapped leaves the table. -/
theorem erase (h : Owned s) (hv : v ∈ s.map)
    (hno : ∀ i, v.backend = .inmem i → s.pte i.pagedir v.uaddr = none) : Owned (s.erase v.key) where
  keyed := h.keyed.erase v.key
  frames := (h.frames.perm (h.keyed.perm_cons_erase hv)).tail
  slots := (h.slots.perm (h.keyed.perm_cons_erase hv)).tail
  ownPd w hw := h.ownPd w (Table.mem_erase.mp hw).1
  pdInj := h.pdInj
  pdLive := h.pdLive
  pteOwned d u e he := by
    have he' : s.pte d u = some e := he
    obtain ⟨w, hw, ho⟩ := h.pteOwned d u e he'
    refine ⟨w, Table.mem_erase.mpr ⟨hw, fun hk => ?_⟩, ho⟩
    obtain rfl : w = v := h.keyed.eq_of_key hw hv hk
    obtain ⟨i, hb, hd, -⟩ := ho.inmem
    have hnone := hno i hb
    rw [ho.uaddr, hd, he'] at hnone
    cases hnone

/-- What a vpage that left the table held has no owner. -/
theorem notMem_frames_erase (h : Owned s) (hv : v ∈ s.map) (hf : f ∈ v.frames) :
    ∀ w ∈ (s.erase v.key).map, f ∉ w.frames :=
  fun _ hw => (h.frames.perm (h.keyed.perm_cons_erase hv)).notMem_of_head hf hw

theorem notMem_slots_erase (h : Owned s) (hv : v ∈ s.map) (hn : n ∈ v.slots) :
    ∀ w ∈ (s.erase v.key).map, n ∉ w.slots :=
  fun _ hw => (h.slots.perm (h.keyed.perm_cons_erase hv)).notMem_of_head hn hw

/-- A vpage enters the table with resources that have no owner. -/
theorem add (h : Owned s) (hk : ∀ w ∈ s.map, w.key ≠ v.key) (hf : ∀ f ∈ v.frames, Loose s f)
    (hn : ∀ n ∈ v.slots, s.Marked n ∧ ∀ w ∈ s.map, n ∉ w.slots)
    (hpd : ∀ i, v.backend = .inmem i → s.pagedir v.pid = some i.pagedir) :
    Owned (addVpage s v) where
  keyed := Table.keyed_cons.mpr ⟨hk, h.keyed⟩
  frames := by
    refine h.frames.cons ?_ (fun f hfv => (hf f hfv).allocated) fun f hfv => (hf f hfv).free
    unfold VpageInfo.frames
    split <;> simp
  slots := by
    refine h.slots.cons ?_ (fun n hnv => (hn n hnv).1) fun n hnv => (hn n hnv).2
    unfold VpageInfo.slots
    split
    · exact List.nodup_range'
    · exact List.nodup_nil
  ownPd w hw := by
    rcases List.mem_cons.mp hw with rfl | hw
    · exact hpd
    · exact h.ownPd w hw
  pdInj := h.pdInj
  pdLive := h.pdLive
  pteOwned d u e he := by
    obtain ⟨w, hw, ho⟩ := h.pteOwned d u e he
    exact ⟨w, List.mem_cons_of_mem v hw, ho⟩

/-- Replacing a vpage is taking it out and putting the new one in. -/
theorem replace (h : Owned (addVpage (s.erase v.key) w)) (hs : Table.Keyed VpageInfo.key s.map)
    (hv : v ∈ s.map) (hk : w.key = v.key) : Owned (s.replace w) :=
  h.perm (hs.perm_cons_replace hv hk).symm

/-! ### Page directories -/

theorem unmapPage (h : Owned s) (d : PdId) (u : Upage) : Owned (unmapPage s d u) where
  keyed := h.keyed
  frames := h.frames
  slots := h.slots
  ownPd := h.ownPd
  pdInj := h.pdInj
  pdLive p d' hp := isSome_pagedirs_setPagedir_map.trans (h.pdLive p d' hp)
  pteOwned d' u' e he := by
    rw [pte_unmapPage] at he
    split_ifs at he
    exact h.pteOwned d' u' e he

theorem mapPage (h : Owned s) (hlive : (s.pagedirs d).isSome) (hv : v ∈ s.map)
    (ho : Owner v d u e) : Owned (mapPage s d u e) where
  keyed := h.keyed
  frames := h.frames
  slots := h.slots
  ownPd := h.ownPd
  pdInj := h.pdInj
  pdLive p d' hp := isSome_pagedirs_setPagedir_map.trans (h.pdLive p d' hp)
  pteOwned d' u' e' he := by
    rw [pte_mapPage hlive] at he
    split_ifs at he with hc
    · obtain ⟨rfl, rfl⟩ := hc
      obtain rfl : e = e' := by simpa using he
      exact ⟨v, hv, ho⟩
    · exact h.pteOwned d' u' e' he

/-! ### Frames and swap sectors -/

theorem fillFrame (h : Owned s) (f : Frame) (p : Page) : Owned (fillFrame s f p) :=
  ⟨h.keyed, h.frames, h.slots, h.ownPd, h.pdInj, h.pdLive, h.pteOwned⟩

theorem takeFrame (h : Owned s) (hf : s.userPool[f]? = some false) : Owned (takeFrame s f) where
  keyed := h.keyed
  frames := by
    refine h.frames.congr_used fun v hv g hg hu => ?_
    have hne : f ≠ g := by
      rintro rfl
      simp [VM.Allocated, hf] at hu
    simpa [VM.Allocated, Effect.takeFrame, List.getElem?_set, hne] using hu
  slots := h.slots
  ownPd := h.ownPd
  pdInj := h.pdInj
  pdLive := h.pdLive
  pteOwned := h.pteOwned

theorem loose_takeFrame (h : Owned s) (hf : s.userPool[f]? = some false) :
    Loose (Effect.takeFrame s f) f where
  allocated := by
    have hlt : f < s.userPool.length := (List.getElem?_eq_some_iff.mp hf).1
    simp [VM.Allocated, Effect.takeFrame, hlt]
  free v hv hfv := by
    have hu := h.frames.used v hv f hfv
    simp [VM.Allocated, hf] at hu

theorem freeFrame (h : Owned s) (hf : ∀ v ∈ s.map, f ∉ v.frames) : Owned (freeFrame s f) where
  keyed := h.keyed
  frames := by
    refine h.frames.congr_used fun v hv g hg hu => ?_
    have hne : f ≠ g := by
      rintro rfl
      exact hf v hv hg
    simpa [VM.Allocated, Effect.freeFrame, List.getElem?_set, hne] using hu
  slots := h.slots
  ownPd := h.ownPd
  pdInj := h.pdInj
  pdLive := h.pdLive
  pteOwned := h.pteOwned

theorem markSlot (h : Owned s) (hlen : n + pageSectors ≤ s.swapMap.length) :
    Owned (setSlot s n true) where
  keyed := h.keyed
  frames := h.frames
  slots := by
    refine h.slots.congr_used fun v hv k hk hu => ?_
    rw [VM.Marked, setSlot, getElem?_setBits hlen]
    split_ifs
    · rfl
    · exact hu
  ownPd := h.ownPd
  pdInj := h.pdInj
  pdLive := h.pdLive
  pteOwned := h.pteOwned

theorem unmarkSlot (h : Owned s) (hlen : n + pageSectors ≤ s.swapMap.length)
    (hn : ∀ k ∈ List.range' n pageSectors, ∀ v ∈ s.map, k ∉ v.slots) :
    Owned (setSlot s n false) where
  keyed := h.keyed
  frames := h.frames
  slots := by
    refine h.slots.congr_used fun v hv k hk hu => ?_
    have hout : ¬(n ≤ k ∧ k < n + pageSectors) :=
      fun hin => hn k (List.mem_range'_1.mpr hin) v hv hk
    rw [VM.Marked, setSlot, getElem?_setBits hlen, if_neg hout]
    exact hu
  ownPd := h.ownPd
  pdInj := h.pdInj
  pdLive := h.pdLive
  pteOwned := h.pteOwned

end Owned

end Pintos.Vm.Invariant
