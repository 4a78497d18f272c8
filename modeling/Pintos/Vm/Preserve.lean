import Pintos.Vm.Invariant

/-! # What the functions of vpage.c keep

`Owned` survives every function, `Mapped` every function that finds its page table: first getting a frame,
then a vpage entering memory, then the functions themselves. -/

namespace Pintos.Vm.Preserve

open Pintos.Lib Pintos.Lib.Ownership Pintos.Kernel.Bitmap
open Pintos.Vm.State Pintos.Vm.Swap Pintos.Vm.Vpage Pintos.Vm.Effect Pintos.Vm.Invariant

variable {s s₁ s' : VM} {v w : VpageInfo} {i j : InfoInmem} {f : Frame} {d : PdId} {u : Upage} {e : Pte}
  {n : ℕ} {p : Page} {env : Env} {self pid : Pid} {table : Bool}

/-- Two vpages in memory at one place of one page directory are the same. -/
theorem eq_of_place (h : Owned s) (hv : v ∈ s.map) (hw : w ∈ s.map) (hi : v.backend = .inmem i)
    (hj : w.backend = .inmem j) (hd : i.pagedir = j.pagedir) (hu : v.uaddr = w.uaddr) : v = w := by
  have hpv := h.ownPd v hv i hi
  have hpw := h.ownPd w hw j hj
  have hp : v.pid = w.pid := h.pdInj _ _ _ hpv (hd ▸ hpw)
  exact h.keyed.eq_of_key hv hw (key_eq_iff.mpr ⟨hp, hu⟩)

/-! ### Getting a frame -/

theorem owned_pageOut (h : Owned s) (hv : v ∈ s.map) (hb : v.backend = .inmem i)
    (hfree : Group s.swapMap n pageSectors false) (hlen : n + pageSectors ≤ s.swapMap.length) :
    Owned (pageOut s v i n) := by
  have h1 : Owned (unmapPage s i.pagedir v.uaddr) := h.unmapPage i.pagedir v.uaddr
  have h2 : Owned ((unmapPage s i.pagedir v.uaddr).erase v.key) := by
    refine h1.erase hv fun j hj => ?_
    obtain rfl : i = j := by simpa [hb] using hj
    rw [pte_unmapPage, if_pos ⟨rfl, rfl⟩]
  have h3 : Owned (setSlot ((unmapPage s i.pagedir v.uaddr).erase v.key) n true) := h2.markSlot hlen
  have h4 : Owned (addVpage ((setSlot (unmapPage s i.pagedir v.uaddr) n true).erase v.key)
      (v.withBackend (.swapped ⟨n⟩))) := by
    refine h3.add (fun w hw => (Table.mem_erase.mp hw).2) (by simp [VpageInfo.frames]) ?_ (by simp)
    intro k hk
    have hk' : n ≤ k ∧ k < n + pageSectors := List.mem_range'_1.mp hk
    refine ⟨?_, fun w hw hkw => ?_⟩
    · exact (getElem?_setBits hlen k).trans (if_pos hk')
    · have hu : s.swapMap[k]? = some true := h.slots.used w (Table.mem_erase.mp hw).1 k hkw
      rw [hfree k hk'.1 hk'.2] at hu
      cases hu
  have h5 : Owned ((setSlot (unmapPage s i.pagedir v.uaddr) n true).replace
      (v.withBackend (.swapped ⟨n⟩))) := h4.replace h.keyed hv rfl
  exact ⟨h5.keyed, h5.frames, h5.slots, h5.ownPd, h5.pdInj, h5.pdLive, h5.pteOwned⟩

theorem loose_pageOut (h : Owned s) (hv : v ∈ s.map) (hb : v.backend = .inmem i) :
    Loose (pageOut s v i n) i.paddr where
  allocated := h.frames.used v hv i.paddr (by simp [frames_inmem hb])
  free w hw hf := by
    rcases Table.mem_replace.mp hw with ⟨rfl, -⟩ | ⟨hw, hk⟩
    · simp [VpageInfo.frames] at hf
    · have hwv : w = v := h.frames.eq_of_mem hw hv hf (by simp [frames_inmem hb])
      exact hk (hwv ▸ rfl)

theorem owned_got (h : Owned s) (hgot : Got s f s₁) : Owned s₁ := by
  cases hgot with
  | take hf => exact h.takeFrame hf
  | evict hv hb hfree hlen => exact owned_pageOut h hv hb hfree hlen

theorem loose_got (h : Owned s) (hgot : Got s f s₁) : Loose s₁ f := by
  cases hgot with
  | take hf => exact h.loose_takeFrame hf
  | evict hv hb hfree hlen => exact loose_pageOut h hv hb

theorem got_pagedir (hgot : Got s f s₁) : s₁.pagedir = s.pagedir := by cases hgot <;> rfl

theorem got_files (hgot : Got s f s₁) : s₁.files = s.files := by cases hgot <;> rfl

theorem got_map_key (hgot : Got s f s₁) : s₁.map.map VpageInfo.key = s.map.map VpageInfo.key := by
  cases hgot with
  | take => rfl
  | evict => exact Table.map_key_replace

theorem got_find_eq_none {k : Key} (hgot : Got s f s₁) : s₁.find k = none ↔ s.find k = none := by
  have hiff : ∀ l : List VpageInfo,
      Table.find VpageInfo.key l k = none ↔ k ∉ l.map VpageInfo.key := by
    intro l
    simp [Table.find_eq_none]
  rw [VM.find, VM.find, hiff, hiff, got_map_key hgot]

/-- A vpage that is not in memory stays as it is. -/
theorem got_mem_map (hgot : Got s f s₁) (h : Table.Keyed VpageInfo.key s.map) (hw : w ∈ s.map)
    (hout : ∀ i, w.backend ≠ .inmem i) : w ∈ s₁.map := by
  cases hgot with
  | take => exact hw
  | @evict v i n hv hb =>
    refine Table.mem_replace.mpr (.inr ⟨hw, fun hk => ?_⟩)
    obtain rfl : w = v := h.eq_of_key hw hv hk
    exact hout i hb

theorem got_tables {d : PdId} {g : ℕ} (hgot : Got s f s₁) :
    ((s₁.pagedirs d).map (·.tables g)) = (s.pagedirs d).map (·.tables g) := by
  cases hgot with
  | take => rfl
  | @evict v i n =>
    by_cases hd : d = i.pagedir
    · subst hd
      simp only [pageOut, VM.replace, setSlot, unmapPage, VM.setPagedir, Function.update_self,
        Option.map_map]
      rfl
    · simp only [pageOut, VM.replace, setSlot, unmapPage, VM.setPagedir, Function.update_of_ne hd]

theorem got_hasTable (hgot : Got s f s₁) : HasTable s₁ d u table ↔ HasTable s d u table := by
  have hiff : ∀ t : VM, (∃ pd, t.pagedirs d = some pd ∧ pd.tables (pdNo u) = true) ↔
      (t.pagedirs d).map (·.tables (pdNo u)) = some true := by
    intro t
    simp [Option.map_eq_some_iff]
  rw [HasTable, HasTable, hiff, hiff, got_tables hgot]

/-- The sectors of a swapped vpage are on the device. -/
theorem slot_lt {i : InfoSwap} (h : Owned s) (hv : v ∈ s.map) (hb : v.backend = .swapped i) :
    i.swapIndex + pageSectors ≤ s.swapMap.length := by
  have hlast : i.swapIndex + (pageSectors - 1) ∈ v.slots := by
    rw [slots_swapped hb]
    exact List.mem_range'_1.mpr ⟨Nat.le_add_right .., by simp [pageSectors]⟩
  have hm : s.swapMap[i.swapIndex + (pageSectors - 1)]? = some true := h.slots.used v hv _ hlast
  have hlt := (List.getElem?_eq_some_iff.mp hm).1
  simp only [pageSectors] at hlt ⊢
  omega

/-! ### A vpage enters memory -/

theorem loose_erase {k : Key} (h : Loose s f) : Loose (s.erase k) f :=
  ⟨h.allocated, fun w hw => h.free w (Table.mem_erase.mp hw).1⟩

theorem owned_entered (h : Owned (s.erase v.key)) (hs : Table.Keyed VpageInfo.key s.map)
    (hv : v ∈ s.map) (hf : Loose (s.erase v.key) f) (hp : v.pid = self)
    (hin : Entered self env s v f s') : Owned s' := by
  have henter : ∀ d, s.pagedir self = some d → Owned (enter s v f d env.now) := by
    intro d hd
    refine Owned.replace (h.add (fun w hw => (Table.mem_erase.mp hw).2) ?_ ?_ ?_) hs hv rfl
    · intro g hg
      obtain rfl : g = f := by simpa [VpageInfo.frames] using hg
      exact hf
    · simp [VpageInfo.slots]
    · intro j hj
      obtain rfl : (⟨f, d, env.now⟩ : InfoInmem) = j := by simpa using hj
      exact (congrArg s.pagedir hp).trans hd
  cases hin with
  | mapped hd hlive hnone =>
    refine (henter _ hd).mapPage hlive (Table.mem_replace_self hv rfl) ⟨rfl, rfl, _, rfl, rfl, rfl⟩
  | unmapped hd ht => exact henter _ hd

theorem owned_pagedIn (h : Owned s) (hin : PagedIn self env s u s') : Owned s' := by
  cases hin with
  | @lazy v i f s₁ _ hv hb hgot hin =>
    obtain ⟨hmem, hk⟩ := h.keyed.find_eq_some.mp hv
    have h1 : Owned (fillFrame s₁ f (readPage s₁ i (s₁.mem f))) := (owned_got h hgot).fillFrame _ _
    have hv1 : v ∈ s₁.map := got_mem_map hgot h.keyed hmem (by simp [hb])
    have h2 := h1.erase hv1 (by simp [hb])
    have hl : Loose (fillFrame s₁ f (readPage s₁ i (s₁.mem f))) f :=
      ⟨(loose_got h hgot).allocated, (loose_got h hgot).free⟩
    exact owned_entered h2 h1.keyed hv1 (loose_erase hl) (congrArg Key.pid hk) hin
  | @swapped v i f s₁ _ hv hb hgot hin =>
    obtain ⟨hmem, hk⟩ := h.keyed.find_eq_some.mp hv
    have h1 : Owned s₁ := owned_got h hgot
    have hv1 : v ∈ s₁.map := got_mem_map hgot h.keyed hmem (by simp [hb])
    have hslots : v.slots = List.range' i.swapIndex pageSectors := slots_swapped hb
    have hlen : i.swapIndex + pageSectors ≤ s₁.swapMap.length := slot_lt h1 hv1 hb
    have h2 : Owned (s₁.erase v.key) := h1.erase hv1 (by simp [hb])
    have h3 : Owned (setSlot (s₁.erase v.key) i.swapIndex false) :=
      h2.unmarkSlot hlen fun k hk => h1.notMem_slots_erase hv1 (hslots ▸ hk)
    have h4 := h3.fillFrame f (slotPage s₁.swapBlock i.swapIndex)
    have hl : Loose s₁ f := loose_got h hgot
    have hle : Loose (s₁.erase v.key) f := loose_erase hl
    have hl1 : Loose ((fillFrame (setSlot s₁ i.swapIndex false) f
        (slotPage s₁.swapBlock i.swapIndex)).erase v.key) f := ⟨hle.allocated, hle.free⟩
    exact owned_entered (s := fillFrame (setSlot s₁ i.swapIndex false) f
      (slotPage s₁.swapBlock i.swapIndex)) h4 h1.keyed hv1 hl1 (congrArg Key.pid hk) hin

theorem owned_placed {wr : Bool} (h : Owned s) (hpl : Placed self env s u self wr f s') :
    Owned s' := by
  have hadd : ∀ s₁ d, Got s f s₁ → s₁.find ⟨self, u⟩ = none → s₁.pagedir self = some d →
      Owned (addVpage s₁ ⟨u, wr, self, .inmem ⟨f, d, env.now⟩⟩) := by
    intro s₁ d hgot hnew hd
    refine (owned_got h hgot).add (Table.find_eq_none.mp hnew) ?_ (by simp [VpageInfo.slots]) ?_
    · intro g hg
      obtain rfl : g = f := by simpa [VpageInfo.frames] using hg
      exact loose_got h hgot
    · intro j hj
      obtain rfl : (⟨f, d, env.now⟩ : InfoInmem) = j := by simpa using hj
      exact hd
  cases hpl with
  | mapped hgot hnew hd hlive hnone =>
    exact (hadd _ _ hgot hnew hd).mapPage hlive List.mem_cons_self ⟨rfl, rfl, _, rfl, rfl, rfl⟩
  | unmapped hgot hnew hd ht => exact hadd _ _ hgot hnew hd

/-! ### Releasing and changing the permission -/

theorem owned_releaseVpage (h : Owned s) (hv : v ∈ s.map) : Owned (releaseVpage s v) := by
  unfold releaseVpage
  cases hb : v.backend with
  | lazy i => exact h.erase hv (by simp [hb])
  | inmem i =>
    have h1 : Owned ((unmapPage s i.pagedir v.uaddr).erase v.key) := by
      refine (h.unmapPage i.pagedir v.uaddr).erase hv fun j hj => ?_
      obtain rfl : i = j := by simpa [hb] using hj
      rw [pte_unmapPage, if_pos ⟨rfl, rfl⟩]
    exact h1.freeFrame (h.notMem_frames_erase hv (by simp [frames_inmem hb]))
  | swapped i =>
    have hslots : v.slots = List.range' i.swapIndex pageSectors := slots_swapped hb
    have h1 : Owned (s.erase v.key) := h.erase hv (by simp [hb])
    have hlen : i.swapIndex + pageSectors ≤ s.swapMap.length := slot_lt h hv hb
    exact h1.unmarkSlot hlen fun k hk => h.notMem_slots_erase hv (hslots ▸ hk)

/-- The entry of a vpage in memory shows its frame. -/
theorem frame_of_pte (h : Owned s) (hv : v ∈ s.map) (hb : v.backend = .inmem i)
    (he : s.pte i.pagedir v.uaddr = some e) : e.frame = i.paddr ∧ e.writable = v.writable := by
  obtain ⟨w, hw, ho⟩ := h.pteOwned _ _ _ he
  obtain ⟨j, hj, hd, hf⟩ := ho.inmem
  obtain rfl : w = v := eq_of_place h hw hv hj hb hd ho.uaddr
  obtain rfl : i = j := by simpa [hb] using hj
  exact ⟨hf.symm, ho.writable.symm⟩

theorem owned_withWritable {wr : Bool} (h : Owned s) (hv : v ∈ s.map)
    (hno : ∀ i, v.backend = .inmem i → s.pte i.pagedir v.uaddr = none) :
    Owned (s.replace (v.withWritable wr)) := by
  have h1 : Owned (s.erase v.key) := h.erase hv hno
  refine Owned.replace (h1.add (fun w hw => (Table.mem_erase.mp hw).2) ?_ ?_ (h.ownPd v hv))
    h.keyed hv rfl
  · exact fun f hf => ⟨h.frames.used v hv f hf, h.notMem_frames_erase hv hf⟩
  · exact fun n hn => ⟨h.slots.used v hv n hn, h.notMem_slots_erase hv hn⟩

theorem owned_remap {wr : Bool} (h : Owned s) (hv : v ∈ s.map) (hb : v.backend = .inmem i)
    (he : s.pte i.pagedir v.uaddr = some e) :
    Owned (mapPage (unmapPage (s.replace (v.withWritable wr)) i.pagedir v.uaddr) i.pagedir v.uaddr
      ⟨e.frame, wr⟩) := by
  have h1 : Owned ((unmapPage s i.pagedir v.uaddr).replace (v.withWritable wr)) := by
    refine owned_withWritable (h.unmapPage i.pagedir v.uaddr) hv fun j hj => ?_
    obtain rfl : i = j := by simpa [hb] using hj
    rw [pte_unmapPage, if_pos ⟨rfl, rfl⟩]
  have hlive : ((unmapPage s i.pagedir v.uaddr).pagedirs i.pagedir).isSome :=
    isSome_pagedirs_setPagedir_map.trans (h.pdLive _ _ (h.ownPd v hv i hb))
  exact h1.mapPage hlive (Table.mem_replace_self hv rfl)
    ⟨rfl, rfl, i, hb, rfl, (frame_of_pte h hv hb he).1.symm⟩

/-! ### What stays mapped -/

theorem mapped_takeFrame (h : Mapped s) : Mapped (takeFrame s f) := h

/-- Unmapping the place of a vpage that leaves the table concerns no other vpage. -/
theorem mapped_unmap_erase (h : Owned s) (hm : Mapped s) (hv : v ∈ s.map) (hb : v.backend = .inmem i) :
    Mapped ((unmapPage s i.pagedir v.uaddr).erase v.key) := by
  intro w hw j hj
  obtain ⟨hw, hk⟩ := Table.mem_erase.mp hw
  have hne : ¬(j.pagedir = i.pagedir ∧ w.uaddr = v.uaddr) := by
    rintro ⟨hd, hu⟩
    exact hk (congrArg _ (eq_of_place h hw hv hj hb hd hu))
  have hpte : (unmapPage s i.pagedir v.uaddr).pte j.pagedir w.uaddr = s.pte j.pagedir w.uaddr := by
    rw [pte_unmapPage, if_neg hne]
  exact hpte.trans (hm w hw j hj)

theorem mapped_erase {k : Key} (hm : Mapped s) : Mapped (s.erase k) :=
  fun w hw => hm w (Table.mem_erase.mp hw).1

/-- A vpage that is not in memory, or is mapped, may come back under its key. -/
theorem mapped_replace (hm : Mapped (s.erase w.key))
    (hw : ∀ i, w.backend = .inmem i → s.pte i.pagedir w.uaddr = some ⟨i.paddr, w.writable⟩) :
    Mapped (s.replace w) := by
  intro x hx i hi
  rcases Table.mem_replace.mp hx with ⟨rfl, -⟩ | ⟨hx, hk⟩
  · exact hw i hi
  · exact hm x (Table.mem_erase.mpr ⟨hx, hk⟩) i hi

theorem mapped_got (h : Owned s) (hm : Mapped s) (hgot : Got s f s₁) : Mapped s₁ := by
  cases hgot with
  | take => exact hm
  | @evict v i n hv hb =>
    have h1 : Mapped ((unmapPage s i.pagedir v.uaddr).replace (v.withBackend (.swapped ⟨n⟩))) :=
      mapped_replace (mapped_unmap_erase h hm hv hb) (by simp)
    exact h1

/-- Mapping a place where nothing was present concerns no other vpage. -/
theorem mapped_mapPage (hm : Mapped s) (hlive : (s.pagedirs d).isSome) (hnone : s.pte d u = none) :
    Mapped (mapPage s d u e) := by
  intro w hw j hj
  have hne : ¬(j.pagedir = d ∧ w.uaddr = u) := by
    rintro ⟨rfl, rfl⟩
    rw [hm w hw j hj] at hnone
    cases hnone
  rw [pte_mapPage hlive, if_neg hne]
  exact hm w hw j hj

theorem mapped_entered (hm : Mapped s) (ht : ∀ d, s.pagedir self = some d → HasTable s d v.uaddr env.table)
    (hin : Entered self env s v f s') : Mapped s' := by
  cases hin with
  | @mapped d hd hlive hnone =>
    have h1 : Mapped (mapPage (s.erase v.key) d v.uaddr ⟨f, v.writable⟩) :=
      mapped_mapPage (mapped_erase hm) hlive hnone
    refine mapped_replace (s := mapPage s d v.uaddr ⟨f, v.writable⟩)
      (w := v.withBackend (.inmem ⟨f, d, env.now⟩)) h1 fun i hi => ?_
    obtain rfl : (⟨f, d, env.now⟩ : InfoInmem) = i := by simpa using hi
    exact (pte_mapPage hlive).trans (if_pos ⟨rfl, rfl⟩)
  | unmapped hd hno => exact absurd (ht _ hd) hno

theorem mapped_pagedIn (h : Owned s) (hm : Mapped s)
    (ht : ∀ d, s.pagedir self = some d → HasTable s d u env.table)
    (hin : PagedIn self env s u s') : Mapped s' := by
  cases hin with
  | @lazy v i f s₁ _ hv hb hgot hin =>
    obtain ⟨-, hk⟩ := h.keyed.find_eq_some.mp hv
    have hm1 : Mapped s₁ := mapped_got h hm hgot
    refine mapped_entered (s := fillFrame s₁ f (readPage s₁ i (s₁.mem f))) hm1 (fun d hd => ?_) hin
    rw [show v.uaddr = u from congrArg Key.uaddr hk]
    exact (got_hasTable hgot).mpr (ht d (got_pagedir hgot ▸ hd))
  | @swapped v i f s₁ _ hv hb hgot hin =>
    obtain ⟨-, hk⟩ := h.keyed.find_eq_some.mp hv
    have hm1 : Mapped s₁ := mapped_got h hm hgot
    refine mapped_entered (s := fillFrame (setSlot s₁ i.swapIndex false) f
      (slotPage s₁.swapBlock i.swapIndex)) hm1 (fun d hd => ?_) hin
    rw [show v.uaddr = u from congrArg Key.uaddr hk]
    exact (got_hasTable hgot).mpr (ht d (got_pagedir hgot ▸ hd))

theorem mapped_placed {wr : Bool} (h : Owned s) (hm : Mapped s)
    (ht : ∀ d, s.pagedir self = some d → HasTable s d u env.table)
    (hpl : Placed self env s u self wr f s') : Mapped s' := by
  cases hpl with
  | @mapped s₁ d hgot hnew hd hlive hnone =>
    intro w hw j hj
    rcases List.mem_cons.mp hw with rfl | hw
    · obtain rfl : (⟨f, d, env.now⟩ : InfoInmem) = j := by simpa using hj
      exact (pte_mapPage hlive).trans (if_pos ⟨rfl, rfl⟩)
    · exact mapped_mapPage (mapped_got h hm hgot) hlive hnone w hw j hj
  | unmapped hgot hnew hd hno => exact absurd ((got_hasTable hgot).mpr (ht _ (got_pagedir hgot ▸ hd))) hno

theorem mapped_releaseVpage (h : Owned s) (hm : Mapped s) (hv : v ∈ s.map) :
    Mapped (releaseVpage s v) := by
  unfold releaseVpage
  cases hb : v.backend with
  | lazy i => exact mapped_erase hm
  | inmem i => exact mapped_unmap_erase h hm hv hb
  | swapped i => exact mapped_erase hm

theorem mapped_withWritable {wr : Bool} (hm : Mapped s) (hout : ∀ i, v.backend ≠ .inmem i) :
    Mapped (s.replace (v.withWritable wr)) :=
  mapped_replace (mapped_erase hm) fun i hi => absurd hi (hout i)

theorem mapped_remap {wr : Bool} (h : Owned s) (hm : Mapped s) (hv : v ∈ s.map)
    (hb : v.backend = .inmem i) (he : s.pte i.pagedir v.uaddr = some e) :
    Mapped (mapPage (unmapPage (s.replace (v.withWritable wr)) i.pagedir v.uaddr) i.pagedir v.uaddr
      ⟨e.frame, wr⟩) := by
  have hlive : ((unmapPage s i.pagedir v.uaddr).pagedirs i.pagedir).isSome :=
    isSome_pagedirs_setPagedir_map.trans (h.pdLive _ _ (h.ownPd v hv i hb))
  have hnone : ((unmapPage s i.pagedir v.uaddr).erase v.key).pte i.pagedir v.uaddr = none :=
    pte_unmapPage.trans (if_pos ⟨rfl, rfl⟩)
  have h1 := mapped_mapPage (e := ⟨e.frame, wr⟩) (mapped_unmap_erase h hm hv hb) hlive hnone
  refine mapped_replace (s := mapPage (unmapPage s i.pagedir v.uaddr) i.pagedir v.uaddr ⟨e.frame, wr⟩)
    (w := v.withWritable wr) h1 fun j hj => ?_
  obtain rfl : i = j := by simpa [VpageInfo.withWritable, hb] using hj
  rw [← (frame_of_pte h hv hb he).1]
  exact (pte_mapPage hlive).trans (if_pos ⟨rfl, rfl⟩)

end Pintos.Vm.Preserve
