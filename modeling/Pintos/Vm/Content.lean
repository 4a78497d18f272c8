import Pintos.Vm.Run

/-! # The content of a vpage

The bytes of a vpage are those of its file when it is lazy, of its frame when it is in memory and of its swap
sectors when it is swapped. Getting a frame, paging in and changing a permission keep the content of every
vpage: what is overwritten on the way belongs to no other one. -/

namespace Pintos.Vm.Content

open Pintos.Lib Pintos.Lib.Ownership Pintos.Kernel.Bitmap
open Pintos.Vm.State Pintos.Vm.Swap Pintos.Vm.Vpage Pintos.Vm.Effect Pintos.Vm.Invariant
open Pintos.Vm.Preserve Pintos.Vm.Run

/-- **The content of a vpage.** -/
def content (s : VM) (v : VpageInfo) : Page :=
  match v.backend with
  | .lazy i => lazyPage s i
  | .inmem i => s.mem i.paddr
  | .swapped i => slotPage s.swapBlock i.swapIndex

/-- The content of the page `k.uaddr` of the process `k.pid`, if there is one. -/
def contentAt (s : VM) (k : Key) : Option Page := (s.find k).map (content s)

variable {s s₁ s' : VM} {v w : VpageInfo} {i : InfoInmem} {f : Frame} {d : PdId} {u : Upage} {e : Pte}
  {n : ℕ} {p : Page} {env : Env} {self pid : Pid} {k : Key}

theorem content_lazy {i : InfoLazy} (h : v.backend = .lazy i) : content s v = lazyPage s i := by
  rw [content, h]

theorem content_inmem (h : v.backend = .inmem i) : content s v = s.mem i.paddr := by
  rw [content, h]

theorem content_swapped {i : InfoSwap} (h : v.backend = .swapped i) :
    content s v = slotPage s.swapBlock i.swapIndex := by
  rw [content, h]

theorem contentAt_of_find (h : s.find k = some v) : contentAt s k = some (content s v) := by
  rw [contentAt, h, Option.map_some]

theorem contentAt_eq_none : contentAt s k = none ↔ s.find k = none := Option.map_eq_none_iff

/-- **Frame**: the content stays where the vpage stays and its bytes do. -/
theorem contentAt_congr (hfind : s'.find k = s.find k)
    (hc : ∀ v, s.find k = some v → content s' v = content s v) : contentAt s' k = contentAt s k := by
  rw [contentAt, contentAt, hfind]
  cases hv : s.find k with
  | none => rfl
  | some v => simp [hc v hv]

theorem mem_fillFrame_self : (fillFrame s f p).mem f = p := Function.update_self ..

theorem mem_fillFrame_of_ne {g : Frame} (h : g ≠ f) : (fillFrame s f p).mem g = s.mem g :=
  Function.update_of_ne h ..

/-- Filling a frame concerns only the vpage that holds it. -/
theorem content_fillFrame (hf : f ∉ v.frames) : content (fillFrame s f p) v = content s v := by
  cases hb : v.backend with
  | lazy i => rw [content_lazy hb, content_lazy hb]; rfl
  | inmem i =>
    have hne : i.paddr ≠ f := by
      rintro rfl
      simp [frames_inmem hb] at hf
    rw [content_inmem hb, content_inmem hb, mem_fillFrame_of_ne hne]
  | swapped i => rw [content_swapped hb, content_swapped hb]; rfl

/-! ### The table -/

theorem find_replace (hs : Table.Keyed VpageInfo.key s.map) (hv : v ∈ s.map) (hk : w.key = v.key)
    (k : Key) : (s.replace w).find k = if k = v.key then some w else s.find k :=
  hs.find_replace hv hk k

theorem find_addVpage (s : VM) (v : VpageInfo) (k : Key) :
    (addVpage s v).find k = if v.key = k then some v else s.find k :=
  Table.find_cons

theorem find_erase (hs : Table.Keyed VpageInfo.key s.map) (k' k : Key) :
    (s.erase k').find k = if k = k' then none else s.find k :=
  hs.find_erase k' k

/-! ### Getting a frame -/

theorem contentAt_takeFrame (h : Owned s) (hf : s.userPool[f]? = some false) :
    contentAt (takeFrame s f) k = contentAt s k := by
  refine contentAt_congr rfl fun v hv => ?_
  refine content_fillFrame (s := s) (p := fun _ => 0) fun hfv => ?_
  have hu : s.userPool[f]? = some true := h.frames.used v (Table.mem_of_find hv) f hfv
  rw [hf] at hu
  cases hu

/-- What is swapped out keeps its bytes, and nothing else is written over. -/
theorem contentAt_pageOut (h : Owned s) (hv : v ∈ s.map) (hb : v.backend = .inmem i)
    (hfree : Group s.swapMap n pageSectors false) : contentAt (pageOut s v i n) k = contentAt s k := by
  have hfind : (pageOut s v i n).find k =
      if k = v.key then some (v.withBackend (.swapped ⟨n⟩)) else s.find k :=
    find_replace (s := s) (w := v.withBackend (.swapped ⟨n⟩)) h.keyed hv rfl k
  by_cases hk : k = v.key
  · subst hk
    rw [if_pos rfl] at hfind
    rw [contentAt_of_find hfind, contentAt_of_find (h.keyed.find_mem hv), content_inmem hb]
    exact congrArg some slotPage_blockWrites
  · rw [if_neg hk] at hfind
    refine contentAt_congr hfind fun w hw => ?_
    have hmem := Table.mem_of_find hw
    cases hbw : w.backend with
    | lazy j => rw [content_lazy hbw, content_lazy hbw]; rfl
    | inmem j => rw [content_inmem hbw, content_inmem hbw]; rfl
    | swapped j =>
      rw [content_swapped hbw, content_swapped hbw]
      refine slotPage_blockWrites_of_disjoint fun m hm hmn => ?_
      have hu : s.swapMap[m]? = some true := h.slots.used w hmem m (slots_swapped hbw ▸ hm)
      obtain ⟨h1, h2⟩ := List.mem_range'_1.mp hmn
      rw [hfree m h1 h2] at hu
      cases hu

/-- **Eviction is invisible**: getting a frame keeps the content of every vpage. -/
theorem contentAt_got (h : Owned s) (hgot : Got s f s₁) : contentAt s₁ k = contentAt s k := by
  cases hgot with
  | take hf => exact contentAt_takeFrame h hf
  | evict hv hb hfree hlen => exact contentAt_pageOut h hv hb hfree

/-! ### A vpage enters memory -/

/-- The vpage that enters shows what its frame holds; the others do not change. -/
theorem contentAt_entered (hs : Table.Keyed VpageInfo.key s.map) (hv : v ∈ s.map)
    (hin : Entered self env s v f s') :
    contentAt s' k = if k = v.key then some (s.mem f) else contentAt s k := by
  have henter : ∀ d, contentAt (enter s v f d env.now) k =
      if k = v.key then some (s.mem f) else contentAt s k := by
    intro d
    have hfind := find_replace (w := v.withBackend (.inmem ⟨f, d, env.now⟩)) hs hv rfl k
    split_ifs with hk
    · rw [if_pos hk] at hfind
      exact contentAt_of_find hfind
    · rw [if_neg hk] at hfind
      exact contentAt_congr hfind fun _ _ => rfl
  cases hin with
  | mapped => exact henter _
  | unmapped => exact henter _

theorem contentAt_fillFrame (hf : ∀ v ∈ s.map, f ∉ v.frames) :
    contentAt (fillFrame s f p) k = contentAt s k :=
  contentAt_congr rfl fun v hv => content_fillFrame (hf v (Table.mem_of_find hv))

/-- **Page faults are invisible**: paging in keeps the content of every vpage. -/
theorem contentAt_pagedIn (h : Owned s)
    (hread : ∀ v i, s.find ⟨self, u⟩ = some v → v.backend = .lazy i → FullRead s i)
    (hin : PagedIn self env s u s') : contentAt s' k = contentAt s k := by
  cases hin with
  | @lazy v i f s₁ _ hv hb hgot hin =>
    have h1 : Owned s₁ := owned_got h hgot
    have hmem := got_mem_map hgot h.keyed (Table.mem_of_find hv) (by simp [hb])
    have hfull : FullRead s₁ i := by
      intro file hfile
      rw [got_files hgot]
      exact hread v i hv hb file hfile
    rw [contentAt_entered (s := fillFrame s₁ f (readPage s₁ i (s₁.mem f))) h1.keyed hmem hin,
      contentAt_fillFrame (loose_got h hgot).free, ← contentAt_got h hgot]
    split_ifs with hk
    · rw [hk, contentAt_of_find (h1.keyed.find_mem hmem), content_lazy hb,
        mem_fillFrame_self, readPage_eq_lazyPage hfull]
    · rfl
  | @swapped v i f s₁ _ hv hb hgot hin =>
    have h1 : Owned s₁ := owned_got h hgot
    have hmem := got_mem_map hgot h.keyed (Table.mem_of_find hv) (by simp [hb])
    have hfree : ∀ w ∈ (setSlot s₁ i.swapIndex false).map, f ∉ w.frames := (loose_got h hgot).free
    have hslot : contentAt (setSlot s₁ i.swapIndex false) k = contentAt s₁ k :=
      contentAt_congr rfl fun _ _ => rfl
    rw [contentAt_entered (s := fillFrame (setSlot s₁ i.swapIndex false) f
        (slotPage s₁.swapBlock i.swapIndex)) h1.keyed hmem hin,
      contentAt_fillFrame hfree, hslot, ← contentAt_got h hgot]
    split_ifs with hk
    · rw [hk, contentAt_of_find (h1.keyed.find_mem hmem), content_swapped hb,
        mem_fillFrame_self]
    · rfl

/-- A vpage allocated in memory leaves the others alone. -/
theorem contentAt_placed {wr : Bool} (h : Owned s) (hpl : Placed self env s u pid wr f s')
    (hk : k ≠ ⟨pid, u⟩) : contentAt s' k = contentAt s k := by
  have hadd : ∀ s₁ b, Got s f s₁ → contentAt (addVpage s₁ ⟨u, wr, pid, b⟩) k = contentAt s k := by
    intro s₁ b hgot
    have hfind := find_addVpage s₁ ⟨u, wr, pid, b⟩ k
    have hne : VpageInfo.key ⟨u, wr, pid, b⟩ ≠ k := fun he => hk he.symm
    rw [if_neg hne] at hfind
    rw [← contentAt_got h hgot]
    exact contentAt_congr hfind fun _ _ => rfl
  cases hpl with
  | mapped hgot => exact hadd _ _ hgot
  | unmapped hgot => exact hadd _ _ hgot

theorem find_placed {wr : Bool} (hpl : Placed self env s u pid wr f s') :
    s.find ⟨pid, u⟩ = none := by
  cases hpl with
  | mapped hgot hnew => exact (got_find_eq_none hgot).mp hnew
  | unmapped hgot hnew => exact (got_find_eq_none hgot).mp hnew

/-! ### Releasing and changing the permission -/

/-- A released vpage is gone; the others keep their content. -/
theorem contentAt_releaseVpage (h : Owned s) (hv : v ∈ s.map) :
    contentAt (releaseVpage s v) k = if k = v.key then none else contentAt s k := by
  have hfind : (releaseVpage s v).find k = if k = v.key then none else s.find k := by
    rw [VM.find, map_releaseVpage]
    exact find_erase h.keyed v.key k
  split_ifs with hk
  · rw [if_pos hk] at hfind
    exact contentAt_eq_none.mpr hfind
  · rw [if_neg hk] at hfind
    refine contentAt_congr hfind fun w hw => ?_
    obtain ⟨hmem, rfl⟩ := h.keyed.find_eq_some.mp hw
    unfold releaseVpage
    cases hb : v.backend with
    | lazy i => rfl
    | swapped i => rfl
    | inmem i =>
      have hf : i.paddr ∉ w.frames := by
        intro hfw
        have hwv : w = v := h.frames.eq_of_mem hmem hv hfw (by simp [frames_inmem hb])
        exact hk (congrArg VpageInfo.key hwv)
      exact content_fillFrame (s := s) (p := fun _ => 0xcc) hf

theorem contentAt_withWritable {wr : Bool} (hs : Table.Keyed VpageInfo.key s.map) (hv : v ∈ s.map) :
    contentAt (s.replace (v.withWritable wr)) k = contentAt s k := by
  have hfind := find_replace (w := v.withWritable wr) hs hv rfl k
  by_cases hk : k = v.key
  · rw [if_pos hk] at hfind
    rw [hk] at hfind ⊢
    rw [contentAt_of_find hfind, contentAt_of_find (hs.find_mem hv)]
    rfl
  · rw [if_neg hk] at hfind
    exact contentAt_congr hfind fun _ _ => rfl

/-! ### Loads and stores -/

/-- What the processor reaches through a page directory is the vpage of the process in memory. -/
theorem find_of_pte (h : Owned s) (hd : s.pagedir pid = some d) (he : s.pte d u = some e) :
    ∃ v i, s.find ⟨pid, u⟩ = some v ∧ v.backend = .inmem i ∧ i.paddr = e.frame := by
  obtain ⟨v, hv, ho⟩ := h.pteOwned d u e he
  obtain ⟨i, hb, hi, hf⟩ := ho.inmem
  have hp : v.pid = pid := h.pdInj _ _ _ (hi ▸ h.ownPd v hv i hb) hd
  have hk : v.key = ⟨pid, u⟩ := by rw [VpageInfo.key, hp, ho.uaddr]
  exact ⟨v, i, h.keyed.find_eq_some.mpr ⟨hv, hk⟩, hb, hf⟩

/-- **A load sees the content of its page.** -/
theorem contentAt_of_pte (h : Owned s) (hd : s.pagedir pid = some d) (he : s.pte d u = some e) :
    contentAt s ⟨pid, u⟩ = some (s.mem e.frame) := by
  obtain ⟨v, i, hv, hb, hf⟩ := find_of_pte h hd he
  rw [contentAt_of_find hv, content_inmem hb, hf]

/-- **A store changes its own page and no other one.** -/
theorem contentAt_store (h : Owned s) (hd : s.pagedir pid = some d) (he : s.pte d u = some e) :
    contentAt (fillFrame s e.frame p) k = if k = ⟨pid, u⟩ then some p else contentAt s k := by
  obtain ⟨v, i, hv, hb, hf⟩ := find_of_pte h hd he
  split_ifs with hk
  · subst hk
    have hv' : (fillFrame s e.frame p).find ⟨pid, u⟩ = some v := hv
    rw [contentAt_of_find hv', content_inmem hb, hf, mem_fillFrame_self]
  · refine contentAt_congr rfl fun w hw => content_fillFrame fun hfw => hk ?_
    obtain ⟨hmem, rfl⟩ := h.keyed.find_eq_some.mp hw
    obtain ⟨hmemv, hkv⟩ := h.keyed.find_eq_some.mp hv
    have hwv : w = v := h.frames.eq_of_mem hmem hmemv hfw (by simp [frames_inmem hb, hf])
    rw [hwv, hkv]

end Pintos.Vm.Content
