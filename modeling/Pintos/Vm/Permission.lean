import Pintos.Vm.Totality

/-! # The permission of a page

What the functions of vpage.c change of the table beside where a page is: only `vpage_info_set_writable` changes
a permission, and only releasing takes a vpage away. -/

namespace Pintos.Vm.Permission

open Pintos.Lib Pintos.Lib.Ops Pintos.Kernel.Bitmap Pintos.Vm.State Pintos.Vm.Swap Pintos.Vm.Vpage
open Pintos.Vm.Effect Pintos.Vm.Invariant Pintos.Vm.Preserve Pintos.Vm.Content Pintos.Vm.Run Pintos.Vm.Totality

/-- Whether the page is writable, if it is there. -/
def perm (s : VM) (k : Key) : Option Bool := (s.find k).map VpageInfo.writable

/-- The page was not touched yet. -/
def LazyAt (s : VM) (k : Key) : Prop := ∃ v i, s.find k = some v ∧ v.backend = .lazy i

variable {s s₀ s₁ s' : VM} {v w : VpageInfo} {i : InfoInmem} {f : Frame} {d : PdId} {u : ℕ} {n : ℕ} {env : Env}
  {self pid : Pid} {k : Key} {b : Bool}

theorem perm_of_find (h : s.find k = some v) : perm s k = some v.writable := by
  rw [perm, h, Option.map_some]

theorem perm_eq_none : perm s k = none ↔ s.find k = none := Option.map_eq_none_iff

theorem perm_congr (h : s'.find k = s.find k) : perm s' k = perm s k := by rw [perm, perm, h]

/-- A vpage that only moves. -/
theorem perm_replace (hs : Table.Keyed VpageInfo.key s.map) (hv : v ∈ s.map) (hk : w.key = v.key) :
    perm (s.replace w) k = if k = v.key then some w.writable else perm s k := by
  rw [perm, find_replace hs hv hk]
  split_ifs <;> rfl

theorem perm_replace_of_eq (hs : Table.Keyed VpageInfo.key s.map) (hv : v ∈ s.map) (hk : w.key = v.key)
    (hw : w.writable = v.writable) : perm (s.replace w) k = perm s k := by
  rw [perm_replace hs hv hk]
  split_ifs with h
  · rw [h, perm_of_find (hs.find_mem hv), hw]
  · rfl

theorem perm_got (h : Table.Keyed VpageInfo.key s.map) (hgot : Got s f s₁) : perm s₁ k = perm s k := by
  cases hgot with
  | take => exact perm_congr rfl
  | @evict v i n hv hb => exact perm_replace_of_eq (w := v.withBackend (.swapped ⟨n⟩)) h hv rfl rfl

theorem perm_entered (h : Table.Keyed VpageInfo.key s.map) (hv : v ∈ s.map)
    (hin : Entered self env s v f s') : perm s' k = perm s k := by
  cases hin with
  | @mapped d => exact perm_replace_of_eq (w := v.withBackend (.inmem ⟨f, d, env.now⟩)) h hv rfl rfl
  | @unmapped d => exact perm_replace_of_eq (w := v.withBackend (.inmem ⟨f, d, env.now⟩)) h hv rfl rfl

theorem perm_pagedIn (h : Owned s) (hin : PagedIn self env s u s') : perm s' k = perm s k := by
  cases hin with
  | @lazy v i f s₁ _ hv hb hgot hin =>
    have hmem := got_mem_map hgot h.keyed (Table.mem_of_find hv) (by simp [hb])
    rw [← perm_got h.keyed hgot]
    exact perm_entered (s := fillFrame s₁ f (readPage s₁ i (s₁.mem f))) (owned_got h hgot).keyed hmem hin
  | @swapped v i f s₁ _ hv hb hgot hin =>
    have hmem := got_mem_map hgot h.keyed (Table.mem_of_find hv) (by simp [hb])
    rw [← perm_got h.keyed hgot]
    exact perm_entered (s := fillFrame (setSlot s₁ i.swapIndex false) f (slotPage s₁.swapBlock i.swapIndex))
      (owned_got h hgot).keyed hmem hin

theorem perm_addVpage : perm (addVpage s v) k = if v.key = k then some v.writable else perm s k := by
  rw [perm, find_addVpage]
  split_ifs <;> rfl

theorem perm_placed {wr : Bool} (h : Owned s) (hpl : Placed self env s u pid wr f s') :
    perm s' k = if k = ⟨pid, u⟩ then some wr else perm s k := by
  have hadd : ∀ s₁ b, Got s f s₁ → perm (addVpage s₁ ⟨u, wr, pid, b⟩) k =
      if k = ⟨pid, u⟩ then some wr else perm s k := by
    intro s₁ b hgot
    rw [perm_addVpage, perm_got h.keyed hgot]
    exact if_congr eq_comm rfl rfl
  cases hpl with
  | mapped hgot => exact hadd _ _ hgot
  | unmapped hgot => exact hadd _ _ hgot

theorem find_releaseVpage (h : Table.Keyed VpageInfo.key s.map) :
    (releaseVpage s v).find k = if k = v.key then none else s.find k := by
  rw [VM.find, map_releaseVpage]
  exact find_erase h v.key k

theorem perm_releaseVpage (h : Table.Keyed VpageInfo.key s.map) :
    perm (releaseVpage s v) k = if k = v.key then none else perm s k := by
  rw [perm, find_releaseVpage h]
  split_ifs <;> rfl

/-! ### Which pages were not touched -/

theorem lazyAt_congr (h : s'.find k = s.find k) : LazyAt s' k ↔ LazyAt s k := by rw [LazyAt, LazyAt, h]

/-- A page that moves to memory or to swap was touched. -/
theorem lazyAt_replace (hs : Table.Keyed VpageInfo.key s.map) (hv : v ∈ s.map) (hk : w.key = v.key)
    (hw : ∀ i, w.backend ≠ .lazy i) : LazyAt (s.replace w) k ↔ LazyAt s k ∧ k ≠ v.key := by
  rw [LazyAt, find_replace hs hv hk]
  split_ifs with h
  · constructor
    · rintro ⟨x, i, hx, hi⟩
      rw [← Option.some.inj hx] at hi
      exact absurd hi (hw i)
    · exact fun hl => absurd h hl.2
  · exact ⟨fun hl => ⟨hl, h⟩, And.left⟩

theorem lazyAt_got (h : Table.Keyed VpageInfo.key s.map) (hgot : Got s f s₁) :
    LazyAt s₁ k ↔ LazyAt s k := by
  cases hgot with
  | take => exact lazyAt_congr rfl
  | @evict v i n hv hb =>
    refine (lazyAt_replace (w := v.withBackend (.swapped ⟨n⟩)) h hv rfl (by simp)).trans ?_
    refine and_iff_left_of_imp ?_
    rintro ⟨w, j, hw, hj⟩ rfl
    obtain rfl : v = w := Option.some.inj ((h.find_mem hv).symm.trans hw)
    rw [hb] at hj
    cases hj

theorem lazyAt_entered (h : Table.Keyed VpageInfo.key s.map) (hv : v ∈ s.map)
    (hin : Entered self env s v f s') : LazyAt s' k ↔ LazyAt s k ∧ k ≠ v.key := by
  cases hin with
  | @mapped d => exact lazyAt_replace (w := v.withBackend (.inmem ⟨f, d, env.now⟩)) h hv rfl (by simp)
  | @unmapped d => exact lazyAt_replace (w := v.withBackend (.inmem ⟨f, d, env.now⟩)) h hv rfl (by simp)

theorem lazyAt_pagedIn (h : Owned s) (hin : PagedIn self env s u s') :
    LazyAt s' k ↔ LazyAt s k ∧ k ≠ ⟨self, u⟩ := by
  cases hin with
  | @lazy v i f s₁ _ hv hb hgot hin =>
    have hmem := got_mem_map hgot h.keyed (Table.mem_of_find hv) (by simp [hb])
    rw [← lazyAt_got h.keyed hgot, ← Table.key_of_find hv]
    exact lazyAt_entered (s := fillFrame s₁ f (readPage s₁ i (s₁.mem f))) (owned_got h hgot).keyed hmem hin
  | @swapped v i f s₁ _ hv hb hgot hin =>
    have hmem := got_mem_map hgot h.keyed (Table.mem_of_find hv) (by simp [hb])
    rw [← lazyAt_got h.keyed hgot, ← Table.key_of_find hv]
    exact lazyAt_entered (s := fillFrame (setSlot s₁ i.swapIndex false) f (slotPage s₁.swapBlock i.swapIndex))
      (owned_got h hgot).keyed hmem hin

/-! ### Only pages below `PHYS_BASE` come into memory -/

/-- A vpage that moves below `PHYS_BASE`, or stays lazy. -/
theorem inUserSpace_replace (hu : InUserSpace s) (hw : (∀ i, w.backend ≠ .lazy i) → w.uaddr < physBase) :
    InUserSpace (s.replace w) := by
  intro x hx hb
  rcases Table.mem_replace.mp hx with ⟨rfl, -⟩ | ⟨hx, -⟩
  · exact hw hb
  · exact hu x hx hb

theorem inUserSpace_got (hu : InUserSpace s) (hgot : Got s f s₁) : InUserSpace s₁ := by
  cases hgot with
  | take => exact hu
  | @evict v i n hv hb =>
    exact inUserSpace_replace (w := v.withBackend (.swapped ⟨n⟩)) hu fun _ => hu v hv (by simp [hb])

theorem inUserSpace_entered (hu : InUserSpace s) (hv : v.uaddr < physBase)
    (hin : Entered self env s v f s') : InUserSpace s' := by
  cases hin with
  | @mapped d => exact inUserSpace_replace (w := v.withBackend (.inmem ⟨f, d, env.now⟩)) hu fun _ => hv
  | @unmapped d => exact inUserSpace_replace (w := v.withBackend (.inmem ⟨f, d, env.now⟩)) hu fun _ => hv

theorem inUserSpace_pagedIn (hu : InUserSpace s) (hb : u < physBase) (hin : PagedIn self env s u s') :
    InUserSpace s' := by
  cases hin with
  | @lazy v i f s₁ _ hv hl hgot hin =>
    have hv : v.uaddr = u := congrArg Key.uaddr (Table.key_of_find hv)
    have hu1 : InUserSpace s₁ := inUserSpace_got hu hgot
    exact inUserSpace_entered (s := fillFrame s₁ f (readPage s₁ i (s₁.mem f))) hu1 (hv ▸ hb) hin
  | @swapped v i f s₁ _ hv hl hgot hin =>
    have hv : v.uaddr = u := congrArg Key.uaddr (Table.key_of_find hv)
    have hu1 : InUserSpace s₁ := inUserSpace_got hu hgot
    exact inUserSpace_entered
      (s := fillFrame (setSlot s₁ i.swapIndex false) f (slotPage s₁.swapBlock i.swapIndex)) hu1 (hv ▸ hb) hin

theorem inUserSpace_addVpage (hu : InUserSpace s) (hv : (∀ i, v.backend ≠ .lazy i) → v.uaddr < physBase) :
    InUserSpace (addVpage s v) := by
  intro x hx hb
  rcases List.mem_cons.mp hx with rfl | hx
  · exact hv hb
  · exact hu x hx hb

theorem inUserSpace_placed {wr : Bool} (hu : InUserSpace s) (hb : u < physBase)
    (hpl : Placed self env s u pid wr f s') : InUserSpace s' := by
  cases hpl with
  | @mapped s₁ d hgot =>
    have hadd : InUserSpace (addVpage s₁ ⟨u, wr, pid, .inmem ⟨f, d, env.now⟩⟩) :=
      inUserSpace_addVpage (inUserSpace_got hu hgot) fun _ => hb
    exact hadd
  | @unmapped s₁ d hgot => exact inUserSpace_addVpage (inUserSpace_got hu hgot) fun _ => hb

theorem inUserSpace_releaseVpage (hu : InUserSpace s) : InUserSpace (releaseVpage s v) := by
  intro x hx
  rw [map_releaseVpage] at hx
  exact hu x (Table.mem_erase.mp hx).1

/-! ### What is kept -/

/-- What holds of virtual memory between two steps. -/
structure Sound (s : VM) : Prop where
  owned : Owned s
  user : InUserSpace s

/-- **Nothing is lost**: the pages of `s₀` are there with their permissions, and no file became shorter. -/
structure Keeps (s₀ s : VM) : Prop where
  sound : Sound s
  perm : ∀ {k b}, perm s₀ k = some b → perm s k = some b
  grown : ∀ file, (s₀.files file).length ≤ (s.files file).length

theorem Keeps.refl (h : Sound s) : Keeps s s := ⟨h, id, fun _ => le_rfl⟩

theorem Keeps.trans (h : Keeps s₀ s) (h' : Keeps s s') : Keeps s₀ s' :=
  ⟨h'.sound, fun hk => h'.perm (h.perm hk), fun file => (h.grown file).trans (h'.grown file)⟩

/-- A page that is not there now was not there before. -/
theorem perm_eq_none_of_keeps (h : Keeps s₀ s) (hk : perm s k = none) : perm s₀ k = none := by
  cases hb : perm s₀ k with
  | none => rfl
  | some b =>
    rw [h.perm hb] at hk
    cases hk

theorem files_entered (hin : Entered self env s v f s') : s'.files = s.files := by
  cases hin <;> rfl

theorem files_pagedIn (hin : PagedIn self env s u s') : s'.files = s.files := by
  cases hin with
  | lazy hv hb hgot hin =>
    have h1 := got_files hgot
    exact (files_entered hin).trans h1
  | swapped hv hb hgot hin =>
    have h1 := got_files hgot
    exact (files_entered hin).trans h1

theorem keeps_pagedIn (h : Sound s) (hb : u < physBase) (hin : PagedIn self env s u s') : Keeps s s' where
  sound := ⟨owned_pagedIn h.owned hin, inUserSpace_pagedIn h.user hb hin⟩
  perm hk := (perm_pagedIn h.owned hin).trans hk
  grown file := by rw [files_pagedIn hin]

/-- **A page fault** brings a page in, or changes nothing. -/
theorem handleUserFault_keeps (h : Sound s) :
    Ensures (handleUserFault self env u) s fun r s' =>
      Keeps s s' ∧ (r = .kill ∧ s = s' ∨ r = .cont ∧ PagedIn self env s u s') := by
  intro r s' hr
  have hbelow := handleUserFault_below h.owned.keyed r s' hr
  rcases handleUserFault_ensures r s' hr with ⟨rfl, rfl⟩ | ⟨rfl, hin⟩
  · exact ⟨.refl h, .inl ⟨rfl, rfl⟩⟩
  · exact ⟨keeps_pagedIn h (hbelow rfl) hin, .inr ⟨rfl, hin⟩⟩

theorem keeps_addVpage (h : Sound s) (hnew : s.find v.key = none) (hl : ∃ i, v.backend = .lazy i) :
    Keeps s (addVpage s v) := by
  obtain ⟨i, hi⟩ := hl
  refine ⟨⟨?_, inUserSpace_addVpage h.user fun hb => absurd hi (hb i)⟩, fun hk => ?_, fun _ => le_rfl⟩
  · refine h.owned.add (Table.find_eq_none.mp hnew) ?_ ?_ ?_ <;> simp [VpageInfo.frames, VpageInfo.slots, hi]
  · rw [perm_addVpage, if_neg]
    · exact hk
    · rintro rfl
      rw [perm_eq_none.mpr hnew] at hk
      cases hk

theorem lazyAllocate_keeps {i : InfoLazy} {wr : Bool} (h : Sound s) :
    Ensures (lazyAllocate env u i pid wr) s fun r s' => Keeps s s' ∧
      (r = true → perm s ⟨pid, u⟩ = none ∧ perm s' ⟨pid, u⟩ = some wr) := by
  refine lazyAllocate_ensures ⟨.refl h, fun h => by cases h⟩ fun hnew => ?_
  refine ⟨keeps_addVpage h hnew ⟨i, rfl⟩, fun _ => ⟨perm_eq_none.mpr hnew, ?_⟩⟩
  exact perm_addVpage.trans (if_pos rfl)

/-- Releasing what was not there before loses nothing of before. -/
theorem keeps_releaseVpage (h : Keeps s₀ s) (hv : s.find k = some v) (hk : perm s₀ k = none) :
    Keeps s₀ (releaseVpage s v) where
  sound := ⟨owned_releaseVpage h.sound.owned (Table.mem_of_find hv), inUserSpace_releaseVpage h.sound.user⟩
  perm {k' b} hk' := by
    rw [perm_releaseVpage h.sound.owned.keyed, if_neg, h.perm hk']
    rintro rfl
    rw [Table.key_of_find hv, hk] at hk'
    cases hk'
  grown file := by
    refine (h.grown file).trans (le_of_eq ?_)
    unfold releaseVpage
    split <;> rfl

end Pintos.Vm.Permission
