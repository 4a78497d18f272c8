import Pintos.Vm.Content

/-! # When the functions of vpage.c return

A page comes in as long as there is a page to evict and a swap slot to put it in, and a vpage is always
released. Where a frame is needed this is more than a free frame: `palloc_get_page` may fail whatever the pool
holds. -/

namespace Pintos.Vm.Totality

open Pintos.Lib Pintos.Lib.Ops Pintos.Kernel.Bitmap Pintos.Vm.State Pintos.Vm.Swap Pintos.Vm.Vpage
open Pintos.Vm.Effect Pintos.Vm.Invariant Pintos.Vm.Preserve Pintos.Vm.Content Pintos.Vm.Run

/-- The operation returns. -/
def Returns {α : Type} (m : Op VM α) (s : VM) : Prop := Yields m s fun _ _ => True

/-- Only pages below `PHYS_BASE` came into memory. -/
def InUserSpace (s : VM) : Prop :=
  ∀ v ∈ s.map, (∀ i, v.backend ≠ .lazy i) → v.uaddr < physBase

/-- **Memory is left**: what is in memory is mapped, some page can be evicted, and swap takes it. -/
structure Room (s : VM) : Prop where
  mapped : Mapped s
  victim : ∃ v ∈ s.map, ∃ i, v.backend = .inmem i
  slot : ∃ n, n + pageSectors ≤ s.swapMap.length ∧ Group s.swapMap n pageSectors false

variable {s s₁ s' : VM} {v w : VpageInfo} {f : Frame} {d : PdId} {u : ℕ} {n : ℕ} {env : Env} {self pid : Pid}
  {k : Key} {p : Page}

/-! ### Swap -/

/-- A group counts. -/
theorem le_bitmapCount {b : Bits} {cnt : ℕ} (hlen : n + cnt ≤ b.length) (hg : Group b n cnt false) :
    ∃ free, bitmapCount b 0 b.length false = some free ∧ cnt ≤ free := by
  refine ⟨_, by rw [bitmapCount, if_pos (by omega)], ?_⟩
  have hsub : (List.range' n cnt).Sublist (List.range b.length) := by
    have hle : (List.range' 0 (n + cnt)).Sublist (List.range' 0 b.length) := List.range'_sublist_right.mpr hlen
    rw [List.range_eq_range']
    refine List.Sublist.trans ?_ hle
    rw [← List.range'_append_1, Nat.zero_add]
    exact List.sublist_append_right _ _
  have hall : (List.range' n cnt).countP (fun i => bitmapTest b (0 + i) = false) = cnt := by
    rw [List.countP_eq_length.mpr, List.length_range']
    intro i hi
    obtain ⟨h1, h2⟩ := List.mem_range'_1.mp hi
    rw [Nat.zero_add]
    exact decide_eq_true ((bitmapTest_eq (by omega)).mpr (hg i h1 h2))
  exact hall.symm.le.trans (hsub.countP_le)

theorem swapOut_returns (hlen : n + pageSectors ≤ s.swapMap.length)
    (hg : Group s.swapMap n pageSectors false) : Returns (swapOut f) s := by
  obtain ⟨free, hcount, hle⟩ := le_bitmapCount hlen hg
  have hscan : ∃ r, bitmapScanAndFlip s.swapMap 0 pageSectors false = some r := by
    cases hidx : bitmapScan s.swapMap 0 pageSectors false with
    | none => exact absurd hg (bitmapScan_eq_none hidx (Nat.zero_le n) hlen)
    | some idx =>
      have hin := (bitmapScan_eq_some hidx).2.1
      exact ⟨(idx, setBits s.swapMap idx true pageSectors), by
        simp [bitmapScanAndFlip, hidx, bitmapSetMultiple, hin]⟩
  obtain ⟨r, hr⟩ := hscan
  refine .bind (.get (.bind (.deref hcount (.bind (.assert (decide_eq_true hle) (.bind (.deref hr ?_)))))))
  exact .bind (.set (.pure trivial))

theorem bitmapSetMultiple_of_le {b : Bits} {cnt : ℕ} {value : Bool} (h : n + cnt ≤ b.length) :
    bitmapSetMultiple b n cnt value = some (setBits b n value cnt) := if_pos h

theorem swapIn_returns (h : n + pageSectors ≤ s.swapMap.length) : Returns (swapIn n f) s :=
  .bind (.get (.bind (.deref (bitmapSetMultiple_of_le h) (.set trivial))))

theorem swapFree_returns (h : n + pageSectors ≤ s.swapMap.length) : Returns (swapFree n) s :=
  .bind (.get (.bind (.deref (bitmapSetMultiple_of_le h) (.set trivial))))

/-! ### Page directories and frames -/

theorem pagedirClearPage_returns (hu : u < physBase) (hd : (s.pagedirs d).isSome) :
    Yields (pagedirClearPage d u) s fun _ s' => s' = unmapPage s d u := by
  obtain ⟨pd, hpd⟩ := Option.isSome_iff_exists.mp hd
  refine .bind (.assert (decide_eq_true hu) (.bind (.get (.bind (.deref hpd (.set ?_))))))
  rw [unmapPage, hpd, Option.map_some]

theorem pagedirSetPage_returns {wr table : Bool} (hu : u < physBase) (hd : (s.pagedirs d).isSome)
    (hnone : s.pte d u = none) : Returns (pagedirSetPage d u f wr table) s := by
  obtain ⟨pd, hpd⟩ := Option.isSome_iff_exists.mp hd
  have hget : (pd.get u).isNone = true := by
    rw [Option.isNone_iff_eq_none]
    simpa [VM.pte, hpd] using hnone
  refine .bind (.assert (decide_eq_true hu) (.bind (.get (.bind (.deref hpd ?_)))))
  split
  · exact .bind (.assert hget (.bind (.set (.pure trivial))))
  · exact .pure trivial

theorem pallocFreePage_returns (h : s.Allocated f) : Returns (pallocFreePage f) s := by
  have hlt : f < s.userPool.length := (List.getElem?_eq_some_iff.mp h).1
  have hall : bitmapAll s.userPool f 1 = some true := by
    have hno : bitmapContains s.userPool f 1 false = false := by
      refine bitmapContains_eq_false.mpr fun i hi => ?_
      obtain rfl : i = 0 := by omega
      exact bitmapTest_eq_true.mpr h
    rw [bitmapAll, if_pos (Nat.succ_le_of_lt hlt), hno]
    rfl
  exact .bind (.get (.bind (.deref hall (.bind (.assert rfl
    (.bind (.deref (bitmapSetMultiple_of_le (Nat.succ_le_of_lt hlt)) (.set trivial))))))))

theorem pallocGetPage_returns : Returns (pallocGetPage env) s := by
  refine .bind (.get ?_)
  split
  · exact .pure trivial
  · exact .bind (.set (.pure trivial))

/-! ### Eviction -/

theorem isSome_foldl_lruStep : ∀ (l : List VpageInfo) {lru : Option (VpageInfo × InfoInmem)},
    (lru.isSome ∨ ∃ v ∈ l, ∃ i, v.backend = .inmem i) → (l.foldl lruStep lru).isSome
  | [], lru, h => by
    rcases h with h | ⟨v, hv, -⟩
    · exact h
    · cases hv
  | x :: l, lru, h => by
    refine isSome_foldl_lruStep l ?_
    rcases h with h | ⟨v, hv, i, hi⟩
    · left
      unfold lruStep
      split
      · split
        · split_ifs <;> rfl
        · rfl
      · exact h
    · rcases List.mem_cons.mp hv with rfl | hv
      · left
        unfold lruStep
        rw [hi]
        dsimp only
        split
        · split_ifs <;> rfl
        · rfl
      · exact .inr ⟨v, hv, i, hi⟩

theorem evictPage_returns (h : Owned s) (hu : InUserSpace s) (hr : Room s) : Returns evictPage s := by
  obtain ⟨⟨v, i⟩, hlru⟩ := Option.isSome_iff_exists.mp (isSome_foldl_lruStep s.map (.inr hr.victim))
  obtain ⟨hv, hb⟩ : v ∈ s.map ∧ v.backend = .inmem i := by
    simpa using lruStep_foldl s.map none hlru
  obtain ⟨n, hlen, hg⟩ := hr.slot
  have hlive : (s.pagedirs i.pagedir).isSome := h.pdLive _ _ (h.ownPd v hv i hb)
  have hclear := pagedirClearPage_returns (hu v hv (by simp [hb])) hlive
  refine .bind (.get (.bind (.deref hlru (.bind (.bind (hclear.mono fun _ s₁ hs₁ => ?_))))))
  subst hs₁
  have hout : Returns (swapOut i.paddr) (unmapPage s i.pagedir v.uaddr) := swapOut_returns hlen hg
  exact .bind (hout.mono fun _ _ _ => .modify (.pure trivial))

theorem getFrame_yields (h : Owned s) (hu : InUserSpace s) (hr : Room s) :
    Yields (getFrame env) s (Got s) := by
  have hret : Returns (getFrame env) s := by
    have hget : Ensures (pallocGetPage env) s fun r s' => r = none → s' = s :=
      pallocGetPage_ensures (fun _ => rfl) fun _ _ h => by cases h
    refine .bind ((pallocGetPage_returns.and_ensures hget).mono fun r s' hs' => ?_)
    cases r with
    | some f => exact .pure trivial
    | none =>
      obtain rfl := hs'.2 rfl
      exact evictPage_returns h hu hr
  exact (hret.and_ensures getFrame_ensures).mono fun _ _ h => h.2

/-! ### A swapped page comes in -/

/-- A page that is not in memory is not mapped. -/
theorem pte_eq_none_of_find (h : Owned s) (hd : s.pagedir pid = some d) (hv : s.find ⟨pid, u⟩ = some v)
    (hb : ∀ i, v.backend ≠ .inmem i) : s.pte d u = none := by
  cases he : s.pte d u with
  | none => rfl
  | some e =>
    obtain ⟨w, i, hw, hi, -⟩ := find_of_pte h hd he
    obtain rfl : v = w := by simpa [hv] using hw
    exact absurd hi (hb i)

theorem handleUserFault_returns {i : InfoSwap} (h : Owned s) (hu : InUserSpace s) (hr : Room s)
    (hd : s.pagedir self = some d) (hv : s.find ⟨self, u⟩ = some v) (hb : v.backend = .swapped i) :
    Yields (handleUserFault self env u) s fun r _ => r = .cont := by
  obtain ⟨hmem, hk⟩ := h.keyed.find_eq_some.mp hv
  obtain rfl : v.uaddr = u := congrArg Key.uaddr hk
  refine .bind (.get ?_)
  rw [hv]
  dsimp only
  rw [hb]
  refine .bind (.bind ((getFrame_yields h hu hr).mono fun f s₁ hgot => .bind ?_))
  have h1 : Owned s₁ := owned_got h hgot
  have hmem1 : v ∈ s₁.map := got_mem_map hgot h.keyed hmem (by simp [hb])
  have hlen := slot_lt h1 hmem1 hb
  have hin : Ensures (swapIn i.swapIndex f) s₁ fun _ s₂ =>
      s₂ = fillFrame (setSlot s₁ i.swapIndex false) f (slotPage s₁.swapBlock i.swapIndex) :=
    swapIn_ensures fun _ => rfl
  refine ((swapIn_returns hlen).and_ensures hin).mono fun _ s₂ hs₂ => ?_
  obtain rfl := hs₂.2
  have hd1 : s₁.pagedir self = some d := (got_pagedir hgot).symm ▸ hd
  have hfind1 : s₁.find ⟨self, v.uaddr⟩ = some v := h1.keyed.find_eq_some.mpr ⟨hmem1, hk⟩
  have hnone : s₁.pte d v.uaddr = none := pte_eq_none_of_find h1 hd1 hfind1 (by simp [hb])
  have hset : ∀ s₃ : VM, s₃.pagedirs = s₁.pagedirs →
      Returns (pagedirSetPage d v.uaddr f v.writable env.table) s₃ := by
    intro s₃ hpd
    refine pagedirSetPage_returns (hu v hmem (by simp [hb])) (hpd ▸ h1.pdLive _ _ hd1) ?_
    rw [VM.pte, hpd]
    exact hnone
  refine .bind (.get (.bind (.deref hd1 (.bind (.set (.bind ?_))))))
  refine (hset _ ?_).mono fun _ _ _ => .pure (.pure rfl)
  rfl

/-- **A page that comes in leaves room.** -/
theorem room_pagedIn {i : InfoSwap} (h : Owned s) (hr : Room s) (ht : env.table = true)
    (hv : s.find ⟨self, u⟩ = some v) (hb : v.backend = .swapped i) (hin : PagedIn self env s u s') :
    Room s' := by
  refine ⟨mapped_pagedIn h hr.mapped (fun d _ => .inl ht) hin, ?_, ?_⟩
  · cases hin with
    | lazy hv' hb' =>
      obtain rfl := Option.some.inj (hv.symm.trans hv')
      rw [hb] at hb'
      cases hb'
    | @swapped v' i' f s₁ _ hv' hb' hgot hin =>
      have hmem1 : v' ∈ s₁.map :=
        got_mem_map hgot h.keyed (h.keyed.find_eq_some.mp hv').1 (by simp [hb'])
      cases hin with
      | mapped => exact ⟨_, Table.mem_replace_self hmem1 rfl, _, rfl⟩
      | unmapped => exact ⟨_, Table.mem_replace_self hmem1 rfl, _, rfl⟩
  · cases hin with
    | lazy hv' hb' =>
      obtain rfl := Option.some.inj (hv.symm.trans hv')
      rw [hb] at hb'
      cases hb'
    | @swapped v' i' f s₁ _ hv' hb' hgot hin =>
      have h1 : Owned s₁ := owned_got h hgot
      have hmem1 : v' ∈ s₁.map :=
        got_mem_map hgot h.keyed (h.keyed.find_eq_some.mp hv').1 (by simp [hb'])
      have hlen := slot_lt h1 hmem1 hb'
      have hfree : Group (setBits s₁.swapMap i'.swapIndex false pageSectors) i'.swapIndex pageSectors false := by
        intro k h1 h2
        rw [getElem?_setBits hlen, if_pos ⟨h1, h2⟩]
      have hlen' : i'.swapIndex + pageSectors ≤
          (setBits s₁.swapMap i'.swapIndex false pageSectors).length := by
        rw [length_setBits]
        exact hlen
      cases hin with
      | mapped => exact ⟨_, hlen', hfree⟩
      | unmapped => exact ⟨_, hlen', hfree⟩

/-! ### Release -/

theorem releaseInner_returns (h : Owned s) (hu : InUserSpace s) (hv : v ∈ s.map) :
    Returns (releaseInner v) s := by
  unfold releaseInner
  cases hb : v.backend with
  | lazy i => exact .bind (.pure (.modify trivial))
  | inmem i =>
    have hlive : (s.pagedirs i.pagedir).isSome := h.pdLive _ _ (h.ownPd v hv i hb)
    have hused : s.Allocated i.paddr := h.frames.used v hv i.paddr (by simp [frames_inmem hb])
    refine .bind ((pagedirClearPage_returns (hu v hv (by simp [hb])) hlive).mono fun _ s₁ hs₁ => ?_)
    subst hs₁
    have hfree : Returns (pallocFreePage i.paddr) (unmapPage s i.pagedir v.uaddr) :=
      pallocFreePage_returns hused
    exact .bind (hfree.mono fun _ _ _ => .modify trivial)
  | swapped i =>
    exact .bind ((swapFree_returns (slot_lt h hv hb)).mono fun _ _ _ => .modify trivial)

theorem findAndRelease_returns (h : Owned s) (hu : InUserSpace s) : Returns (findAndRelease u pid) s := by
  refine .bind (.get ?_)
  cases hv : s.find ⟨pid, u⟩ with
  | none => exact .pure trivial
  | some v => exact releaseInner_returns h hu (Table.mem_of_find hv)

/-! ### Which pages come into memory -/

theorem setInmem_below : Ensures (setInmem self env v f) s fun _ _ => v.uaddr < physBase :=
  .bind (.get (.bind (.deref fun _ _ => .bind (.set (.bind
    (.bind (.assert fun hu _ _ _ => .pure (of_decide_eq_true hu))))))))

/-- Whatever came before, it ends with `setInmem`. -/
theorem bind_below {α β : Type} {m : Op VM α} {g : α → Op VM β} {Q : β → VM → Prop}
    (h : ∀ a s, Ensures (g a) s Q) : Ensures (m >>= g) s Q :=
  .bind fun a s' _ => h a s'

theorem handleUserFault_below (h : Table.Keyed VpageInfo.key s.map) :
    Ensures (handleUserFault self env u) s fun r _ => r = .cont → u < physBase := by
  refine .bind (.get ?_)
  split
  · exact .pure fun h => by cases h
  · rename_i v hv
    obtain ⟨-, hk⟩ := h.find_eq_some.mp hv
    obtain rfl : v.uaddr = u := congrArg Key.uaddr hk
    split
    · exact .pure fun h => by cases h
    · rename_i i hb
      refine .bind (bind_below fun f s₁ => ?_)
      have hset : ∀ s₂, Ensures (setInmem self env v f) s₂ fun _ s₃ =>
          Ensures (pure UserFaultType.cont) s₃ fun r _ => r = .cont → v.uaddr < physBase := fun s₂ =>
        setInmem_below.mono fun _ _ hu => .pure fun _ => hu
      split
      · exact bind_below fun _ _ => bind_below fun _ s₂ => hset s₂
      · exact bind_below fun _ s₂ => hset s₂
    · rename_i i hb
      exact .bind (bind_below fun f s₁ => bind_below fun _ s₂ => setInmem_below.mono fun _ _ hu =>
        .pure fun _ => hu)

theorem inmemAllocate_below {wr : Bool} :
    Ensures (inmemAllocate self env u pid wr) s fun r _ => r.isSome → u < physBase := by
  refine .ite (fun _ => bind_below fun f s₁ => .bind (.get (.bind (.deref fun _ _ => .bind (.assert fun _ =>
    .bind (.set (.bind ?_))))))) fun _ => .pure fun h => by cases h
  exact .bind (.assert fun hu _ _ _ => .pure fun _ => of_decide_eq_true hu)

end Pintos.Vm.Totality
