import Pintos.Lib.Runs
import Pintos.Vm.Totality

/-! # Swap slots

Runs of `swap_out`, `swap_in` and `swap_free`, where what is given back was handed out before. The slots that are
out tile the used part of the free map at multiples of eight sectors (`SlotsOk`), which is why eight free sectors
anywhere are eight free sectors in a row. -/

namespace Pintos.Vm.SwapSlots

open Pintos.Lib Pintos.Lib.Ops Pintos.Lib.Ownership Pintos.Lib.Runs Pintos.Kernel.Bitmap
open Pintos.Vm.State Pintos.Vm.Swap Pintos.Vm.Totality

/-! ### The system -/

structure Swaps where
  vm : VM
  /-- The slots that `swap_out` has returned and that were not given back, with the pages they took. -/
  slots : List (ℕ × Page)

inductive SwapAction
  | swapOut (paddr : Frame)
  | swapIn (swapIdx : ℕ) (paddr : Frame)
  | swapFree (swapIdx : ℕ)
  /-- A frame is written. -/
  | fill (paddr : Frame) (p : Page)

/-- The slot is out. -/
def Swaps.Out (s : Swaps) (swapIdx : ℕ) : Prop := ∃ p, (swapIdx, p) ∈ s.slots

def Swaps.drop (s : Swaps) (swapIdx : ℕ) : List (ℕ × Page) := Table.erase Prod.fst s.slots swapIdx

/-- A call that returns, on a slot that is out. -/
inductive SwapStep (s : Swaps) : SwapAction → Swaps → Prop
  | swapOut {f : Frame} {i : ℕ} {vm : VM} (h : swapOut f s.vm = some (i, vm)) :
      SwapStep s (.swapOut f) ⟨vm, (i, s.vm.mem f) :: s.slots⟩
  | swapIn {f : Frame} {i : ℕ} {vm : VM} (hi : s.Out i) (h : swapIn i f s.vm = some ((), vm)) :
      SwapStep s (.swapIn i f) ⟨vm, s.drop i⟩
  | swapFree {i : ℕ} {vm : VM} (hi : s.Out i) (h : swapFree i s.vm = some ((), vm)) :
      SwapStep s (.swapFree i) ⟨vm, s.drop i⟩
  | fill {f : Frame} {p : Page} :
      SwapStep s (.fill f p) ⟨{ s.vm with mem := Function.update s.vm.mem f p }, s.slots⟩

/-- After `swap_init`, for a device of any size. -/
def SwapInit (s : Swaps) : Prop :=
  s.vm.swapMap = List.replicate s.vm.swapMap.length false ∧ s.slots = []

/-! ### The invariant -/

/-- The sectors of a slot. -/
def sectors (x : ℕ × Page) : List ℕ := List.range' x.1 pageSectors

/-- **The slots that are out are what the free map marks**, each at a multiple of its size and with its page. -/
structure SlotsOk (s : Swaps) : Prop where
  exact : Exact sectors s.vm.Marked s.slots
  aligned : ∀ x ∈ s.slots, pageSectors ∣ x.1
  page : ∀ x ∈ s.slots, slotPage s.vm.swapBlock x.1 = x.2

variable {s s' : Swaps} {vm : VM} {i k : ℕ} {f : Frame} {p : Page} {x : ℕ × Page}

theorem mem_sectors : k ∈ sectors x ↔ x.1 ≤ k ∧ k < x.1 + pageSectors := List.mem_range'_1

theorem pageSectors_pos : 0 < pageSectors := by decide

/-- Aligned slots that share a sector with an aligned group are the group. -/
theorem eq_of_aligned {a b : ℕ} (ha : pageSectors ∣ a) (hb : pageSectors ∣ b) (h1 : a ≤ k)
    (h2 : k < a + pageSectors) (h3 : b ≤ k) (h4 : k < b + pageSectors) : a = b := by
  unfold pageSectors at *
  omega

theorem SlotsOk.inside (h : SlotsOk s) (hx : x ∈ s.slots) : x.1 + pageSectors ≤ s.vm.swapMap.length := by
  have hlast : x.1 + (pageSectors - 1) ∈ sectors x := mem_sectors.mpr (by unfold pageSectors; omega)
  have hm : s.vm.swapMap[x.1 + (pageSectors - 1)]? = some true := h.exact.exclusive.used x hx _ hlast
  have hlt := (List.getElem?_eq_some_iff.mp hm).1
  unfold pageSectors at *
  omega

/-- Where one sector of an aligned group is free, all of them are. -/
theorem SlotsOk.group (h : SlotsOk s) (hi : pageSectors ∣ i) (hlen : i + pageSectors ≤ s.vm.swapMap.length)
    (h1 : i ≤ k) (h2 : k < i + pageSectors) (hk : s.vm.swapMap[k]? = some false) :
    Group s.vm.swapMap i pageSectors false := by
  intro m hm1 hm2
  have hlt : m < s.vm.swapMap.length := by omega
  rcases hb : s.vm.swapMap[m] with _ | _
  · exact List.getElem?_eq_some_iff.mpr ⟨hlt, hb⟩
  -- an aligned slot that reaches into the group is the group, and then `k` is not free
  obtain ⟨x, hx, hxm⟩ := h.exact.owned m (List.getElem?_eq_some_iff.mpr ⟨hlt, hb⟩)
  obtain ⟨h3, h4⟩ := mem_sectors.mp hxm
  have he : x.1 = i := eq_of_aligned (h.aligned x hx) hi h3 h4 hm1 hm2
  have hused : s.vm.swapMap[k]? = some true :=
    h.exact.exclusive.used x hx k (mem_sectors.mpr ⟨by omega, by omega⟩)
  rw [hk] at hused
  cases hused

/-- **The first group is aligned.** -/
theorem SlotsOk.aligned_scan (h : SlotsOk s) (hi : bitmapScan s.vm.swapMap 0 pageSectors false = some i) :
    pageSectors ∣ i := by
  obtain ⟨-, hlen, hg⟩ := bitmapScan_eq_some hi
  by_contra hno
  have hlow : i / pageSectors * pageSectors ≤ i := Nat.div_mul_le_self i pageSectors
  have hlt : i / pageSectors * pageSectors < i :=
    lt_of_le_of_ne hlow fun he => hno (Dvd.intro_left _ he)
  have hnear : i < i / pageSectors * pageSectors + pageSectors := by
    unfold pageSectors
    omega
  refine bitmapScan_first hi (Nat.zero_le _) hlt ?_
  exact h.group (Dvd.intro_left _ rfl) (by omega) hlow hnear (hg i le_rfl (by unfold pageSectors; omega))

/-- **Eight free sectors anywhere are eight in a row**: behind the last aligned group there are fewer. -/
theorem SlotsOk.scan_isSome (h : SlotsOk s) {free : ℕ}
    (hc : bitmapCount s.vm.swapMap 0 s.vm.swapMap.length false = some free) (hfree : pageSectors ≤ free) :
    (bitmapScan s.vm.swapMap 0 pageSectors false).isSome := by
  rw [Option.isSome_iff_ne_none]
  intro hnone
  have hge : ∀ k < s.vm.swapMap.length, bitmapTest s.vm.swapMap (0 + k) = false →
      s.vm.swapMap.length / pageSectors * pageSectors ≤ k := by
    intro k hk ht
    rw [Nat.zero_add] at ht
    by_contra hlt
    have hlow : k / pageSectors * pageSectors ≤ k := Nat.div_mul_le_self k pageSectors
    have hnear : k < k / pageSectors * pageSectors + pageSectors := by
      unfold pageSectors
      omega
    have hin : k / pageSectors * pageSectors + pageSectors ≤ s.vm.swapMap.length := by
      unfold pageSectors at *
      omega
    refine bitmapScan_eq_none hnone (Nat.zero_le _) hin ?_
    exact h.group (Dvd.intro_left _ rfl) hin hlow hnear ((bitmapTest_eq hk).mp ht)
  rw [bitmapCount, if_pos (by omega)] at hc
  have hle : free ≤ (List.range s.vm.swapMap.length).countP fun k =>
      decide (s.vm.swapMap.length / pageSectors * pageSectors ≤ k) := by
    rw [← Option.some.inj hc]
    refine List.countP_mono_left fun k hk ht => ?_
    exact decide_eq_true (hge k (List.mem_range.mp hk) (of_decide_eq_true ht))
  have htail : ∀ n m : ℕ, (List.range n).countP (fun k => decide (m ≤ k)) = n - m := by
    intro n m
    induction n with
    | zero => simp
    | succ n ih =>
      rw [List.range_succ, List.countP_append, ih, List.countP_singleton]
      by_cases hm : m ≤ n
      · rw [decide_eq_true hm, if_pos rfl]
        omega
      · rw [decide_eq_false hm, if_neg (by decide)]
        omega
  rw [htail] at hle
  unfold pageSectors at *
  omega

/-! ### What the calls do -/

theorem SlotsOk.swapOut_returns (h : SlotsOk s) {free : ℕ}
    (hc : bitmapCount s.vm.swapMap 0 s.vm.swapMap.length false = some free) (hfree : pageSectors ≤ free) :
    Returns (swapOut f) s.vm := by
  obtain ⟨i, hi⟩ := Option.isSome_iff_exists.mp (h.scan_isSome hc hfree)
  obtain ⟨-, hlen, hg⟩ := bitmapScan_eq_some hi
  exact Totality.swapOut_returns hlen hg

/-- **What comes in is what went out.** -/
theorem SlotsOk.swapIn_yields (h : SlotsOk s) (hx : x ∈ s.slots) :
    Yields (swapIn x.1 f) s.vm fun _ vm => vm.mem = Function.update s.vm.mem f x.2 := by
  have hret : Returns (swapIn x.1 f) s.vm := Totality.swapIn_returns (h.inside hx)
  refine (hret.and_ensures (swapIn_ensures (Q := fun _ vm =>
    vm.mem = Function.update s.vm.mem f x.2) fun _ => ?_)).mono fun _ _ hq => hq.2
  rw [h.page x hx]

/-! ### Steps -/

/-- Slots that are out have different numbers. -/
theorem SlotsOk.keyed (h : SlotsOk s) : Table.Keyed Prod.fst s.slots := by
  have hd := (List.nodup_flatMap.mp h.exact.exclusive.nodup).2
  refine List.pairwise_map.mpr (hd.imp fun {x y} hxy he => ?_)
  have hx : x.1 ∈ sectors x := mem_sectors.mpr ⟨le_rfl, Nat.lt_add_of_pos_right pageSectors_pos⟩
  have hy : x.1 ∈ sectors y :=
    mem_sectors.mpr ⟨he.ge, he ▸ Nat.lt_add_of_pos_right pageSectors_pos⟩
  exact hxy hx hy

theorem slotsOk_init (h : SwapInit s) : SlotsOk s := by
  obtain ⟨hmap, hslots⟩ := h
  have hfree : ∀ k, ¬s.vm.Marked k := by
    intro k hk
    rw [VM.Marked, hmap] at hk
    have hm := List.eq_of_mem_replicate (List.mem_of_getElem? hk)
    cases hm
  have hno : ∀ x, x ∉ s.slots := fun x hx => List.not_mem_nil (hslots ▸ hx)
  refine ⟨⟨?_, fun k hk => absurd hk (hfree k)⟩, fun x hx => absurd hx (hno x), fun x hx => absurd hx (hno x)⟩
  rw [hslots]
  exact .nil

/-- What `swap_out` does when it returns. -/
theorem swapOut_scans (f : Frame) (vm : VM) : Ensures (swapOut f) vm fun i vm' =>
    bitmapScan vm.swapMap 0 pageSectors false = some i ∧
      vm' = { vm with swapMap := setBits vm.swapMap i true pageSectors
                      swapBlock := blockWrites vm.swapBlock i (vm.mem f) pageSectors } := by
  refine .bind (.get (.bind (.deref fun free _ => .bind (.assert fun _ => .bind (.deref ?_)))))
  rintro ⟨i, map⟩ hscan
  obtain ⟨-, hlen, hg, rfl⟩ := bitmapScanAndFlip_eq_some hscan
  refine .bind (.set (.pure ⟨?_, rfl⟩))
  rcases hi : bitmapScan vm.swapMap 0 pageSectors false with _ | j
  · simp [bitmapScanAndFlip, hi] at hscan
  · simp only [bitmapScanAndFlip, hi, Option.bind_eq_bind, Option.bind_some, Option.bind_eq_some_iff] at hscan
    obtain ⟨b, -, he⟩ := hscan
    rw [show j = i by simpa using congrArg (Option.map Prod.fst) he]

theorem swapIn_maps (i : ℕ) (f : Frame) (vm : VM) : Ensures (swapIn i f) vm fun _ vm' =>
    vm'.swapMap = setBits vm.swapMap i false pageSectors ∧ vm'.swapBlock = vm.swapBlock :=
  swapIn_ensures fun _ => ⟨rfl, rfl⟩

theorem swapFree_maps (i : ℕ) (vm : VM) : Ensures (swapFree i) vm fun _ vm' =>
    vm'.swapMap = setBits vm.swapMap i false pageSectors ∧ vm'.swapBlock = vm.swapBlock :=
  swapFree_ensures fun _ => ⟨rfl, rfl⟩

theorem slotsOk_out (h : SlotsOk s) (hlen : i + pageSectors ≤ s.vm.swapMap.length)
    (hscan : bitmapScan s.vm.swapMap 0 pageSectors false = some i) :
    SlotsOk ⟨{ s.vm with swapMap := setBits s.vm.swapMap i true pageSectors
                         swapBlock := blockWrites s.vm.swapBlock i (s.vm.mem f) pageSectors },
      (i, s.vm.mem f) :: s.slots⟩ := by
  have hg := (bitmapScan_eq_some hscan).2.2
  have hfree : ∀ k ∈ sectors (i, s.vm.mem f), ¬s.vm.Marked k := by
    intro k hk hm
    obtain ⟨h1, h2⟩ := mem_sectors.mp hk
    rw [VM.Marked, hg k h1 h2] at hm
    cases hm
  refine ⟨h.exact.cons List.nodup_range' hfree fun k => ?_, fun x hx => ?_, fun x hx => ?_⟩
  · show (setBits s.vm.swapMap i true pageSectors)[k]? = some true ↔ _
    rw [getElem?_setBits hlen, mem_sectors]
    split_ifs with hk
    · exact ⟨fun _ => .inr hk, fun _ => rfl⟩
    · exact ⟨.inl, fun hm => hm.resolve_right hk⟩
  · rcases List.mem_cons.mp hx with rfl | hx
    · exact h.aligned_scan hscan
    · exact h.aligned x hx
  · rcases List.mem_cons.mp hx with rfl | hx
    · exact slotPage_blockWrites
    · have hdis : ∀ m ∈ List.range' x.1 pageSectors, m ∉ List.range' i pageSectors := fun m hm hmi =>
        hfree m hmi (h.exact.exclusive.used x hx m hm)
      rw [← h.page x hx]
      exact slotPage_blockWrites_of_disjoint hdis

/-- A slot is given back. -/
theorem slotsOk_drop (h : SlotsOk s) (hi : s.Out i) (hmap : vm.swapMap = setBits s.vm.swapMap i false pageSectors)
    (hblock : vm.swapBlock = s.vm.swapBlock) : SlotsOk ⟨vm, s.drop i⟩ := by
  obtain ⟨p, hx⟩ := hi
  have hsub : ∀ y ∈ s.drop i, y ∈ s.slots := fun y hy => (Table.mem_erase.mp hy).1
  have hperm : s.slots.Perm ((i, p) :: s.drop i) := h.keyed.perm_cons_erase hx
  refine ⟨(h.exact.perm hperm).tail fun k => ?_, fun y hy => h.aligned y (hsub y hy), fun y hy => ?_⟩
  · show vm.swapMap[k]? = some true ↔ _
    rw [hmap, getElem?_setBits (h.inside hx), mem_sectors]
    split_ifs with hk
    · simp [hk]
    · exact ⟨fun hm => ⟨hm, hk⟩, fun hm => hm.1⟩
  · rw [hblock]
    exact h.page y (hsub y hy)

theorem slotsOk_step {a : SwapAction} (h : SlotsOk s) (hstep : SwapStep s a s') : SlotsOk s' := by
  cases hstep with
  | swapOut hout =>
    obtain ⟨hscan, rfl⟩ := swapOut_scans _ _ _ _ hout
    exact slotsOk_out h (bitmapScan_eq_some hscan).2.1 hscan
  | swapIn hi hin =>
    obtain ⟨hmap, hblock⟩ := swapIn_maps _ _ _ _ _ hin
    exact slotsOk_drop h hi hmap hblock
  | swapFree hi hfree =>
    obtain ⟨hmap, hblock⟩ := swapFree_maps _ _ _ _ hfree
    exact slotsOk_drop h hi hmap hblock
  | fill => exact ⟨h.exact, h.aligned, h.page⟩

theorem slotsOk_invariant : Invariant SwapInit SwapStep SlotsOk := ⟨slotsOk_init, slotsOk_step⟩

/-! ### The result -/

/-- **Swap slots**: in every state that is reached, the free map marks exactly the sectors of the slots that are
out, these are disjoint and start at multiples of eight, eight free sectors suffice for `swap_out`, and a slot
gives back the page that it took. -/
theorem swap_slots (h : Reachable SwapInit SwapStep s) :
    (∀ k, s.vm.Marked k ↔ ∃ x ∈ s.slots, k ∈ sectors x) ∧ (∀ x ∈ s.slots, pageSectors ∣ x.1) ∧
      s.slots.Pairwise (fun x y => List.Disjoint (sectors x) (sectors y)) ∧
      (∀ free f, bitmapCount s.vm.swapMap 0 s.vm.swapMap.length false = some free → pageSectors ≤ free →
        (bitmapScan s.vm.swapMap 0 pageSectors false).isSome ∧ Returns (swapOut f) s.vm) ∧
      ∀ x ∈ s.slots, Returns (swapFree x.1) s.vm ∧
        ∀ f, Yields (swapIn x.1 f) s.vm fun _ vm => vm.mem = Function.update s.vm.mem f x.2 := by
  have hs : SlotsOk s := h.of_invariant slotsOk_invariant
  refine ⟨fun k => hs.exact.used_iff, hs.aligned, (List.nodup_flatMap.mp hs.exact.exclusive.nodup).2,
    fun free f hc hfree => ⟨hs.scan_isSome hc hfree, hs.swapOut_returns hc hfree⟩, fun x hx => ⟨?_, fun f => ?_⟩⟩
  · exact swapFree_returns (hs.inside hx)
  · exact hs.swapIn_yields hx

/-- A device of 20 sectors. -/
def smallSwaps : Swaps where
  vm := ⟨[], fun _ => none, fun _ => none, [], fun f _ => UInt8.ofNat f, List.replicate 20 false, fun _ _ => 0,
    fun _ => ⟨0, fun _ => 0⟩⟩
  slots := []

/-- Frame 3 goes out, and stays out while frame 4 goes out and comes back. -/
theorem swap_slots_twoPages : ∃ s : Swaps, Reachable SwapInit SwapStep s ∧
    s.slots = [(0, smallSwaps.vm.mem 3)] ∧
    Yields (swapIn 0 7) s.vm fun _ vm => vm.mem 7 = smallSwaps.vm.mem 3 := by
  have h0 : Reachable SwapInit SwapStep smallSwaps := .start ⟨by simp [smallSwaps], rfl⟩
  have h1 := h0.step (.swapOut (f := 3) (i := 0) rfl)
  have h2 := h1.step (.swapOut (f := 4) (i := 8) rfl)
  have h3 := h2.step (.swapIn (f := 5) (i := 8) ⟨_, List.mem_cons_self⟩ rfl)
  refine ⟨_, h3, rfl, ((swap_slots h3).2.2.2.2 (0, smallSwaps.vm.mem 3) ?_).2 7 |>.mono fun _ vm h => ?_⟩
  · exact List.mem_cons_self
  · rw [h, Function.update_self]

end Pintos.Vm.SwapSlots
