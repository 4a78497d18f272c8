import Pintos.Kernel.Bitmap

/-! # Groups of bits that are handed out

An allocator that keeps its resources in a bitmap hands out groups of bits: it scans for a group of clear
bits and sets them, and it clears a group that comes back. `Tracks b l` says that the groups of `l`, each given
by its first bit and its length, are the ones handed out. -/

namespace Pintos.Kernel.Bitmap

/-- Two groups have no bit in common. -/
def Apart (g h : ℕ × ℕ) : Prop := g.1 + g.2 ≤ h.1 ∨ h.1 + h.2 ≤ g.1

/-- **The groups of `l` are handed out**: they are apart, and the bits that are set are theirs. -/
structure Tracks (b : Bits) (l : List (ℕ × ℕ)) : Prop where
  inside : ∀ g ∈ l, 0 < g.2 ∧ g.1 + g.2 ≤ b.length
  marked : ∀ i < b.length, b[i]? = some true ↔ ∃ g ∈ l, g.1 ≤ i ∧ i < g.1 + g.2
  apart : l.Pairwise Apart

variable {b b' : Bits} {l l' : List (ℕ × ℕ)} {g : ℕ × ℕ} {idx cnt k : ℕ}

theorem Apart.symm {g h : ℕ × ℕ} (hgh : Apart g h) : Apart h g := Or.symm hgh

theorem tracks_replicate (n : ℕ) : Tracks (List.replicate n false) [] where
  inside := nofun
  marked i hi := by
    rw [List.length_replicate] at hi
    simp [hi]
  apart := .nil

namespace Tracks

theorem perm (h : Tracks b l) (hp : l.Perm l') : Tracks b l' where
  inside g hg := h.inside g (hp.mem_iff.mpr hg)
  marked i hi := by
    rw [h.marked i hi]
    exact exists_congr fun g => and_congr_left' hp.mem_iff
  apart := h.apart.perm hp Apart.symm

/-- The bits of a group are set. -/
theorem group (h : Tracks b l) (hg : g ∈ l) : Group b g.1 g.2 true := by
  intro i h1 h2
  have hle := (h.inside g hg).2
  exact (h.marked i (by omega)).mpr ⟨g, hg, h1, h2⟩

/-- Clear bits are in no group. -/
theorem apart_of_clear (h : Tracks b l) (hcnt : 0 < cnt) (hclear : Group b k cnt false) (hg : g ∈ l) :
    Apart (k, cnt) g := by
  obtain ⟨hpos, hle⟩ := h.inside g hg
  by_contra hmeet
  have hmeet' : ¬(k + cnt ≤ g.1 ∨ g.1 + g.2 ≤ k) := hmeet
  have hset := h.group hg (max k g.1) (by omega) (by omega)
  have hunset := hclear (max k g.1) (by omega) (by omega)
  rw [hset] at hunset
  simp at hunset

/-- **A group is handed out.** -/
theorem take (h : Tracks b l) (hcnt : 0 < cnt) (hs : bitmapScanAndFlip b 0 cnt false = some (idx, b')) :
    Tracks b' ((idx, cnt) :: l) ∧ b'.length = b.length := by
  obtain ⟨-, hle, hgroup, rfl⟩ := bitmapScanAndFlip_eq_some hs
  refine ⟨⟨fun g hg => ?_, fun i hi => ?_, ?_⟩, length_setBits⟩
  · rw [length_setBits]
    rcases List.mem_cons.mp hg with rfl | hg
    · exact ⟨hcnt, hle⟩
    · exact h.inside g hg
  · rw [length_setBits] at hi
    rw [getElem?_setBits hle, List.exists_mem_cons_iff]
    split_ifs with hin
    · exact iff_of_true rfl (.inl hin)
    · rw [h.marked i hi]
      exact (or_iff_right hin).symm
  · exact List.pairwise_cons.mpr ⟨fun g hg => h.apart_of_clear hcnt hgroup hg, h.apart⟩

/-- **A group comes back**: all its bits are set, and the others stay handed out. -/
theorem release (h : Tracks b (g :: l)) : bitmapAll b g.1 g.2 = some true ∧
    ∃ b', bitmapSetMultiple b g.1 g.2 false = some b' ∧ Tracks b' l ∧ b'.length = b.length := by
  have hmem : g ∈ g :: l := List.mem_cons_self
  have hle := (h.inside g hmem).2
  have hset := h.group hmem
  obtain ⟨happart, hrest⟩ := List.pairwise_cons.mp h.apart
  have hcontains : bitmapContains b g.1 g.2 false = false :=
    bitmapContains_eq_false.mpr fun i hi => bitmapTest_eq_true.mpr (hset _ (by omega) (by omega))
  refine ⟨by rw [bitmapAll, if_pos hle, hcontains]; rfl, _, if_pos hle,
    ⟨fun k hk => ?_, fun i hi => ?_, hrest⟩, length_setBits⟩
  · rw [length_setBits]
    exact h.inside k (List.mem_cons_of_mem g hk)
  · rw [length_setBits] at hi
    rw [getElem?_setBits hle]
    split_ifs with hin
    · refine iff_of_false (by simp) ?_
      rintro ⟨k, hk, hk1, hk2⟩
      rcases happart k hk with hgk | hgk <;> omega
    · rw [h.marked i hi, List.exists_mem_cons_iff]
      exact or_iff_right hin

/-- **Nothing is found only where there is no group** of clear bits. -/
theorem meets_of_none (h : Tracks b l) (hs : bitmapScanAndFlip b 0 cnt false = none) (hk : k + cnt ≤ b.length) :
    ∃ i, k ≤ i ∧ i < k + cnt ∧ ∃ g ∈ l, g.1 ≤ i ∧ i < g.1 + g.2 := by
  by_contra hno
  refine bitmapScan_eq_none (bitmapScan_of_flip hs) (Nat.zero_le k) hk fun i h1 h2 => ?_
  have hunset : b[i]? ≠ some true := fun hset => hno ⟨i, h1, h2, (h.marked i (by omega)).mp hset⟩
  rw [List.getElem?_eq_getElem (by omega : i < b.length)] at hunset ⊢
  simpa using hunset

end Tracks

end Pintos.Kernel.Bitmap
