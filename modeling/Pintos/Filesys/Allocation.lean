import Pintos.Filesys.FreeMap
import Pintos.Lib.Overlay

/-! # Taking sectors from the free map

What a stretch of the inode layer does to the device: it takes sectors that were free, writes to them, and
writes to a few sectors it is allowed to write to. The loops that fill index arrays are shared by the creators
and by growth. -/

namespace Pintos.Filesys.Allocation

open Pintos.Filesys.FreeMap Pintos.Filesys.Sector Pintos.Kernel.Bitmap
open Pintos.Lib.Overlay Pintos.Lib.Stopping
open Pintos.Filesys.Bcache (SectorData)

variable {s s' s'' : Fs} {xs ys : List ℕ} {W W' : Set ℕ} {x : ℕ} {a : SectorArray}

/-- From `s` to `s'`, exactly the sectors `xs` were taken, and no other was written except in `W`. -/
structure Took (s : Fs) (xs : List ℕ) (W : Set ℕ) (s' : Fs) : Prop where
  nodup : xs.Nodup
  free : ∀ x ∈ xs, s.freeMap[x]? = some false
  taken : ∀ x ∈ xs, s'.freeMap[x]? = some true
  rest : ∀ x, x ∉ xs → s'.freeMap[x]? = s.freeMap[x]?
  size : s'.freeMap.length = s.freeMap.length
  kept : ∀ x, x ∉ xs → x ∉ W → s'.blocks x = s.blocks x
  written : ∃ ws, s'.written = ws ++ s.written ∧ ∀ x ∈ ws, x ∈ xs ∨ x ∈ W
  junk : s'.junk = s.junk
  answers : s'.answers = s.answers
  refused : s.refused ≤ s'.refused

namespace Took

theorem of_quiet (h : Quiet s s') : Took s [] W s' where
  nodup := List.nodup_nil
  free := fun x hx => absurd hx List.not_mem_nil
  taken := fun x hx => absurd hx List.not_mem_nil
  rest := fun x _ => by rw [h.freeMap]
  size := by rw [h.freeMap]
  kept := fun x _ _ => by rw [h.blocks]
  written := ⟨[], h.written, fun x hx => absurd hx List.not_mem_nil⟩
  junk := h.junk
  answers := h.answers
  refused := h.refused

theorem refl (s : Fs) : Took s [] W s := of_quiet (Quiet.refl s)

theorem mono (h : Took s xs W s') (hW : W ⊆ W') : Took s xs W' s' :=
  { h with
    kept := fun x hx hn => h.kept x hx fun hm => hn (hW hm)
    written := by
      obtain ⟨ws, h1, h2⟩ := h.written
      exact ⟨ws, h1, fun x hx => (h2 x hx).imp id fun hm => hW hm⟩ }

theorem perm (h : Took s xs W s') (hp : xs.Perm ys) : Took s ys W s' where
  nodup := hp.nodup_iff.mp h.nodup
  free := fun x hx => h.free x (hp.mem_iff.mpr hx)
  taken := fun x hx => h.taken x (hp.mem_iff.mpr hx)
  rest := fun x hx => h.rest x fun hm => hx (hp.mem_iff.mp hm)
  size := h.size
  kept := fun x hx => h.kept x fun hm => hx (hp.mem_iff.mp hm)
  written := by
    obtain ⟨ws, h1, h2⟩ := h.written
    exact ⟨ws, h1, fun x hx => (h2 x hx).imp hp.mem_iff.mp id⟩
  junk := h.junk
  answers := h.answers
  refused := h.refused

/-- What is marked is not taken. -/
theorem notMem (h : Took s xs W s') (hx : s.freeMap[x]? = some true) : x ∉ xs := fun hm => by
  have := h.free x hm
  rw [hx] at this
  cases this

/-- What is marked stays marked. -/
theorem marked (h : Took s xs W s') (hx : s.freeMap[x]? = some true) : s'.freeMap[x]? = some true := by
  rw [h.rest x (h.notMem hx), hx]

/-- What is marked is only written to in `W`. -/
theorem blocks (h : Took s xs W s') (hx : s.freeMap[x]? = some true) (hW : x ∉ W) :
    s'.blocks x = s.blocks x := h.kept x (h.notMem hx) hW

theorem lt (h : Took s xs W s') (hx : x ∈ xs) : x < s.freeMap.length := by
  have := h.free x hx
  exact (List.getElem?_eq_some_iff.mp this).1

theorem trans (h : Took s xs W s') (h' : Took s' ys W s'') : Took s (xs ++ ys) W s'' where
  nodup := List.nodup_append.mpr ⟨h.nodup, h'.nodup, fun x hx y hy hxy =>
    h'.notMem (h.taken x hx) (hxy ▸ hy)⟩
  free := by
    intro x hx
    rcases List.mem_append.mp hx with hx | hx
    · exact h.free x hx
    · have hf := h'.free x hx
      by_cases hm : x ∈ xs
      · exact absurd hx (h'.notMem (h.taken x hm))
      · rw [← h.rest x hm, hf]
  taken := by
    intro x hx
    rcases List.mem_append.mp hx with hx | hx
    · exact h'.marked (h.taken x hx)
    · exact h'.taken x hx
  rest := by
    intro x hx
    rw [List.mem_append, not_or] at hx
    rw [h'.rest x hx.2, h.rest x hx.1]
  size := h'.size.trans h.size
  kept := by
    intro x hx hW
    rw [List.mem_append, not_or] at hx
    rw [h'.kept x hx.2 hW, h.kept x hx.1 hW]
  written := by
    obtain ⟨ws, h1, h2⟩ := h.written
    obtain ⟨ws', h1', h2'⟩ := h'.written
    refine ⟨ws' ++ ws, by rw [h1', h1, List.append_assoc], fun x hx => ?_⟩
    rcases List.mem_append.mp hx with hx | hx
    · exact (h2' x hx).imp (List.mem_append_right _) id
    · exact (h2 x hx).imp (List.mem_append_left _) id
  junk := h'.junk.trans h.junk
  answers := h'.answers.trans h.answers
  refused := h.refused.trans h'.refused

/-- Writes to what was taken, or may be written to anyway. -/
theorem absorb (h : Took s xs W s') (h' : Took s' [] W' s'') (hW : ∀ x ∈ W', x ∈ xs ∨ x ∈ W) :
    Took s xs W s'' where
  nodup := h.nodup
  free := h.free
  taken := fun x hx => h'.marked (h.taken x hx)
  rest := fun x hx => (h'.rest x List.not_mem_nil).trans (h.rest x hx)
  size := h'.size.trans h.size
  kept := fun x hx hn => by
    rw [h'.kept x List.not_mem_nil fun hm => (hW x hm).elim hx hn, h.kept x hx hn]
  written := by
    obtain ⟨ws, h1, h2⟩ := h.written
    obtain ⟨ws', h1', h2'⟩ := h'.written
    refine ⟨ws' ++ ws, by rw [h1', h1, List.append_assoc], fun x hx => ?_⟩
    rcases List.mem_append.mp hx with hx | hx
    · exact hW x ((h2' x hx).resolve_left List.not_mem_nil)
    · exact h2 x hx
  junk := h'.junk.trans h.junk
  answers := h'.answers.trans h.answers
  refused := h.refused.trans h'.refused

/-- A write to a sector that was taken, or that may be written to. -/
theorem put (h : Took s xs W s') (hx : x ∈ xs ∨ x ∈ W) (data : SectorData) :
    Took s xs W (s'.put x data) :=
  { h with
    kept := by
      intro y hy hW
      have hne : y ≠ x := by
        rintro rfl
        exact hx.elim hy hW
      show Function.update s'.blocks x data y = s.blocks y
      rw [Function.update_of_ne hne, h.kept y hy hW]
    written := by
      obtain ⟨ws, h1, h2⟩ := h.written
      refine ⟨x :: ws, congrArg _ h1, fun y hy => ?_⟩
      rcases List.mem_cons.mp hy with rfl | hy
      · exact hx
      · exact h2 y hy }

end Took

@[simp] theorem put_freeMap (s : Fs) (x : ℕ) (data : SectorData) :
    (s.put x data).freeMap = s.freeMap := rfl

theorem put_blocks_self (s : Fs) (x : ℕ) (data : SectorData) : (s.put x data).blocks x = data :=
  Function.update_self _ _ _

theorem put_blocks_of_ne {y : ℕ} (h : y ≠ x) (s : Fs) (data : SectorData) :
    (s.put x data).blocks y = s.blocks y := Function.update_of_ne h _ _

/-- **`free_map_allocate`.** -/
theorem ends_allocate {Q : Option ℕ → Fs → Prop} {E : Fs → Prop} {cnt : ℕ}
    (hok : ∀ s' sector, sector + cnt ≤ s.freeMap.length → Took s (List.range' sector cnt) W s' →
      s'.refused = s.refused → Q (some sector) s')
    (hno : ∀ s', Quiet s s' → s.refused < s'.refused → s.NoGroup cnt → Q none s') :
    Ends (freeMapAllocate cnt) s Q E := by
  refine ends_freeMapAllocate (fun s' sector hle hg hq hr => hok s' sector hle ?_ hr)
    hno
  have hbits : ∀ i, (setBits s.freeMap sector true cnt)[i]? =
      if sector ≤ i ∧ i < sector + cnt then some true else s.freeMap[i]? := getElem?_setBits hle
  have hmem : ∀ x, x ∈ List.range' sector cnt ↔ sector ≤ x ∧ x < sector + cnt :=
    fun x => List.mem_range'_1
  refine ⟨List.nodup_range', fun x hx => ?_, fun x hx => ?_, fun x hx => ?_, ?_, fun x _ _ => ?_,
    ⟨[], hq.written, fun x hx => absurd hx List.not_mem_nil⟩, hq.junk, hq.answers, hq.refused⟩
  · exact hg x ((hmem x).mp hx).1 ((hmem x).mp hx).2
  · rw [hq.freeMap]
    show (setBits s.freeMap sector true cnt)[x]? = _
    rw [hbits, if_pos ((hmem x).mp hx)]
  · rw [hq.freeMap]
    show (setBits s.freeMap sector true cnt)[x]? = _
    rw [hbits, if_neg fun h => hx ((hmem x).mpr h)]
  · rw [hq.freeMap]
    exact length_setBits
  · rw [hq.blocks]

/-- **A single sector.** -/
theorem ends_allocateOne {Q : Option ℕ → Fs → Prop} {E : Fs → Prop}
    (hok : ∀ s' x, Took s [x] W s' → s'.refused = s.refused → Q (some x) s')
    (hno : ∀ s', Quiet s s' → s.refused < s'.refused → s.NoGroup 1 → Q none s') :
    Ends (freeMapAllocate 1) s Q E := ends_allocate (fun s' x _ h hr => hok s' x h hr) hno

/-! ### Filling an array -/

/-- `for (; i < n; i++)`, with `n - i` rounds to go: a sector is allocated into `sector_array[i]` and filled
with zeros. -/
def appendSectors (a : SectorArray) (i : ℕ) : ℕ → FsCall (Option SectorArray)
  | 0 => return some a
  | k + 1 => do
    match ← freeMapAllocate 1 with
    | none => return none
    | some sector =>
      let a ← store a i sector
      bcacheWrite sector zeros
      appendSectors a (i + 1) k

/-- **The sectors appended to an array** are new and hold zeros. -/
theorem ends_appendSectors {Q : Option SectorArray → Fs → Prop} {E : Fs → Prop} : ∀ (k i : ℕ)
    (a : SectorArray) (s : Fs), i + k ≤ sectorsPerArray →
    (∀ s' a', Took s (slice a' i k) ∅ s' → (∀ x ∈ slice a' i k, s'.blocks x = zeros) →
      (∀ q, q < i ∨ i + k ≤ q → a' q = a q) → s'.refused = s.refused → Q (some a') s') →
    (∀ s' xs, Took s xs ∅ s' → s.refused < s'.refused → Q none s') →
    Ends (appendSectors a i k) s Q E
  | 0, i, a, s, _, hok, _ => by
    refine .pure (hok s a (Took.refl s) (fun x hx => absurd hx List.not_mem_nil) (fun _ _ => rfl) rfl)
  | k + 1, i, a, s, hi, hok, hno => by
    refine .bind (ends_allocateOne (W := ∅) (fun s₁ x h1 hr1 => ?_) fun s₁ h1 hr _ =>
      .pure (hno s₁ [] (Took.of_quiet h1) hr))
    have hlt : x < s₁.freeMap.length := h1.size ▸ h1.lt List.mem_cons_self
    have h2 := h1.put (.inl List.mem_cons_self) zeros
    refine .bind (ends_store (by omega) (.bind (ends_bcacheWrite hlt ?_)))
    refine ends_appendSectors k (i + 1) _ _ (by omega) (fun s' a' h3 hz ha hr3 => hok s' a' ?_ ?_ ?_ (hr3.trans hr1))
      fun s' xs h3 hr => hno s' _ (h2.trans h3) (h1.refused.trans_lt hr)
    all_goals have hx : a' i = x := by rw [ha i (by omega), Function.update_self]
    · rw [slice_succ, hx]
      exact h2.trans h3
    · rw [slice_succ, hx]
      refine List.forall_mem_cons.mpr ⟨?_, hz⟩
      rw [h3.blocks (h2.taken x List.mem_cons_self) (Set.notMem_empty x), put_blocks_self]
    · intro q hq
      rw [ha q (by omega), Function.update_of_ne (by omega)]

/-! ### Filling an array of arrays -/

/-- The end marker, behind the last sector number. -/
def mark (a : SectorArray) (i : ℕ) : SectorArray :=
  if i < sectorsPerArray then Function.update a i sectorInvalid else a

/-- `i == cnt_lv1-1 ? cnt_lv2 : SECTORS_PER_ARRAY` -/
def rowCount (cntLv1 cntLv2 i : ℕ) : ℕ := if i = cntLv1 - 1 then cntLv2 else sectorsPerArray

/-- `for (; i < cnt_lv1; i++)`, with `cnt_lv1 - i` rounds to go: an array is allocated into
`sector_array1[i]` and filled with new sectors. `init` is what `sector_array2` holds before that. -/
def appendArrays (init : ℕ → FsCall SectorArray) (cnt : ℕ → ℕ) (a : SectorArray) (i : ℕ) :
    ℕ → FsCall (Option SectorArray)
  | 0 => return some a
  | k + 1 => do
    match ← freeMapAllocate 1 with
    | none => return none
    | some sector =>
      let a ← store a i sector
      let row ← init sector
      match ← appendSectors row 0 (cnt i) with
      | none => return none
      | some row =>
        writeArray sector (mark row (cnt i))
        appendArrays init cnt a (i + 1) k

/-- The sector numbers in the rows of `a` from `i` on. -/
def rowsOf (blocks : ℕ → SectorData) (a : SectorArray) (cnt : ℕ → ℕ) (i k : ℕ) : List ℕ :=
  (List.range' i k).flatMap fun q => slice (wordAt (blocks (a q))) 0 (cnt q)

/-- From `s` to `s'`, the arrays `a` from `i` on were taken and filled with new sectors. -/
structure Filled (s : Fs) (a : SectorArray) (cnt : ℕ → ℕ) (i k : ℕ) (s' : Fs) : Prop where
  took : Took s (slice a i k ++ rowsOf s'.blocks a cnt i k) ∅ s'
  zero : ∀ x ∈ rowsOf s'.blocks a cnt i k, s'.blocks x = zeros
  marker : ∀ q, i ≤ q → q < i + k → cnt q < sectorsPerArray →
    wordAt (s'.blocks (a q)) (cnt q) = sectorInvalid

theorem mark_of_lt {i j : ℕ} (h : j < i) : mark a i j = a j := by
  unfold mark
  split_ifs
  · exact Function.update_of_ne (by omega) _ _
  · rfl

/-- The array is read back as it was written, its marker included. -/
theorem wordAt_mark {i j : ℕ} (hj : j ≤ i) (hlt : j < sectorsPerArray) (ha : j < i → a j < 2 ^ 32) :
    wordAt (ofWords (mark a i)) j = if j = i then sectorInvalid else a j := by
  rw [wordAt_ofWords hlt]
  by_cases h : j = i
  · subst h
    rw [if_pos rfl, mark, if_pos hlt, Function.update_self]
    rfl
  · rw [if_neg h, mark_of_lt (by omega), Nat.mod_eq_of_lt (ha (by omega))]

/-- One row, filled and written. -/
theorem Filled.cons {s₁ s₂ : Fs} {row : SectorArray} {cnt : ℕ → ℕ} {i k : ℕ} (h1 : Took s [x] ∅ s₁)
    (h2 : Took s₁ (slice row 0 (cnt i)) ∅ s₂) (hz : ∀ y ∈ slice row 0 (cnt i), s₂.blocks y = zeros)
    (hdev : s.freeMap.length ≤ 2 ^ 32) (hcnt : cnt i ≤ sectorsPerArray) (ha : a i = x)
    (h : Filled (s₂.put x (ofWords (mark row (cnt i)))) a cnt (i + 1) k s') :
    Filled s a cnt i (k + 1) s' := by
  have h3 : Took s (x :: slice row 0 (cnt i)) ∅ (s₂.put x (ofWords (mark row (cnt i)))) :=
    (h1.trans h2).put (.inl List.mem_cons_self) _
  have hx : s'.blocks x = ofWords (mark row (cnt i)) := by
    rw [h.took.blocks (h3.taken x List.mem_cons_self) (Set.notMem_empty x), put_blocks_self]
  have hrow : ∀ j < cnt i, row j < 2 ^ 32 := by
    intro j hj
    have hm : row j ∈ slice row 0 (cnt i) := mem_slice.mpr ⟨j, by omega, rfl⟩
    have := h2.lt hm
    rw [h1.size] at this
    omega
  have hwords : ∀ j < cnt i, wordAt (s'.blocks x) j = row j := by
    intro j hj
    rw [hx, wordAt_mark hj.le (by omega) fun _ => hrow j hj, if_neg (by omega)]
  have hslice : slice (wordAt (s'.blocks (a i))) 0 (cnt i) = slice row 0 (cnt i) := by
    rw [ha]
    exact slice_congr fun j _ hj => hwords j (by omega)
  have hrows : rowsOf s'.blocks a cnt i (k + 1) =
      slice row 0 (cnt i) ++ rowsOf s'.blocks a cnt (i + 1) k := by
    rw [rowsOf, List.range'_succ, List.flatMap_cons, hslice]
    rfl
  refine ⟨?_, ?_, ?_⟩
  · rw [hrows, slice_succ, ha]
    refine (h3.trans h.took).perm ?_
    rw [List.cons_append, List.cons_append]
    exact (List.perm_append_comm_assoc _ _ _).cons x
  · rw [hrows]
    intro y hy
    rcases List.mem_append.mp hy with hy | hy
    · have hne : y ≠ x := by
        rintro rfl
        exact (List.nodup_cons.mp h3.nodup).1 hy
      rw [h.took.blocks (h3.taken y (List.mem_cons_of_mem _ hy)) (Set.notMem_empty y),
        put_blocks_of_ne hne, hz y hy]
    · exact h.zero y hy
  · intro q h4 h5 hlt
    rcases Nat.eq_or_lt_of_le h4 with rfl | h6
    · rw [ha, hx, wordAt_mark le_rfl hlt fun hj => absurd hj (lt_irrefl _), if_pos rfl]
    · exact h.marker q h6 (by omega) hlt

/-- **The arrays appended to an array** are new, and so is all they hold. -/
theorem ends_appendArrays {Q : Option SectorArray → Fs → Prop} {E : Fs → Prop}
    {init : ℕ → FsCall SectorArray} {cnt : ℕ → ℕ} (hcnt : ∀ i, cnt i ≤ sectorsPerArray)
    (hinit : ∀ x (s : Fs) (R : SectorArray → Fs → Prop), x < s.freeMap.length →
      (∀ row, R row s) → Ends (init x) s R E) : ∀ (k i : ℕ) (a : SectorArray) (s : Fs),
    s.freeMap.length ≤ 2 ^ 32 → i + k ≤ sectorsPerArray →
    (∀ s' a', Filled s a' cnt i k s' → (∀ q, q < i ∨ i + k ≤ q → a' q = a q) →
      s'.refused = s.refused → Q (some a') s') →
    (∀ s' xs, Took s xs ∅ s' → s.refused < s'.refused → Q none s') →
    Ends (appendArrays init cnt a i k) s Q E
  | 0, i, a, s, _, _, hok, _ =>
    .pure (hok s a ⟨Took.refl s, fun x hx => absurd hx List.not_mem_nil, fun q h1 h2 => by omega⟩
      (fun _ _ => rfl) rfl)
  | k + 1, i, a, s, hdev, hi, hok, hno => by
    refine .bind (ends_allocateOne (W := ∅) (fun s₁ x h1 hr1 => ?_) fun s₁ h1 hr _ =>
      .pure (hno s₁ [] (Took.of_quiet h1) hr))
    have hlt : x < s₁.freeMap.length := h1.size ▸ h1.lt List.mem_cons_self
    refine .bind (ends_store (by omega) (.bind (hinit x s₁ _ hlt fun row₀ => .bind ?_)))
    refine ends_appendSectors _ _ _ _ (by rw [Nat.zero_add]; exact hcnt i) (fun s₂ row h2 hz _ hr2 => ?_)
      fun s' xs h2 hr => .pure (hno s' _ (h1.trans h2) (h1.refused.trans_lt hr))
    refine .bind (ends_writeArray (h2.size ▸ hlt) ?_)
    have h3 := (h1.trans h2).put (.inl List.mem_cons_self) (ofWords (mark row (cnt i)))
    refine ends_appendArrays hcnt hinit k (i + 1) _ _ (by rw [h3.size]; exact hdev) (by omega)
      (fun s' a' h4 ha hr4 => hok s' a' ?_ (fun q hq => ?_) (hr4.trans (hr2.trans hr1)))
      fun s' xs h4 hr => hno s' _ (h3.trans h4) (h3.refused.trans_lt hr)
    · exact .cons h1 h2 hz hdev (hcnt i) (by rw [ha i (by omega), Function.update_self]) h4
    · rw [ha q (by omega), Function.update_of_ne (by omega)]

/-! ### What lasts -/

/-- What requests, allocations and writes do not undo. -/
def Lasting (P : Fs → Prop) : Prop := ∀ s xs W s', Took s xs W s' → P s → P s'

/-- More than `n` requests were refused. -/
def Refused (n : ℕ) (s : Fs) : Prop := n < s.refused

theorem lasting_refused (n : ℕ) : Lasting (Refused n) := fun _ _ _ _ h hs => lt_of_lt_of_le hs h.refused

/-- The sector is marked in the free map. -/
def Marked (x : ℕ) (s : Fs) : Prop := s.freeMap[x]? = some true

theorem lasting_marked (x : ℕ) : Lasting (Marked x) := fun _ _ _ _ h hs => h.marked hs

section lasting

variable {P : Fs → Prop} (hP : Lasting P)
include hP

theorem keeps_calloc : Keeps P calloc := fun s h =>
  ends_request (hP s [] ∅ _ (Took.of_quiet (quiet_requested s)) h)

theorem keeps_freeMapAllocate (cnt : ℕ) : Keeps P (freeMapAllocate cnt) := fun _ h =>
  ends_allocate (fun _ _ _ ht _ => hP _ _ ∅ _ ht h) fun _ hq _ _ => hP _ _ ∅ _ (Took.of_quiet hq) h

omit hP in
theorem keeps_bcacheRead (x : ℕ) : Keeps P (bcacheRead x) :=
  .get_bind fun _ _ => .ite (fun _ => .throw) fun _ => .pure

theorem keeps_bcacheWriteAt (x : ℕ) (bytes : List UInt8) (ofs : ℕ) :
    Keeps P (bcacheWriteAt x bytes ofs) :=
  .get_bind fun s h => .ite (fun _ => .throw) fun _ => .ite (fun _ => .throw) fun _ =>
    .set (hP s [] {x} _ ((Took.refl (W := {x}) s).put (.inr rfl) _) h)

theorem keeps_bcacheWrite (x : ℕ) (data : SectorData) : Keeps P (bcacheWrite x data) :=
  keeps_bcacheWriteAt hP _ _ _

omit hP in
theorem keeps_load (a : SectorArray) (i : ℕ) : Keeps P (load a i) :=
  .ite (fun _ => .pure) fun _ => .throw

omit hP in
theorem keeps_store (a : SectorArray) (i x : ℕ) : Keeps P (store a i x) :=
  .ite (fun _ => .pure) fun _ => .throw

omit hP in
theorem keeps_readArray (x : ℕ) : Keeps P (readArray x) :=
  .bind (keeps_bcacheRead x) fun _ => .pure

theorem keeps_appendSectors : ∀ (k i : ℕ) (a : SectorArray), Keeps P (appendSectors a i k)
  | 0, _, _ => .pure
  | k + 1, i, a => by
    refine .bind (keeps_freeMapAllocate hP 1) fun r => ?_
    cases r with
    | none => exact .pure
    | some x => exact .bind (keeps_store a i x) fun a' => .bind (keeps_bcacheWrite hP x _) fun _ =>
        keeps_appendSectors k (i + 1) a'

theorem keeps_appendArrays {init : ℕ → FsCall SectorArray} (hinit : ∀ x, Keeps P (init x))
    (cnt : ℕ → ℕ) : ∀ (k i : ℕ) (a : SectorArray), Keeps P (appendArrays init cnt a i k)
  | 0, _, _ => .pure
  | k + 1, i, a => by
    refine .bind (keeps_freeMapAllocate hP 1) fun r => ?_
    cases r with
    | none => exact .pure
    | some x =>
      refine .bind (keeps_store a i x) fun a' => .bind (hinit x) fun row => ?_
      refine .bind (keeps_appendSectors hP _ _ _) fun r => ?_
      cases r with
      | none => exact .pure
      | some row => exact .bind (keeps_bcacheWrite hP _ _) fun _ =>
          keeps_appendArrays hinit cnt k (i + 1) a'

end lasting

end Pintos.Filesys.Allocation
