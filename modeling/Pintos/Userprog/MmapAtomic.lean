import Pintos.Userprog.Mmap
import Pintos.Vm.Effect

/-! # mmap is all or nothing

The pages of a mapping are registered one by one, and given up again if one of them is not to be had. -/

namespace Pintos.Userprog.MmapAtomic

open Pintos.Lib Pintos.Lib.Ops Pintos.Vm.State Pintos.Vm.Vpage Pintos.Vm.Effect Pintos.Userprog.Mmap

/-! ### The pages of a mapping -/

/-- The vpage of the page `i` of a mapping of `length` bytes. -/
def mappedPage (p : Pid) (file : FileId) (upage : Upage) (length i : ℕ) : VpageInfo :=
  ⟨pageAt upage i, false, p,
    .lazy ⟨some file, i * pgSize, ⟨min (length - i * pgSize) pgSize, by omega⟩⟩⟩

/-- The pages from `j` on, `n` of them, the last one in front. -/
def mappedPages (p : Pid) (file : FileId) (upage : Upage) (length j n : ℕ) : List VpageInfo :=
  (List.range' j n).reverse.map (mappedPage p file upage length)

/-- The first `n` pages were registered. -/
def withPages (vm : VM) (p : Pid) (file : FileId) (upage : Upage) (length n : ℕ) : VM :=
  { vm with map := mappedPages p file upage length 0 n ++ vm.map }

/-- The first `n` pages of the range are free, and no two are the same. -/
structure FreeRange (vm : VM) (p : Pid) (upage : Upage) (n : ℕ) : Prop where
  absent : ∀ i < n, vm.find ⟨p, pageAt upage i⟩ = none
  apart : ∀ i < n, ∀ j < i, pageAt upage j ≠ pageAt upage i

variable {vm : VM} {p : Pid} {file : FileId} {upage : Upage} {length n i j : ℕ} {k : Key}

theorem mem_mappedPages {v : VpageInfo} : v ∈ mappedPages p file upage length j n ↔
    ∃ i, j ≤ i ∧ i < j + n ∧ v = mappedPage p file upage length i := by
  simp only [mappedPages, List.mem_map, List.mem_reverse, List.mem_range'_1]
  constructor
  · rintro ⟨i, ⟨h1, h2⟩, rfl⟩
    exact ⟨i, h1, h2, rfl⟩
  · rintro ⟨i, h1, h2, rfl⟩
    exact ⟨i, ⟨h1, h2⟩, rfl⟩

/-- One page more, at the end of the range. -/
theorem mappedPages_succ : mappedPages p file upage length 0 (n + 1) =
    mappedPage p file upage length n :: mappedPages p file upage length 0 n := by
  rw [mappedPages, List.range'_concat, List.reverse_append, List.map_append]
  simp [mappedPages]

/-- One page more, at the start. -/
theorem mappedPages_cons : mappedPages p file upage length j (n + 1) =
    mappedPages p file upage length (j + 1) n ++ [mappedPage p file upage length j] := by
  rw [mappedPages, List.range'_succ, List.reverse_cons, List.map_append]
  rfl

theorem find_eq_none_iff : vm.find k = none ↔ ∀ v ∈ vm.map, v.key ≠ k := Table.find_eq_none

/-- A range grows by a page that is not registered. -/
theorem FreeRange.succ (h : FreeRange vm p upage n)
    (hn : (withPages vm p file upage length n).find ⟨p, pageAt upage n⟩ = none) :
    FreeRange vm p upage (n + 1) := by
  have hno := find_eq_none_iff.mp hn
  refine ⟨fun i hi => ?_, fun i hi j hj => ?_⟩
  · rcases Nat.lt_succ_iff_lt_or_eq.mp hi with hi | rfl
    · exact h.absent i hi
    · exact find_eq_none_iff.mpr fun v hv => hno v (List.mem_append_right _ hv)
  · rcases Nat.lt_succ_iff_lt_or_eq.mp hi with hi | rfl
    · exact h.apart i hi j hj
    · have hmem : mappedPage p file upage length j ∈ mappedPages p file upage length 0 i :=
        mem_mappedPages.mpr ⟨j, Nat.zero_le j, by omega, rfl⟩
      intro he
      exact hno _ (List.mem_append_left _ hmem) (congrArg (Key.mk p) he)

/-! ### Giving pages up -/

/-- The pages from `j` on are registered. -/
def withPagesFrom (vm : VM) (p : Pid) (file : FileId) (upage : Upage) (length j n : ℕ) : VM :=
  { vm with map := mappedPages p file upage length j n ++ vm.map }

/-- **One page is given up**: the last one of the list. -/
theorem erase_withPagesFrom (h : FreeRange vm p upage (j + (n + 1))) :
    (withPagesFrom vm p file upage length j (n + 1)).erase ⟨p, pageAt upage j⟩ =
      withPagesFrom vm p file upage length (j + 1) n := by
  have hfront : ∀ v ∈ mappedPages p file upage length (j + 1) n, v.key ≠ ⟨p, pageAt upage j⟩ := by
    intro v hv
    obtain ⟨i, h1, h2, rfl⟩ := mem_mappedPages.mp hv
    intro he
    exact h.apart i (by omega) j (by omega) (congrArg Key.uaddr he).symm
  have hback : ∀ v ∈ vm.map, v.key ≠ ⟨p, pageAt upage j⟩ := find_eq_none_iff.mp (h.absent j (by omega))
  have hself : Table.erase VpageInfo.key [mappedPage p file upage length j] ⟨p, pageAt upage j⟩ = [] := by
    simp [Table.erase, mappedPage, VpageInfo.key]
  have hmap : Table.erase VpageInfo.key (mappedPages p file upage length j (n + 1) ++ vm.map)
      ⟨p, pageAt upage j⟩ = mappedPages p file upage length (j + 1) n ++ vm.map := by
    rw [mappedPages_cons, Table.erase, List.filter_append, List.filter_append]
    have h1 := Table.erase_of_forall hfront
    have h2 := Table.erase_of_forall hback
    unfold Table.erase at h1 h2 hself
    rw [h1, h2, hself, List.append_nil]
  unfold withPagesFrom VM.erase
  rw [hmap]

theorem find_withPagesFrom (h : FreeRange vm p upage (j + (n + 1))) :
    (withPagesFrom vm p file upage length j (n + 1)).find ⟨p, pageAt upage j⟩ =
      some (mappedPage p file upage length j) := by
  have hfront : (mappedPages p file upage length (j + 1) n).find? (fun v => v.key = ⟨p, pageAt upage j⟩) = none := by
    rw [List.find?_eq_none]
    intro v hv
    obtain ⟨i, h1, h2, rfl⟩ := mem_mappedPages.mp hv
    have hne := h.apart i (by omega) j (by omega)
    simp only [mappedPage, VpageInfo.key, Key.mk.injEq, decide_eq_true_eq]
    exact fun he => hne he.2.symm
  show ((mappedPages p file upage length j (n + 1) ++ vm.map).find? fun v => v.key = ⟨p, pageAt upage j⟩) = _
  rw [mappedPages_cons, List.append_assoc, List.find?_append, hfront]
  simp [mappedPage, VpageInfo.key]

/-- **The rollback** gives up what was registered, and nothing else. -/
theorem releasePages_yields (h : FreeRange vm p upage n) :
    Yields (releasePages p upage n) (withPages vm p file upage length n) fun _ vm' => vm' = vm := by
  have hloop : Yields (releasePages p upage n) (withPages vm p file upage length n)
      fun _ vm' => vm' = withPagesFrom vm p file upage length n (n - n) := by
    refine Yields.forM_range (I := fun j vm' => vm' = withPagesFrom vm p file upage length j (n - j)) rfl ?_
    rintro j hj _ rfl
    obtain ⟨m, rfl⟩ : ∃ m, n = j + (m + 1) := ⟨n - j - 1, by omega⟩
    rw [show j + (m + 1) - j = m + 1 by omega, show j + (m + 1) - (j + 1) = m by omega]
    refine .bind (.get ?_)
    rw [find_withPagesFrom h]
    refine .bind (.pure (.modify ?_))
    exact erase_withPagesFrom h
  refine hloop.mono fun _ vm' hvm => ?_
  rw [hvm, Nat.sub_self]
  rfl

/-! ### Registering pages -/

/-- **The loop of `mmap_entry_append`**: all the pages that are left, or none. -/
theorem mapPages_yields (file : FileId) (length : ℕ) (envs : ℕ → Env) : ∀ (left i : ℕ), FreeRange vm p upage i →
    Yields (mapPages p envs file upage left i (length - i * pgSize) (i * pgSize))
      (withPages vm p file upage length i) fun r vm' =>
        (r = true ∧ vm' = withPages vm p file upage length (i + left) ∧ FreeRange vm p upage (i + left)) ∨
          r = false ∧ vm' = vm
  | 0, i, h => .pure (.inl ⟨rfl, rfl, h⟩)
  | left + 1, i, h => by
    rw [mapPages]
    have halloc : Yields (lazyAllocate (envs i) (pageAt upage i)
        ⟨some file, i * pgSize, ⟨min (length - i * pgSize) pgSize, by omega⟩⟩ p false)
        (withPages vm p file upage length i) fun r vm' =>
          (r = true ∧ vm' = withPages vm p file upage length (i + 1) ∧ FreeRange vm p upage (i + 1)) ∨
            r = false ∧ vm' = withPages vm p file upage length i := by
      unfold lazyAllocate
      refine .bind (.get ?_)
      split_ifs with hc
      · have hnone : (withPages vm p file upage length i).find ⟨p, pageAt upage i⟩ = none := by
          simpa using (Bool.and_eq_true_iff.mp hc).2
        refine .bind (.set (.pure (.inl ⟨rfl, ?_, h.succ hnone⟩)))
        unfold withPages
        rw [mappedPages_succ]
        rfl
      · exact .pure (.inr ⟨rfl, rfl⟩)
    refine .bind (halloc.mono fun r vm' hr => ?_)
    rcases hr with ⟨rfl, rfl, h'⟩ | ⟨rfl, rfl⟩
    · have hrec := mapPages_yields file length envs left (i + 1) h'
      have hrem : length - i * pgSize - min (length - i * pgSize) pgSize = length - (i + 1) * pgSize := by
        unfold pgSize
        omega
      have hofs : i * pgSize + pgSize = (i + 1) * pgSize := (Nat.succ_mul i pgSize).symm
      rw [if_pos rfl, hrem, hofs]
      refine hrec.mono fun r vm' hr => ?_
      rw [show i + (left + 1) = i + 1 + left by omega]
      exact hr
    · rw [if_neg (by decide)]
      exact .bind ((releasePages_yields h).mono fun _ vm' hvm => .pure (.inr ⟨rfl, hvm⟩))

/-! ### sys_mmap -/

variable {m : Maps} {env : MmapEnv}

/-- The number of pages of a file. -/
def pageCnt (length : ℕ) : ℕ := (length + pgSize - 1) / pgSize

/-- The mapping that `mmap_entry_append` makes of a file. -/
def newEntry (m : Maps) (p : Pid) (file : FileId) (upage : Upage) : MmapEntry :=
  ⟨m.midCounter p + 1, file, upage, (m.vm.files file).length, pageCnt (m.vm.files file).length, false⟩

/-- All the pages of the mapping are registered and no more, and the mapping is the last one of the process. -/
structure MappedAll (m : Maps) (p : Pid) (file : FileId) (upage : Upage) (m' : Maps) : Prop where
  free : FreeRange m.vm p upage (newEntry m p file upage).pageCnt
  vm : m'.vm = withPages m.vm p file upage (newEntry m p file upage).length (newEntry m p file upage).pageCnt
  entries : m'.entries = Function.update m.entries p (m.entries p ++ [newEntry m p file upage])

/-- Nothing is registered and there is no mapping more. -/
structure MappedNone (m m' : Maps) : Prop where
  vm : m'.vm = m.vm
  entries : m'.entries = m.entries

theorem mmapEntryAppend_yields (hre : env.reopen = true) :
    Yields (mmapEntryAppend p env file upage) m fun r m' =>
      (r = some (newEntry m p file upage) ∧ MappedAll m p file upage m') ∨ r = none ∧ MappedNone m m' := by
  unfold mmapEntryAppend
  split_ifs with hentry
  · refine .bind (.assert hre (.bind (.get (.bind (.set (.bind (.zoom ?_)))))))
    have hstart : FreeRange m.vm p upage 0 := ⟨fun i hi => by omega, fun i hi => by omega⟩
    have hpages := mapPages_yields file (m.vm.files file).length env.pages
      (pageCnt (m.vm.files file).length) 0 hstart
    rw [Nat.zero_mul, Nat.sub_zero, Nat.zero_add] at hpages
    refine hpages.mono fun r vm' hr => ?_
    rcases hr with ⟨rfl, rfl, hfree⟩ | ⟨rfl, rfl⟩
    · exact .bind (.modify (.pure (.inl ⟨rfl, hfree, rfl, rfl⟩)))
    · exact .pure (.inr ⟨rfl, rfl, rfl⟩)
  · exact .pure (.inr ⟨rfl, rfl, rfl⟩)

/-- **mmap is all or nothing**, at any address and whatever fails on the way. -/
theorem sysMmap_atomic (m : Maps) (p : Pid) (env : MmapEnv) (file : FileId) (data : ℕ) (hre : env.reopen = true) :
    Yields (sysMmap p env (some file) data) m fun r m' =>
      (r = some (newEntry m p file (data / pgSize)).mid ∧ MappedAll m p file (data / pgSize) m') ∨
        r = none ∧ MappedNone m m' := by
  unfold sysMmap
  have hnone : Yields (pure none : Op Maps (Option ℕ)) m fun r m' =>
      (r = some (newEntry m p file (data / pgSize)).mid ∧ MappedAll m p file (data / pgSize) m') ∨
        r = none ∧ MappedNone m m' := .pure (.inr ⟨rfl, rfl, rfl⟩)
  split_ifs
  · exact hnone
  · exact hnone
  · refine .bind ((mmapEntryAppend_yields hre).mono fun r m' hr => ?_)
    rcases hr with ⟨rfl, h⟩ | ⟨rfl, h⟩
    · exact .pure (.inl ⟨rfl, h⟩)
    · exact .pure (.inr ⟨rfl, h⟩)

/-- The stack page of the process 1, and files of 5000 bytes. -/
def stackOnly : Maps where
  vm :=
    { map := [⟨0xbffff, true, 1, .lazy ⟨none, 0, 0⟩⟩]
      pagedirs := fun _ => some .empty
      pagedir := fun p => some p
      userPool := [false]
      mem := fun _ _ => 0
      swapMap := List.replicate 8 false
      swapBlock := fun _ _ => 0
      files := fun _ => ⟨5000, fun _ => 1⟩ }
  entries _ := []
  midCounter _ := 0
  denied _ := false

/-- Nothing runs out. -/
def allThere : MmapEnv := ⟨true, true, fun _ => ⟨false, true, true, 0⟩⟩

/-- Two pages below the stack page, and from the page before it on: the second page would be the stack page. -/
theorem sysMmap_atomic_stackOnly :
    (∃ m', sysMmap 1 allThere (some 0) (0xbfff0 * pgSize) stackOnly = some (some 1, m') ∧
      MappedAll stackOnly 1 0 0xbfff0 m') ∧
    ∃ m', sysMmap 1 allThere (some 0) (0xbfffe * pgSize) stackOnly = some (none, m') ∧
      MappedNone stackOnly m' := by
  constructor
  · obtain ⟨r, m', hm, ⟨hr, h⟩ | ⟨hr, h⟩⟩ := sysMmap_atomic stackOnly 1 allThere 0 (0xbfff0 * pgSize) rfl
    · exact ⟨m', hr ▸ hm, h⟩
    · have hfst : (sysMmap 1 allThere (some 0) (0xbfff0 * pgSize) stackOnly).map (·.1) = some (some 1) := by
        decide +kernel
      rw [hm, hr] at hfst
      cases hfst
  · obtain ⟨r, m', hm, ⟨hr, h⟩ | ⟨hr, h⟩⟩ := sysMmap_atomic stackOnly 1 allThere 0 (0xbfffe * pgSize) rfl
    · have hfst : (sysMmap 1 allThere (some 0) (0xbfffe * pgSize) stackOnly).map (·.1) = some none := by
        decide +kernel
      rw [hm, hr] at hfst
      cases hfst
    · exact ⟨m', hr ▸ hm, h⟩

end Pintos.Userprog.MmapAtomic
