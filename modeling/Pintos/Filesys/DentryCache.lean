import Pintos.Filesys.Path

/-! # The dentry cache (filesys/dentry_cache.c)

A hash table from path strings to inumbers. `hash_find` and `hash_insert` compare the strings, and
`hash_insert` never overwrites, so the table is modelled by the list of its pairs. `dentry_cache_invalidate`
scans the table, deletes the first pair with the inumber and starts again; the scans end when no such
pair is left. Allocation never fails here. -/

namespace Pintos.Filesys.DentryCache

open Pintos.Filesys.Path

/-- A sector number of the file system device; an inode is named by its sector. -/
abbrev Sector := ℕ

/-- `dentry_cache`: pairs of a path string and an inumber. -/
abbrev Cache := List (CStr × Sector)

/-- `hash_find` by path string. -/
def hashFind (cache : Cache) (path : CStr) : Option Sector :=
  (cache.find? (·.1 = path)).map (·.2)

/-- `dentry_cache_query`. -/
def dentryCacheQuery (cache : Cache) (cpath : CanonPath) (outerLevel : ℕ) : Option Sector :=
  match canonPathSerialize cpath outerLevel with
  | none => none
  | some path => hashFind cache path

/-- `dentry_cache_append`: the table after it, and the returned flag (which is set only when the path
was there already). -/
def dentryCacheAppend (cache : Cache) (cpath : CanonPath) (outerLevel : ℕ) (inumber : Sector) :
    Cache × Bool :=
  match canonPathSerialize cpath outerLevel with
  | none => (cache, false)
  | some path =>
    match hashFind cache path with
    | some _ => (cache, true)
    | none => ((path, inumber) :: cache, false)

/-- The scan of `dentry_cache_invalidate` up to its `goto do_again`, repeated at most `n` times. -/
def invalidateLoop (inumber : Sector) : ℕ → Cache → Bool → Cache × Bool
  | 0, cache, success => (cache, success)
  | n + 1, cache, success =>
    if cache.any (·.2 = inumber) then
      invalidateLoop inumber n (cache.eraseP (·.2 = inumber)) true
    else (cache, success)

/-- `dentry_cache_invalidate`; every scan but the last deletes a pair. -/
def dentryCacheInvalidate (cache : Cache) (inumber : Sector) : Cache × Bool :=
  invalidateLoop inumber cache.length cache false

/-! ### What the table holds afterwards -/

theorem mem_of_hashFind {cache : Cache} {path : CStr} {i : Sector}
    (h : hashFind cache path = some i) : (path, i) ∈ cache := by
  unfold hashFind at h
  obtain ⟨⟨q, j⟩, hf, rfl⟩ := Option.map_eq_some_iff.mp h
  have hq : q = path := by simpa using List.find?_some hf
  subst hq
  exact List.mem_of_find?_eq_some hf

theorem mem_of_query {cache : Cache} {cpath : CanonPath} {outerLevel : ℕ} {i : Sector}
    (h : dentryCacheQuery cache cpath outerLevel = some i) :
    ∃ path, canonPathSerialize cpath outerLevel = some path ∧ (path, i) ∈ cache := by
  unfold dentryCacheQuery at h
  split at h
  · simp at h
  · next path hs => exact ⟨path, hs, mem_of_hashFind h⟩

/-- An append adds at most one pair, and only for a path that was not there. -/
theorem mem_append {cache : Cache} {cpath : CanonPath} {outerLevel : ℕ} {i : Sector}
    {x : CStr × Sector} (h : x ∈ (dentryCacheAppend cache cpath outerLevel i).1) :
    x ∈ cache ∨ canonPathSerialize cpath outerLevel = some x.1 ∧ x.2 = i ∧
      hashFind cache x.1 = none := by
  unfold dentryCacheAppend at h
  split at h
  · exact .inl h
  · next path hs =>
    split at h
    · exact .inl h
    · next hf =>
      rcases List.mem_cons.mp h with rfl | h
      · exact .inr ⟨hs, rfl, hf⟩
      · exact .inl h

/-- An append never drops or overwrites a pair. -/
theorem subset_append {cache : Cache} {cpath : CanonPath} {outerLevel : ℕ} {i : Sector} :
    cache ⊆ (dentryCacheAppend cache cpath outerLevel i).1 := by
  intro x hx
  unfold dentryCacheAppend
  split
  · exact hx
  · split
    · exact hx
    · exact List.mem_cons_of_mem _ hx

theorem hashFind_none {cache : Cache} {path : CStr} :
    hashFind cache path = none ↔ ∀ x ∈ cache, x.1 ≠ path := by
  simp [hashFind, List.find?_eq_none]

/-- A larger cache misses less. -/
theorem hashFind_none_mono {cache cache' : Cache} {path : CStr} (h : cache ⊆ cache')
    (hf : hashFind cache' path = none) : hashFind cache path = none :=
  hashFind_none.mpr fun x hx => hashFind_none.mp hf x (h hx)

theorem query_none_mono {cache cache' : Cache} {cpath : CanonPath} {outerLevel : ℕ}
    (h : cache ⊆ cache') (hq : dentryCacheQuery cache' cpath outerLevel = none) :
    dentryCacheQuery cache cpath outerLevel = none := by
  unfold dentryCacheQuery at hq ⊢
  split
  · rfl
  · next path hs =>
    rw [hs] at hq
    exact hashFind_none_mono h hq

theorem query_of_serialize {cache : Cache} {cpath : CanonPath} {outerLevel : ℕ} {path : CStr}
    (hs : canonPathSerialize cpath outerLevel = some path) (hf : hashFind cache path = none) :
    dentryCacheQuery cache cpath outerLevel = none := by
  rw [dentryCacheQuery, hs]
  exact hf

theorem invalidateLoop_fst (inumber : Sector) : ∀ (n : ℕ) (cache : Cache) (success : Bool),
    cache.length ≤ n →
      (invalidateLoop inumber n cache success).1 = cache.filter (·.2 ≠ inumber)
  | 0, cache, _, h => by
    obtain rfl := List.length_eq_zero_iff.mp (Nat.le_zero.mp h)
    rfl
  | n + 1, cache, success, h => by
    unfold invalidateLoop
    by_cases ha : cache.any (·.2 = inumber)
    · rw [if_pos ha]
      obtain ⟨x, hx, hxi⟩ := List.any_eq_true.mp ha
      have hlen := List.length_eraseP_of_mem (p := (·.2 = inumber)) hx hxi
      have hpos := List.length_pos_of_mem hx
      rw [invalidateLoop_fst inumber n _ true (by omega)]
      obtain ⟨y, l₁, l₂, h1, hy, hc, he⟩ := List.exists_of_eraseP (p := (·.2 = inumber)) hx hxi
      rw [he, hc]
      have hyi : y.2 = inumber := by simpa using hy
      simp [hyi]
    · rw [if_neg ha]
      refine (List.filter_eq_self.mpr fun x hx => ?_).symm
      simp only [List.any_eq_true, not_exists, not_and] at ha
      simpa using ha x hx

/-- **Invalidation** removes exactly the pairs with the inumber. -/
theorem invalidate_fst (cache : Cache) (inumber : Sector) :
    (dentryCacheInvalidate cache inumber).1 = cache.filter (·.2 ≠ inumber) :=
  invalidateLoop_fst inumber _ cache false le_rfl

theorem mem_invalidate {cache : Cache} {inumber : Sector} {x : CStr × Sector} :
    x ∈ (dentryCacheInvalidate cache inumber).1 ↔ x ∈ cache ∧ x.2 ≠ inumber := by
  rw [invalidate_fst, List.mem_filter]
  simp

end Pintos.Filesys.DentryCache
