import Pintos.Filesys.Bcache

/-! # The buffer cache refines a plain array of sectors

For one thread: the cache and the device behind it stand for an array of sectors, reads return what the array
holds, and after `bcache_sync` the device is the array. Whichever entry is evicted, the array is the same. -/

namespace Pintos.Filesys.BcacheRefinement

open Pintos.Filesys.Bcache
open Pintos.Lib.WriteBack (Unique unique_free unique_fill writtenBack content_of_slot content_of_free
  content_evict content_fill content_store)

variable {b b' : Cache} {i : Slot} {sector : ℕ} {ticks : ℤ}

/-! ### The cache as a write-back cache -/

def view (b : Cache) (i : Slot) : Option (ℕ × SectorData) :=
  if (b.bcache i).inUse then some ((b.bcache i).sector, (b.bcache i).data) else none

/-- The array that the cache and the device stand for. -/
noncomputable def content (b : Cache) : ℕ → SectorData :=
  Lib.WriteBack.content (view b) b.fsDevice.sectors

theorem view_set (b : Cache) (i : Slot) (e : BcacheEntry) : view (b.set i e) =
    Function.update (view b) i (if e.inUse then some (e.sector, e.data) else none) := by
  funext j
  by_cases hj : j = i
  · subst hj
    simp [view, Cache.set]
  · simp [view, Cache.set, hj]

theorem view_touch (b : Cache) (i : Slot) (ticks : ℤ) : view (b.touch i ticks) = view b := by
  unfold Cache.touch
  rw [view_set]
  exact Function.update_eq_self i (view b)

theorem content_touch (b : Cache) (i : Slot) (ticks : ℤ) :
    content (b.touch i ticks) = content b := by
  unfold content
  rw [view_touch]
  rfl

theorem view_of_hit (h : (b.bcache i).hit sector) :
    view b i = some (sector, (b.bcache i).data) := by
  simp only [BcacheEntry.hit, Bool.and_eq_true, beq_iff_eq] at h
  rw [view, if_pos h.1, h.2]

theorem hit_of_view {data : SectorData} (h : view b i = some (sector, data)) :
    (b.bcache i).hit sector = true ∧ (b.bcache i).data = data := by
  unfold view at h
  split at h
  · rename_i hu
    cases h
    simp [BcacheEntry.hit, hu]
  · cases h

/-! ### The functions -/

/-- The entry `i` has been written back, if it was in use. -/
theorem evict_spec {d : Device} (hu : Unique (view b))
    (h : b.writeBack i = some d) :
    d.size = b.fsDevice.size ∧
      Lib.WriteBack.content (Function.update (view b) i none) d.sectors = content b := by
  have hev := content_evict (d := b.fsDevice.sectors) hu i
  unfold content
  rw [← hev]
  unfold Cache.writeBack at h
  split at h <;> rename_i hi
  · unfold blockWrite at h
    split at h <;> cases h
    refine ⟨rfl, ?_⟩
    simp [view, hi, writtenBack]
  · cases h
    refine ⟨rfl, ?_⟩
    simp [view, hi, writtenBack]

/-- **`bcache_entry_occupy`** of any entry, if no other one holds the sector. -/
theorem occupy_spec (hu : Unique (view b))
    (hk : ∀ j v, j ≠ i → view b j ≠ some (sector, v))
    (h : entryOccupy b i sector ticks = some b') :
    Unique (view b') ∧ content b' = content b ∧
      b'.fsDevice.size = b.fsDevice.size ∧ sector < b.fsDevice.size ∧
      b'.bcache = Function.update b.bcache i ⟨true, ticks, sector, content b sector⟩ := by
  unfold entryOccupy at h
  obtain ⟨d, hd, h⟩ := Option.bind_eq_some_iff.mp h
  obtain ⟨data, hr, rfl⟩ := Option.map_eq_some_iff.mp h
  obtain ⟨hsize, hc⟩ := evict_spec hu hd
  unfold blockRead at hr
  split at hr <;> rename_i hlt <;> cases hr
  have hfree := unique_free hu i
  have hk' : ∀ j v, Function.update (view b) i none j ≠ some (sector, v) := by
    intro j v hj
    by_cases hji : j = i
    · simp [hji] at hj
    · rw [Function.update_of_ne hji] at hj
      exact hk j v hji hj
  have hview : view ({ b with fsDevice := d }.set i ⟨true, ticks, sector, d.sectors sector⟩) =
      Function.update (Function.update (view b) i none) i (some (sector, d.sectors sector)) := by
    rw [view_set, Function.update_idem]
    rfl
  have hfill := content_fill (d := d.sectors) hfree (Function.update_self ..) hk'
  have hdata : content b sector = d.sectors sector := by
    rw [← hc]
    exact Lib.WriteBack.content_of_miss hk'
  refine ⟨?_, ?_, hsize, by omega, ?_⟩
  · rw [hview]
    exact unique_fill hfree (fun j v _ => hk' j v) _
  · rw [← hc, ← hfill, content, hview]
    rfl
  · rw [hdata]
    rfl

/-- **The write** to an entry. -/
theorem store_spec (hu : Unique (view b)) (hi : (b.bcache i).hit sector) (offset : ℕ)
    (bytes : List UInt8) : Unique (view (b.store i offset bytes)) ∧
      content (b.store i offset bytes) = Function.update (content b) sector
        (memcpyAt (content b sector) offset bytes) := by
  have hv := view_of_hit hi
  have hcur : (b.bcache i).data = content b sector := (content_of_slot hu hv).symm
  simp only [BcacheEntry.hit, Bool.and_eq_true, beq_iff_eq] at hi
  have hview : view (b.store i offset bytes) = Function.update (view b) i
      (some (sector, memcpyAt (b.bcache i).data offset bytes)) := by
    unfold Cache.store
    rw [view_set]
    simp [hi]
  refine ⟨?_, ?_⟩
  · rw [hview]
    exact unique_fill hu (fun j v hji hj => hji (hu hj hv)) _
  · rw [content, hview, ← hcur]
    exact content_store hu hv _

/-! ### The search -/

theorem search_hit {bcache : Slot → BcacheEntry} : ∀ {is : List Slot} {s : Scan},
    search bcache sector is s = .inl i → (bcache i).hit sector = true
  | j :: is, s, h => by
    unfold search at h
    split at h
    · cases h
      assumption
    · exact search_hit h

theorem search_miss {bcache : Slot → BcacheEntry} : ∀ {is : List Slot} {s s' : Scan},
    search bcache sector is s = .inr s' → (∀ j ∈ is, (bcache j).hit sector = false) ∧
      s' = is.foldl (fun s j => s.visit j (bcache j)) s
  | [], s, s', h => by
    cases h
    simp
  | j :: is, s, s', h => by
    unfold search at h
    split at h <;> rename_i hj
    · cases h
    · obtain ⟨h1, h2⟩ := search_miss h
      exact ⟨List.forall_mem_cons.mpr ⟨by simpa using hj, h1⟩, h2⟩

/-- A turn of the search leaves an index to take, unless the entry was last used at the end of time. -/
theorem visit_found {s : Scan} {cur : BcacheEntry} (hcur : cur.inUse = true → cur.lastUse < int64Max)
    (hs : s = .start ∨ s.victim ≠ none) : (s.visit i cur).victim ≠ none := by
  unfold Scan.visit
  split
  · rename_i h
    unfold Scan.victim
    cases s.freeIdx <;> simp
  · split
    · simp [Scan.victim]
    · rename_i h1 h2
      rcases hs with rfl | hs
      · have hu : cur.inUse = true := by simpa using h2
        exact absurd ⟨hu, hcur hu⟩ h1
      · exact hs

theorem foldl_visit_found {bcache : Slot → BcacheEntry}
    (hcur : ∀ i, (bcache i).inUse = true → (bcache i).lastUse < int64Max) :
    ∀ (is : List Slot) (s : Scan), is ≠ [] ∨ s.victim ≠ none → s = .start ∨ s.victim ≠ none →
      (is.foldl (fun s j => s.visit j (bcache j)) s).victim ≠ none
  | [], s, h, _ => h.resolve_left fun hn => hn rfl
  | i :: is, s, _, hs => by
    have := visit_found (i := i) (hcur i) hs
    exact foldl_visit_found hcur is _ (.inr this) (.inr this)

/-! ### The invariant -/

structure Valid (b : Cache) : Prop where
  /-- At most one entry in use for a sector. -/
  unique : Unique (view b)
  lastUse : ∀ i, (b.bcache i).inUse = true → (b.bcache i).lastUse < int64Max
  sector : ∀ i, (b.bcache i).inUse = true → (b.bcache i).sector < b.fsDevice.size

/-- **The entry that a call works on.** -/
structure Found (b : Cache) (sector : ℕ) (i : Slot) (b' : Cache) : Prop where
  valid : Valid b'
  content : content b' = content b
  size : b'.fsDevice.size = b.fsDevice.size
  inRange : sector < b.fsDevice.size
  hit : (b'.bcache i).hit sector = true
  data : (b'.bcache i).data = BcacheRefinement.content b sector

theorem valid_set (hb : Valid b) {e : BcacheEntry} (hu : Unique (view (b.set i e)))
    (hl : e.inUse = true → e.lastUse < int64Max) (hs : e.inUse = true → e.sector < b.fsDevice.size) :
    Valid (b.set i e) := by
  refine ⟨hu, fun j hj => ?_, fun j hj => ?_⟩
  · by_cases hji : j = i
    · subst hji
      simp only [Cache.set, Function.update_self] at hj ⊢
      exact hl hj
    · simp only [Cache.set, Function.update_of_ne hji] at hj ⊢
      exact hb.lastUse j hj
  · by_cases hji : j = i
    · subst hji
      simp only [Cache.set, Function.update_self] at hj ⊢
      exact hs hj
    · simp only [Cache.set, Function.update_of_ne hji] at hj ⊢
      exact hb.sector j hj

theorem found_touch (hb : Valid b) (ht : ticks < int64Max) (hi : (b.bcache i).hit sector) :
    Found b sector i (b.touch i ticks) := by
  have hi' := hi
  simp only [BcacheEntry.hit, Bool.and_eq_true, beq_iff_eq] at hi'
  have hu : Unique (view (b.touch i ticks)) := by
    rw [view_touch]
    exact hb.unique
  refine ⟨valid_set hb hu (fun _ => ht) (hb.sector i), content_touch .., rfl, ?_, ?_, ?_⟩
  · rw [← hi'.2]
    exact hb.sector i hi'.1
  · simpa [Cache.touch, Cache.set, BcacheEntry.hit] using hi'
  · have hd := content_of_slot (d := b.fsDevice.sectors) hb.unique (view_of_hit hi)
    simp only [Cache.touch, Cache.set, Function.update_self]
    exact hd.symm

theorem found_occupy (hb : Valid b) (ht : ticks < int64Max)
    (hk : ∀ j, j ≠ i → (b.bcache j).hit sector = false)
    (h : entryOccupy b i sector ticks = some b') : Found b sector i b' := by
  have hk' : ∀ j v, j ≠ i → view b j ≠ some (sector, v) := fun j v hji hj => by
    have := hk j hji
    rw [(hit_of_view hj).1] at this
    cases this
  obtain ⟨hu, hc, hsize, hlt, he⟩ := occupy_spec hb.unique hk' h
  refine ⟨⟨hu, fun j hj => ?_, fun j hj => ?_⟩, hc, hsize, hlt, ?_, ?_⟩
  · rw [he] at hj ⊢
    by_cases hji : j = i
    · subst hji
      simpa using ht
    · rw [Function.update_of_ne hji] at hj ⊢
      exact hb.lastUse j hj
  · rw [hsize]
    rw [he] at hj ⊢
    by_cases hji : j = i
    · subst hji
      simpa using hlt
    · rw [Function.update_of_ne hji] at hj ⊢
      exact hb.sector j hj
  · simp [he, BcacheEntry.hit]
  · simp [he]

/-- `bcache_entry_occupy` does not fail if the sector is on the device. -/
theorem occupy_isSome (hb : Valid b) (i : Slot) (hs : sector < b.fsDevice.size) (ticks : ℤ) :
    (entryOccupy b i sector ticks).isSome := by
  have hw : ∃ d, b.writeBack i = some d ∧ d.size = b.fsDevice.size := by
    unfold Cache.writeBack blockWrite
    split
    · have := hb.sector i ‹_›
      rw [if_neg (by omega)]
      exact ⟨_, rfl, rfl⟩
    · exact ⟨_, rfl, rfl⟩
  obtain ⟨d, hd, hsize⟩ := hw
  unfold entryOccupy blockRead
  rw [hd, Option.bind_some, if_neg (by omega)]
  rfl

theorem lookup_spec (hb : Valid b) (ht : ticks < int64Max) (h : lookup b sector ticks = some (i, b')) :
    Found b sector i b' := by
  unfold lookup at h
  split at h <;> rename_i hs
  · cases h
    exact found_touch hb ht (search_hit hs)
  · obtain ⟨j, -, h⟩ := Option.bind_eq_some_iff.mp h
    obtain ⟨b₁, hocc, h⟩ := Option.bind_eq_some_iff.mp h
    cases h
    obtain ⟨hmiss, -⟩ := search_miss hs
    exact found_occupy hb ht (fun j _ => hmiss j (List.mem_finRange j)) hocc

theorem lookup_isSome (hb : Valid b) (hs : sector < b.fsDevice.size) (ticks : ℤ) :
    (lookup b sector ticks).isSome := by
  unfold lookup
  split <;> rename_i s hsearch
  · rfl
  · obtain ⟨-, rfl⟩ := search_miss hsearch
    have hne := foldl_visit_found hb.lastUse (List.finRange bcacheMaxEntries) .start
      (.inl (List.ne_nil_of_mem (List.mem_finRange ⟨0, by decide⟩))) (.inl rfl)
    obtain ⟨j, hj⟩ := Option.ne_none_iff_exists'.mp hne
    obtain ⟨b₁, h1⟩ := Option.isSome_iff_exists.mp (occupy_isSome hb j hs ticks)
    rw [hj]
    simp [h1]

/-! ### `bcache_sync` -/

theorem release_spec (hb : Valid b) (i : Slot) : ∃ b', entryRelease b i = some b' ∧ Valid b' ∧
    content b' = content b ∧ b'.fsDevice.size = b.fsDevice.size ∧ (b'.bcache i).inUse = false ∧
    ∀ j, (b.bcache j).inUse = false → (b'.bcache j).inUse = false := by
  have hw : ∃ d, b.writeBack i = some d := by
    unfold Cache.writeBack blockWrite
    split
    · have := hb.sector i ‹_›
      rw [if_neg (by omega)]
      exact ⟨_, rfl⟩
    · exact ⟨_, rfl⟩
  obtain ⟨d, hd⟩ := hw
  obtain ⟨hsize, hc⟩ := evict_spec hb.unique hd
  have hview : view ({ b with fsDevice := d }.set i { b.bcache i with inUse := false }) =
      Function.update (view b) i none := by
    rw [view_set]
    rfl
  have hvalid : Valid { b with fsDevice := d } :=
    ⟨hb.unique, hb.lastUse, fun j hj => by rw [hsize]; exact hb.sector j hj⟩
  refine ⟨_, by rw [entryRelease, hd]; rfl, ?_, ?_, hsize, ?_, fun j hj => ?_⟩
  · refine valid_set hvalid ?_ (by simp) (by simp)
    rw [hview]
    exact unique_free hb.unique i
  · rw [← hc, content, hview]
    rfl
  · simp [Cache.set]
  · simp only [Cache.set, Function.update_apply]
    split <;> simp [hj]

theorem releases_spec : ∀ (is : List Slot) (b : Cache), Valid b →
    ∃ b', is.foldlM entryRelease b = some b' ∧ Valid b' ∧ content b' = content b ∧
      b'.fsDevice.size = b.fsDevice.size ∧
      ∀ j, j ∈ is ∨ (b.bcache j).inUse = false → (b'.bcache j).inUse = false
  | [], b, hb => ⟨b, rfl, hb, rfl, rfl, by simp⟩
  | i :: is, b, hb => by
    obtain ⟨b₁, h1, hb1, hc1, hs1, hi1, hj1⟩ := release_spec hb i
    obtain ⟨b₂, h2, hb2, hc2, hs2, hj2⟩ := releases_spec is b₁ hb1
    refine ⟨b₂, by simp [h1, h2], hb2, hc2.trans hc1, hs2.trans hs1, fun j hj => hj2 j ?_⟩
    rcases hj with hj | hj
    · rcases List.mem_cons.mp hj with rfl | hj
      · exact .inr hi1
      · exact .inl hj
    · exact .inr (hj1 j hj)

theorem sync_spec (hb : Valid b) : ∃ b', bcacheSync b = some b' ∧ Valid b' ∧
    content b' = content b ∧ b'.fsDevice.size = b.fsDevice.size ∧
    (∀ i, (b'.bcache i).inUse = false) ∧ b'.fsDevice.sectors = content b := by
  obtain ⟨b', h, hb', hc, hs, hj⟩ := releases_spec (List.finRange bcacheMaxEntries) b hb
  have hfree : ∀ i, (b'.bcache i).inUse = false := fun i => hj i (.inl (List.mem_finRange i))
  refine ⟨b', h, hb', hc, hs, hfree, ?_⟩
  rw [← hc]
  exact (content_of_free fun i => by simp [view, hfree i]).symm

/-! ### Sequences of calls -/

inductive BcacheOp
  | read (sector : ℕ)
  | write (sector : ℕ) (data : SectorData)
  | writeAt (sector : ℕ) (bytes : List UInt8) (offset : ℕ)
  | sync

/-- The sector is on the device, and the bytes are in the sector. -/
def BcacheOp.InRange (size : ℕ) : BcacheOp → Prop
  | .read sector | .write sector _ => sector < size
  | .writeAt sector bytes offset => sector < size ∧ offset + bytes.length ≤ blockSectorSize
  | .sync => True

def perform (b : Cache) (ticks : ℤ) : BcacheOp → Option (Cache × List SectorData)
  | .read sector => (bcacheRead b sector ticks).map fun (b, out) => (b, [out])
  | .write sector data => (bcacheWrite b sector data ticks).map fun b => (b, [])
  | .writeAt sector bytes offset => (bcacheWriteAt b sector bytes offset ticks).map fun b => (b, [])
  | .sync => (bcacheSync b).map fun b => (b, [])

/-- The calls with the values of the timer during them, and what the reads among them return. -/
def run (b : Cache) : List (BcacheOp × ℤ) → Option (Cache × List SectorData)
  | [] => some (b, [])
  | (op, ticks) :: ops => do
    let (b, out) ← perform b ticks op
    let (b, outs) ← run b ops
    some (b, out ++ outs)

/-- The same for a plain array of sectors: a write replaces the bytes from `offset` on. -/
def performPlain (array : ℕ → SectorData) : BcacheOp → (ℕ → SectorData) × List SectorData
  | .read sector => (array, [array sector])
  | .write sector data => (Function.update array sector data, [])
  | .writeAt sector bytes offset =>
    (Function.update array sector fun j =>
      if offset ≤ j ∧ j < offset + bytes.length then (bytes[j.val - offset]?).getD 0
      else array sector j, [])
  | .sync => (array, [])

def runPlain (array : ℕ → SectorData) : List BcacheOp → (ℕ → SectorData) × List SectorData
  | [] => (array, [])
  | op :: ops =>
    let (array, out) := performPlain array op
    let (array, outs) := runPlain array ops
    (array, out ++ outs)

theorem memcpyAt_ofFn (old data : SectorData) : memcpyAt old 0 (List.ofFn data) = data := by
  funext i
  simp [memcpyAt]

theorem memcpyAt_apply (old : SectorData) (offset : ℕ) (bytes : List UInt8)
    (j : Fin blockSectorSize) : memcpyAt old offset bytes j =
      if offset ≤ j ∧ j < offset + bytes.length then (bytes[j.val - offset]?).getD 0 else old j := by
  unfold memcpyAt
  split
  · rw [List.getElem?_eq_getElem (by omega)]
    rfl
  · rfl

/-- A write through the cache. -/
theorem writeAt_spec (hb : Valid b) (ht : ticks < int64Max) {bytes : List UInt8} {offset : ℕ}
    (h : bcacheWriteAt b sector bytes offset ticks = some b') : Valid b' ∧
      b'.fsDevice.size = b.fsDevice.size ∧ content b' = Function.update (content b) sector
        (memcpyAt (content b sector) offset bytes) := by
  unfold bcacheWriteAt at h
  split at h
  swap
  · cases h
  obtain ⟨⟨i, b₁⟩, h1, rfl⟩ := Option.map_eq_some_iff.mp h
  have hf := lookup_spec hb ht h1
  obtain ⟨hu, hc⟩ := store_spec hf.valid.unique hf.hit offset bytes
  refine ⟨valid_set hf.valid hu (hf.valid.lastUse i) (hf.valid.sector i), hf.size, ?_⟩
  rw [hc, hf.content]

/-- **One call.** -/
theorem perform_spec (hb : Valid b) (ht : ticks < int64Max) (op : BcacheOp) :
    (op.InRange b.fsDevice.size → (perform b ticks op).isSome) ∧
    ∀ b' out, perform b ticks op = some (b', out) → Valid b' ∧
      b'.fsDevice.size = b.fsDevice.size ∧ performPlain (content b) op = (content b', out) := by
  have hlook : ∀ sector, sector < b.fsDevice.size → (lookup b sector ticks).isSome :=
    fun _ hs => lookup_isSome hb hs ticks
  cases op with
  | read sector =>
    refine ⟨fun hs => ?_, fun b' out h => ?_⟩
    · simpa [perform, bcacheRead] using hlook sector hs
    · simp only [perform, bcacheRead, Option.map_map, Option.map_eq_some_iff] at h
      obtain ⟨⟨i, b₁⟩, h1, h⟩ := h
      cases h
      have hf := lookup_spec hb ht h1
      refine ⟨hf.valid, hf.size, ?_⟩
      simp only [performPlain, hf.content, hf.data]
  | write sector data =>
    have hlen : 0 + (List.ofFn data).length ≤ blockSectorSize := by simp
    refine ⟨fun hs => ?_, fun b' out h => ?_⟩
    · rw [perform, bcacheWrite, bcacheWriteAt, if_pos hlen, Option.isSome_map, Option.isSome_map]
      exact hlook sector hs
    · simp only [perform, Option.map_eq_some_iff] at h
      obtain ⟨b₁, h1, h⟩ := h
      cases h
      obtain ⟨hv, hs, hc⟩ := writeAt_spec hb ht h1
      rw [memcpyAt_ofFn] at hc
      exact ⟨hv, hs, by rw [hc]; rfl⟩
  | writeAt sector bytes offset =>
    refine ⟨fun hs => ?_, fun b' out h => ?_⟩
    · simpa [perform, bcacheWriteAt, hs.2] using hlook sector hs.1
    · obtain ⟨b₁, h1, h⟩ := Option.map_eq_some_iff.mp h
      cases h
      obtain ⟨hv, hs, hc⟩ := writeAt_spec hb ht h1
      refine ⟨hv, hs, ?_⟩
      rw [hc, performPlain]
      simp only [← memcpyAt_apply]
  | sync =>
    obtain ⟨b₁, h1, hv, hc, hs, -⟩ := sync_spec hb
    refine ⟨fun _ => by simp [perform, h1], fun b' out h => ?_⟩
    simp only [perform, h1, Option.map_some, Option.some.injEq, Prod.mk.injEq] at h
    obtain ⟨rfl, rfl⟩ := h
    exact ⟨hv, hs, by rw [hc]; rfl⟩

/-- **A run of calls.** -/
theorem run_spec : ∀ (ops : List (BcacheOp × ℤ)) (b : Cache), Valid b →
    (∀ op ∈ ops, op.2 < int64Max) →
    ((∀ op ∈ ops, op.1.InRange b.fsDevice.size) → (run b ops).isSome) ∧
    ∀ b' outs, run b ops = some (b', outs) → Valid b' ∧ b'.fsDevice.size = b.fsDevice.size ∧
      runPlain (content b) (ops.map Prod.fst) = (content b', outs)
  | [], b, hb, _ => by
    refine ⟨fun _ => rfl, fun b' outs h => ?_⟩
    cases h
    exact ⟨hb, rfl, rfl⟩
  | (op, ticks) :: ops, b, hb, ht => by
    obtain ⟨ht1, ht2⟩ := List.forall_mem_cons.mp ht
    obtain ⟨hsome, hspec⟩ := perform_spec hb ht1 op
    refine ⟨fun hr => ?_, fun b' outs h => ?_⟩
    · obtain ⟨hr1, hr2⟩ := List.forall_mem_cons.mp hr
      obtain ⟨⟨b₁, out⟩, h1⟩ := Option.isSome_iff_exists.mp (hsome hr1)
      obtain ⟨hv, hs, -⟩ := hspec _ _ h1
      have hrest := (run_spec ops b₁ hv ht2).1 fun op hop => by rw [hs]; exact hr2 op hop
      obtain ⟨r, h2⟩ := Option.isSome_iff_exists.mp hrest
      simp [run, h1, h2]
    · simp only [run, Option.bind_eq_bind, Option.bind_eq_some_iff] at h
      obtain ⟨⟨b₁, out⟩, h1, ⟨b₂, outs'⟩, h2, h⟩ := h
      cases h
      obtain ⟨hv, hs, hp⟩ := hspec _ _ h1
      obtain ⟨hv', hs', hp'⟩ := (run_spec ops b₁ hv ht2).2 _ _ h2
      refine ⟨hv', hs'.trans hs, ?_⟩
      simp only [List.map_cons, runPlain, hp, hp']

/-! ### The refinement -/

theorem valid_init (d : Device) : Valid (bcacheInit d) ∧ content (bcacheInit d) = d.sectors := by
  have hfree : ∀ i, view (bcacheInit d) i = none := fun _ => rfl
  refine ⟨⟨fun i j k v w h => ?_, fun i h => ?_, fun i h => ?_⟩, content_of_free hfree⟩
  · rw [hfree] at h
    cases h
  · cases h
  · cases h

/-- **The buffer cache refines a plain array of sectors.** -/
theorem refines (d : Device) (ops : List (BcacheOp × ℤ)) (ht : ∀ op ∈ ops, op.2 < int64Max) :
    ((∀ op ∈ ops, op.1.InRange d.size) → (run (bcacheInit d) ops).isSome) ∧
    ∀ b outs, run (bcacheInit d) ops = some (b, outs) →
      (∀ i j, (b.bcache i).inUse = true → (b.bcache j).inUse = true →
        (b.bcache i).sector = (b.bcache j).sector → i = j) ∧
      runPlain d.sectors (ops.map Prod.fst) = (content b, outs) ∧
      (∀ i sector ticks b', (∀ j, (b.bcache j).hit sector = false) →
        entryOccupy b i sector ticks = some b' → content b' = content b) ∧
      ∃ b', bcacheSync b = some b' ∧ b'.fsDevice.sectors = content b ∧
        ∀ i, (b'.bcache i).inUse = false := by
  obtain ⟨hv, hc⟩ := valid_init d
  obtain ⟨hsome, hspec⟩ := run_spec ops _ hv ht
  refine ⟨hsome, fun b outs h => ?_⟩
  obtain ⟨hb, -, hp⟩ := hspec b outs h
  rw [hc] at hp
  refine ⟨fun i j hi hj hij => ?_, hp, fun i sector ticks b' hmiss hocc => ?_, ?_⟩
  · have h1 : view b i = some ((b.bcache i).sector, (b.bcache i).data) := if_pos hi
    have h2 : view b j = some ((b.bcache i).sector, (b.bcache j).data) := by
      rw [hij]
      exact if_pos hj
    exact hb.unique h1 h2
  · refine (occupy_spec hb.unique (fun j v _ hj => ?_) hocc).2.1
    have := hmiss j
    rw [(hit_of_view hj).1] at this
    cases this
  · obtain ⟨b', h1, -, -, -, h2, h3⟩ := sync_spec hb
    exact ⟨b', h1, h3, h2⟩

/-- A write of one byte, a read of another sector, and a read of the written one. -/
theorem refines_writeRead : ∃ b, run (bcacheInit ⟨2, fun _ _ => 0⟩)
    [(.writeAt 1 [7] 3, 1), (.read 0, 2), (.read 1, 2)] =
      some (b, [fun _ => 0, fun j => if j.val = 3 then 7 else 0]) := by
  obtain ⟨hsome, hspec⟩ := refines ⟨2, fun _ _ => 0⟩
    [(.writeAt 1 [7] 3, 1), (.read 0, 2), (.read 1, 2)] (by decide)
  obtain ⟨⟨b, outs⟩, h⟩ := Option.isSome_iff_exists.mp (hsome (by
    simp [BcacheOp.InRange, blockSectorSize]))
  obtain ⟨-, hp, -⟩ := hspec b outs h
  refine ⟨b, h.trans ?_⟩
  have ho : [fun _ => 0, fun j => if j.val = 3 then 7 else 0] = outs := by
    have hsnd := congrArg Prod.snd hp
    change _ = outs at hsnd
    rw [← hsnd]
    simp only [List.map_cons, List.map_nil, runPlain, performPlain, List.nil_append,
      List.cons_append, Function.update_self, Function.update_of_ne (show (0 : ℕ) ≠ 1 by omega)]
    congr 2
    funext j
    by_cases hj : j.val = 3
    · simp [hj]
    · rw [if_neg hj, if_neg (by simp; omega)]
  rw [ho]

end Pintos.Filesys.BcacheRefinement
