import Pintos.Filesys.BcacheRefinement
import Pintos.Lib.Runs

/-! # The buffer cache under concurrency

Threads in `bcache_read` and `bcache_write_at`. What a thread does between `lock_acquire` and `lock_release`
of an entry is one step: a turn of the search, or the reuse of the entry that the search has left. Between two
of them any other thread may run, so the entry may have been reused, and the sector may have found another
entry. -/

namespace Pintos.Filesys.BcacheConcurrent

open Pintos.Lib.Runs Pintos.Filesys.Bcache
open Pintos.Filesys.BcacheRefinement (view content occupy_spec store_spec view_of_hit hit_of_view
  view_touch content_touch)
open Pintos.Lib.WriteBack (Unique content_of_slot content_of_free)

inductive Request
  | read (sector : ℕ)
  | writeAt (sector : ℕ) (bytes : List UInt8) (offset : ℕ)

def Request.sector : Request → ℕ
  | .read sector | .writeAt sector _ _ => sector

/-- Where a thread is. -/
inductive Place
  | idle
  /-- In the search, with the entries still to be looked at. -/
  | searching (req : Request) (rest : List Slot) (scan : Scan)

structure Sys (T : Type*) where
  cache : Cache
  place : T → Place
  /-- What the completed writes make of the sectors. -/
  array : ℕ → SectorData
  /-- The sector and the result of the read that the last step has completed. -/
  returned : Option (ℕ × SectorData)

inductive CacheAction (T : Type*)
  | call (t : T) (req : Request)
  /-- A turn of the search, with the value of the timer. -/
  | visit (t : T) (ticks : ℤ)
  /-- Past the search. -/
  | take (t : T) (ticks : ℤ)

variable {T : Type*} [DecidableEq T]

def Sys.move (s : Sys T) (t : T) (p : Place) : Sys T :=
  { s with place := Function.update s.place t p, returned := none }

/-- The `memcpy` from or to the entry `i` of the cache `b`, the end of the call. -/
def finish (s : Sys T) (t : T) (b : Cache) (i : Slot) : Request → Option (Sys T)
  | .read sector =>
    some { s.move t .idle with cache := b, returned := some (sector, (b.bcache i).data) }
  | .writeAt sector bytes offset =>
    if offset + bytes.length ≤ blockSectorSize then
      some { s.move t .idle with
        cache := b.store i offset bytes
        array := Function.update s.array sector (memcpyAt (s.array sector) offset bytes) }
    else none

def act (s : Sys T) : CacheAction T → Option (Sys T)
  | .call t req =>
    match s.place t with
    | .idle => some (s.move t (.searching req (List.finRange bcacheMaxEntries) .start))
    | _ => none
  | .visit t ticks =>
    match s.place t with
    | .searching req (i :: is) scan =>
      if (s.cache.bcache i).hit req.sector then finish s t (s.cache.touch i ticks) i req
      else some (s.move t (.searching req is (scan.visit i (s.cache.bcache i))))
    | _ => none
  | .take t ticks =>
    match s.place t with
    | .searching req [] scan =>
      scan.victim.bind fun i =>
        (entryOccupy s.cache i req.sector ticks).bind fun b => finish s t b i req
    | _ => none

def Step (s : Sys T) (a : CacheAction T) (s' : Sys T) : Prop := act s a = some s'

/-- The cache as `bcache_init` leaves it. -/
structure Init (s : Sys T) : Prop where
  cache : s.cache = bcacheInit s.cache.fsDevice
  place : ∀ t, s.place t = .idle
  array : s.array = s.cache.fsDevice.sectors
  returned : s.returned = none

/-! ### The condition -/

/-- No two entries in use hold one sector. -/
def Exclusive (b : Cache) : Prop :=
  ∀ i j, (b.bcache i).inUse = true → (b.bcache j).inUse = true →
    (b.bcache i).sector = (b.bcache j).sector → i = j

/-- No entry but `i` holds the sector. -/
def OnlyAt (b : Cache) (i : Slot) (sector : ℕ) : Prop :=
  ∀ j, j ≠ i → (b.bcache j).hit sector = false

/-- When a thread takes an entry for a sector that it has not found, no other entry holds the sector by
then. -/
def Fits (s : Sys T) : CacheAction T → Prop
  | .take t _ =>
    match s.place t with
    | .searching req [] scan => ∀ i, scan.victim = some i → OnlyAt s.cache i req.sector
    | _ => True
  | _ => True

theorem exclusive_iff (b : Cache) : Exclusive b ↔ Unique (view b) := by
  constructor
  · intro h i j k v w hi hj
    have hi := (hit_of_view hi).1
    have hj := (hit_of_view hj).1
    simp only [BcacheEntry.hit, Bool.and_eq_true, beq_iff_eq] at hi hj
    exact h i j hi.1 hj.1 (hi.2.trans hj.2.symm)
  · intro h i j hi hj hij
    have hi' : view b i = some ((b.bcache i).sector, (b.bcache i).data) := if_pos hi
    have hj' : view b j = some ((b.bcache i).sector, (b.bcache j).data) := by
      rw [hij]
      exact if_pos hj
    exact h hi' hj'

/-! ### The invariant -/

/-- The cache stands for the array, and a completed read has returned what the array holds. -/
structure Good (s : Sys T) : Prop where
  unique : Unique (view s.cache)
  content : content s.cache = s.array
  returned : ∀ k d, s.returned = some (k, d) → d = s.array k

variable {s s' : Sys T} {t : T} {b : Cache} {i : Slot} {req : Request}

/-- **The end of a call** at an entry that holds the sector. -/
theorem good_finish (hu : Unique (view b)) (hc : BcacheRefinement.content b = s.array)
    (hi : (b.bcache i).hit req.sector) (h : finish s t b i req = some s') : Good s' := by
  cases req with
  | read sector =>
    cases h
    refine ⟨hu, hc, fun k d hkd => ?_⟩
    cases hkd
    show (b.bcache i).data = s.array sector
    rw [← hc]
    exact (content_of_slot hu (view_of_hit hi)).symm
  | writeAt sector bytes offset =>
    simp only [finish] at h
    split at h <;> cases h
    obtain ⟨hu', hc'⟩ := store_spec hu hi offset bytes
    refine ⟨hu', ?_, fun k d hkd => by cases hkd⟩
    rw [hc', hc]
    rfl

theorem good_move (hs : Good s) (p : Place) : Good (s.move t p) :=
  ⟨hs.unique, hs.content, fun _ _ h => by cases h⟩

omit [DecidableEq T] in
theorem hit_touch (ticks : ℤ) (sector : ℕ) :
    ((b.touch i ticks).bcache i).hit sector = (b.bcache i).hit sector := by
  simp [Cache.touch, Cache.set, BcacheEntry.hit]

/-- The step that takes an entry, if it meets the condition. -/
theorem good_step {a : CacheAction T} (hs : Good s) (hf : Fits s a) (h : Step s a s') : Good s' := by
  unfold Step at h
  cases a with
  | call t req =>
    simp only [act] at h
    split at h <;> cases h
    exact good_move hs _
  | visit t ticks =>
    simp only [act] at h
    split at h
    · rename_i req i is scan hp
      split at h <;> rename_i hi
      · refine good_finish ?_ ?_ ?_ h
        · rw [view_touch]
          exact hs.unique
        · rw [content_touch]
          exact hs.content
        · rwa [hit_touch]
      · cases h
        exact good_move hs _
    · cases h
  | take t ticks =>
    simp only [act] at h
    split at h
    · rename_i req scan hp
      obtain ⟨i, hv, h⟩ := Option.bind_eq_some_iff.mp h
      obtain ⟨b, hocc, h⟩ := Option.bind_eq_some_iff.mp h
      simp only [Fits, hp] at hf
      have honly := hf i hv
      have hk : ∀ j v, j ≠ i → view s.cache j ≠ some (req.sector, v) := fun j v hji hj => by
        have := honly j hji
        rw [(hit_of_view hj).1] at this
        cases this
      obtain ⟨hu, hc, -, -, he⟩ := occupy_spec hs.unique hk hocc
      refine good_finish hu (hc.trans hs.content) ?_ h
      simp [he, BcacheEntry.hit]
    · cases h

omit [DecidableEq T] in
theorem occupy_bcache {sector : ℕ} {ticks : ℤ} {b' : Cache}
    (h : entryOccupy b i sector ticks = some b') :
    (b'.bcache i).hit sector = true ∧ ∀ j, j ≠ i → b'.bcache j = b.bcache j := by
  obtain ⟨d, -, h⟩ := Option.bind_eq_some_iff.mp h
  obtain ⟨data, -, rfl⟩ := Option.map_eq_some_iff.mp h
  refine ⟨by simp [Cache.set, BcacheEntry.hit], fun j hj => ?_⟩
  simp [Cache.set, hj]

/-- The end of a call leaves every sector in its entry. -/
theorem finish_hit (h : finish s t b i req = some s') (j : Slot) (sector : ℕ) :
    (s'.cache.bcache j).hit sector = (b.bcache j).hit sector := by
  cases req with
  | read sector =>
    cases h
    rfl
  | writeAt sector' bytes offset =>
    simp only [finish] at h
    split at h <;> cases h
    by_cases hj : j = i
    · subst hj
      simp [Cache.store, Cache.set, BcacheEntry.hit]
    · simp [Cache.store, Cache.set, hj]

/-- Where the condition fails, the step puts a sector into a second entry. -/
theorem fits_of_exclusive {a : CacheAction T} (h : Step s a s') (he : Exclusive s'.cache) :
    Fits s a := by
  unfold Step at h
  cases a with
  | call | visit => trivial
  | take t ticks =>
    simp only [act] at h
    unfold Fits
    split at h
    · rename_i req scan hp
      simp only [hp]
      intro i hv j hji
      rw [hv, Option.bind_some] at h
      obtain ⟨b, hocc, h⟩ := Option.bind_eq_some_iff.mp h
      obtain ⟨hi, hne⟩ := occupy_bcache hocc
      by_contra hj
      have hj' : (s'.cache.bcache j).hit req.sector = true := by
        rw [finish_hit h, hne j hji]
        simpa using hj
      have hi' : (s'.cache.bcache i).hit req.sector = true := by rw [finish_hit h, hi]
      simp only [BcacheEntry.hit, Bool.and_eq_true, beq_iff_eq] at hi' hj'
      exact hji (he j i hj'.1 hi'.1 (hj'.2.trans hi'.2.symm))
    · cases h

theorem good_of_reachable (h : Reachable Init (Guarded Fits (Step (T := T))) s) : Good s := by
  refine h.of_invariant (I := Good) ⟨fun {s₀} h => ?_, fun hs h => good_step hs h.1 h.2⟩
  obtain ⟨hv, hc⟩ := BcacheRefinement.valid_init s₀.cache.fsDevice
  rw [← h.cache] at hv hc
  exact ⟨hv.unique, hc.trans h.array.symm, fun k d hkd => by simp [h.returned] at hkd⟩

/-- **The buffer cache under concurrency**: as long as no thread takes an entry for a sector that another
thread has meanwhile put into another entry, no two entries hold one sector and every read returns what the
completed writes have left. The first such step puts the sector into two entries. -/
theorem exclusive_runs :
    (∀ s : Sys T, Reachable Init (Guarded Fits Step) s →
      Exclusive s.cache ∧ ∀ k d, s.returned = some (k, d) → d = s.array k) ∧
    ∀ (s s' : Sys T) (a : CacheAction T), Reachable Init (Guarded Fits Step) s → Step s a s' →
      (Exclusive s'.cache ↔ Fits s a) := by
  refine ⟨fun s h => ?_, fun s s' a h hst => ⟨fits_of_exclusive hst, fun hf => ?_⟩⟩
  · have hs := good_of_reachable h
    exact ⟨(exclusive_iff s.cache).mpr hs.unique, hs.returned⟩
  · exact (exclusive_iff s'.cache).mpr (good_step (good_of_reachable h) hf hst).unique

/-! ### Runs that compute -/

instance (s : Sys T) : (a : CacheAction T) → Decidable (Fits s a)
  | .call _ _ | .visit _ _ => isTrue trivial
  | .take t _ =>
    match h : s.place t with
    | .searching req [] scan =>
      match hv : scan.victim with
      | some i =>
        if ho : ∀ j, j ≠ i → (s.cache.bcache j).hit req.sector = false then
          isTrue (by simp only [Fits, h, hv]; intro j hj; cases hj; exact ho)
        else isFalse (by simp only [Fits, h, hv]; exact fun hf => ho (hf i rfl))
      | none => isTrue (by simp only [Fits, h, hv]; simp)
    | .searching _ (_ :: _) _ | .idle => isTrue (by simp only [Fits, h])

/-- Every thread before its first call, over a device of zeros. -/
def initial (size : ℕ) : Sys T where
  cache := bcacheInit ⟨size, fun _ _ => 0⟩
  place _ := .idle
  array _ _ := 0
  returned := none

omit [DecidableEq T] in
theorem init_initial (size : ℕ) : Init (initial size : Sys T) := ⟨rfl, fun _ => rfl, rfl, rfl⟩

/-- A call up to the given number of turns of its search. -/
def callAndVisit (t : T) (req : Request) (turns : ℕ) : List (CacheAction T) :=
  .call t req :: List.replicate turns (.visit t 0)

/-- Both threads miss the sector 5. The first has found the last entry free, but the second takes that entry
for another sector and the next one for 5. Then the first takes the entry it has found, writes to it, and
reads. -/
def race (t u : T) : List (CacheAction T) :=
  callAndVisit t (.writeAt 5 [1] 0) bcacheMaxEntries ++
  callAndVisit u (.read 7) bcacheMaxEntries ++ [.take u 0] ++
  callAndVisit u (.read 5) bcacheMaxEntries ++ [.take u 0, .take t 0] ++
  callAndVisit t (.read 5) 63

/-- Two entries hold the sector, and the read does not see the write that its own thread has completed. -/
theorem not_exclusive :
    (¬ ∀ s : Sys Bool, Reachable Init Step s → Exclusive s.cache) ∧
    ¬ ∀ s : Sys Bool, Reachable Init Step s → ∀ k d, s.returned = some (k, d) → d = s.array k := by
  have h : ((race true false).foldlM act (initial 8)).map (fun s : Sys Bool =>
      ((s.cache.bcache ⟨62, by decide⟩).hit 5, (s.cache.bcache ⟨63, by decide⟩).hit 5,
        s.returned.map fun r => (r.1, r.2 ⟨0, by decide⟩), s.array 5 ⟨0, by decide⟩)) =
      some (true, true, some (5, 0), 1) := by
    decide +kernel
  obtain ⟨s, hs, h⟩ := Option.map_eq_some_iff.mp h
  simp only [Prod.mk.injEq, Option.map_eq_some_iff] at h
  obtain ⟨h62, h63, ⟨⟨k, d⟩, hret, rfl, hd⟩, harr⟩ := h
  have hr : Reachable Init Step s := .of_foldlM id _ (.start (init_initial 8)) hs
  simp only [BcacheEntry.hit, Bool.and_eq_true, beq_iff_eq] at h62 h63
  refine ⟨fun hall => ?_, fun hall => ?_⟩
  · have := hall s hr _ _ h62.1 h63.1 (h62.2.trans h63.2.symm)
    simp at this
  · have := congrFun (hall s hr 5 d hret) ⟨0, by decide⟩
    rw [show d ⟨0, by decide⟩ = 0 from hd, harr] at this
    simp at this

/-- One thread writes to a sector and reads it. -/
theorem exclusive_runs_writeRead : ∃ s : Sys Bool, Exclusive s.cache ∧
    ∃ d, s.returned = some (5, d) ∧ d = s.array 5 := by
  have h : ((callAndVisit true (.writeAt 5 [1] 0) bcacheMaxEntries ++
      [CacheAction.take true 0] ++ callAndVisit true (.read 5) bcacheMaxEntries).foldlM
      (fun s a => if Fits s a then act s a else none) (initial 8)).map
      (fun s : Sys Bool => s.returned.map Prod.fst) = some (some 5) := by
    decide +kernel
  obtain ⟨s, hs, h⟩ := Option.map_eq_some_iff.mp h
  obtain ⟨⟨k, d⟩, hret, rfl⟩ := Option.map_eq_some_iff.mp h
  have hr : Reachable Init (Guarded Fits Step) s := by
    refine .of_foldlM (fun h => ?_) _ (.start (init_initial 8)) hs
    split at h
    · exact ⟨‹_›, h⟩
    · cases h
  obtain ⟨hex, hread⟩ := exclusive_runs.1 s hr
  exact ⟨s, hex, d, hret, hread _ _ hret⟩

end Pintos.Filesys.BcacheConcurrent
