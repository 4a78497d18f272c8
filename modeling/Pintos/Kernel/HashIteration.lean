import Pintos.Kernel.HashTable
import Pintos.Vm.State

/-! # Iterating over a hash table

`hash_first` and `hash_next` of `lib/kernel/hash.c`, with an iterator that is a bucket and a position in it, and
the two loops of the kernel that delete while they iterate, `vpage_info_release_all` and
`dentry_cache_invalidate`: after a deletion, which may move all elements, they start over. -/

namespace Pintos.Kernel.HashIteration

open Pintos.Lib.Ops Pintos.Lib.ClassTable Pintos.Kernel.HashTable

variable {E σ : Type}

/-- `struct hash_iterator`: a bucket, and a position in its list, where the head of the list is 0 and its tail is
behind the last element; `none` is a null pointer. -/
structure Iterator where
  bucket : ℕ
  elem : Option ℕ

/-- `hash_first`. -/
def hashFirst : Iterator := ⟨0, some 0⟩

/-- The loop of `hash_next`, with at most `fuel` tests of its condition. -/
def nextLoop (h : Hash E) : (fuel bucket elem : ℕ) → Option Iterator
  | 0, _, _ => none
  | fuel + 1, bucket, elem =>
    if elem = (h.buckets bucket).length + 1 then
      if h.bucketCnt ≤ bucket + 1 then some ⟨bucket + 1, none⟩ else nextLoop h fuel (bucket + 1) 1
    else some ⟨bucket, some elem⟩

/-- `hash_next`; `list_next` asserts that it is not at the tail. -/
def hashNext (h : Hash E) (i : Iterator) : Option Iterator :=
  i.elem.bind fun elem =>
    if elem ≤ (h.buckets i.bucket).length then nextLoop h h.bucketCnt i.bucket (elem + 1) else none

/-- `hash_cur`. -/
def hashCur (h : Hash E) (i : Iterator) : Option E := i.elem.bind fun elem => (h.buckets i.bucket)[elem - 1]?

/-- `while (hash_next (&i))`: the elements that the rest of an iteration visits. -/
def visitLoop (h : Hash E) : (fuel : ℕ) → Iterator → Option (List E)
  | 0, _ => none
  | fuel + 1, i =>
    (hashNext h i).bind fun i =>
      match hashCur h i with
      | none => some []
      | some e => (visitLoop h fuel i).map (e :: ·)

/-- The loops that iterate, release an entry that matches and start over; `release` is told how many there were
before. They return the number of entries released. -/
def releaseLoop (table : σ → Hash E) (isMatch : E → Bool) (release : ℕ → E → Op σ PUnit) :
    (fuel : ℕ) → Iterator → (released : ℕ) → Op σ ℕ
  | 0, _, _ => halt
  | fuel + 1, i, released => do
    let s ← get
    let i ← deref (hashNext (table s) i)
    match hashCur (table s) i with
    | none => pure released
    | some e =>
      if isMatch e then do
        release released e
        releaseLoop table isMatch release fuel hashFirst (released + 1)
      else releaseLoop table isMatch release fuel i released

/-! ### The table of pages -/

open Pintos.Vm.State (Backend)

/-- `struct vpage_info`, but for what the table and `vpage_info_release_inner` do not look at. -/
structure Vpage extends VpageInfo where
  backend : Backend
  deriving DecidableEq

/-- `vpage_hash`. -/
def hashVpage (vp : Vpage) : BitVec 32 := vpageHash vp.toVpageInfo

/-- `vpage_less`. -/
def lessVpage (vp1 vp2 : Vpage) : Bool := vpageLess vp1.toVpageInfo vp2.toVpageInfo

/-- `vpage_info_map`, and the backends that are given back: frames, files and swap slots. -/
structure VpageMap where
  map : Hash Vpage
  given : List Backend

/-- `hash_delete (&vpage_info_map, &vpi->elem)`. -/
def deleteVpage (malloc : Bool) (vpi : Vpage) : Op VpageMap PUnit := do
  let _ ← zoom VpageMap.map (fun s map => { s with map := map }) (hashDelete hashVpage lessVpage malloc vpi)
  pure ⟨⟩

/-- `pagedir_clear_page` and `palloc_free_page`, `file_close` or `swap_free`. -/
def giveBack (backend : Backend) : Op VpageMap PUnit := modify fun s => { s with given := s.given ++ [backend] }

/-- `vpage_info_release_inner`. -/
def vpageInfoReleaseInner (malloc : Bool) (vpi : Vpage) : Op VpageMap PUnit :=
  match vpi.backend with
  | .inmem i => do
    giveBack (.inmem i)
    deleteVpage malloc vpi
  | .lazy i =>
    if i.file ≠ none then do
      giveBack (.lazy i)
      deleteVpage malloc vpi
    else deleteVpage malloc vpi
  | .swapped i => do
    giveBack (.swapped i)
    deleteVpage malloc vpi

/-- `vpage_info_release_all`, with what `malloc` does at each deletion. -/
def vpageInfoReleaseAll (fuel : ℕ) (malloc : ℕ → Bool) (pid : BitVec 32) : Op VpageMap PUnit := do
  let _ ← releaseLoop VpageMap.map (fun vpi => vpi.pid = pid) (fun n => vpageInfoReleaseInner (malloc n))
    fuel hashFirst 0
  pure ⟨⟩

/-! ### The table of directory entries -/

/-- `struct dentry_cache_entry`. -/
structure Dentry extends DentryCacheEntry where
  inumber : ℤ
  deriving DecidableEq

/-- `dentry_cache_entry_hash_func`. -/
def hashDentry (e : Dentry) : BitVec 32 := dentryCacheEntryHashFunc e.toDentryCacheEntry

/-- `dentry_cache_entry_less`. -/
def lessDentry (e1 e2 : Dentry) : Bool := dentryCacheEntryLess e1.toDentryCacheEntry e2.toDentryCacheEntry

/-- `hash_delete (&dentry_cache, &dce->elem)`. -/
def deleteDentry (malloc : Bool) (dce : Dentry) : Op (Hash Dentry) PUnit := do
  let _ ← hashDelete hashDentry lessDentry malloc dce
  pure ⟨⟩

/-- `dentry_cache_invalidate`; it sets `success` when it deletes. -/
def dentryCacheInvalidate (fuel : ℕ) (malloc : ℕ → Bool) (inumber : ℤ) : Op (Hash Dentry) Bool := do
  let deleted ← releaseLoop id (fun dce => dce.inumber = inumber) (fun n => deleteDentry (malloc n)) fuel hashFirst 0
  pure (0 < deleted)

/-! ### One step of an iteration -/

variable {h : Hash E} {i : Iterator} {bucket elem fuel : ℕ} {rest : List E} {e : E}

/-- The elements of the buckets from `b` on. -/
def bucketsFrom (h : Hash E) (b : ℕ) : List E := (List.range' b (h.bucketCnt - b)).flatMap h.buckets

/-- The iterator has still to visit the elements `rest`. -/
structure At (h : Hash E) (i : Iterator) (rest : List E) : Prop where
  elem : ∃ elem ≤ (h.buckets i.bucket).length, i.elem = some elem ∧
    rest = (h.buckets i.bucket).drop elem ++ bucketsFrom h (i.bucket + 1)
  bucket : i.bucket < h.bucketCnt

theorem bucketsFrom_of_lt (hb : bucket < h.bucketCnt) :
    bucketsFrom h bucket = h.buckets bucket ++ bucketsFrom h (bucket + 1) := by
  rw [bucketsFrom, bucketsFrom, show h.bucketCnt - bucket = h.bucketCnt - (bucket + 1) + 1 by omega,
    List.range'_succ, List.flatMap_cons]

theorem bucketsFrom_of_le (hb : h.bucketCnt ≤ bucket) : bucketsFrom h bucket = [] := by
  rw [bucketsFrom, Nat.sub_eq_zero_of_le hb]
  rfl

theorem at_hashFirst (hpos : 0 < h.bucketCnt) : At h hashFirst (stored h) := by
  refine ⟨⟨0, Nat.zero_le _, rfl, ?_⟩, hpos⟩
  show stored h = (h.buckets 0).drop 0 ++ bucketsFrom h (0 + 1)
  rw [List.drop_zero, ← bucketsFrom_of_lt hpos, bucketsFrom, Nat.sub_zero, ← List.range_eq_range']
  rfl

/-- The iterator stands at the first of these elements, or at the end. -/
def Stands (h : Hash E) (i : Iterator) : List E → Prop
  | [] => hashCur h i = none
  | e :: rest => hashCur h i = some e ∧ At h i rest

/-- **The loop of `hash_next`** passes the buckets that have nothing more. -/
theorem nextLoop_eq : ∀ {fuel bucket elem : ℕ}, bucket < h.bucketCnt → h.bucketCnt - bucket ≤ fuel →
    elem ≤ (h.buckets bucket).length →
    ∃ i, nextLoop h fuel bucket (elem + 1) = some i ∧
      Stands h i ((h.buckets bucket).drop elem ++ bucketsFrom h (bucket + 1))
  | 0, bucket, elem, hb, hfuel, _ => absurd hb (by omega)
  | fuel + 1, bucket, elem, hb, hfuel, helem => by
    rw [nextLoop]
    by_cases hend : elem = (h.buckets bucket).length
    · rw [if_pos (by rw [hend]), List.drop_of_length_le (by rw [hend]), List.nil_append]
      by_cases hlast : h.bucketCnt ≤ bucket + 1
      · rw [if_pos hlast, bucketsFrom_of_le hlast]
        exact ⟨_, rfl, rfl⟩
      · rw [if_neg hlast, bucketsFrom_of_lt (not_le.mp hlast)]
        exact nextLoop_eq (not_le.mp hlast) (by omega) (Nat.zero_le _)
    · have hlt : elem < (h.buckets bucket).length := lt_of_le_of_ne helem hend
      rw [if_neg (by omega), List.drop_eq_getElem_cons hlt, List.cons_append]
      exact ⟨_, rfl, List.getElem?_eq_getElem hlt, ⟨⟨elem + 1, hlt, rfl, rfl⟩, hb⟩⟩

/-- **`hash_next`** goes to the next element, or to the end. -/
theorem At.hashNext (hat : At h i rest) : ∃ i', hashNext h i = some i' ∧ Stands h i' rest := by
  obtain ⟨elem, hle, helem, hrest⟩ := hat.elem
  obtain ⟨i', hnext, hstands⟩ := nextLoop_eq hat.bucket (Nat.sub_le h.bucketCnt i.bucket) hle
  refine ⟨i', ?_, hrest ▸ hstands⟩
  rw [HashIteration.hashNext, helem, Option.bind_some, if_pos hle, hnext]

theorem At.subset (hat : At h i rest) : rest ⊆ stored h := by
  obtain ⟨elem, hle, -, rfl⟩ := hat.elem
  have hfrom : bucketsFrom h i.bucket = h.buckets i.bucket ++ bucketsFrom h (i.bucket + 1) :=
    bucketsFrom_of_lt hat.bucket
  intro e he
  have hmem : e ∈ bucketsFrom h i.bucket := by
    rw [hfrom]
    exact List.mem_append.mpr ((List.mem_append.mp he).imp_left List.mem_of_mem_drop)
  obtain ⟨b, hb, heb⟩ := List.mem_flatMap.mp hmem
  have hlt := (List.mem_range'_1.mp hb).2
  have hbucket := hat.bucket
  exact mem_contents.mpr ⟨b, by omega, heb⟩

/-- **An iteration visits what it has still to visit.** -/
theorem visitLoop_eq : ∀ {fuel : ℕ} {i : Iterator} {rest : List E}, At h i rest → rest.length < fuel →
    visitLoop h fuel i = some rest
  | fuel + 1, i, rest, hat, hfuel => by
    obtain ⟨i', hnext, hstands⟩ := hat.hashNext
    rw [visitLoop, hnext, Option.bind_some]
    cases rest with
    | nil => rw [show hashCur h i' = none from hstands]
    | cons e rest =>
      rw [show hashCur h i' = some e from hstands.1]
      dsimp only
      rw [visitLoop_eq hstands.2 (Nat.lt_of_succ_lt_succ hfuel), Option.map_some]

/-! ### Deleting while iterating -/

section Release

variable {hash : E → BitVec 32} {less : E → E → Bool} {m : E → Option E} {h' : Hash E} {x : E}

/-- There is a bucket to start with. -/
theorem bucketCnt_pos (ht : Table hash less h m) : 0 < h.bucketCnt := by
  obtain ⟨k, -, hk⟩ := ht.power
  rw [hk]
  exact Nat.two_pow_pos k

theorem mem_stored_iff (hc : Compatible hash less) (ht : Table hash less h m) : x ∈ stored h ↔ m x = some x := by
  rw [ht.represents.lookup]
  exact ⟨fun hx => ⟨hx, hc.equivalence.refl x⟩, fun hx => hx.1⟩

/-- What is stored after a deletion. -/
theorem mem_stored_drop (hc : Compatible hash less) (ht : Table hash less h m)
    (ht' : Table hash less h' (drop (same less) m e))
    (he : e ∈ stored h) : x ∈ stored h' ↔ x ∈ stored h ∧ x ≠ e := by
  rw [mem_stored_iff hc ht', mem_stored_iff hc ht, drop]
  split_ifs with hsame
  · refine iff_of_false not_false ?_
    rintro ⟨hx, hne⟩
    exact hne (ht.represents.eq_of_same hc.equivalence ((mem_stored_iff hc ht).mpr hx) he (hc.equivalence.symm hsame))
  · refine (and_iff_left ?_).symm
    rintro rfl
    exact hsame (hc.equivalence.refl x)

theorem length_stored_drop [DecidableEq E] (hc : Compatible hash less) (ht : Table hash less h m)
    (ht' : Table hash less h' (drop (same less) m e)) (he : e ∈ stored h) :
    (stored h').length < (stored h).length := by
  have hsub : stored h' ⊆ (stored h).erase e := fun x hx => by
    obtain ⟨hx, hne⟩ := (mem_stored_drop hc ht ht' he).mp hx
    exact (List.mem_erase_of_ne hne).mpr hx
  have hle := (List.subperm_of_subset (ht'.represents.nodup hc.equivalence) hsub).length_le
  rw [List.length_erase_of_mem he] at hle
  have hpos := List.length_pos_of_mem he
  omega

/-- The map without what matches does not notice that one of these is deleted. -/
theorem filter_drop {isMatch : E → Bool} (ht : Table hash less h m) (he : e ∈ stored h)
    (hmatch : isMatch e = true) :
    (fun a => (drop (same less) m e a).filter fun x => !isMatch x) = fun a => (m a).filter fun x => !isMatch x := by
  funext a
  unfold drop
  split_ifs with hsame
  · rw [(ht.represents.lookup a e).mpr ⟨he, hsame⟩, Option.filter_some, if_neg (by rw [hmatch]; decide)]
    rfl
  · rfl

theorem filter_of_forall {isMatch : E → Bool} (ht : Table hash less h m) (hno : ∀ e ∈ stored h, isMatch e = false) :
    (fun a => (m a).filter fun x => !isMatch x) = m := by
  funext a
  cases hm : m a with
  | none => rfl
  | some x =>
    have hx := hno x ((ht.represents.lookup a x).mp hm).1
    simp [hx]

variable {table : σ → Hash E} {isMatch : E → Bool} {release : ℕ → E → Op σ PUnit} {I : List E → σ → Prop}

/-- **The loop that releases** ends and has released what matches, each entry once, and deleted nothing else. The
iterator has passed only entries that do not match; each deletion makes the table smaller, which pays for starting
over. -/
theorem releaseLoop_yields [DecidableEq E] (hc : Compatible hash less)
    (hrelease : ∀ n l e s m, I l s → Table hash less (table s) m → e ∈ stored (table s) → isMatch e = true →
      Yields (release n e) s fun _ s' => I (l ++ [e]) s' ∧ Table hash less (table s') (drop (same less) m e)) :
    ∀ {fuel n : ℕ} {i : Iterator} {l rest : List E} {s : σ} {m : E → Option E}, I l s → Table hash less (table s) m →
      At (table s) i rest → (∀ e ∈ stored (table s), e ∈ rest ∨ isMatch e = false) →
      rest.length + 1 + (stored (table s)).length * (stored (table s)).length ≤ fuel →
      Yields (releaseLoop table isMatch release fuel i n) s fun n' s' => ∃ removed : List E, n' = n + removed.length ∧
        removed.Nodup ∧ (∀ e, e ∈ removed ↔ e ∈ stored (table s) ∧ isMatch e = true) ∧ I (l ++ removed) s' ∧
        Table hash less (table s') fun a => (m a).filter fun x => !isMatch x
  | 0, n, i, l, rest, s, m, hI, ht, hat, hpassed, hfuel => absurd hfuel (by omega)
  | fuel + 1, n, i, l, rest, s, m, hI, ht, hat, hpassed, hfuel => by
    obtain ⟨i', hnext, hstands⟩ := hat.hashNext
    rw [releaseLoop]
    refine Yields.bind (Yields.get (Yields.bind (Yields.deref hnext ?_)))
    cases rest with
    | nil =>
      have hno : ∀ e ∈ stored (table s), isMatch e = false := fun e he => (hpassed e he).resolve_left List.not_mem_nil
      rw [show hashCur (table s) i' = none from hstands]
      refine Yields.pure ⟨[], rfl, List.nodup_nil, fun e => ⟨fun he => absurd he List.not_mem_nil, ?_⟩,
        by rwa [List.append_nil], ?_⟩
      · rintro ⟨he, hmatch⟩
        rw [hno e he] at hmatch
        exact absurd hmatch Bool.false_ne_true
      · rwa [filter_of_forall ht hno]
    | cons e rest =>
      have he : e ∈ stored (table s) := hat.subset List.mem_cons_self
      rw [show hashCur (table s) i' = some e from hstands.1]
      dsimp only
      split_ifs with hmatch
      · refine Yields.bind ((hrelease n l e s m hI ht he hmatch).mono ?_)
        rintro _ s₁ ⟨hI₁, ht₁⟩
        have hless := length_stored_drop hc ht ht₁ he
        have hfuel₁ :
            (stored (table s₁)).length + 1 + (stored (table s₁)).length * (stored (table s₁)).length ≤ fuel := by
          have hsq := Nat.mul_self_le_mul_self (Nat.le_sub_one_of_lt hless)
          rw [List.length_cons] at hfuel
          obtain ⟨L, hL⟩ := Nat.exists_eq_succ_of_ne_zero (Nat.ne_of_gt (Nat.zero_lt_of_lt hless))
          rw [hL] at hsq hfuel hless
          simp only [Nat.succ_sub_one, Nat.succ_eq_add_one] at hsq hfuel
          nlinarith
        refine (releaseLoop_yields hc hrelease hI₁ ht₁ (at_hashFirst (bucketCnt_pos ht₁)) (fun x hx => Or.inl hx) hfuel₁).mono ?_
        rintro n' s' ⟨removed, rfl, hnodup, hmem, hI', ht'⟩
        refine ⟨e :: removed, by rw [List.length_cons]; omega, List.nodup_cons.mpr ⟨fun hin => ?_, hnodup⟩,
          fun x => ?_, ?_, ?_⟩
        · exact ((mem_stored_drop hc ht ht₁ he).mp ((hmem e).mp hin).1).2 rfl
        · rw [List.mem_cons, hmem, mem_stored_drop hc ht ht₁ he]
          constructor
          · rintro (rfl | ⟨⟨hx, -⟩, hx'⟩)
            · exact ⟨he, hmatch⟩
            · exact ⟨hx, hx'⟩
          · rintro ⟨hx, hx'⟩
            by_cases hxe : x = e
            · exact Or.inl hxe
            · exact Or.inr ⟨⟨hx, hxe⟩, hx'⟩
        · rwa [List.append_assoc, List.singleton_append] at hI'
        · rwa [filter_drop ht he hmatch] at ht'
      · have hpassed' : ∀ x ∈ stored (table s), x ∈ rest ∨ isMatch x = false := by
          intro x hx
          rcases hpassed x hx with hx | hx
          · rcases List.mem_cons.mp hx with rfl | hx
            · exact Or.inr (Bool.eq_false_iff.mpr hmatch)
            · exact Or.inl hx
          · exact Or.inr hx
        rw [List.length_cons] at hfuel
        exact releaseLoop_yields hc hrelease hI ht hstands.2 hpassed' (by omega)

/-- The loop from its start, with what is stored afterwards. -/
theorem releaseLoop_hashFirst [DecidableEq E] {s : σ} {fuel : ℕ} (hc : Compatible hash less)
    (hrelease : ∀ n l e s m, I l s → Table hash less (table s) m → e ∈ stored (table s) → isMatch e = true →
      Yields (release n e) s fun _ s' => I (l ++ [e]) s' ∧ Table hash less (table s') (drop (same less) m e))
    (hI : I [] s) (ht : Table hash less (table s) m)
    (hfuel : (table s).elemCnt * (table s).elemCnt + (table s).elemCnt < fuel) :
    Yields (releaseLoop table isMatch release fuel hashFirst 0) s fun n s' => ∃ removed : List E, n = removed.length ∧
      removed.Nodup ∧ (∀ e, e ∈ removed ↔ e ∈ stored (table s) ∧ isMatch e = true) ∧ I removed s' ∧
      (∀ e, e ∈ stored (table s') ↔ e ∈ stored (table s) ∧ isMatch e = false) ∧
      ∃ m', Table hash less (table s') m' := by
  rw [ht.count] at hfuel
  refine (releaseLoop_yields hc hrelease hI ht (at_hashFirst (bucketCnt_pos ht)) (fun x hx => Or.inl hx) (by omega)).mono ?_
  rintro n s' ⟨removed, hn, hnodup, hmem, hI', ht'⟩
  refine ⟨removed, by rw [hn, Nat.zero_add], hnodup, hmem, hI', fun e => ?_, _, ht'⟩
  rw [mem_stored_iff hc ht', mem_stored_iff hc ht, Option.filter_eq_some_iff, Bool.not_eq_true']

end Release

/-! ### The tables of the kernel -/

theorem compatible_hashVpage : Compatible hashVpage lessVpage := by
  refine compatible_of_key (k := Vpage.toVpageInfo) (fun vp1 vp2 => ?_) fun vp1 vp2 heq => congrArg vpageHash heq
  have heq : vp1.toVpageInfo = vp2.toVpageInfo ↔ vp1.uaddr = vp2.uaddr ∧ vp1.pid = vp2.pid := by
    rw [VpageInfo.mk.injEq]
  rw [lessVpage, vpageLess, heq]
  split_ifs with h <;> simp [h]

theorem compatible_hashDentry : Compatible hashDentry lessDentry := by
  refine compatible_of_key (k := fun e => e.path) (fun e1 e2 => ?_) fun e1 e2 heq => congrArg hashString heq
  rw [lessDentry, dentryCacheEntryLess, ← strcmp_eq_zero_iff]
  split_ifs with h <;> simp [h]

/-- What a vpage holds and gives back. -/
def held (vpi : Vpage) : List Backend :=
  match vpi.backend with
  | .inmem i => [.inmem i]
  | .lazy i => if i.file ≠ none then [.lazy i] else []
  | .swapped i => [.swapped i]

section Vpage

variable {s : VpageMap} {m : Vpage → Option Vpage} {malloc : Bool} {vpi : Vpage}

theorem deleteVpage_yields (ht : Table hashVpage lessVpage s.map m) : Yields (deleteVpage malloc vpi) s fun _ s' =>
    s'.given = s.given ∧ Table hashVpage lessVpage s'.map (drop (same lessVpage) m vpi) := by
  refine Yields.bind (Yields.zoom ((ht.hashDelete_yields compatible_hashVpage vpi).mono ?_))
  rintro _ map ⟨-, ht'⟩
  exact Yields.pure ⟨rfl, ht'⟩

/-- **`vpage_info_release_inner`** gives back what the vpage holds and deletes it. -/
theorem vpageInfoReleaseInner_yields (ht : Table hashVpage lessVpage s.map m) :
    Yields (vpageInfoReleaseInner malloc vpi) s fun _ s' =>
      s'.given = s.given ++ held vpi ∧ Table hashVpage lessVpage s'.map (drop (same lessVpage) m vpi) := by
  have hgive : ∀ b, Yields (do giveBack b; deleteVpage malloc vpi) s fun _ s' =>
      s'.given = s.given ++ [b] ∧ Table hashVpage lessVpage s'.map (drop (same lessVpage) m vpi) := fun b =>
    Yields.bind (Yields.modify (deleteVpage_yields ht))
  unfold vpageInfoReleaseInner held
  cases vpi.backend with
  | inmem i => exact hgive (.inmem i)
  | swapped i => exact hgive (.swapped i)
  | «lazy» i =>
    dsimp only
    split_ifs with hfile
    · exact hgive (.lazy i)
    · rw [List.append_nil]
      exact deleteVpage_yields ht

end Vpage

theorem dentryCacheInvalidate_release {s : Hash Dentry} {m : Dentry → Option Dentry} {dce : Dentry} {malloc : Bool}
    (ht : Table hashDentry lessDentry s m) : Yields (deleteDentry malloc dce) s fun _ s' =>
      Table hashDentry lessDentry s' (drop (same lessDentry) m dce) := by
  refine Yields.bind ((ht.hashDelete_yields compatible_hashDentry dce).mono ?_)
  rintro _ s' ⟨-, ht'⟩
  exact Yields.pure ht'

/-- **Iterating and starting over**: an iteration over a table that is not modified visits each element once;
`vpage_info_release_all` and `dentry_cache_invalidate` end and delete the entries of the process, or with the
inumber, and no others, whatever `malloc` does at the deletions. -/
theorem iteration_exact {hash : E → BitVec 32} {less : E → E → Bool} {m : E → Option E} {s : VpageMap}
    {mv : Vpage → Option Vpage} {d : Hash Dentry} {md : Dentry → Option Dentry} (malloc : ℕ → Bool) (pid : BitVec 32)
    (inumber : ℤ)
    (hc : Compatible hash less) (ht : Table hash less h m) (hv : Table hashVpage lessVpage s.map mv)
    (hd : Table hashDentry lessDentry d md) :
    (∃ es : List E, (∀ fuel, h.elemCnt < fuel → visitLoop h fuel hashFirst = some es) ∧ es.Nodup ∧
      ∀ e, e ∈ es ↔ e ∈ stored h) ∧
      (∀ fuel, s.map.elemCnt * s.map.elemCnt + s.map.elemCnt < fuel →
        Yields (vpageInfoReleaseAll fuel malloc pid) s fun _ s' =>
          (∀ vpi, vpi ∈ stored s'.map ↔ vpi ∈ stored s.map ∧ vpi.pid ≠ pid) ∧
          (∃ m', Table hashVpage lessVpage s'.map m') ∧
          ∃ released : List Vpage, released.Nodup ∧ (∀ vpi, vpi ∈ released ↔ vpi ∈ stored s.map ∧ vpi.pid = pid) ∧
            s'.given = s.given ++ released.flatMap held) ∧
      ∀ fuel, d.elemCnt * d.elemCnt + d.elemCnt < fuel →
        Yields (dentryCacheInvalidate fuel malloc inumber) d fun success d' =>
          (∀ dce, dce ∈ stored d' ↔ dce ∈ stored d ∧ dce.inumber ≠ inumber) ∧
            (∃ m', Table hashDentry lessDentry d' m') ∧
          (success = true ↔ ∃ dce ∈ stored d, dce.inumber = inumber) := by
  refine ⟨⟨stored h, fun fuel hfuel => ?_, ht.represents.nodup hc.equivalence, fun e => Iff.rfl⟩,
    fun fuel hfuel => ?_, fun fuel hfuel => ?_⟩
  · exact visitLoop_eq (at_hashFirst (bucketCnt_pos ht)) (by rwa [← ht.count])
  · refine Yields.bind ((releaseLoop_hashFirst (I := fun l s' => s'.given = s.given ++ l.flatMap held)
      compatible_hashVpage
      (fun n l vpi s₁ m₁ hI ht₁ _ _ => ?_) (by simp) hv hfuel).mono ?_)
    · refine (vpageInfoReleaseInner_yields ht₁).mono ?_
      rintro _ s₂ ⟨hgiven, ht₂⟩
      exact ⟨by rw [hgiven, hI]; simp, ht₂⟩
    · rintro n s' ⟨released, -, hnodup, hmem, hgiven, hstored, htable⟩
      exact Yields.pure
        ⟨fun vpi => by rw [hstored]; simp, htable, released, hnodup, fun vpi => by rw [hmem]; simp, hgiven⟩
  · refine Yields.bind ((releaseLoop_hashFirst (I := fun _ _ => True) compatible_hashDentry
      (fun n l dce s₁ m₁ _ ht₁ _ _ => ?_) trivial hd hfuel).mono ?_)
    · exact (dentryCacheInvalidate_release ht₁).mono fun _ s₂ ht₂ => ⟨trivial, ht₂⟩
    · rintro n d' ⟨released, rfl, -, hmem, -, hstored, htable⟩
      refine Yields.pure ⟨fun dce => by rw [show dce ∈ stored d' ↔ _ from hstored dce]; simp, htable, ?_⟩
      rw [decide_eq_true_eq, List.length_pos_iff_exists_mem]
      exact exists_congr fun dce => by rw [hmem]; simp

/-- The table of one element. -/
def single (hash : E → BitVec 32) (e : E) : Hash E :=
  ⟨1, 4, pushAt (fun i => if i < 4 then [] else []) (bucketIdx hash 4 e) e⟩

theorem table_single {hash : E → BitVec 32} {less : E → E → Bool} (hc : Compatible hash less) (e : E) :
    Table hash less (single hash e) (put (same less) (fun _ => none) e) := by
  have hinit : hashInit true (⟨7, 9, fun _ => []⟩ : Hash E) =
    some (true, ⟨0, 4, fun i => if i < 4 then [] else []⟩) := rfl
  exact ((table_hashInit hinit).insertElem_yields hc rfl).ensures _ _ rfl

/-- A swapped page of the process 1. -/
def aVpage : Vpage := ⟨⟨4096, 1⟩, .swapped ⟨8⟩⟩

/-- The entry of `/a`. -/
def aDentry : Dentry := ⟨⟨[47, 97]⟩, 3⟩

theorem iteration_exact_single :
    (∃ es : List Dentry, (∀ fuel, 1 < fuel → visitLoop (single hashDentry aDentry) fuel hashFirst = some es) ∧
      es.Nodup ∧
        ∀ e, e ∈ es ↔ e ∈ stored (single hashDentry aDentry)) ∧
      (∀ fuel, 1 * 1 + 1 < fuel → Yields (vpageInfoReleaseAll fuel (fun _ => false) 1)
        ⟨single hashVpage aVpage, []⟩ fun _ s' =>
        (∀ vpi, vpi ∈ stored s'.map ↔ vpi ∈ stored (single hashVpage aVpage) ∧ vpi.pid ≠ 1) ∧
          (∃ m', Table hashVpage lessVpage s'.map m') ∧
          ∃ released : List Vpage, released.Nodup ∧
            (∀ vpi, vpi ∈ released ↔ vpi ∈ stored (single hashVpage aVpage) ∧ vpi.pid = 1) ∧
            s'.given = [] ++ released.flatMap held) ∧
      ∀ fuel, 1 * 1 + 1 < fuel → Yields (dentryCacheInvalidate fuel (fun _ => false) 3) (single hashDentry aDentry)
        fun success d' =>
        (∀ dce, dce ∈ stored d' ↔ dce ∈ stored (single hashDentry aDentry) ∧ dce.inumber ≠ 3) ∧
          (∃ m', Table hashDentry lessDentry d' m') ∧
          (success = true ↔ ∃ dce ∈ stored (single hashDentry aDentry), dce.inumber = 3) :=
  iteration_exact (s := ⟨single hashVpage aVpage, []⟩) (fun _ => false) 1 3 compatible_hashDentry
    (table_single compatible_hashDentry aDentry)
    (table_single compatible_hashVpage aVpage) (table_single compatible_hashDentry aDentry)

end Pintos.Kernel.HashIteration
