import Pintos.Lib.Ops
import Pintos.Lib.ClassTable

/-! # Hash tables

`lib/kernel/hash.c`: elements in buckets by their hash, with as many buckets as the number of elements asks
for. A bucket is the list of its elements, from the front on; an element that is removed is unlinked from
the bucket it is in. `hash` and `less` are functions of an element's data. Each operation is told whether
`malloc` succeeds, should `rehash` call it. -/

namespace Pintos.Kernel.HashTable

open Pintos.Lib.Ops Pintos.Lib.ClassTable

variable {E : Type}

/-- `struct hash`; what is behind the last bucket is not part of the table. -/
structure Hash (E : Type) where
  elemCnt : ℕ
  bucketCnt : ℕ
  buckets : ℕ → List E

variable (hash : E → BitVec 32) (less : E → E → Bool)

/-- Neither element is less than the other. -/
def same (a b : E) : Bool := !less a b && !less b a

/-- The index that `find_bucket` computes. -/
def bucketIdx (bucketCnt : ℕ) (e : E) : ℕ := (hash e).toNat &&& (bucketCnt - 1)

/-- `find_bucket`. -/
def findBucket (h : Hash E) (e : E) : ℕ := bucketIdx hash h.bucketCnt e

/-- `find_elem`. -/
def findElem (bucket : List E) (e : E) : Option E := bucket.find? fun hi => !less hi e && !less e hi

/-- `turn_off_least_1bit`. -/
def turnOffLeast1bit (x : ℕ) : ℕ := x &&& (x - 1)

/-- `is_power_of_2`. -/
def isPowerOf2 (x : ℕ) : Bool := x ≠ 0 && turnOffLeast1bit x = 0

/-- The loop of `rehash` that computes the number of buckets; each round turns a bit off. -/
def powerLoop : ℕ → ℕ → Option ℕ
  | 0, _ => none
  | fuel + 1, x => if isPowerOf2 x then some x else powerLoop fuel (turnOffLeast1bit x)

/-- `rehash`. -/
def rehash (malloc : Bool) : Op (Hash E) Unit := do
  let h ← get
  let newBucketCnt := h.elemCnt / 2
  let newBucketCnt := if newBucketCnt < 4 then 4 else newBucketCnt
  let newBucketCnt ← deref (powerLoop newBucketCnt newBucketCnt)
  if newBucketCnt = h.bucketCnt then pure ()
  else if malloc then
    set { h with
      bucketCnt := newBucketCnt
      buckets := (List.range h.bucketCnt).foldl (fun newBuckets i =>
        (h.buckets i).foldl (fun newBuckets e => pushAt newBuckets (bucketIdx hash newBucketCnt e) e) newBuckets)
        fun _ => [] }
  else pure ()

/-- `insert_elem`. -/
def insertElem (bucket : ℕ) (e : E) : Op (Hash E) Unit :=
  modify fun h => { h with elemCnt := h.elemCnt + 1, buckets := pushAt h.buckets bucket e }

/-- `remove_elem`. -/
def removeElem [DecidableEq E] (e : E) : Op (Hash E) Unit :=
  modify fun h => { h with elemCnt := h.elemCnt - 1, buckets := fun i => (h.buckets i).erase e }

/-- `hash_clear`; it returns the elements that `destructor` is called for. -/
def hashClear (destructor : Bool) : Op (Hash E) (List E) := do
  let h ← get
  set { h with elemCnt := 0, buckets := fun i => if i < h.bucketCnt then [] else h.buckets i }
  pure (if destructor then (List.range h.bucketCnt).flatMap h.buckets else [])

/-- `hash_init`. -/
def hashInit (malloc : Bool) : Op (Hash E) Bool := do
  modify fun h => { h with elemCnt := 0, bucketCnt := 4 }
  if malloc then do
    let _ ← hashClear false
    pure true
  else pure false

/-- `hash_insert`. -/
def hashInsert (malloc : Bool) (new : E) : Op (Hash E) (Option E) := do
  let h ← get
  let bucket := findBucket hash h new
  let old := findElem less (h.buckets bucket) new
  if old = none then insertElem bucket new else pure ()
  rehash hash malloc
  pure old

/-- `hash_replace`. -/
def hashReplace [DecidableEq E] (malloc : Bool) (new : E) : Op (Hash E) (Option E) := do
  let h ← get
  let bucket := findBucket hash h new
  let old := findElem less (h.buckets bucket) new
  match old with
  | some e => removeElem e
  | none => pure ()
  insertElem bucket new
  rehash hash malloc
  pure old

/-- `hash_find`. -/
def hashFind (e : E) : Op (Hash E) (Option E) := do
  let h ← get
  pure (findElem less (h.buckets (findBucket hash h e)) e)

/-- `hash_delete`. -/
def hashDelete [DecidableEq E] (malloc : Bool) (e : E) : Op (Hash E) (Option E) := do
  let h ← get
  match findElem less (h.buckets (findBucket hash h e)) e with
  | some found => do
    removeElem found
    rehash hash malloc
    pure (some found)
  | none => pure none

/-! ### Runs -/

/-- A call of the table's user. -/
inductive Request (E : Type) where
  | insert (new : E)
  | replace (new : E)
  | delete (e : E)
  | find (e : E)
  | clear (destructor : Bool)

/-- What a call returns, or what it destroys. -/
inductive Reply (E : Type) where
  | elem (e : Option E)
  | cleared (es : List E)

/-- One call. -/
def perform [DecidableEq E] (malloc : Bool) : Request E → Op (Hash E) (Reply E)
  | .insert new => return .elem (← hashInsert hash less malloc new)
  | .replace new => return .elem (← hashReplace hash less malloc new)
  | .delete e => return .elem (← hashDelete hash less malloc e)
  | .find e => return .elem (← hashFind hash less e)
  | .clear destructor => return .cleared (← hashClear destructor)

/-- A sequence of calls, each with what `malloc` does. -/
def performAll [DecidableEq E] : List (Request E × Bool) → Op (Hash E) (List (Reply E))
  | [] => pure []
  | (request, malloc) :: requests => do
    let reply ← perform hash less malloc request
    let replies ← performAll requests
    pure (reply :: replies)

/-- What a call means for the map from classes to elements. -/
def Answers (m : E → Option E) : Request E → Reply E → (E → Option E) → Prop
  | .insert new, reply, m' => reply = .elem (m new) ∧ m' = if m new = none then put (same less) m new else m
  | .replace new, reply, m' => reply = .elem (m new) ∧ m' = put (same less) m new
  | .delete e, reply, m' => reply = .elem (m e) ∧ m' = drop (same less) m e
  | .find e, reply, m' => reply = .elem (m e) ∧ m' = m
  | .clear destructor, reply, m' => m' = (fun _ => none) ∧
    ∃ es, reply = .cleared es ∧ es.Nodup ∧ ∀ e, e ∈ es ↔ destructor = true ∧ m e = some e

/-- What a sequence of calls means. -/
def AnswersAll : (E → Option E) → List (Request E × Bool) → List (Reply E) → (E → Option E) → Prop
  | m, [], [], m' => m' = m
  | m, (request, _) :: requests, reply :: replies, m' =>
      ∃ m₁, Answers less m request reply m₁ ∧ AnswersAll m₁ requests replies m'
  | _, _, _, _ => False

/-- The elements of the table. -/
def stored (h : Hash E) : List E := contents h.bucketCnt h.buckets

/-- The table `h` stands for the map `m`. -/
structure Table (h : Hash E) (m : E → Option E) : Prop where
  power : ∃ k, 2 ≤ k ∧ h.bucketCnt = 2 ^ k
  placed : ∀ i < h.bucketCnt, ∀ e ∈ h.buckets i, bucketIdx hash h.bucketCnt e = i
  count : h.elemCnt = (stored h).length
  represents : Represents (same less) (stored h) m

/-- Being the same is an equivalence, and the same elements have the same hash. -/
structure Compatible : Prop where
  equivalence : Equivalence fun a b => same less a b = true
  hash_eq : ∀ a b, same less a b = true → hash a = hash b

/-! ### The number of buckets -/

theorem testBit_of_le {x k : ℕ} (hle : 2 ^ k ≤ x) (hlt : x < 2 ^ (k + 1)) : x.testBit k = true := by
  have hdiv : x / 2 ^ k = 1 := Nat.div_eq_of_lt_le (by rwa [one_mul])
    (by rwa [← Nat.succ_eq_add_one, Nat.succ_mul, one_mul, ← two_mul, ← pow_succ'])
  rw [Nat.testBit_eq_decide_div_mod_eq, hdiv]
  rfl

/-- The greatest bit is not the one that is turned off. -/
theorem le_turnOffLeast1bit {x k : ℕ} (hlt : 2 ^ k < x) (hlt' : x < 2 ^ (k + 1)) : 2 ^ k ≤ turnOffLeast1bit x := by
  have hbit : (turnOffLeast1bit x).testBit k = true := by
    rw [turnOffLeast1bit, Nat.testBit_and, testBit_of_le hlt.le hlt',
      testBit_of_le (Nat.le_sub_one_of_lt hlt) (by omega)]
    rfl
  by_contra hnot
  rw [Nat.testBit_lt_two_pow (not_le.mp hnot)] at hbit
  exact Bool.false_ne_true hbit

theorem exists_power_le {x : ℕ} (hx : 4 ≤ x) : ∃ k, 2 ≤ k ∧ 2 ^ k ≤ x ∧ x < 2 ^ (k + 1) :=
  ⟨Nat.log 2 x, (Nat.le_log_iff_pow_le (by decide) (by omega)).mpr hx, Nat.pow_log_le_self 2 (by omega),
    Nat.lt_pow_succ_log_self (by decide) x⟩

/-- **The loop ends with a power of two**, and not below four. -/
theorem powerLoop_spec : ∀ {fuel x : ℕ}, 4 ≤ x → x ≤ fuel → ∃ k, 2 ≤ k ∧ powerLoop fuel x = some (2 ^ k)
  | 0, _, hx, hfuel => absurd hx (by omega)
  | fuel + 1, x, hx, hfuel => by
    obtain ⟨k, hk, hle, hlt⟩ := exists_power_le hx
    have hfour : 2 ^ 2 ≤ 2 ^ k := Nat.pow_le_pow_right (by decide) hk
    rw [powerLoop]
    split_ifs with hpow
    · refine ⟨k, hk, congrArg some ?_⟩
      by_contra hne
      have hge := le_turnOffLeast1bit (lt_of_le_of_ne hle (Ne.symm hne)) hlt
      simp only [isPowerOf2, Bool.and_eq_true, decide_eq_true_eq] at hpow
      omega
    · have hne : 2 ^ k ≠ x := by
        rintro rfl
        have hzero : turnOffLeast1bit (2 ^ k) = 0 := by
          rw [turnOffLeast1bit, Nat.and_two_pow_sub_one_eq_mod, Nat.mod_self]
        simp [isPowerOf2, hzero] at hpow
      have hge := le_turnOffLeast1bit (lt_of_le_of_ne hle hne) hlt
      have hless : turnOffLeast1bit x ≤ x - 1 := Nat.and_le_right
      exact powerLoop_spec (by omega) (by omega)

variable {hash : E → BitVec 32} {less : E → E → Bool} {h : Hash E} {m : E → Option E} {e x : E} {malloc : Bool}

theorem bucketIdx_lt (hash : E → BitVec 32) (hpow : ∃ k, 2 ≤ k ∧ h.bucketCnt = 2 ^ k) (e : E) :
    bucketIdx hash h.bucketCnt e < h.bucketCnt := by
  obtain ⟨k, -, hk⟩ := hpow
  rw [bucketIdx, hk, Nat.and_two_pow_sub_one_eq_mod]
  exact Nat.mod_lt _ (Nat.two_pow_pos k)

/-! ### Single operations -/

namespace Table

variable (hc : Compatible hash less)

include hc

/-- **`find_elem` in the bucket that `find_bucket` names.** -/
theorem findElem_eq (ht : Table hash less h m) (e : E) : findElem less (h.buckets (findBucket hash h e)) e = m e := by
  have hidx := bucketIdx_lt hash ht.power e
  cases hf : findElem less (h.buckets (findBucket hash h e)) e with
  | some x =>
    have hx := List.mem_of_find?_eq_some hf
    have hsame := List.find?_some hf
    exact ((ht.represents.lookup e x).mpr ⟨mem_contents.mpr ⟨_, hidx, hx⟩, hsame⟩).symm
  | none =>
    cases hm : m e with
    | none => rfl
    | some x =>
      obtain ⟨hx, hsame⟩ := (ht.represents.lookup e x).mp hm
      obtain ⟨i, hi, hxi⟩ := mem_contents.mp hx
      have hplace : findBucket hash h e = i := by
        rw [← ht.placed i hi x hxi, findBucket, bucketIdx, bucketIdx, hc.hash_eq x e hsame]
      have hnone := List.find?_eq_none.mp hf x (by rwa [hplace])
      exact absurd hsame hnone

theorem insertElem_yields (ht : Table hash less h m) (hm : m e = none) :
    Yields (insertElem (findBucket hash h e) e) h fun _ h' => Table hash less h' (put (same less) m e) := by
  have hidx := bucketIdx_lt hash ht.power e
  have hperm : (contents h.bucketCnt (pushAt h.buckets (findBucket hash h e) e)).Perm (e :: stored h) :=
    perm_contents_pushAt hidx
  refine Yields.modify ⟨ht.power, fun i hi x hx => ?_, ?_,
    (ht.represents.push hc.equivalence hm).perm hc.equivalence hperm⟩
  · rcases mem_pushAt.mp hx with ⟨rfl, rfl⟩ | hx
    · rfl
    · exact ht.placed i hi x hx
  · show h.elemCnt + 1 = (contents _ _).length
    rw [hperm.length_eq, List.length_cons, ht.count]

theorem removeElem_yields [DecidableEq E] (ht : Table hash less h m) (hm : m e = some x) :
    Yields (removeElem x) h fun _ h' => h'.bucketCnt = h.bucketCnt ∧ Table hash less h' (drop (same less) m e) := by
  have hx := ((ht.represents.lookup e x).mp hm).1
  have hnodup := ht.represents.nodup hc.equivalence
  have hstored : contents h.bucketCnt (fun i => (h.buckets i).erase x) = (stored h).filter (· != x) :=
    contents_erase x hnodup
  refine Yields.modify ⟨rfl, ht.power, fun i hi y hy => ht.placed i hi y (List.mem_of_mem_erase hy), ?_, ?_⟩
  · show h.elemCnt - 1 = (contents _ _).length
    rw [hstored, ← hnodup.erase_eq_filter, List.length_erase_of_mem hx, ht.count]
  · show Represents (same less) (contents _ _) _
    rw [hstored]
    exact ht.represents.remove hc.equivalence hm

/-- **`rehash`** moves the elements and keeps them, whatever `malloc` does. -/
theorem rehash_yields (ht : Table hash less h m) :
    Yields (rehash hash malloc) h fun _ h' => Table hash less h' m := by
  refine Yields.bind (Yields.get ?_)
  dsimp only
  set x := if h.elemCnt / 2 < 4 then 4 else h.elemCnt / 2 with hx
  have hfour : 4 ≤ x := by
    rw [hx]
    split_ifs <;> omega
  obtain ⟨k, hk, hpow⟩ := powerLoop_spec hfour le_rfl
  refine Yields.bind (Yields.deref hpow ?_)
  split_ifs
  · exact Yields.pure ht
  · have hlt : ∀ e ∈ stored h, bucketIdx hash (2 ^ k) e < 2 ^ k := fun e _ => by
      rw [bucketIdx, Nat.and_two_pow_sub_one_eq_mod]
      exact Nat.mod_lt _ (Nat.two_pow_pos k)
    rw [← List.foldl_flatMap]
    have hperm := perm_contents_foldl (b := fun _ => []) (bucketIdx hash (2 ^ k)) hlt
    rw [contents_nil, List.append_nil] at hperm
    refine Yields.set ⟨⟨k, hk, rfl⟩, fun i _ => mem_foldl_pushAt (bucketIdx hash (2 ^ k))
      (fun _ _ he => absurd he List.not_mem_nil) i, ?_, ht.represents.perm hc.equivalence hperm⟩
    exact ht.count.trans hperm.length_eq.symm
  · exact Yields.pure ht

theorem hashInsert_yields (ht : Table hash less h m) (new : E) :
    Yields (hashInsert hash less malloc new) h fun r h' =>
    r = m new ∧ Table hash less h' (if m new = none then put (same less) m new else m) := by
  refine Yields.bind (Yields.get ?_)
  dsimp only
  rw [ht.findElem_eq hc]
  split_ifs with hm
  · refine Yields.bind ((ht.insertElem_yields hc hm).mono fun _ h₁ ht₁ => ?_)
    exact Yields.bind ((ht₁.rehash_yields hc).mono fun _ h₂ ht₂ => Yields.pure ⟨rfl, ht₂⟩)
  · exact Yields.bind ((ht.rehash_yields hc).mono fun _ h₂ ht₂ => Yields.pure ⟨rfl, ht₂⟩)

theorem hashReplace_yields [DecidableEq E] (ht : Table hash less h m) (new : E) :
    Yields (hashReplace hash less malloc new) h fun r h' =>
    r = m new ∧ Table hash less h' (put (same less) m new) := by
  refine Yields.bind (Yields.get ?_)
  dsimp only
  rw [ht.findElem_eq hc]
  cases hm : m new with
  | none =>
    refine Yields.bind ((ht.insertElem_yields hc hm).mono fun _ h₁ ht₁ => ?_)
    exact Yields.bind ((ht₁.rehash_yields hc).mono fun _ h₂ ht₂ => Yields.pure ⟨rfl, ht₂⟩)
  | some old =>
    refine Yields.bind ((ht.removeElem_yields hc hm).mono ?_)
    rintro _ h₁ ⟨hcnt, ht₁⟩
    have hnone : drop (same less) m new new = none := by
      rw [drop, if_pos (hc.equivalence.refl new)]
    have hbucket : findBucket hash h new = findBucket hash h₁ new := by rw [findBucket, findBucket, hcnt]
    rw [hbucket]
    have hinsert := ht₁.insertElem_yields hc hnone
    rw [put_drop] at hinsert
    refine Yields.bind (hinsert.mono fun _ h₂ ht₂ => ?_)
    exact Yields.bind ((ht₂.rehash_yields hc).mono fun _ h₃ ht₃ => Yields.pure ⟨rfl, ht₃⟩)

theorem hashFind_yields (ht : Table hash less h m) (e : E) : Yields (hashFind hash less e) h fun r h' =>
    r = m e ∧ Table hash less h' m :=
  Yields.bind (Yields.get (Yields.pure ⟨ht.findElem_eq hc e, ht⟩))

theorem hashDelete_yields [DecidableEq E] (ht : Table hash less h m) (e : E) :
    Yields (hashDelete hash less malloc e) h fun r h' =>
    r = m e ∧ Table hash less h' (drop (same less) m e) := by
  refine Yields.bind (Yields.get ?_)
  rw [ht.findElem_eq hc]
  cases hm : m e with
  | none =>
    have hdrop : drop (same less) m e = m := by
      funext a
      unfold drop
      split_ifs with hea
      · refine (Option.eq_none_iff_forall_ne_some.mpr fun x hx => ?_).symm
        obtain ⟨hmem, hsame⟩ := (ht.represents.lookup a x).mp hx
        have he := (ht.represents.lookup e x).mpr ⟨hmem, hc.equivalence.trans hsame (hc.equivalence.symm hea)⟩
        rw [hm] at he
        exact absurd he (by simp)
      · rfl
    rw [hdrop]
    exact Yields.pure ⟨rfl, ht⟩
  | some found =>
    refine Yields.bind ((ht.removeElem_yields hc hm).mono ?_)
    rintro _ h₁ ⟨-, ht₁⟩
    exact Yields.bind ((ht₁.rehash_yields hc).mono fun _ h₂ ht₂ => Yields.pure ⟨rfl, ht₂⟩)

/-- **`hash_clear`** destroys each element once. -/
theorem hashClear_yields (ht : Table hash less h m) (destructor : Bool) : Yields (hashClear destructor) h fun es h' =>
    (es.Nodup ∧ ∀ e, e ∈ es ↔ destructor = true ∧ m e = some e) ∧ Table hash less h' fun _ => none := by
  have hempty : contents h.bucketCnt (fun i => if i < h.bucketCnt then [] else h.buckets i) = [] := by
    rw [contents_congr fun i hi => if_pos hi]
    exact contents_nil
  refine Yields.bind (Yields.get (Yields.bind (Yields.set (Yields.pure ⟨?_, ht.power, fun i hi e he => ?_, ?_, ?_⟩))))
  · cases destructor
    · simp
    · refine ⟨ht.represents.nodup hc.equivalence, fun e => ?_⟩
      rw [if_pos rfl, ht.represents.lookup]
      exact ⟨fun he => ⟨rfl, he, hc.equivalence.refl e⟩, fun he => he.2.1⟩
  · have hnil : (if i < h.bucketCnt then [] else h.buckets i) = [] := if_pos hi
    have hmem : e ∈ (if i < h.bucketCnt then [] else h.buckets i) := he
    rw [hnil] at hmem
    exact absurd hmem List.not_mem_nil
  · show 0 = (contents _ _).length
    rw [hempty]
    rfl
  · show Represents (same less) (contents _ _) _
    rw [hempty]
    exact Represents.nil

/-- **One call** does to the table what it means. -/
theorem perform_yields [DecidableEq E] (ht : Table hash less h m) (request : Request E) :
    Yields (perform hash less malloc request) h fun reply h' =>
    ∃ m', Answers less m request reply m' ∧ Table hash less h' m' := by
  cases request with
  | insert new =>
    refine Yields.bind ((ht.hashInsert_yields hc new).mono ?_)
    rintro _ h' ⟨rfl, ht'⟩
    exact Yields.pure ⟨_, ⟨rfl, rfl⟩, ht'⟩
  | replace new =>
    refine Yields.bind ((ht.hashReplace_yields hc new).mono ?_)
    rintro _ h' ⟨rfl, ht'⟩
    exact Yields.pure ⟨_, ⟨rfl, rfl⟩, ht'⟩
  | delete e =>
    refine Yields.bind ((ht.hashDelete_yields hc e).mono ?_)
    rintro _ h' ⟨rfl, ht'⟩
    exact Yields.pure ⟨_, ⟨rfl, rfl⟩, ht'⟩
  | find e =>
    refine Yields.bind ((ht.hashFind_yields hc e).mono ?_)
    rintro _ h' ⟨rfl, ht'⟩
    exact Yields.pure ⟨_, ⟨rfl, rfl⟩, ht'⟩
  | clear destructor =>
    refine Yields.bind ((ht.hashClear_yields hc destructor).mono ?_)
    rintro es h' ⟨⟨hnodup, hes⟩, ht'⟩
    exact Yields.pure ⟨_, ⟨rfl, es, rfl, hnodup, hes⟩, ht'⟩

theorem performAll_yields [DecidableEq E] :
    ∀ {requests : List (Request E × Bool)} {h : Hash E} {m : E → Option E}, Table hash less h m →
    Yields (performAll hash less requests) h fun replies h' =>
      ∃ m', AnswersAll less m requests replies m' ∧ Table hash less h' m'
  | [], _, m, ht => Yields.pure ⟨m, rfl, ht⟩
  | (request, malloc) :: requests, h, m, ht => by
    refine Yields.bind ((ht.perform_yields hc request).mono ?_)
    rintro reply h₁ ⟨m₁, hanswer, ht₁⟩
    refine Yields.bind ((performAll_yields ht₁).mono ?_)
    rintro replies h₂ ⟨m₂, hanswers, ht₂⟩
    exact Yields.pure ⟨m₂, ⟨m₁, hanswer, hanswers⟩, ht₂⟩

end Table

/-! ### The tables of the kernel -/

/-- A comparison that only tells whether two keys differ, with a hash of the key. -/
theorem compatible_of_key {K : Type} {k : E → K} (hless : ∀ a b, less a b = false ↔ k a = k b)
    (hhash : ∀ a b, k a = k b → hash a = hash b) : Compatible hash less := by
  have hsame : ∀ a b, same less a b = true ↔ k a = k b := fun a b => by
    rw [same, Bool.and_eq_true, Bool.not_eq_true', Bool.not_eq_true', hless, hless]
    exact ⟨fun hab => hab.1, fun hab => ⟨hab, hab.symm⟩⟩
  refine ⟨⟨fun a => (hsame a a).mpr rfl, fun {a b} hab => ?_, fun {a b c} hab hbc => ?_⟩, fun a b hab => ?_⟩
  · exact (hsame b a).mpr ((hsame a b).mp hab).symm
  · exact (hsame a c).mpr (((hsame a b).mp hab).trans ((hsame b c).mp hbc))
  · exact hhash a b ((hsame a b).mp hab)

/-- What the table of pages looks at in a `struct vpage_info`. -/
structure VpageInfo where
  uaddr : BitVec 32
  pid : BitVec 32
  deriving DecidableEq

/-- `vpage_hash`. -/
def vpageHash (vp : VpageInfo) : BitVec 32 :=
  let v1 := vp.uaddr
  let v2 := vp.pid
  v1 * v2

/-- `vpage_less`. -/
def vpageLess (vp1 vp2 : VpageInfo) : Bool := if vp1.uaddr = vp2.uaddr ∧ vp1.pid = vp2.pid then false else true

theorem compatible_vpage : Compatible vpageHash vpageLess := by
  refine compatible_of_key (k := fun vp => vp) (fun vp1 vp2 => ?_) fun vp1 vp2 heq => heq ▸ rfl
  cases vp1
  cases vp2
  simp [vpageLess]

/-- `strcmp`, of strings without the null byte that ends them. -/
def strcmp : List UInt8 → List UInt8 → ℤ
  | [], [] => 0
  | [], _ :: _ => -1
  | _ :: _, [] => 1
  | a :: s, b :: t => if a = b then strcmp s t else if a < b then -1 else 1

/-- `hash_string`. -/
def hashString (s : List UInt8) : BitVec 32 :=
  s.foldl (fun hash c => (hash * 16777619#32) ^^^ c.toBitVec.setWidth 32) 2166136261#32

/-- What the table of directory entries looks at in a `struct dentry_cache_entry`. -/
structure DentryCacheEntry where
  path : List UInt8
  deriving DecidableEq

/-- `dentry_cache_entry_hash_func`. -/
def dentryCacheEntryHashFunc (e : DentryCacheEntry) : BitVec 32 := hashString e.path

/-- `dentry_cache_entry_less`. -/
def dentryCacheEntryLess (e1 e2 : DentryCacheEntry) : Bool := if strcmp e1.path e2.path = 0 then false else true

theorem strcmp_eq_zero_iff : ∀ {s t : List UInt8}, strcmp s t = 0 ↔ s = t
  | [], [] => by simp [strcmp]
  | [], _ :: _ => by simp [strcmp]
  | _ :: _, [] => by simp [strcmp]
  | a :: s, b :: t => by
    rw [strcmp, List.cons_eq_cons]
    split_ifs with hab hlt
    · rw [strcmp_eq_zero_iff]
      exact ⟨fun h => ⟨hab, h⟩, fun h => h.2⟩
    · simp [hab]
    · simp [hab]

theorem compatible_dentryCacheEntry : Compatible dentryCacheEntryHashFunc dentryCacheEntryLess := by
  refine compatible_of_key (k := DentryCacheEntry.path) (fun e1 e2 => ?_) fun e1 e2 heq => congrArg hashString heq
  rw [← strcmp_eq_zero_iff, dentryCacheEntryLess]
  split_ifs with h <;> simp [h]

/-! ### All runs -/

theorem table_hashInit {h₀ : Hash E} (hinit : hashInit malloc h₀ = some (true, h)) :
    Table hash less h fun _ => none := by
  have hensures : Ensures (hashInit malloc) h₀ fun r h' => r = true →
      h' = { h₀ with elemCnt := 0, bucketCnt := 4, buckets := fun i => if i < 4 then [] else h₀.buckets i } := by
    refine Ensures.bind (Ensures.modify (Ensures.ite (fun _ => ?_) fun _ => Ensures.pure nofun))
    exact Ensures.bind (Ensures.bind (Ensures.get (Ensures.bind
      (Ensures.set (Ensures.pure (Ensures.pure fun _ => rfl))))))
  rw [hensures true h hinit rfl]
  have hempty : contents 4 (fun i => if i < 4 then [] else h₀.buckets i) = [] := by
    rw [contents_congr fun i hi => if_pos hi]
    exact contents_nil
  refine ⟨⟨2, le_rfl, rfl⟩, fun i hi e he => ?_, ?_, ?_⟩
  · have hmem : e ∈ (if i < 4 then [] else h₀.buckets i) := he
    rw [if_pos hi] at hmem
    exact absurd hmem List.not_mem_nil
  · exact (congrArg List.length hempty).symm
  · exact hempty.symm ▸ Represents.nil

/-- **A hash table is a finite map**: any sequence of calls on an initialised table returns, its answers are those
of the map from classes to elements, and the table it leaves stands for that map. -/
theorem performAll_answersAll [DecidableEq E] {h₀ : Hash E} (hc : Compatible hash less)
    (hinit : hashInit malloc h₀ = some (true, h)) (requests : List (Request E × Bool)) :
    (Yields (performAll hash less requests) h fun replies h' =>
      ∃ m, AnswersAll less (fun _ => none) requests replies m ∧ Table hash less h' m) ∧
    Compatible vpageHash vpageLess ∧ Compatible dentryCacheEntryHashFunc dentryCacheEntryLess :=
  ⟨(table_hashInit hinit).performAll_yields hc, compatible_vpage, compatible_dentryCacheEntry⟩

theorem performAll_answersAll_two :
    (Yields (performAll vpageHash vpageLess [(.insert ⟨4096, 1⟩, true), (.delete ⟨4096, 1⟩, false)]) ⟨0, 4,
      fun i => if i < 4 then [] else []⟩
      fun replies h' => ∃ m, AnswersAll vpageLess
      (fun _ => none) [(.insert ⟨4096, 1⟩, true), (.delete ⟨4096, 1⟩, false)] replies m ∧
        Table vpageHash vpageLess h' m) ∧
    Compatible vpageHash vpageLess ∧ Compatible dentryCacheEntryHashFunc dentryCacheEntryLess := by
  have hinit : hashInit true (⟨7, 9, fun _ => []⟩ : Hash VpageInfo) =
    some (true, ⟨0, 4, fun i => if i < 4 then [] else []⟩) := rfl
  exact performAll_answersAll compatible_vpage hinit _

end Pintos.Kernel.HashTable
