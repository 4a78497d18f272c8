import Mathlib.Tactic

/-! # Elements by their classes

A list of elements, no two of them in the same class of an equivalence, stands for a finite map: from any
element to the one of its class that is in the list. The elements may be spread over buckets. -/

namespace Pintos.Lib.ClassTable

variable {E : Type} (same : E → E → Bool)

/-- The map with `e` for its class. -/
def put (m : E → Option E) (e : E) : E → Option E := fun a => if same e a then some e else m a

/-- The map without the class of `e`. -/
def drop (m : E → Option E) (e : E) : E → Option E := fun a => if same e a then none else m a

/-- The elements `xs` stand for the map `m`. -/
structure Represents (xs : List E) (m : E → Option E) : Prop where
  apart : xs.Pairwise fun a b => same a b = false
  lookup : ∀ a x, m a = some x ↔ x ∈ xs ∧ same x a = true

theorem put_drop (m : E → Option E) (e : E) : put same (drop same m e) e = put same m e := by
  funext a
  unfold put drop
  split_ifs <;> rfl

namespace Represents

variable {same} {xs ys : List E} {m : E → Option E} {e x : E}

theorem nil : Represents same [] fun _ => none := ⟨List.Pairwise.nil, by simp⟩

section

variable (hs : Equivalence fun a b => same a b = true)

include hs

theorem perm (h : Represents same xs m) (hp : ys.Perm xs) : Represents same ys m := by
  refine ⟨(hp.pairwise_iff fun {a b} hab => ?_).mpr h.apart, fun a x => by rw [h.lookup, hp.mem_iff]⟩
  exact Bool.eq_false_iff.mpr fun hba => Bool.eq_false_iff.mp hab (hs.symm hba)

theorem nodup (h : Represents same xs m) : xs.Nodup :=
  h.apart.imp fun {a b} hab (heq : a = b) => Bool.eq_false_iff.mp hab (heq ▸ hs.refl a)

/-- Elements of one class are one element. -/
theorem eq_of_same (h : Represents same xs m) {a b : E} (ha : a ∈ xs) (hb : b ∈ xs) (hab : same a b = true) :
    a = b := by
  have h1 := (h.lookup b a).mpr ⟨ha, hab⟩
  have h2 := (h.lookup b b).mpr ⟨hb, hs.refl b⟩
  exact Option.some.inj (h1.symm.trans h2)

theorem push (h : Represents same xs m) (hm : m e = none) : Represents same (e :: xs) (put same m e) := by
  have hnew : ∀ x ∈ xs, same x e = false := fun x hx =>
    Bool.eq_false_iff.mpr fun hxe => by simp [(h.lookup e x).mpr ⟨hx, hxe⟩] at hm
  refine ⟨List.pairwise_cons.mpr ⟨fun x hx => ?_, h.apart⟩, fun a x => ?_⟩
  · exact Bool.eq_false_iff.mpr fun hex => Bool.eq_false_iff.mp (hnew x hx) (hs.symm hex)
  · unfold put
    split_ifs with hea
    · constructor
      · rintro ⟨⟩
        exact ⟨List.mem_cons_self, hea⟩
      · rintro ⟨hx, hxa⟩
        rcases List.mem_cons.mp hx with rfl | hx
        · rfl
        · exact absurd (hs.trans hxa (hs.symm hea)) (Bool.eq_false_iff.mp (hnew x hx))
    · rw [h.lookup, List.mem_cons]
      constructor
      · rintro ⟨hx, hxa⟩
        exact ⟨Or.inr hx, hxa⟩
      · rintro ⟨rfl | hx, hxa⟩
        · exact absurd hxa hea
        · exact ⟨hx, hxa⟩

theorem remove [DecidableEq E] (h : Represents same xs m) (hm : m e = some x) :
    Represents same (xs.filter (· != x)) (drop same m e) := by
  obtain ⟨hx, hxe⟩ := (h.lookup e x).mp hm
  refine ⟨h.apart.filter _, fun a y => ?_⟩
  unfold drop
  rw [List.mem_filter, bne_iff_ne]
  split_ifs with hea
  · refine iff_of_false nofun ?_
    rintro ⟨⟨hy, hne⟩, hya⟩
    exact hne (h.eq_of_same hs hy hx (hs.trans hya (hs.symm (hs.trans hxe hea))))
  · rw [h.lookup]
    constructor
    · rintro ⟨hy, hya⟩
      refine ⟨⟨hy, fun heq => hea ?_⟩, hya⟩
      exact hs.trans (hs.symm hxe) (heq ▸ hya)
    · rintro ⟨⟨hy, -⟩, hya⟩
      exact ⟨hy, hya⟩

end

end Represents

/-! ### Buckets -/

/-- The elements of the first `n` buckets. -/
def contents (n : ℕ) (b : ℕ → List E) : List E := (List.range n).flatMap b

/-- The buckets with `e` in front of the `i`-th one. -/
def pushAt (b : ℕ → List E) (i : ℕ) (e : E) : ℕ → List E := Function.update b i (e :: b i)

variable {n i : ℕ} {b : ℕ → List E} {e : E}

theorem mem_pushAt {x : E} {j : ℕ} : x ∈ pushAt b i e j ↔ j = i ∧ x = e ∨ x ∈ b j := by
  unfold pushAt
  by_cases hj : j = i
  · rw [hj, Function.update_self, List.mem_cons]
    simp
  · rw [Function.update_of_ne hj]
    simp [hj]

theorem mem_contents : e ∈ contents n b ↔ ∃ i < n, e ∈ b i := by simp [contents]

theorem contents_congr {b' : ℕ → List E} (h : ∀ i < n, b i = b' i) : contents n b = contents n b' :=
  List.flatMap_congr fun i hi => h i (List.mem_range.mp hi)

theorem contents_nil : contents n (fun _ => ([] : List E)) = [] := by simp [contents]

theorem contents_succ (n : ℕ) (b : ℕ → List E) : contents (n + 1) b = contents n b ++ b n := by
  simp [contents, List.range_succ]

theorem perm_contents_pushAt : ∀ {n : ℕ}, i < n → (contents n (pushAt b i e)).Perm (e :: contents n b)
  | n + 1, hi => by
    rw [contents_succ, contents_succ]
    rcases (Nat.lt_succ_iff.mp hi).eq_or_lt with rfl | hi
    · have hbefore : contents i (pushAt b i e) = contents i b :=
        contents_congr fun j hj => Function.update_of_ne hj.ne _ _
      rw [hbefore, pushAt, Function.update_self]
      exact List.perm_middle
    · have hlast : pushAt b i e n = b n := Function.update_of_ne hi.ne' _ _
      rw [hlast, ← List.cons_append]
      exact (perm_contents_pushAt hi).append_right _

/-- Elements pushed one after the other, each to its place. -/
theorem perm_contents_foldl (place : E → ℕ) : ∀ {xs : List E} {b : ℕ → List E}, (∀ e ∈ xs, place e < n) →
    (contents n (xs.foldl (fun b e => pushAt b (place e) e) b)).Perm (xs ++ contents n b)
  | [], _, _ => List.Perm.refl _
  | x :: xs, b, h => by
    obtain ⟨hx, hxs⟩ := List.forall_mem_cons.mp h
    rw [List.foldl_cons]
    refine (perm_contents_foldl place hxs).trans ?_
    exact ((perm_contents_pushAt hx).append_left xs).trans List.perm_middle

theorem mem_foldl_pushAt (place : E → ℕ) : ∀ {xs : List E} {b : ℕ → List E}, (∀ i, ∀ e ∈ b i, place e = i) →
    ∀ i, ∀ e ∈ xs.foldl (fun b e => pushAt b (place e) e) b i, place e = i
  | [], _, h => h
  | x :: xs, b, h => by
    have hpush : ∀ i, ∀ e ∈ pushAt b (place x) x i, place e = i := by
      intro i e he
      rcases mem_pushAt.mp he with ⟨rfl, rfl⟩ | he
      · rfl
      · exact h i e he
    intro i
    rw [List.foldl_cons]
    exact mem_foldl_pushAt place hpush i

/-- An element taken out of the buckets. -/
theorem contents_erase [DecidableEq E] (x : E) (h : (contents n b).Nodup) :
    contents n (fun i => (b i).erase x) = (contents n b).filter (· != x) := by
  unfold contents
  rw [List.filter_flatMap]
  refine List.flatMap_congr fun i hi => ?_
  exact ((List.nodup_flatMap.mp h).1 i hi).erase_eq_filter x

end Pintos.Lib.ClassTable
