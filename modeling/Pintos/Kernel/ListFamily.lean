import Pintos.Kernel.ListOps
import Pintos.Lib.Runs

/-! # All lists of a memory

The lists of the kernel stand in one memory: an element has one pair of links, and is in one list at a time. Here
are any number of lists and any order of calls of `lib/kernel/list.c` on them. `ListStep` says what the calls do to
lists of elements; it knows of no links. Every run of these steps is what the code computes, from any memory at all:
no assertion fails, every call returns, with enough fuel for its loops, and gives the same answer, and the links of
all lists are in order after it. -/

namespace Pintos.Kernel.ListFamily

open Pintos.Lib.Ops Pintos.Lib.Runs Pintos.Lib.StableMerge Pintos.Kernel.ListLinks Pintos.Kernel.ListSort
open Pintos.Kernel.ListOps

variable {I E : Type}

/-- The calls of `list.c`. -/
inductive ListCall (I E : Type)
  | init (list : I)
  | begin (list : I)
  | rbegin (list : I)
  | next (elem : E)
  | prev (elem : E)
  | insert (before elem : E)
  | pushFront (list : I) (elem : E)
  | pushBack (list : I) (elem : E)
  | remove (elem : E)
  | popFront (list : I)
  | popBack (list : I)
  | front (list : I)
  | back (list : I)
  | size (list : I)
  | empty (list : I)
  | splice (before first last : E)
  | reverse (list : I)
  | sort (list : I) (less : E → E → Bool)
  | insertOrdered (list : I) (elem : E) (less : E → E → Bool)
  | unique (list : I) (duplicates : Option I) (less : E → E → Bool)
  | max (list : I) (less : E → E → Bool)
  | min (list : I) (less : E → E → Bool)

inductive Reply (E : Type)
  | done
  | elem (e : E)
  | count (cnt : ℕ)
  | flag (b : Bool)

section Calls

variable [DecidableEq E]

/-- A call on the links. -/
def listCall (lists : I → KList E) (fuel : ℕ) : ListCall I E → Op (Links E) (Reply E)
  | .init i => do listInit (lists i); return .done
  | .begin i => do return .elem (← listBegin (lists i))
  | .rbegin i => do return .elem (← listRbegin (lists i))
  | .next e => do return .elem (← listNext e)
  | .prev e => do return .elem (← listPrev e)
  | .insert before e => do listInsert before e; return .done
  | .pushFront i e => do listPushFront (lists i) e; return .done
  | .pushBack i e => do listPushBack (lists i) e; return .done
  | .remove e => do return .elem (← listRemove e)
  | .popFront i => do return .elem (← listPopFront (lists i))
  | .popBack i => do return .elem (← listPopBack (lists i))
  | .front i => do return .elem (← listFront (lists i))
  | .back i => do return .elem (← listBack (lists i))
  | .size i => do return .count (← listSize fuel (lists i))
  | .empty i => do return .flag (← listEmpty (lists i))
  | .splice before first last => do listSplice before first last; return .done
  | .reverse i => do listReverse fuel (lists i); return .done
  | .sort i less => do listSort less fuel (lists i); return .done
  | .insertOrdered i e less => do listInsertOrdered less fuel (lists i) e; return .done
  | .unique i duplicates less => do listUnique less fuel (lists i) (duplicates.map lists); return .done
  | .max i less => do return .elem (← listMax less fuel (lists i))
  | .min i less => do return .elem (← listMin less fuel (lists i))

/-- One call after the other. -/
def listCalls (lists : I → KList E) (fuel : ℕ) : List (ListCall I E) → Op (Links E) (List (Reply E))
  | [] => pure []
  | a :: as => do
    let r ← listCall lists fuel a
    let rs ← listCalls lists fuel as
    return r :: rs

end Calls

/-! ### Lists without links -/

/-- The elements of every list that was initialised. -/
abbrev Contents (I E : Type) := I → Option (List E)

/-- No list but those of `K` has the element. -/
def Outside (lists : I → KList E) (c : Contents I E) (K : I → Prop) (x : E) : Prop :=
  ∀ i xs, ¬K i → c i = some xs → x ∉ nodes (lists i) xs

/-- No list has the element. -/
def Fresh (lists : I → KList E) (c : Contents I E) (x : E) : Prop := Outside lists c (fun _ => False) x

section Steps

variable [DecidableEq I] [DecidableEq E] (lists : I → KList E)

/-- **What the calls do to the elements of the lists.** An element that is inserted is in no list, an element that is
asked for is in one. -/
inductive ListStep (c : Contents I E) : ListCall I E × Reply E → Contents I E → Prop
  | init {i : I} : (lists i).head ≠ (lists i).tail → Outside lists c (· = i) (lists i).head →
      Outside lists c (· = i) (lists i).tail → ListStep c (.init i, .done) (Function.update c i (some []))
  | begin {i : I} {xs : List E} : c i = some xs → ListStep c (.begin i, .elem (cursor (lists i) xs)) c
  | rbegin {i : I} {xs : List E} : c i = some xs → ListStep c (.rbegin i, .elem (cursorBack (lists i) xs)) c
  | next {i : I} {P S : List E} : c i = some (P ++ S) →
      ListStep c (.next (cursorBack (lists i) P), .elem (cursor (lists i) S)) c
  | prev {i : I} {P S : List E} : c i = some (P ++ S) →
      ListStep c (.prev (cursor (lists i) S), .elem (cursorBack (lists i) P)) c
  | insert {i : I} {P S : List E} {x : E} : c i = some (P ++ S) → Fresh lists c x →
      ListStep c (.insert (cursor (lists i) S) x, .done) (Function.update c i (some (P ++ x :: S)))
  | pushFront {i : I} {xs : List E} {x : E} : c i = some xs → Fresh lists c x →
      ListStep c (.pushFront i x, .done) (Function.update c i (some (x :: xs)))
  | pushBack {i : I} {xs : List E} {x : E} : c i = some xs → Fresh lists c x →
      ListStep c (.pushBack i x, .done) (Function.update c i (some (xs ++ [x])))
  | remove {i : I} {P S : List E} {x : E} : c i = some (P ++ x :: S) →
      ListStep c (.remove x, .elem (cursor (lists i) S)) (Function.update c i (some (P ++ S)))
  | popFront {i : I} {xs : List E} {x : E} : c i = some (x :: xs) →
      ListStep c (.popFront i, .elem x) (Function.update c i (some xs))
  | popBack {i : I} {xs : List E} {x : E} : c i = some (xs ++ [x]) →
      ListStep c (.popBack i, .elem x) (Function.update c i (some xs))
  | front {i : I} {xs : List E} {x : E} : c i = some (x :: xs) → ListStep c (.front i, .elem x) c
  | back {i : I} {xs : List E} {x : E} : c i = some (xs ++ [x]) → ListStep c (.back i, .elem x) c
  | size {i : I} {xs : List E} : c i = some xs → ListStep c (.size i, .count xs.length) c
  | empty {i : I} {xs : List E} : c i = some xs → ListStep c (.empty i, .flag xs.isEmpty) c
  | spliceNothing {i : I} {P S : List E} {x : E} : c i = some (P ++ S) →
      ListStep c (.splice (cursor (lists i) S) x x, .done) c
  | spliceWithin {i : I} {P B S P' S' : List E} : c i = some (P ++ B ++ S) → P ++ S = P' ++ S' → P ≠ P' → B ≠ [] →
      ListStep c (.splice (cursor (lists i) S') (cursor (lists i) (B ++ S)) (cursor (lists i) S), .done)
        (Function.update c i (some (P' ++ B ++ S')))
  | spliceBetween {i j : I} {P B S P' S' : List E} : c i = some (P ++ B ++ S) → c j = some (P' ++ S') → i ≠ j →
      B ≠ [] → ListStep c (.splice (cursor (lists j) S') (cursor (lists i) (B ++ S)) (cursor (lists i) S), .done)
        (Function.update (Function.update c i (some (P ++ S))) j (some (P' ++ B ++ S')))
  | reverse {i : I} {xs : List E} : c i = some xs →
      ListStep c (.reverse i, .done) (Function.update c i (some xs.reverse))
  | sort {i : I} {xs ys : List E} {less : E → E → Bool} : IsStrictWeakOrder E (fun a b => less a b = true) →
      c i = some xs → ys.Perm xs → ys.Pairwise (fun a b => less b a = false) →
      (∀ e, ys.filter (tied less e) = xs.filter (tied less e)) →
      ListStep c (.sort i less, .done) (Function.update c i (some ys))
  | insertOrdered {i : I} {xs : List E} {x : E} {less : E → E → Bool} : c i = some xs → Fresh lists c x →
      ListStep c (.insertOrdered i x less, .done)
        (Function.update c i (some (xs.orderedInsert (fun a b => less a b = true) x)))
  | unique {i : I} {xs : List E} {less : E → E → Bool} : c i = some xs → ListStep c (.unique i none less, .done)
      (Function.update c i (some (xs.destutter (Differ less))))
  | uniqueTo {i j : I} {xs ys : List E} {less : E → E → Bool} : c i = some xs → c j = some ys → i ≠ j →
      ListStep c (.unique i (some j) less, .done) (Function.update
        (Function.update c i (some (xs.destutter (Differ less)))) j (some (ys ++ duplicatesOf less xs)))
  | max {i : I} {xs : List E} {less : E → E → Bool} : c i = some xs →
      ListStep c (.max i less, .elem (bestOf (fun e max => less max e) (lists i) xs)) c
  | min {i : I} {xs : List E} {less : E → E → Bool} : c i = some xs →
      ListStep c (.min i less, .elem (bestOf (fun e min => less e min) (lists i) xs)) c

end Steps

/-! ### Lists with links -/

/-- **The links of all lists are in order**, and no two lists have an element in common. -/
structure Heap (lists : I → KList E) (m : Links E) (c : Contents I E) : Prop where
  linked : ∀ {i xs}, c i = some xs → Linked m (lists i) xs
  apart : ∀ {i j xs ys}, c i = some xs → c j = some ys → i ≠ j → ∀ x ∈ nodes (lists i) xs, x ∉ nodes (lists j) ys

/-- Any memory, before the first list is initialised. -/
theorem heap_none (lists : I → KList E) (m : Links E) : Heap lists m fun _ => none where
  linked h := by cases h
  apart h := by cases h

variable {lists : I → KList E} {m m' : Links E} {c c' : Contents I E} {K : I → Prop} {i j : I}
  {xs ys ws P S : List E} {x : E}

theorem Heap.outside (h : Heap lists m c) (hi : c i = some xs) (hK : K i) (hx : x ∈ nodes (lists i) xs) :
    Outside lists c K x := fun j _ hj hys =>
  h.apart hi hys (by rintro rfl; exact hj hK) x hx

theorem Fresh.outside (h : Fresh lists c x) : Outside lists c K x := fun i xs _ hxs => h i xs not_false hxs

/-- **The lists of `K` change**, and only links of elements that no other list has are written. -/
theorem Heap.change (h : Heap lists m c) (hc : Confined ws m m') (hws : ∀ x ∈ ws, Outside lists c K x)
    (hsame : ∀ i, ¬K i → c' i = c i) (hlinked : ∀ {i xs}, K i → c' i = some xs → Linked m' (lists i) xs)
    (hout : ∀ {i xs}, K i → c' i = some xs → ∀ x ∈ nodes (lists i) xs, Outside lists c K x)
    (hapart : ∀ {i j xs ys}, K i → K j → i ≠ j → c' i = some xs → c' j = some ys →
      ∀ x ∈ nodes (lists i) xs, x ∉ nodes (lists j) ys) : Heap lists m' c' where
  linked {i xs} hi := by
    by_cases hK : K i
    · exact hlinked hK hi
    · rw [hsame i hK] at hi
      exact chained_frame (h.linked hi) hc fun x hx hxw => hws x hxw i xs hK hi hx
  apart {i j xs ys} hi hj hne x hx hy := by
    by_cases hKi : K i <;> by_cases hKj : K j
    · exact hapart hKi hKj hne hi hj x hx hy
    · exact hout hKi hi x hx j ys hKj (hsame j hKj ▸ hj) hy
    · exact hout hKj hj x hy i xs hKi (hsame i hKi ▸ hi) hx
    · exact h.apart (hsame i hKi ▸ hi) (hsame j hKj ▸ hj) hne x hx hy

variable [DecidableEq I]

/-- One list changes. -/
theorem Heap.update (h : Heap lists m c) (hlinked : Linked m' (lists i) xs) (hc : Confined ws m m')
    (hws : ∀ x ∈ ws, Outside lists c (· = i) x) (hxs : ∀ x ∈ nodes (lists i) xs, Outside lists c (· = i) x) :
    Heap lists m' (Function.update c i (some xs)) := by
  refine h.change (K := (· = i)) hc hws (fun j hj => Function.update_of_ne hj _ _) ?_ ?_ ?_
  · rintro _ ys rfl hy
    rw [Function.update_self] at hy
    obtain rfl := Option.some.inj hy
    exact hlinked
  · rintro _ ys rfl hy
    rw [Function.update_self] at hy
    obtain rfl := Option.some.inj hy
    exact hxs
  · rintro _ _ _ _ rfl rfl hne
    exact absurd rfl hne

/-- Two lists change. -/
theorem Heap.update₂ (h : Heap lists m c) (hij : i ≠ j) (hi : Linked m' (lists i) xs) (hj : Linked m' (lists j) ys)
    (hc : Confined ws m m') (hws : ∀ x ∈ ws, Outside lists c (fun k => k = i ∨ k = j) x)
    (hxs : ∀ x ∈ nodes (lists i) xs, x ∈ ws) (hys : ∀ x ∈ nodes (lists j) ys, x ∈ ws)
    (hd : ∀ x ∈ nodes (lists i) xs, x ∉ nodes (lists j) ys) :
    Heap lists m' (Function.update (Function.update c i (some xs)) j (some ys)) := by
  have hatI : ∀ {zs}, Function.update (Function.update c i (some xs)) j (some ys) i = some zs → xs = zs := by
    intro zs hz
    rw [Function.update_of_ne hij, Function.update_self] at hz
    exact Option.some.inj hz
  have hatJ : ∀ {zs}, Function.update (Function.update c i (some xs)) j (some ys) j = some zs → ys = zs := by
    intro zs hz
    rw [Function.update_self] at hz
    exact Option.some.inj hz
  refine h.change (K := fun k => k = i ∨ k = j) hc hws (fun k hk => ?_) ?_ ?_ ?_
  · rw [Function.update_of_ne fun e => hk (.inr e), Function.update_of_ne fun e => hk (.inl e)]
  · rintro _ zs (rfl | rfl) hz
    · exact hatI hz ▸ hi
    · exact hatJ hz ▸ hj
  · rintro _ zs (rfl | rfl) hz x hx
    · exact hws x (hxs x (hatI hz ▸ hx))
    · exact hws x (hys x (hatJ hz ▸ hx))
  · rintro _ _ zs zs' (rfl | rfl) (rfl | rfl) hne hz hz' x hx hx'
    · exact hne rfl
    · exact hd x (hatI hz ▸ hx) (hatJ hz' ▸ hx')
    · exact hd x (hatI hz' ▸ hx') (hatJ hz ▸ hx)
    · exact hne rfl

theorem mem_nodes_iff {l : KList E} : x ∈ nodes l xs ↔ x = l.head ∨ x ∈ xs ∨ x = l.tail := by simp [nodes]

/-- A list changes that has no elements but those it had. -/
theorem Heap.keep (h : Heap lists m c) (hi : c i = some xs) (hl : Linked m' (lists i) ys)
    (hc : Confined (nodes (lists i) xs) m m') (hys : ys ⊆ xs) : Heap lists m' (Function.update c i (some ys)) := by
  have hout : ∀ x ∈ nodes (lists i) xs, Outside lists c (· = i) x := fun x => h.outside hi rfl
  refine h.update hl hc hout fun x hx => hout x ?_
  exact mem_nodes_iff.mpr ((mem_nodes_iff.mp hx).imp id (Or.imp (fun h => hys h) id))

/-- A list takes up an element that no list had. -/
theorem Heap.take (h : Heap lists m c) (hi : c i = some xs) (hx : Fresh lists c x) (hl : Linked m' (lists i) ys)
    (hc : Confined (x :: nodes (lists i) xs) m m') (hys : ys ⊆ x :: xs) :
    Heap lists m' (Function.update c i (some ys)) := by
  have hout : ∀ y ∈ x :: nodes (lists i) xs, Outside lists c (· = i) y := fun y hy => by
    rcases List.mem_cons.mp hy with rfl | hy
    · exact hx.outside
    · exact h.outside hi rfl hy
  refine h.update hl hc hout fun y hy => hout y ?_
  rcases mem_nodes_iff.mp hy with rfl | hy | rfl
  · exact List.mem_cons_of_mem _ (mem_nodes_iff.mpr (.inl rfl))
  · exact (List.mem_cons.mp (hys hy)).elim (· ▸ List.mem_cons_self) fun h => List.mem_cons_of_mem _ (mem_nodes h)
  · exact List.mem_cons_of_mem _ (mem_nodes_iff.mpr (.inr (.inr rfl)))

/-- Two lists exchange elements. -/
theorem Heap.exchange {xs' ys' : List E} (h : Heap lists m c) (hi : c i = some xs) (hj : c j = some ys) (hij : i ≠ j)
    (hl : Linked m' (lists i) xs') (hk : Linked m' (lists j) ys')
    (hc : Confined (nodes (lists i) xs ++ nodes (lists j) ys) m m') (hsub : xs' ⊆ xs) (hsub' : ys' ⊆ xs ++ ys)
    (hd : ∀ x ∈ xs', x ∉ ys') : Heap lists m' (Function.update (Function.update c i (some xs')) j (some ys')) := by
  have hapart := h.apart hi hj hij
  refine h.update₂ hij hl hk hc (fun x hx => ?_) (fun x hx => ?_) (fun x hx => ?_) fun x hx hx' => ?_
  · rcases List.mem_append.mp hx with hx | hx
    · exact h.outside hi (.inl rfl) hx
    · exact h.outside hj (.inr rfl) hx
  · exact List.mem_append_left _ (mem_nodes_iff.mpr ((mem_nodes_iff.mp hx).imp id (Or.imp (fun h => hsub h) id)))
  · rcases mem_nodes_iff.mp hx with rfl | hx | rfl
    · exact List.mem_append_right _ (mem_nodes_iff.mpr (.inl rfl))
    · exact (List.mem_append.mp (hsub' hx)).elim (fun h => List.mem_append_left _ (mem_nodes h))
        fun h => List.mem_append_right _ (mem_nodes h)
    · exact List.mem_append_right _ (mem_nodes_iff.mpr (.inr (.inr rfl)))
  · have hxi : x ∈ nodes (lists i) xs :=
      mem_nodes_iff.mpr ((mem_nodes_iff.mp hx).imp id (Or.imp (fun h => hsub h) id))
    have hxj := hapart x hxi
    have hxy : x ∈ ys' := by
      rcases mem_nodes_iff.mp hx' with rfl | hx' | rfl
      · exact absurd (mem_nodes_iff.mpr (.inl rfl)) hxj
      · exact hx'
      · exact absurd (mem_nodes_iff.mpr (.inr (.inr rfl))) hxj
    have hxs : x ∈ xs := (List.mem_append.mp (hsub' hxy)).resolve_right fun hy => hxj (mem_nodes hy)
    have hnodup := (h.linked hi).nodup
    simp only [List.nodup_cons, List.nodup_append, List.mem_append, List.mem_singleton, not_or] at hnodup
    rcases mem_nodes_iff.mp hx with rfl | hx | rfl
    · exact hnodup.1.1 hxs
    · exact hd x hx hxy
    · exact hnodup.2.2.2 _ hxs _ rfl rfl

variable [DecidableEq E]

/-- **One call.** With enough fuel, for any memory whose lists are in order. -/
theorem listStep_yields {a : ListCall I E} {r : Reply E} (hs : ListStep lists c (a, r) c') :
    ∃ N, ∀ fuel, N ≤ fuel → ∀ {m : Links E}, Heap lists m c →
      Yields (listCall lists fuel a) m fun r' m' => r' = r ∧ Heap lists m' c' := by
  cases hs with
  | init hne hhead htail =>
    refine ⟨0, fun fuel _ m h => Yields.bind ((listInit_yields hne).mono fun _ m' hm => Yields.pure ⟨rfl, ?_⟩)⟩
    refine h.update hm.1 hm.2 (fun x hx => ?_) fun x hx => ?_
    · rcases List.mem_pair.mp hx with rfl | rfl
      · exact hhead
      · exact htail
    · rcases mem_nodes_iff.mp hx with rfl | hx | rfl
      · exact hhead
      · cases hx
      · exact htail
  | begin hi => exact ⟨0, fun fuel _ m h => Yields.bind ((h.linked hi).listBegin_yields (Yields.pure ⟨rfl, h⟩))⟩
  | rbegin hi => exact ⟨0, fun fuel _ m h => Yields.bind (listRbegin_yields (h.linked hi) (Yields.pure ⟨rfl, h⟩))⟩
  | next hi =>
    exact ⟨0, fun fuel _ m h => Yields.bind (listNext_of_link (linked_link (h.linked hi)) (Yields.pure ⟨rfl, h⟩))⟩
  | prev hi =>
    exact ⟨0, fun fuel _ m h => Yields.bind ((linked_link (h.linked hi)).listPrev_yields (Yields.pure ⟨rfl, h⟩))⟩
  | insert hi hx =>
    refine ⟨0, fun fuel _ m h => Yields.bind ((listInsert_yields (h.linked hi) (hx _ _ not_false hi)).mono
      fun _ m' hm => Yields.pure ⟨rfl, h.take hi hx hm.1 hm.2 ?_⟩)⟩
    intro y hy
    simp only [List.mem_append, List.mem_cons] at hy ⊢
    tauto
  | pushFront hi hx =>
    exact ⟨0, fun fuel _ m h => Yields.bind ((listPushFront_yields (h.linked hi) (hx _ _ not_false hi)).mono
      fun _ m' hm => Yields.pure ⟨rfl, h.take hi hx hm.1 hm.2 (List.Subset.refl _)⟩)⟩
  | pushBack hi hx =>
    refine ⟨0, fun fuel _ m h => Yields.bind ((listPushBack_yields (h.linked hi) (hx _ _ not_false hi)).mono
      fun _ m' hm => Yields.pure ⟨rfl, h.take hi hx hm.1 hm.2 ?_⟩)⟩
    intro y hy
    simp only [List.mem_append, List.mem_cons, List.not_mem_nil] at hy ⊢
    tauto
  | remove hi =>
    refine ⟨0, fun fuel _ m h => Yields.bind ((listRemove_yields (h.linked hi)).mono
      fun _ m' hm => Yields.pure ⟨by rw [hm.1], h.keep hi hm.2.1 hm.2.2 ?_⟩)⟩
    intro y hy
    simp only [List.mem_append, List.mem_cons] at hy ⊢
    tauto
  | popFront hi =>
    exact ⟨0, fun fuel _ m h => Yields.bind ((listPopFront_yields (h.linked hi)).mono
      fun _ m' hm => Yields.pure ⟨by rw [hm.1], h.keep hi hm.2.1 hm.2.2 (List.subset_cons_self _ _)⟩)⟩
  | popBack hi =>
    exact ⟨0, fun fuel _ m h => Yields.bind ((listPopBack_yields (h.linked hi)).mono
      fun _ m' hm => Yields.pure ⟨by rw [hm.1], h.keep hi hm.2.1 hm.2.2 (List.subset_append_left _ _)⟩)⟩
  | front hi => exact ⟨0, fun fuel _ m h => Yields.bind (listFront_yields (h.linked hi) (Yields.pure ⟨rfl, h⟩))⟩
  | back hi => exact ⟨0, fun fuel _ m h => Yields.bind (listBack_yields (h.linked hi) (Yields.pure ⟨rfl, h⟩))⟩
  | size hi =>
    refine ⟨_, fun fuel hfuel m h => Yields.bind ((listSize_yields (h.linked hi) hfuel).mono fun _ m' hm => ?_)⟩
    obtain ⟨rfl, rfl⟩ := hm
    exact Yields.pure ⟨rfl, h⟩
  | empty hi => exact ⟨0, fun fuel _ m h => Yields.bind (listEmpty_yields (h.linked hi) (Yields.pure ⟨rfl, h⟩))⟩
  | spliceNothing hi =>
    exact ⟨0, fun fuel _ m h => Yields.bind (listSplice_nothing (h.linked hi) (Yields.pure ⟨rfl, h⟩))⟩
  | spliceWithin hi he hne hB =>
    refine ⟨0, fun fuel _ m h => Yields.bind ((listSplice_within (h.linked hi) he hne hB).mono
      fun _ m' hm => Yields.pure ⟨rfl, h.keep hi hm.1 hm.2 fun y hy => ?_⟩)⟩
    rw [List.append_assoc, List.mem_append, List.mem_append, or_left_comm, ← List.mem_append, ← he] at hy
    simp only [List.mem_append] at hy ⊢
    tauto
  | @spliceBetween i j P B S P' S' hi hj hij hB =>
    refine ⟨0, fun fuel _ m h => Yields.bind ((listSplice_between (h.linked hi) (h.linked hj) hB
      (h.apart hi hj hij)).mono fun _ m' hm => Yields.pure ⟨rfl, h.exchange hi hj hij hm.1 hm.2.1 hm.2.2 ?_ ?_ ?_⟩)⟩
    · intro y hy
      simp only [List.mem_append] at hy ⊢
      tauto
    · intro y hy
      simp only [List.mem_append] at hy ⊢
      tauto
    · intro y hy hy'
      have hyi : y ∈ P ++ B ++ S := by
        simp only [List.mem_append] at hy ⊢
        tauto
      rcases List.mem_append.mp hy' with hy' | hy'
      · rcases List.mem_append.mp hy' with hy' | hy'
        · exact h.apart hi hj hij y (mem_nodes hyi) (mem_nodes (List.mem_append_left _ hy'))
        · exact not_mem_nodes_of_segment (h.linked hi) y hy' (mem_nodes hy)
      · exact h.apart hi hj hij y (mem_nodes hyi) (mem_nodes (List.mem_append_right _ hy'))
  | reverse hi =>
    exact ⟨_, fun fuel hfuel m h => Yields.bind ((listReverse_yields (h.linked hi) hfuel).mono
      fun _ m' hm => Yields.pure ⟨rfl, h.keep hi hm.1 hm.2 fun _ => List.mem_reverse.mp⟩)⟩
  | sort hless hi hperm hsorted hties =>
    refine ⟨_, fun fuel hfuel m h => Yields.bind (((listSort_sorts (h.linked hi) hfuel).and_ensures
      (confined_listSort (h.linked hi))).mono ?_)⟩
    rintro _ m' ⟨⟨zs, hl, hperm', hsorted', hties'⟩, hc⟩
    have hirr := fun e => Bool.eq_false_iff.mpr (hless.irrefl e)
    obtain rfl := eq_of_ties hsorted hsorted' hirr fun e => (hties e).trans (hties' e).symm
    exact Yields.pure ⟨rfl, h.keep hi hl hc hperm'.subset⟩
  | insertOrdered hi hx =>
    refine ⟨_, fun fuel hfuel m h => Yields.bind ((listInsertOrdered_yields (h.linked hi) (hx _ _ not_false hi)
      hfuel).mono fun _ m' hm => Yields.pure ⟨rfl, h.take hi hx hm.1 hm.2 fun y hy => ?_⟩)⟩
    exact List.mem_cons.mpr ((List.mem_orderedInsert _).mp hy)
  | unique hi =>
    refine ⟨_, fun fuel hfuel m h => Yields.bind ((listUnique_yields none [] (h.linked hi)
      (fun k hk => by cases hk) (fun y hy => absurd hy List.not_mem_nil) hfuel).mono fun _ m' hm =>
        Yields.pure ⟨rfl, h.keep hi hm.1 ?_ (List.destutter_sublist _ _).subset⟩)⟩
    simpa [takerNodes] using hm.2.2
  | @uniqueTo i j xs ys less hi hj hij =>
    refine ⟨_, fun fuel hfuel m h => Yields.bind ((listUnique_yields (some (lists j)) ys (h.linked hi)
      (fun k hk => Option.some.inj hk ▸ h.linked hj) (h.apart hj hi hij.symm) hfuel).mono fun _ m' hm =>
        Yields.pure ⟨rfl, h.exchange hi hj hij hm.1 (hm.2.1 _ rfl) hm.2.2 (List.destutter_sublist _ _).subset ?_ ?_⟩)⟩
    · have hperm := perm_duplicatesOf less xs
      intro y hy
      rcases List.mem_append.mp hy with hy | hy
      · exact List.mem_append_right _ hy
      · exact List.mem_append_left _ (hperm.subset (List.mem_append_right _ hy))
    · have hperm := perm_duplicatesOf less xs
      have hnodup : (xs.destutter (Differ less) ++ duplicatesOf less xs).Nodup := by
        refine hperm.nodup_iff.mpr ?_
        exact (List.nodup_append.mp (List.nodup_cons.mp (h.linked hi).nodup).2).1
      intro y hy hy'
      rcases List.mem_append.mp hy' with hy' | hy'
      · have hyx : y ∈ xs := hperm.subset (List.mem_append_left _ hy)
        exact h.apart hi hj hij y (mem_nodes hyx) (mem_nodes hy')
      · exact (List.nodup_append.mp hnodup).2.2 y hy y hy' rfl
  | max hi =>
    refine ⟨_, fun fuel hfuel m h => Yields.bind ((listBest_yields (h.linked hi) hfuel).mono fun _ m' hm => ?_)⟩
    obtain ⟨rfl, rfl⟩ := hm
    exact Yields.pure ⟨rfl, h⟩
  | min hi =>
    refine ⟨_, fun fuel hfuel m h => Yields.bind ((listBest_yields (h.linked hi) hfuel).mono fun _ m' hm => ?_)⟩
    obtain ⟨rfl, rfl⟩ := hm
    exact Yields.pure ⟨rfl, h⟩

/-! ### Runs -/

/-- From any memory whose lists are in order. -/
theorem run_yields {trace : List (ListCall I E × Reply E)} (hr : Run (ListStep lists) c trace c') :
    ∃ N, ∀ fuel, N ≤ fuel → ∀ {m : Links E}, Heap lists m c →
      Yields (listCalls lists fuel (trace.map Prod.fst)) m fun rs m' => rs = trace.map Prod.snd ∧
        Heap lists m' c' := by
  induction hr with
  | nil => exact ⟨0, fun fuel _ m h => Yields.pure ⟨rfl, h⟩⟩
  | cons hs _ ih =>
    obtain ⟨N, hstep⟩ := listStep_yields hs
    obtain ⟨N', hrun⟩ := ih
    refine ⟨Nat.max N N', fun fuel hfuel m h => ?_⟩
    refine Yields.bind ((hstep fuel ((Nat.le_max_left ..).trans hfuel) h).mono ?_)
    rintro _ m₁ ⟨rfl, h1⟩
    refine Yields.bind ((hrun fuel ((Nat.le_max_right ..).trans hfuel) h1).mono ?_)
    rintro _ m₂ ⟨rfl, h2⟩
    exact Yields.pure ⟨rfl, h2⟩

/-- **Every run of the lists is what `list.c` computes**, whatever the memory holds when it starts. -/
theorem run_computes {trace : List (ListCall I E × Reply E)} (hr : Run (ListStep lists) (fun _ => none) trace c)
    (m : Links E) : ∃ N, ∀ fuel, N ≤ fuel → Yields (listCalls lists fuel (trace.map Prod.fst)) m fun rs m' =>
      rs = trace.map Prod.snd ∧ Heap lists m' c := by
  obtain ⟨N, h⟩ := run_yields hr
  exact ⟨N, fun fuel hfuel => h fuel hfuel (heap_none lists m)⟩

/-! ### Two lists of numbers -/

/-- Two lists and their headers. -/
def twoLists : Bool → KList ℕ
  | false => ⟨0, 1⟩
  | true => ⟨2, 3⟩

theorem outside_twoLists {c : Contents Bool ℕ} {i : Bool} {x : ℕ}
    (h : ∀ j, j ≠ i → ∀ xs ∈ c j, x ∉ nodes (twoLists j) xs) : Outside twoLists c (· = i) x :=
  fun j xs hj hxs => h j hj xs hxs

theorem fresh_twoLists {c : Contents Bool ℕ} {x : ℕ} (h : ∀ j, ∀ xs ∈ c j, x ∉ nodes (twoLists j) xs) :
    Fresh twoLists c x := fun j xs _ hxs => h j xs hxs

/-- Numbers are compared by their tens. -/
def byTens (a b : ℕ) : Bool := decide (a / 10 < b / 10)

/-- A list is filled and sorted, what ties goes to another list and comes back by a splice, and the list is
reversed. -/
def sampleTrace : List (ListCall Bool ℕ × Reply ℕ) :=
  [(.init false, .done), (.init true, .done), (.pushBack false 30, .done), (.pushBack false 12, .done),
    (.pushFront false 31, .done), (.sort false byTens, .done), (.unique false (some true) byTens, .done),
    (.size true, .count 1), (.splice 12 30 3, .done), (.reverse false, .done), (.popFront false, .elem 31),
    (.max false byTens, .elem 30)]

instance isStrictWeakOrder_byTens : IsStrictWeakOrder ℕ fun a b => byTens a b = true where
  irrefl := by simp [byTens]
  trans := by
    simp only [byTens, decide_eq_true_eq]
    omega
  incomp_trans := by
    simp only [byTens, decide_eq_true_eq]
    omega

omit [DecidableEq E] in
/-- A run that is given step by step. -/
theorem exists_run_cons {c₁ : Contents I E} {a : ListCall I E × Reply E} {trace : List (ListCall I E × Reply E)}
    {P : Contents I E → Prop} (hs : ListStep lists c a c₁) (h : ∃ c', Run (ListStep lists) c₁ trace c' ∧ P c') :
    ∃ c', Run (ListStep lists) c (a :: trace) c' ∧ P c' :=
  h.imp fun _ h => ⟨.cons hs h.1, h.2⟩

theorem run_sampleTrace : ∃ c, Run (ListStep twoLists) (fun _ => none) sampleTrace c ∧ c false = some [12, 30] ∧
    c true = some [] := by
  have hties : ∀ e, [12, 31, 30].filter (tied byTens e) = [31, 30, 12].filter (tied byTens e) := by
    intro e
    have htied : ∀ x, tied byTens e x = decide (e / 10 = x / 10) := fun x => by
      rw [Bool.eq_iff_iff]
      simp only [tied, byTens, Bool.and_eq_true, Bool.not_eq_true', decide_eq_false_iff_not, decide_eq_true_eq]
      omega
    by_cases h1 : e / 10 = 1
    · simp [htied, h1]
    · simp [List.filter_cons, htied, h1]
  refine exists_run_cons (.init (by decide) (outside_twoLists (by decide)) (outside_twoLists (by decide))) ?_
  refine exists_run_cons (.init (by decide) (outside_twoLists (by decide)) (outside_twoLists (by decide))) ?_
  refine exists_run_cons (.pushBack rfl (fresh_twoLists (by decide))) ?_
  refine exists_run_cons (.pushBack rfl (fresh_twoLists (by decide))) ?_
  refine exists_run_cons (.pushFront rfl (fresh_twoLists (by decide))) ?_
  refine exists_run_cons (.sort isStrictWeakOrder_byTens rfl (by decide : [12, 31, 30].Perm _) (by decide) hties) ?_
  refine exists_run_cons (.uniqueTo rfl rfl (by decide)) ?_
  refine exists_run_cons (@ListStep.size _ _ _ _ _ true [30] rfl) ?_
  refine exists_run_cons (@ListStep.spliceBetween _ _ _ _ _ true false [] [30] [] [] [12, 31] rfl rfl (by decide)
    (by decide)) ?_
  refine exists_run_cons (.reverse rfl) ?_
  refine exists_run_cons (.popFront rfl) ?_
  exact ⟨_, .cons (@ListStep.max _ _ _ _ _ false [12, 30] byTens rfl) .nil, rfl, rfl⟩

theorem run_computes_sample : ∃ N, ∀ fuel, N ≤ fuel →
    Yields (listCalls twoLists fuel (sampleTrace.map Prod.fst)) ⟨fun _ => none, fun _ => none⟩ fun rs m' =>
      rs = sampleTrace.map Prod.snd ∧ Linked m' (twoLists false) [12, 30] ∧ Linked m' (twoLists true) [] := by
  obtain ⟨c, hr, hfalse, htrue⟩ := run_sampleTrace
  obtain ⟨N, h⟩ := run_computes hr ⟨fun _ => none, fun _ => none⟩
  exact ⟨N, fun fuel hfuel => (h fuel hfuel).mono fun _ _ hm => ⟨hm.1, hm.2.linked hfalse, hm.2.linked htrue⟩⟩

end Pintos.Kernel.ListFamily
