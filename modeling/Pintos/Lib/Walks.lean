import Mathlib.Tactic

/-! # Walks along labels

A labelled graph is a partial function `next v l`: the vertex behind the edge `l` of `v`. `walk` follows
a list of labels. In a rooted tree every vertex but the root has one parent, so no vertex on a walk from
the root is its own child; and a walk survives a change of the graph that keeps the edges it uses. -/

namespace Pintos.Lib.Walks

variable {V L : Type*}

/-- The vertex reached from `v` along the labels, if all edges are there. -/
def walk (next : V → L → Option V) : V → List L → Option V
  | v, [] => some v
  | v, l :: ls => (next v l).bind fun w => walk next w ls

variable {next next' : V → L → Option V}

@[simp] theorem walk_nil (v : V) : walk next v [] = some v := rfl

theorem walk_cons (v : V) (l : L) (ls : List L) :
    walk next v (l :: ls) = (next v l).bind fun w => walk next w ls := rfl

theorem walk_append : ∀ (v : V) (ls ms : List L),
    walk next v (ls ++ ms) = (walk next v ls).bind fun w => walk next w ms
  | v, [], ms => by simp
  | v, l :: ls, ms => by
    rw [List.cons_append, walk_cons, walk_cons, Option.bind_assoc]
    exact Option.bind_congr fun w _ => walk_append w ls ms

/-- The last step of a walk. -/
theorem walk_snoc (v : V) (ls : List L) (l : L) :
    walk next v (ls ++ [l]) = (walk next v ls).bind fun w => next w l := by
  rw [walk_append]
  simp [walk_cons]

/-- Graphs with the same edges for the labels of a walk have the same walk. -/
theorem walk_congr : ∀ (v : V) (ls : List L), (∀ l ∈ ls, ∀ v, next v l = next' v l) →
    walk next v ls = walk next' v ls
  | v, [], _ => rfl
  | v, l :: ls, h => by
    rw [walk_cons, walk_cons, h l (by simp)]
    exact Option.bind_congr fun w _ => walk_congr w ls fun m hm => h m (by simp [hm])

/-- More edges, more walks. -/
theorem walk_mono (h : ∀ v l w, next v l = some w → next' v l = some w) :
    ∀ (v : V) (ls : List L) {w : V}, walk next v ls = some w → walk next' v ls = some w
  | v, [], w, hw => hw
  | v, l :: ls, w, hw => by
    obtain ⟨u, hu, hw⟩ := Option.bind_eq_some_iff.mp (walk_cons v l ls ▸ hw)
    rw [walk_cons, h v l u hu]
    exact walk_mono h u ls hw

/-- **A walk around `c`.** If `c` has no edges for the later labels of a walk that ends elsewhere, the
walk never meets `c`, and a change of edges at `c` does not touch it. -/
theorem walk_avoid {c : V} (h : ∀ v l w, v ≠ c → w ≠ c → next v l = some w → next' v l = some w) :
    ∀ (v : V) (ls : List L) {w : V}, v ≠ c → w ≠ c → (∀ l ∈ ls.tail, next c l = none) →
      walk next v ls = some w → walk next' v ls = some w
  | v, [], w, _, _, _, hw => hw
  | v, l :: ls, w, hv, hwc, hc, hw => by
    obtain ⟨u, hu, hw⟩ := Option.bind_eq_some_iff.mp (walk_cons v l ls ▸ hw)
    have huc : u ≠ c := by
      rintro rfl
      rcases ls with _ | ⟨m, ls⟩
      · exact hwc (by simpa using hw.symm)
      · rw [walk_cons, hc m (by simp)] at hw
        simp at hw
    rw [walk_cons, h v l u hv huc hu]
    exact walk_avoid h u ls huc hwc (fun m hm => hc m (List.mem_of_mem_tail hm)) hw

/-- Every vertex met by a walk has a property that edges preserve. -/
theorem walk_induct {P : V → Prop} (h : ∀ v l w, P v → next v l = some w → P w) :
    ∀ (v : V) (ls : List L) {w : V}, P v → walk next v ls = some w → P w
  | v, [], w, hv, hw => by
    obtain rfl : v = w := by simpa using hw
    exact hv
  | v, l :: ls, w, hv, hw => by
    obtain ⟨u, hu, hw⟩ := Option.bind_eq_some_iff.mp (walk_cons v l ls ▸ hw)
    exact walk_induct h u ls (h v l u hv hu) hw

/-! ### Rooted trees -/

/-- A tree with its root: the edge to a vertex starts at its parent, and no edge leads to the root. -/
structure Rooted (next : V → L → Option V) (root : V) (parent : V → V) : Prop where
  parent_of : ∀ {v l w}, next v l = some w → parent w = v
  ne_root : ∀ {v l w}, next v l = some w → w ≠ root

/-- No vertex of a rooted tree that a walk reaches is a child of itself. -/
theorem Rooted.next_ne_self {root : V} {parent : V → V} (h : Rooted next root parent) :
    ∀ (ls : List L) {v : V} (l : L), walk next root ls = some v → next v l ≠ some v := by
  intro ls
  induction ls using List.reverseRecOn with
  | nil =>
    intro v l hv hl
    obtain rfl : root = v := by simpa using hv
    exact h.ne_root hl rfl
  | append_singleton ls m ih =>
    intro v l hv hl
    obtain ⟨u, hu, hm⟩ := Option.bind_eq_some_iff.mp (walk_snoc root ls m ▸ hv)
    have huv : u = v := (h.parent_of hm).symm.trans (h.parent_of hl)
    subst huv
    exact ih l hu hl

/-- Hence a walk from the root never ends where the walk without its last label ends. -/
theorem Rooted.walk_snoc_ne {root : V} {parent : V → V} (h : Rooted next root parent)
    (ls : List L) (l : L) {v : V} (hv : walk next root ls = some v) :
    walk next root (ls ++ [l]) ≠ some v := by
  rw [walk_snoc, hv]
  exact h.next_ne_self ls l hv

/-- Walks along the same labels that meet at the end are the same walk. -/
theorem Rooted.walk_injective {root : V} {parent : V → V} (h : Rooted next root parent) :
    ∀ (ls : List L) {u v w : V}, walk next u ls = some w → walk next v ls = some w → u = v
  | [], u, v, w, hu, hv => (Option.some.inj hu).trans (Option.some.inj hv).symm
  | l :: ls, u, v, w, hu, hv => by
    obtain ⟨u', hul, hu⟩ := Option.bind_eq_some_iff.mp (walk_cons u l ls ▸ hu)
    obtain ⟨v', hvl, hv⟩ := Option.bind_eq_some_iff.mp (walk_cons v l ls ▸ hv)
    obtain rfl := h.walk_injective ls hu hv
    exact (h.parent_of hul).symm.trans (h.parent_of hvl)

/-- Going back as often as the walk from the root has labels. -/
theorem Rooted.parent_iterate {root : V} {parent : V → V} (h : Rooted next root parent) :
    ∀ (ls : List L) {v : V}, walk next root ls = some v → parent^[ls.length] v = root := by
  intro ls
  induction ls using List.reverseRecOn with
  | nil => exact fun hv => (Option.some.inj hv).symm
  | append_singleton ls m ih =>
    intro v hv
    obtain ⟨u, hu, hm⟩ := Option.bind_eq_some_iff.mp (walk_snoc root ls m ▸ hv)
    rw [List.length_append, List.length_singleton, Function.iterate_succ_apply, h.parent_of hm]
    exact ih hu

/-- Only the root is its own ancestor. -/
theorem Rooted.eq_root_of_iterate {root : V} {parent : V → V} (h : Rooted next root parent)
    (hroot : parent root = root) {ls : List L} {v : V} (hv : walk next root ls = some v) {n : ℕ}
    (hn : 0 < n) (hper : parent^[n] v = v) : v = root := by
  have hmul : parent^[n * ls.length] v = v := by
    rw [Function.iterate_mul]
    exact Function.iterate_fixed hper _
  obtain ⟨k, hk⟩ : ∃ k, n * ls.length = k + ls.length :=
    ⟨n * ls.length - ls.length, (Nat.sub_add_cancel (Nat.le_mul_of_pos_left _ hn)).symm⟩
  rw [hk, Function.iterate_add_apply, h.parent_iterate ls hv, Function.iterate_fixed hroot] at hmul
  exact hmul.symm

end Pintos.Lib.Walks
