import Mathlib.Data.List.Nodup
import Mathlib.Data.List.Perm.Basic
import Mathlib.Tactic

/-! # Slabs

An allocator of blocks of one size: it owns pages, a page is cut into blocks, and a block is free or live.
`page` is the page of a block and `blocks` are the blocks of a page. The rules say what taking and giving back a
block, a new page and the loss of a page do; a page has as many free blocks as its blocks less the live ones. -/

namespace Pintos.Lib.Slabs

variable {P B : Type} {page : B → P} {blocks : P → List B} {pages pages' : List P} {free free' live live' : List B}
  {p : P} {b : B}

/-- **The blocks of the pages are the free and the live ones**, and no block is both, or is there twice. -/
structure Slab (page : B → P) (blocks : P → List B) (pages : List P) (free live : List B) : Prop where
  pages_nodup : pages.Nodup
  blocks_nodup : ∀ p ∈ pages, (blocks p).Nodup
  page_eq : ∀ p ∈ pages, ∀ b ∈ blocks p, page b = p
  perm : (free ++ live).Perm (pages.flatMap blocks)

namespace Slab

theorem nil : Slab page blocks [] [] [] := ⟨.nil, nofun, nofun, .refl _⟩

theorem nodup (h : Slab page blocks pages free live) : (free ++ live).Nodup := by
  refine h.perm.nodup_iff.mpr (List.nodup_flatMap.mpr ⟨h.blocks_nodup, ?_⟩)
  refine h.pages_nodup.imp_of_mem fun {p p'} hp hp' hne b hb hb' => hne ?_
  rw [← h.page_eq p hp b hb, h.page_eq p' hp' b hb']

theorem nodup_free (h : Slab page blocks pages free live) : free.Nodup := (List.nodup_append.mp h.nodup).1

theorem nodup_live (h : Slab page blocks pages free live) : live.Nodup := (List.nodup_append.mp h.nodup).2.1

theorem mem_blocks (h : Slab page blocks pages free live) (hb : b ∈ free ++ live) :
    page b ∈ pages ∧ b ∈ blocks (page b) := by
  obtain ⟨p, hp, hb⟩ := List.mem_flatMap.mp (h.perm.mem_iff.mp hb)
  rw [h.page_eq p hp b hb]
  exact ⟨hp, hb⟩

/-- **The free blocks** are the blocks that are not live. -/
theorem mem_free (h : Slab page blocks pages free live) : b ∈ free ↔ b ∉ live ∧ ∃ p ∈ pages, b ∈ blocks p := by
  have hdisjoint := (List.nodup_append.mp h.nodup).2.2
  rw [← List.mem_flatMap, ← h.perm.mem_iff, List.mem_append]
  constructor
  · exact fun hb => ⟨fun hl => hdisjoint b hb b hl rfl, .inl hb⟩
  · rintro ⟨hl, hb | hb⟩
    · exact hb
    · exact absurd hb hl

/-! ### What the operations do -/

theorem perm_live (h : Slab page blocks pages free live) (hp : live.Perm live') : Slab page blocks pages free live' :=
  ⟨h.pages_nodup, h.blocks_nodup, h.page_eq, (hp.symm.append_left free).trans h.perm⟩

theorem perm_pages (h : Slab page blocks pages free live) (hp : pages.Perm pages') :
    Slab page blocks pages' free live where
  pages_nodup := hp.nodup_iff.mp h.pages_nodup
  blocks_nodup p hmem := h.blocks_nodup p (hp.mem_iff.mpr hmem)
  page_eq p hmem := h.page_eq p (hp.mem_iff.mpr hmem)
  perm := h.perm.trans (hp.flatMap_right blocks)

/-- A free block is taken. -/
theorem take (h : Slab page blocks pages (b :: free) live) : Slab page blocks pages free (b :: live) :=
  ⟨h.pages_nodup, h.blocks_nodup, h.page_eq, List.perm_middle.trans h.perm⟩

/-- A live block is given back. -/
theorem put (h : Slab page blocks pages free (b :: live)) : Slab page blocks pages (b :: free) live :=
  ⟨h.pages_nodup, h.blocks_nodup, h.page_eq, List.perm_middle.symm.trans h.perm⟩

/-- A new page; all its blocks are free. -/
theorem grow (h : Slab page blocks pages free live) (hp : p ∉ pages) (hn : (blocks p).Nodup)
    (hpage : ∀ b ∈ blocks p, page b = p) :
    Slab page blocks (p :: pages) (free ++ blocks p) live where
  pages_nodup := List.nodup_cons.mpr ⟨hp, h.pages_nodup⟩
  blocks_nodup := List.forall_mem_cons.mpr ⟨hn, h.blocks_nodup⟩
  page_eq := List.forall_mem_cons.mpr ⟨hpage, h.page_eq⟩
  perm := by
    rw [List.flatMap_cons]
    refine (List.perm_append_comm.append_right live).trans ?_
    rw [List.append_assoc]
    exact h.perm.append_left (blocks p)

/-- A page without live blocks is lost, with its free blocks. -/
theorem shrink (h : Slab page blocks (p :: pages) free live) (hfree : (blocks p ++ free').Perm free) :
    Slab page blocks pages free' live where
  pages_nodup := h.pages_nodup.of_cons
  blocks_nodup q hq := h.blocks_nodup q (List.mem_cons_of_mem p hq)
  page_eq q hq := h.page_eq q (List.mem_cons_of_mem p hq)
  perm := by
    have hperm := (hfree.append_right live).trans h.perm
    rw [List.flatMap_cons, List.append_assoc] at hperm
    exact (List.perm_append_left_iff _).mp hperm

/-! ### Counting -/

variable [DecidableEq P]

/-- **A page has as many free blocks as its blocks less the live ones.** -/
theorem countP_page (h : Slab page blocks pages free live) (hp : p ∈ pages) :
    free.countP (page · = p) + live.countP (page · = p) = (blocks p).length := by
  obtain ⟨rest, hrest⟩ : ∃ rest, pages.Perm (p :: rest) := by
    obtain ⟨xs, ys, rfl⟩ := List.append_of_mem hp
    exact ⟨xs ++ ys, List.perm_middle⟩
  have hperm := h.perm.trans (hrest.flatMap_right blocks)
  rw [← List.countP_append, hperm.countP_eq, List.flatMap_cons, List.countP_append,
    List.countP_eq_length.mpr fun b hb => decide_eq_true (h.page_eq p hp b hb), List.countP_eq_zero.mpr, Nat.add_zero]
  intro b hb
  obtain ⟨q, hq, hb⟩ := List.mem_flatMap.mp hb
  have hne : q ≠ p := fun e => (List.nodup_cons.mp (hrest.nodup_iff.mp h.pages_nodup)).1 (e ▸ hq)
  rw [decide_eq_true_eq, h.page_eq q (hrest.mem_iff.mpr (List.mem_cons_of_mem p hq)) b hb]
  exact hne

/-- The free blocks of a page without live blocks are all its blocks. -/
theorem mem_free_of_no_live (h : Slab page blocks pages free live) (hp : p ∈ pages)
    (hlive : live.countP (page · = p) = 0) :
    ∀ b ∈ blocks p, b ∈ free := by
  intro b hb
  refine h.mem_free.mpr ⟨fun hl => ?_, p, hp, hb⟩
  have hpos : 0 < live.countP (page · = p) := List.countP_pos_iff.mpr ⟨b, hl, decide_eq_true (h.page_eq p hp b hb)⟩
  omega

end Slab

end Pintos.Lib.Slabs
