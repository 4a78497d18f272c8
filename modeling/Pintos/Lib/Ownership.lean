import Mathlib.Data.List.Nodup
import Mathlib.Data.List.Perm.Basic
import Mathlib.Tactic

/-! # Exclusive ownership

Owners hold resources: `owns a` lists what `a` holds. `Exclusive owns used l` says that the owners of `l`
hold pairwise different resources, none of them twice, and that an allocator has all of them marked as
used. The rules say what an allocation, a release and a change of one owner do to it; the order of the
owners does not matter. `Exact` says moreover that nothing else is marked. -/

namespace Pintos.Lib.Ownership

variable {ρ R : Type} {owns : ρ → List R} {used used' : R → Prop} {l l' : List ρ} {a b : ρ} {r : R}

/-- **Exclusive ownership** of resources that are in use. -/
structure Exclusive (owns : ρ → List R) (used : R → Prop) (l : List ρ) : Prop where
  nodup : (l.flatMap owns).Nodup
  used : ∀ a ∈ l, ∀ r ∈ owns a, used r

namespace Exclusive

theorem nil : Exclusive owns used [] := ⟨by simp, by simp⟩

theorem perm (h : Exclusive owns used l) (hp : l.Perm l') : Exclusive owns used l' where
  nodup := (hp.flatMap_right owns).nodup_iff.mp h.nodup
  used a ha := h.used a (hp.mem_iff.mpr ha)

theorem tail (h : Exclusive owns used (a :: l)) : Exclusive owns used l where
  nodup := (List.nodup_append.mp (by simpa using h.nodup)).2.1
  used b hb := h.used b (List.mem_cons_of_mem a hb)

/-- What the first owner holds, no other one does. -/
theorem notMem_of_head (h : Exclusive owns used (a :: l)) (hr : r ∈ owns a) (hb : b ∈ l) :
    r ∉ owns b := by
  intro hrb
  have hd := (List.nodup_append.mp (by simpa using h.nodup)).2.2
  exact hd r hr r (List.mem_flatMap.mpr ⟨b, hb, hrb⟩) rfl

/-- A new owner of used resources that nobody holds. -/
theorem cons (h : Exclusive owns used l) (hn : (owns a).Nodup) (hu : ∀ r ∈ owns a, used r)
    (hd : ∀ r ∈ owns a, ∀ b ∈ l, r ∉ owns b) : Exclusive owns used (a :: l) where
  nodup := by
    rw [List.flatMap_cons, List.nodup_append]
    refine ⟨hn, h.nodup, fun r hr r' hr' => ?_⟩
    rintro rfl
    obtain ⟨b, hb, hrb⟩ := List.mem_flatMap.mp hr'
    exact hd r hr b hb hrb
  used := by
    intro b hb
    rcases List.mem_cons.mp hb with rfl | hb
    · exact hu
    · exact h.used b hb

theorem cons_of_eq_nil (h : Exclusive owns used l) (ha : owns a = []) :
    Exclusive owns used (a :: l) :=
  h.cons (by simp [ha]) (by simp [ha]) (by simp [ha])

/-- The allocator may mark more resources, and unmark those nobody holds. -/
theorem congr_used (h : Exclusive owns used l)
    (hu : ∀ a ∈ l, ∀ r ∈ owns a, used r → used' r) : Exclusive owns used' l where
  nodup := h.nodup
  used a ha r hr := hu a ha r hr (h.used a ha r hr)

theorem nodup_of_mem (h : Exclusive owns used l) (ha : a ∈ l) : (owns a).Nodup :=
  (List.nodup_flatMap.mp h.nodup).1 a ha

/-- Two owners of one resource are the same owner. -/
theorem eq_of_mem (h : Exclusive owns used l) (ha : a ∈ l) (hb : b ∈ l) (hra : r ∈ owns a)
    (hrb : r ∈ owns b) : a = b := by
  by_contra hne
  have hd := (List.nodup_flatMap.mp h.nodup).2
  have hsymm : Std.Symm (Function.onFun List.Disjoint owns) :=
    ⟨fun _ _ h => List.Disjoint.symm h⟩
  exact hd.forall ha hb hne hra hrb

end Exclusive

/-! ### Nothing else is in use -/

/-- Exclusive ownership of all that is in use. -/
structure Exact (owns : ρ → List R) (used : R → Prop) (l : List ρ) : Prop where
  exclusive : Exclusive owns used l
  owned : ∀ r, used r → ∃ a ∈ l, r ∈ owns a

namespace Exact

theorem used_iff (h : Exact owns used l) : used r ↔ ∃ a ∈ l, r ∈ owns a :=
  ⟨h.owned r, fun ⟨a, ha, hr⟩ => h.exclusive.used a ha r hr⟩

theorem congr (h : Exact owns used l) (hu : ∀ r, used' r ↔ used r) : Exact owns used' l where
  exclusive := h.exclusive.congr_used fun _ _ r _ => (hu r).mpr
  owned r hr := h.owned r ((hu r).mp hr)

theorem perm (h : Exact owns used l) (hp : l.Perm l') : Exact owns used l' where
  exclusive := h.exclusive.perm hp
  owned r hr := by
    obtain ⟨a, ha, hra⟩ := h.owned r hr
    exact ⟨a, hp.mem_iff.mp ha, hra⟩

/-- **An allocation** of resources that were not in use. -/
theorem cons (h : Exact owns used l) (hn : (owns a).Nodup) (hfree : ∀ r ∈ owns a, ¬used r)
    (hu : ∀ r, used' r ↔ used r ∨ r ∈ owns a) : Exact owns used' (a :: l) where
  exclusive := by
    have hold := h.exclusive.congr_used fun _ _ r _ hr => (hu r).mpr (.inl hr)
    refine hold.cons hn (fun r hr => (hu r).mpr (.inr hr)) fun r hr b hb hrb => ?_
    exact hfree r hr (h.exclusive.used b hb r hrb)
  owned r hr := by
    rcases (hu r).mp hr with hr | hr
    · obtain ⟨b, hb, hrb⟩ := h.owned r hr
      exact ⟨b, List.mem_cons_of_mem a hb, hrb⟩
    · exact ⟨a, List.mem_cons_self, hr⟩

/-- **A release**: what the first owner held is not in use any more. -/
theorem tail (h : Exact owns used (a :: l)) (hu : ∀ r, used' r ↔ used r ∧ r ∉ owns a) :
    Exact owns used' l where
  exclusive := h.exclusive.tail.congr_used fun _ hb _ hr hused =>
    (hu _).mpr ⟨hused, fun hra => h.exclusive.notMem_of_head hra hb hr⟩
  owned r hr := by
    obtain ⟨hused, hna⟩ := (hu r).mp hr
    obtain ⟨b, hb, hrb⟩ := h.owned r hused
    rcases List.mem_cons.mp hb with rfl | hb
    · exact absurd hrb hna
    · exact ⟨b, hb, hrb⟩

end Exact

end Pintos.Lib.Ownership
