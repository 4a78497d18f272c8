import Mathlib.Tactic

/-! # Write-back caches

A cache with the slots `ι` over a store of values `V` under keys `K`: a slot is free or holds a key with its
value. What the cache and the store behind it stand for is `content`: the cached value of a key if there is
one, else the stored one. As long as no key is in two slots, dropping a slot after writing it back, filling a
free slot from the store and changing a cached value do to `content` what they should. -/

namespace Pintos.Lib.WriteBack

variable {ι K V : Type*} {c : ι → Option (K × V)} {d : K → V} {i : ι} {k : K} {v : V}

/-- No key is in two slots. -/
def Unique (c : ι → Option (K × V)) : Prop :=
  ∀ ⦃i j k v w⦄, c i = some (k, v) → c j = some (k, w) → i = j

open Classical in
/-- What a cache over a store stands for. -/
noncomputable def content (c : ι → Option (K × V)) (d : K → V) (k : K) : V :=
  if h : ∃ v, ∃ i, c i = some (k, v) then h.choose else d k

theorem content_of_slot (hu : Unique c) (h : c i = some (k, v)) : content c d k = v := by
  have hex : ∃ v, ∃ i, c i = some (k, v) := ⟨v, i, h⟩
  obtain ⟨j, hj⟩ := hex.choose_spec
  unfold content
  rw [dif_pos hex]
  have hij := hu h hj
  rw [← hij, h] at hj
  exact (Prod.mk.inj (Option.some.inj hj)).2.symm

theorem content_of_miss (h : ∀ i v, c i ≠ some (k, v)) : content c d k = d k :=
  dif_neg fun ⟨v, i, hi⟩ => h i v hi

theorem content_of_free (h : ∀ i, c i = none) : content c d = d :=
  funext fun k => content_of_miss fun i v hi => by simp [h i] at hi

/-- Two caches stand for the same as soon as they agree on what is cached, and on the store elsewhere. -/
theorem content_congr {ι' : Type*} {c' : ι' → Option (K × V)} {d' : K → V} (hu : Unique c)
    (hu' : Unique c') (k : K)
    (h : (∃ i j v, c i = some (k, v) ∧ c' j = some (k, v)) ∨
      (∀ i v, c i ≠ some (k, v)) ∧ (∃ j, c' j = some (k, d k)) ∨
      (∃ i, c i = some (k, d' k)) ∧ (∀ j v, c' j ≠ some (k, v)) ∨
      (∀ i v, c i ≠ some (k, v)) ∧ (∀ j v, c' j ≠ some (k, v)) ∧ d' k = d k) :
    content c' d' k = content c d k := by
  rcases h with ⟨i, j, v, hi, hj⟩ | ⟨hi, j, hj⟩ | ⟨⟨i, hi⟩, hj⟩ | ⟨hi, hj, hb⟩
  · rw [content_of_slot hu hi, content_of_slot hu' hj]
  · rw [content_of_miss hi, content_of_slot hu' hj]
  · rw [content_of_slot hu hi, content_of_miss hj]
  · rw [content_of_miss hi, content_of_miss hj, hb]

section update

variable [DecidableEq ι] [DecidableEq K]

omit [DecidableEq K] in
theorem unique_free (hu : Unique c) (i : ι) : Unique (Function.update c i none) := by
  intro j j' k v w h h'
  simp only [Function.update_apply] at h h'
  split at h
  · cases h
  split at h'
  · cases h'
  exact hu h h'

/-- The store after a slot is written back. -/
def writtenBack (s : Option (K × V)) (d : K → V) : K → V :=
  match s with
  | none => d
  | some (k, v) => Function.update d k v

/-- **Eviction.** -/
theorem content_evict (hu : Unique c) (i : ι) :
    content (Function.update c i none) (writtenBack (c i) d) = content c d := by
  funext k
  refine content_congr hu (unique_free hu i) k ?_
  by_cases hex : ∃ j v, c j = some (k, v)
  · obtain ⟨j, v, hj⟩ := hex
    by_cases hji : j = i
    · subst hji
      refine .inr (.inr (.inl ⟨⟨j, ?_⟩, fun j' w h => ?_⟩))
      · rw [hj]
        simp [writtenBack]
      · rw [Function.update_apply] at h
        split at h
        · cases h
        · exact absurd (hu h hj) ‹_›
    · refine .inl ⟨j, j, v, hj, ?_⟩
      rw [Function.update_of_ne hji, hj]
  · push Not at hex
    refine .inr (.inr (.inr ⟨hex, fun j w h => ?_, ?_⟩))
    · rw [Function.update_apply] at h
      split at h
      · cases h
      · exact hex j w h
    · cases hc : c i with
      | none => rfl
      | some p =>
        have hne : k ≠ p.1 := fun h => hex i p.2 (by rw [hc, h])
        exact Function.update_of_ne hne _ _

omit [DecidableEq K] in
theorem unique_fill (hu : Unique c) (hk : ∀ j v, j ≠ i → c j ≠ some (k, v)) (v : V) :
    Unique (Function.update c i (some (k, v))) := by
  intro j j' k' w w' h h'
  rw [Function.update_apply] at h h'
  split at h <;> split at h' <;> rename_i hj hj'
  · rw [hj, hj']
  · cases h
    exact absurd h' (hk j' w' hj')
  · cases h'
    exact absurd h (hk j w hj)
  · exact hu h h'

/-- **Filling a free slot.** -/
theorem content_fill (hu : Unique c) (hi : c i = none) (hk : ∀ j v, c j ≠ some (k, v)) :
    content (Function.update c i (some (k, d k))) d = content c d := by
  funext k'
  refine content_congr hu (unique_fill hu (fun j v _ => hk j v) _) k' ?_
  by_cases hkk : k' = k
  · subst hkk
    exact .inr (.inl ⟨hk, i, Function.update_self ..⟩)
  · by_cases hex : ∃ j v, c j = some (k', v)
    · obtain ⟨j, v, hj⟩ := hex
      have hji : j ≠ i := fun h => by simp [h, hi] at hj
      exact .inl ⟨j, j, v, hj, by rw [Function.update_of_ne hji, hj]⟩
    · push Not at hex
      refine .inr (.inr (.inr ⟨hex, fun j w h => ?_, rfl⟩))
      rw [Function.update_apply] at h
      split at h
      · cases h
        exact hkk rfl
      · exact hex j w h

/-- **Changing a cached value.** -/
theorem content_store (hu : Unique c) (h : c i = some (k, v)) (w : V) :
    content (Function.update c i (some (k, w))) d = Function.update (content c d) k w := by
  have hk : ∀ j v, j ≠ i → c j ≠ some (k, v) := fun j v hji hj => hji (hu hj h)
  have hu' := unique_fill hu hk w
  funext k'
  by_cases hkk : k' = k
  · subst hkk
    rw [Function.update_self, content_of_slot hu' (Function.update_self ..)]
  · rw [Function.update_of_ne hkk]
    refine content_congr hu hu' k' ?_
    by_cases hex : ∃ j v, c j = some (k', v)
    · obtain ⟨j, v', hj⟩ := hex
      have hji : j ≠ i := fun hji => hkk (by rw [hji, h] at hj; cases hj; rfl)
      exact .inl ⟨j, j, v', hj, by rw [Function.update_of_ne hji, hj]⟩
    · push Not at hex
      refine .inr (.inr (.inr ⟨hex, fun j w' hj => ?_, rfl⟩))
      rw [Function.update_apply] at hj
      split at hj
      · cases hj
        exact hkk rfl
      · exact hex j w' hj

end update

end Pintos.Lib.WriteBack
