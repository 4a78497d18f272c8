import Mathlib.Data.List.Nodup
import Mathlib.Data.List.Perm.Basic
import Mathlib.Tactic

/-! # Tables of records with keys

A hash table or an intrusive list is a list of records in iteration order, with the key of a record read
off the record. `Keyed` says that no two records share a key; it makes looking a record up, replacing it
and deleting it agree. Up to order, a table that has the record `r` is `r` in front of the rest, which is
how the invariants of a table are carried over a change of one record. -/

namespace Pintos.Lib.Table

variable {κ ρ : Type} {key : ρ → κ} {l l' : List ρ} {k : κ} {r r' x : ρ}

/-- No two records have the same key. -/
def Keyed (key : ρ → κ) (l : List ρ) : Prop := (l.map key).Nodup

theorem Keyed.eq_of_key (h : Keyed key l) (hr : r ∈ l) (hx : x ∈ l) (hk : key r = key x) : r = x :=
  List.inj_on_of_nodup_map h hr hx hk

theorem Keyed.perm (h : Keyed key l) (hp : l.Perm l') : Keyed key l' :=
  (hp.map key).nodup_iff.mp h

theorem keyed_cons : Keyed key (r :: l) ↔ (∀ x ∈ l, key x ≠ key r) ∧ Keyed key l := by
  simp [Keyed, List.nodup_cons]

variable [DecidableEq κ]

/-- The first record with the key `k`. -/
def find (key : ρ → κ) (l : List ρ) (k : κ) : Option ρ := l.find? fun r => key r = k

/-- The record with the key of `r` becomes `r`. -/
def replace (key : ρ → κ) (l : List ρ) (r : ρ) : List ρ :=
  l.map fun x => if key x = key r then r else x

/-- The records with other keys than `k`. -/
def erase (key : ρ → κ) (l : List ρ) (k : κ) : List ρ := l.filter fun x => key x ≠ k

/-! ### Looking up -/

theorem find_eq_none : find key l k = none ↔ ∀ x ∈ l, key x ≠ k := by
  simp [find, List.find?_eq_none]

theorem mem_of_find (h : find key l k = some r) : r ∈ l := List.mem_of_find?_eq_some h

theorem key_of_find (h : find key l k = some r) : key r = k := by
  simpa using List.find?_some h

theorem Keyed.find_mem (h : Keyed key l) (hr : r ∈ l) : find key l (key r) = some r := by
  cases hf : find key l (key r) with
  | none => exact absurd rfl (find_eq_none.mp hf r hr)
  | some x =>
    have hx : x = r := h.eq_of_key (mem_of_find hf) hr (key_of_find hf)
    rw [hx]

theorem Keyed.find_eq_some (h : Keyed key l) : find key l k = some r ↔ r ∈ l ∧ key r = k := by
  constructor
  · intro hf
    exact ⟨mem_of_find hf, key_of_find hf⟩
  · rintro ⟨hr, rfl⟩
    exact h.find_mem hr

theorem Keyed.find_perm (h : Keyed key l) (hp : l.Perm l') (k : κ) :
    find key l' k = find key l k := by
  ext r
  simp [h.find_eq_some, (h.perm hp).find_eq_some, hp.mem_iff]

theorem find_cons : find key (r :: l) k = if key r = k then some r else find key l k := by
  by_cases h : key r = k <;> simp [find, h]

/-! ### Deleting -/

theorem mem_erase : x ∈ erase key l k ↔ x ∈ l ∧ key x ≠ k := by simp [erase]

theorem Keyed.erase (h : Keyed key l) (k : κ) : Keyed key (erase key l k) :=
  (List.filter_sublist.map key).nodup h

theorem erase_of_forall (h : ∀ x ∈ l, key x ≠ k) : erase key l k = l := by
  simpa [Table.erase] using h

theorem Keyed.find_erase (h : Keyed key l) (k k' : κ) :
    find key (Table.erase key l k) k' = if k' = k then none else find key l k' := by
  ext r
  split_ifs with hk
  · simp only [(h.erase k).find_eq_some, mem_erase]
    grind
  · simp only [(h.erase k).find_eq_some, h.find_eq_some, mem_erase]
    grind

/-- A table with the record `r` is `r` in front of the rest. -/
theorem Keyed.perm_cons_erase (h : Keyed key l) (hr : r ∈ l) :
    l.Perm (r :: Table.erase key l (key r)) := by
  induction l with
  | nil => cases hr
  | cons x l ih =>
    obtain ⟨hx, hl⟩ := keyed_cons.mp h
    by_cases hk : key x = key r
    · obtain rfl : x = r := h.eq_of_key List.mem_cons_self hr hk
      have he : Table.erase key (x :: l) (key x) = l := by
        simpa [Table.erase] using hx
      rw [he]
    · have hr' : r ∈ l := by
        rcases List.mem_cons.mp hr with rfl | h'
        · exact absurd rfl hk
        · exact h'
      have he : Table.erase key (x :: l) (key r) = x :: Table.erase key l (key r) := by
        simp [Table.erase, hk]
      rw [he]
      exact ((ih hl hr').cons x).trans (.swap r x _)

/-! ### Replacing -/

theorem map_key_replace : (replace key l r).map key = l.map key := by
  induction l with
  | nil => rfl
  | cons x l ih =>
    by_cases h : key x = key r <;> simp_all [replace]

theorem mem_replace :
    x ∈ replace key l r ↔ (x = r ∧ ∃ y ∈ l, key y = key r) ∨ x ∈ l ∧ key x ≠ key r := by
  unfold replace
  rw [List.mem_map]
  constructor
  · rintro ⟨y, hy, hyx⟩
    split_ifs at hyx with hk
    · exact .inl ⟨hyx.symm, y, hy, hk⟩
    · subst hyx
      exact .inr ⟨hy, hk⟩
  · rintro (⟨rfl, y, hy, hk⟩ | ⟨hx, hk⟩)
    · exact ⟨y, hy, if_pos hk⟩
    · exact ⟨x, hx, if_neg hk⟩

theorem mem_replace_self (hr : r ∈ l) (hk : key r' = key r) : r' ∈ replace key l r' :=
  mem_replace.mpr (.inl ⟨rfl, r, hr, hk.symm⟩)

theorem Keyed.replace (h : Keyed key l) : Keyed key (replace key l r) := by
  rw [Keyed, map_key_replace]
  exact h

theorem replace_of_forall (h : ∀ x ∈ l, key x ≠ key r) : Table.replace key l r = l := by
  unfold Table.replace
  conv_rhs => rw [← List.map_id l]
  exact List.map_congr_left fun x hx => by simp [h x hx]

theorem Keyed.perm_cons_replace (h : Keyed key l) (hr : r ∈ l) (hk : key r' = key r) :
    (Table.replace key l r').Perm (r' :: Table.erase key l (key r)) := by
  have hp := (h.perm_cons_erase hr).map fun x => if key x = key r' then r' else x
  have hrest : (Table.erase key l (key r)).map (fun x => if key x = key r' then r' else x) =
      Table.erase key l (key r) :=
    replace_of_forall fun x hx => hk ▸ (mem_erase.mp hx).2
  rw [List.map_cons, if_pos hk.symm, hrest] at hp
  exact hp

theorem Keyed.find_replace (h : Keyed key l) (hr : r ∈ l) (hk : key r' = key r) (k : κ) :
    find key (Table.replace key l r') k = if k = key r then some r' else find key l k := by
  have hp := h.perm_cons_replace hr hk
  rw [← (h.replace.find_perm hp k), find_cons, h.find_erase, hk]
  grind

end Pintos.Lib.Table
