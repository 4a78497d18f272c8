import Pintos.Filesys.DirBytes
import Pintos.Lib.Runs

/-! # A directory is a finite map

Runs of `dir_add` and `dir_remove` on one directory, beside the map from names to inode sectors that they stand
for. `dir_lookup` and `dir_readdir` only read. -/

namespace Pintos.Filesys.DirMap

open Pintos.Lib.Runs
open Pintos.Filesys.DirState (nameMax)
open Pintos.Filesys.DirBytes

/-! ### The system -/

structure MapDir where
  file : DirFile
  /-- What the calls have bound. -/
  map : CStr → Option (BitVec 32)

inductive DirAction
  | add (name : CStr) (inodeSector : BitVec 32)
  | remove (name : CStr) (victim : Victim)

/-- A call with a valid name, with whatever is on the stack. -/
inductive DirStep (s : MapDir) : DirAction → MapDir → Prop
  | added {name : CStr} {sector : BitVec 32} {e : Entry} {f : DirFile} (hv : ValidName name)
      (h : dirAdd s.file name sector e = (true, f)) :
      DirStep s (.add name sector) ⟨f, Function.update s.map name (some sector)⟩
  | notAdded {name : CStr} {sector : BitVec 32} {e : Entry} {f : DirFile} (hv : ValidName name)
      (h : dirAdd s.file name sector e = (false, f)) : DirStep s (.add name sector) ⟨f, s.map⟩
  | removed {name : CStr} {victim : Victim} {e : Entry} {f : DirFile} (hv : ValidName name)
      (h : dirRemove s.file name victim e = (true, f)) :
      DirStep s (.remove name victim) ⟨f, Function.update s.map name none⟩
  | notRemoved {name : CStr} {victim : Victim} {e : Entry} {f : DirFile} (hv : ValidName name)
      (h : dirRemove s.file name victim e = (false, f)) : DirStep s (.remove name victim) ⟨f, s.map⟩

/-- As `dir_create` leaves it: some entries of zeros. -/
def DirInit (s : MapDir) : Prop :=
  Whole s.file ∧ (∀ p < s.file.length, s.file.bytes p = 0) ∧ ∀ name, s.map name = none

/-! ### The invariant -/

/-- **The slots represent the map**: a slot in use has a valid name, no two have the same, and the bindings are the
names and sectors of the slots in use. -/
structure Represents (f : DirFile) (map : CStr → Option (BitVec 32)) : Prop where
  whole : Whole f
  named : ∀ k < slotCnt f, (slot f k).inUse = true → ∃ name, ValidName name ∧ Holds f name k
  unique : ∀ name, ValidName name → ∀ j < slotCnt f, ∀ k < slotCnt f, Holds f name j → Holds f name k → j = k
  live : ∀ name sector, map name = some sector ↔
    ValidName name ∧ ∃ k < slotCnt f, Holds f name k ∧ (slot f k).inodeSector = sector

variable {f f' : DirFile} {map : CStr → Option (BitVec 32)} {name path : CStr} {sector : BitVec 32} {e : Entry}
  {j k : ℕ} {victim : Victim} {s s' : MapDir}

theorem holds_congr (h : Same (slot f' j) (slot f k)) (hn : name.length ≤ nameMax) :
    Holds f' name j ↔ Holds f name k := by
  rw [Holds, Holds, h.inUse, h.strEq hn]

/-- A slot in use holds one name only. -/
theorem holds_unique (hp : ValidName path) (hn : ValidName name) (h1 : Holds f path k) (h2 : Holds f name k) :
    path = name := strEq_unique hp.no_zero hn.no_zero h1.2 h2.2

theorem Represents.map_eq_none (h : Represents f map) (hv : ValidName name) :
    map name = none ↔ ∀ k < slotCnt f, ¬Holds f name k := by
  constructor
  · intro hnone k hk hh
    have hsome := (h.live name _).mpr ⟨hv, k, hk, hh, rfl⟩
    rw [hnone] at hsome
    cases hsome
  · intro hno
    rw [Option.eq_none_iff_forall_ne_some]
    intro sector hs
    obtain ⟨-, k, hk, hh, -⟩ := (h.live name sector).mp hs
    exact hno k hk hh

/-- **`lookup` answers as the map does.** -/
theorem Represents.lookup_eq (h : Represents f map) (hv : ValidName name) (e : Entry) :
    (lookup f name e).map (fun r => r.1.inodeSector) = map name := by
  rcases lookup_spec h.whole hv.short e with ⟨e', j, h1, hj, hh, hsame⟩ | ⟨h1, hno⟩
  · rw [h1, Option.map_some, (h.live name _).mpr ⟨hv, j, hj, hh, rfl⟩, hsame.inodeSector]
  · rw [h1, (h.map_eq_none hv).mpr hno]
    rfl

/-! ### dir_add -/

/-- What `dir_add` does: nothing if the name is bound, and else a slot that is not in use is written. -/
theorem Represents.dirAdd_cases (h : Represents f map) (hv : ValidName name) (sector : BitVec 32) (e : Entry) :
    map name ≠ none ∧ dirAdd f name sector e = (false, f) ∨
      map name = none ∧ ∃ (e' : Entry) (j : ℕ), dirAdd f name sector e =
        (true, writeSlot f j (newEntry e' name sector)) ∧
        j ≤ slotCnt f ∧ (j < slotCnt f → (slot f j).inUse = false) := by
  have hvalid : ¬(name = [] ∨ nameMax < name.length) := by
    rintro (h | h)
    · exact hv.ne_nil h
    · exact absurd hv.short (by omega)
  unfold dirAdd
  rw [if_neg hvalid]
  have hl := h.lookup_eq hv e
  rcases hlook : lookup f name e with _ | r
  · right
    rw [hlook, Option.map_none] at hl
    have hcnt : slotCnt f ≤ f.length := Nat.div_le_self _ _
    obtain ⟨e', j, h1, h2, h3⟩ := freeLoop_spec h.whole (f.length + 1) 0 e (by omega) (Nat.zero_le _)
    rw [Nat.mul_zero] at h1
    refine ⟨hl.symm, e', j, ?_, h2, h3⟩
    rw [if_neg (by simp), h1]
    rfl
  · left
    rw [hlook, Option.map_some] at hl
    refine ⟨fun hnone => ?_, if_pos rfl⟩
    rw [hnone] at hl
    cases hl

/-- The slots after one of them was written. -/
theorem holds_writeSlot (hw : Whole f) (hk : k < slotCnt f) (hne : k ≠ j) (hv : ValidName path) :
    Holds (writeSlot f j e) path k ↔ Holds f path k :=
  holds_congr (same_writeSlot_of_ne hw hk hne) hv.short

theorem sector_writeSlot (hw : Whole f) (hk : k < slotCnt f) (hne : k ≠ j) :
    (slot (writeSlot f j e) k).inodeSector = (slot f k).inodeSector :=
  (same_writeSlot_of_ne hw hk hne).inodeSector

/-- **A new binding** in a slot that was not in use. -/
theorem Represents.added (h : Represents f map) (hv : ValidName name) (hnone : map name = none)
    (hj : j ≤ slotCnt f) (hfree : j < slotCnt f → (slot f j).inUse = false) :
    Represents (writeSlot f j (newEntry e name sector)) (Function.update map name (some sector)) := by
  obtain ⟨hw, hcnt⟩ := writeSlot_length (e := newEntry e name sector) h.whole hj
  obtain ⟨hu, hname, hsector⟩ := newEntry_spec e hv.short sector
  have hself : Same (slot (writeSlot f j (newEntry e name sector)) j) (newEntry e name sector) :=
    same_writeSlot f j _
  have hnew : Holds (writeSlot f j (newEntry e name sector)) name j := by
    rw [Holds, hself.inUse, hself.strEq hv.short]
    exact ⟨hu, hname⟩
  have hin : ∀ k, k < slotCnt (writeSlot f j (newEntry e name sector)) ↔ k = j ∨ k ≠ j ∧ k < slotCnt f := by
    intro k
    rw [hcnt]
    omega
  -- only the slot `j` has the new name
  have hno : ∀ k, k ≠ j → k < slotCnt f → ¬Holds (writeSlot f j (newEntry e name sector)) name k := by
    intro k hne hk hh
    exact (h.map_eq_none hv).mp hnone k hk ((holds_writeSlot h.whole hk hne hv).mp hh)
  refine ⟨hw, fun k hk hused => ?_, fun path hp a ha b hb h1 h2 => ?_, fun path sector' => ?_⟩
  · rcases (hin k).mp hk with rfl | ⟨hne, hk⟩
    · exact ⟨name, hv, hnew⟩
    · rw [(same_writeSlot_of_ne h.whole hk hne).inUse] at hused
      obtain ⟨path, hp, hh⟩ := h.named k hk hused
      exact ⟨path, hp, (holds_writeSlot h.whole hk hne hp).mpr hh⟩
  · rcases (hin a).mp ha with ha' | ⟨hane, ha'⟩ <;> rcases (hin b).mp hb with hb' | ⟨hbne, hb'⟩
    · rw [ha', hb']
    · rw [ha'] at h1
      obtain rfl := holds_unique hp hv h1 hnew
      exact absurd h2 (hno b hbne hb')
    · rw [hb'] at h2
      obtain rfl := holds_unique hp hv h2 hnew
      exact absurd h1 (hno a hane ha')
    · exact h.unique path hp a ha' b hb' ((holds_writeSlot h.whole ha' hane hp).mp h1)
        ((holds_writeSlot h.whole hb' hbne hp).mp h2)
  · by_cases he : path = name
    · subst he
      rw [Function.update_self]
      constructor
      · intro hs
        refine ⟨hv, j, (hin j).mpr (.inl rfl), hnew, ?_⟩
        rw [hself.inodeSector, hsector]
        exact Option.some.inj hs
      · rintro ⟨-, k, hk, hh, hs⟩
        rcases (hin k).mp hk with rfl | ⟨hne, hk⟩
        · rw [hself.inodeSector, hsector] at hs
          rw [hs]
        · exact absurd hh (hno k hne hk)
    · rw [Function.update_of_ne he, h.live]
      constructor
      · rintro ⟨hp, k, hk, hh, hs⟩
        have hne : k ≠ j := by
          rintro rfl
          rw [Holds, hfree hk] at hh
          exact Bool.noConfusion hh.1
        exact ⟨hp, k, (hin k).mpr (.inr ⟨hne, hk⟩), (holds_writeSlot h.whole hk hne hp).mpr hh,
          (sector_writeSlot h.whole hk hne).trans hs⟩
      · rintro ⟨hp, k, hk, hh, hs⟩
        rcases (hin k).mp hk with rfl | ⟨hne, hk⟩
        · exact absurd (holds_unique hp hv hh hnew) he
        · exact ⟨hp, k, hk, (holds_writeSlot h.whole hk hne hp).mp hh,
            (sector_writeSlot h.whole hk hne).symm.trans hs⟩

/-! ### dir_remove -/

/-- What `dir_remove` does: nothing, or the slot of the name is set free. -/
theorem Represents.dirRemove_cases (h : Represents f map) (hv : ValidName name) (victim : Victim) (e : Entry) :
    (map name = none ∨ victim.removable = false) ∧ dirRemove f name victim e = (false, f) ∨
      map name ≠ none ∧ victim.removable = true ∧ ∃ (e' : Entry) (j : ℕ), j < slotCnt f ∧ Holds f name j ∧
        dirRemove f name victim e = (true, writeSlot f j (e'.setInUse false)) := by
  unfold dirRemove
  rcases lookup_spec h.whole hv.short e with ⟨e', j, h1, hj, hh, hsame⟩ | ⟨h1, hno⟩
  · have hbound : map name ≠ none := fun hnone => (h.map_eq_none hv).mp hnone j hj hh
    rw [h1]
    rcases hr : victim.removable with _ | _
    · exact .inl ⟨.inr rfl, rfl⟩
    · exact .inr ⟨hbound, rfl, e', j, hj, hh, rfl⟩
  · rw [h1]
    exact .inl ⟨.inl ((h.map_eq_none hv).mpr hno), rfl⟩

/-- **The slot of a name is set free.** -/
theorem Represents.removed (h : Represents f map) (hv : ValidName name) (hj : j < slotCnt f)
    (hh : Holds f name j) (hfree : e.inUse = false) :
    Represents (writeSlot f j e) (Function.update map name none) := by
  obtain ⟨hw, hcnt⟩ := writeSlot_length (e := e) h.whole hj.le
  have hself : (slot (writeSlot f j e) j).inUse = false := (same_writeSlot f j e).inUse.trans hfree
  have hin : ∀ k path, k < slotCnt (writeSlot f j e) ∧ Holds (writeSlot f j e) path k →
      k ≠ j ∧ k < slotCnt f := by
    rintro k path ⟨hk, hused, -⟩
    rw [hcnt] at hk
    refine ⟨?_, by omega⟩
    rintro rfl
    rw [hself] at hused
    cases hused
  refine ⟨hw, fun k hk hused => ?_, fun path hp a ha b hb h1 h2 => ?_, fun path sector => ?_⟩
  · have hne : k ≠ j := by
      rintro rfl
      rw [hself] at hused
      cases hused
    have hk' : k < slotCnt f := by
      rw [hcnt] at hk
      omega
    rw [(same_writeSlot_of_ne h.whole hk' hne).inUse] at hused
    obtain ⟨path, hp, hold⟩ := h.named k hk' hused
    exact ⟨path, hp, (holds_writeSlot h.whole hk' hne hp).mpr hold⟩
  · obtain ⟨hane, ha⟩ := hin a path ⟨ha, h1⟩
    obtain ⟨hbne, hb⟩ := hin b path ⟨hb, h2⟩
    exact h.unique path hp a ha b hb ((holds_writeSlot h.whole ha hane hp).mp h1)
      ((holds_writeSlot h.whole hb hbne hp).mp h2)
  · by_cases he : path = name
    · subst he
      rw [Function.update_self]
      constructor
      · intro hs
        cases hs
      · rintro ⟨-, k, hk, hold, -⟩
        obtain ⟨hne, hk⟩ := hin k path ⟨hk, hold⟩
        exact absurd (h.unique path hv k hk j hj ((holds_writeSlot h.whole hk hne hv).mp hold) hh) hne
    · rw [Function.update_of_ne he, h.live]
      constructor
      · rintro ⟨hp, k, hk, hold, hs⟩
        have hne : k ≠ j := by
          rintro rfl
          exact he (holds_unique hp hv hold hh)
        refine ⟨hp, k, by rw [hcnt]; omega, (holds_writeSlot h.whole hk hne hp).mpr hold, ?_⟩
        exact (sector_writeSlot h.whole hk hne).trans hs
      · rintro ⟨hp, k, hk, hold, hs⟩
        obtain ⟨hne, hk⟩ := hin k path ⟨hk, hold⟩
        exact ⟨hp, k, hk, (holds_writeSlot h.whole hk hne hp).mp hold,
          (sector_writeSlot h.whole hk hne).symm.trans hs⟩

/-! ### Steps -/

theorem represents_init (h : DirInit s) : Represents s.file s.map := by
  obtain ⟨hw, hzero, hmap⟩ := h
  have hfree : ∀ k < slotCnt s.file, (slot s.file k).inUse = false := by
    intro k hk
    have hlen := hw.length_eq
    have h19 : slot s.file k 19 = 0 := hzero _ (by unfold entrySize at *; omega)
    rw [Entry.inUse, h19]
    rfl
  refine ⟨hw, fun k hk hused => ?_, fun _ _ j hj _ _ hh => ?_, fun name sector => ?_⟩
  · rw [hfree k hk] at hused
    cases hused
  · rw [Holds, hfree j hj] at hh
    exact Bool.noConfusion hh.1
  · rw [hmap]
    constructor
    · intro hs
      cases hs
    · rintro ⟨-, k, hk, hh, -⟩
      rw [Holds, hfree k hk] at hh
      exact Bool.noConfusion hh.1

theorem represents_step {a : DirAction} (h : Represents s.file s.map) (hstep : DirStep s a s') :
    Represents s'.file s'.map := by
  cases hstep with
  | @added name sector e f hv ha =>
    rcases h.dirAdd_cases hv sector e with ⟨-, he⟩ | ⟨hnone, e', j, he, hj, hfree⟩
    · rw [ha] at he
      cases he
    · rw [ha] at he
      obtain rfl := (Prod.mk.inj he).2
      exact h.added hv hnone hj hfree
  | @notAdded name sector e f hv ha =>
    rcases h.dirAdd_cases hv sector e with ⟨-, he⟩ | ⟨-, e', j, he, -⟩
    · rw [ha] at he
      obtain rfl := (Prod.mk.inj he).2
      exact h
    · rw [ha] at he
      cases he
  | @removed name victim e f hv hr =>
    rcases h.dirRemove_cases hv victim e with ⟨-, he⟩ | ⟨-, -, e', j, hj, hh, he⟩
    · rw [hr] at he
      cases he
    · rw [hr] at he
      obtain rfl := (Prod.mk.inj he).2
      exact h.removed hv hj hh (inUse_setInUse false)
  | @notRemoved name victim e f hv hr =>
    rcases h.dirRemove_cases hv victim e with ⟨-, he⟩ | ⟨-, -, e', j, -, -, he⟩
    · rw [hr] at he
      obtain rfl := (Prod.mk.inj he).2
      exact h
    · rw [hr] at he
      cases he

theorem represents_invariant : Invariant DirInit DirStep fun s => Represents s.file s.map :=
  ⟨represents_init, represents_step⟩

/-! ### dir_readdir -/

/-- **Reading on from the slot `k`** returns every name in a slot from `k` on, once. -/
theorem Represents.readAll_spec (h : Represents f map) (junk : ℕ → Entry) :
    ∀ n k, slotCnt f < n + k → k ≤ slotCnt f →
      (readAll f junk n (entrySize * k)).Nodup ∧ ∀ name, name ∈ readAll f junk n (entrySize * k) ↔
        ValidName name ∧ ∃ j, k ≤ j ∧ j < slotCnt f ∧ Holds f name j
  | 0, k, hn, hle => by omega
  | n + 1, k, hn, hle => by
    have hcnt : slotCnt f ≤ f.length := Nat.div_le_self _ _
    rw [readAll, dirReaddir]
    rcases readdirLoop_spec h.whole (f.length + 1) k (junk n) (by omega) hle with
      ⟨e', j, h1, hkj, hj, hused, hsame, hfree⟩ | ⟨h1, hfree⟩
    · obtain ⟨first, hv, hh⟩ := h.named j hj hused
      have htake : strTake e'.name nameMax = first :=
        strTake_eq hv.no_zero hv.short ((hsame.strEq hv.short).trans hh.2)
      obtain ⟨hnodup, hmem⟩ := h.readAll_spec junk n (j + 1) (by omega) (by omega)
      have hnot : first ∉ readAll f junk n (entrySize * (j + 1)) := by
        intro hin
        obtain ⟨-, i, hi, hlt, hh'⟩ := (hmem first).mp hin
        have heq := h.unique first hv i hlt j hj hh' hh
        omega
      rw [h1, htake]
      refine ⟨List.nodup_cons.mpr ⟨hnot, hnodup⟩, fun name => ?_⟩
      rw [List.mem_cons, hmem]
      constructor
      · rintro (rfl | ⟨hname, i, hi, hlt, hh'⟩)
        · exact ⟨hv, j, hkj, hj, hh⟩
        · exact ⟨hname, i, by omega, hlt, hh'⟩
      · rintro ⟨hname, i, hi, hlt, hh'⟩
        -- a slot before `j` is not in use
        rcases Nat.lt_trichotomy i j with hij | rfl | hij
        · have hf := hfree i hi hij
          rw [hh'.1] at hf
          cases hf
        · exact .inl (holds_unique hname hv hh' hh)
        · exact .inr ⟨hname, i, hij, hlt, hh'⟩
    · rw [h1]
      refine ⟨List.nodup_nil, fun name => ?_⟩
      constructor
      · intro hin
        cases hin
      · rintro ⟨-, i, hi, hlt, hh'⟩
        have hf := hfree i hi hlt
        rw [hh'.1] at hf
        cases hf

theorem Represents.mem_readAll (h : Represents f map) (junk : ℕ → Entry) {n : ℕ} (hn : slotCnt f < n) :
    (readAll f junk n 0).Nodup ∧ ∀ name, name ∈ readAll f junk n 0 ↔ map name ≠ none := by
  obtain ⟨hnodup, hmem⟩ := h.readAll_spec junk n 0 hn (Nat.zero_le _)
  rw [Nat.mul_zero] at hnodup hmem
  refine ⟨hnodup, fun name => ?_⟩
  rw [hmem, Option.ne_none_iff_exists']
  constructor
  · rintro ⟨hv, j, -, hj, hh⟩
    exact ⟨_, (h.live name _).mpr ⟨hv, j, hj, hh, rfl⟩⟩
  · rintro ⟨sector, hs⟩
    obtain ⟨hv, j, hj, hh, -⟩ := (h.live name sector).mp hs
    exact ⟨hv, j, Nat.zero_le j, hj, hh⟩

/-! ### The map -/

theorem Represents.dirAdd_fails_iff (h : Represents f map) (hv : ValidName name) (sector : BitVec 32) (e : Entry) :
    (dirAdd f name sector e).1 = false ↔ map name ≠ none := by
  rcases h.dirAdd_cases hv sector e with ⟨hb, he⟩ | ⟨hnone, e', j, he, -⟩
  · rw [he]
    exact ⟨fun _ => hb, fun _ => rfl⟩
  · rw [he]
    exact ⟨fun hc => Bool.noConfusion hc, fun hb => absurd hnone hb⟩

/-- **`dir_add` overwrites no slot in use.** -/
theorem Represents.same_dirAdd (h : Represents f map) (hv : ValidName name) (sector : BitVec 32) (e : Entry)
    (hk : k < slotCnt f) (hused : (slot f k).inUse = true) : Same (slot (dirAdd f name sector e).2 k) (slot f k) := by
  rcases h.dirAdd_cases hv sector e with ⟨-, he⟩ | ⟨-, e', j, he, -, hfree⟩
  · rw [he]
    exact fun i _ => rfl
  · rw [he]
    refine same_writeSlot_of_ne h.whole hk ?_
    rintro rfl
    rw [hfree hk] at hused
    cases hused

theorem Represents.dirRemove_fails_iff (h : Represents f map) (hv : ValidName name) (victim : Victim) (e : Entry) :
    (dirRemove f name victim e).1 = false ↔ map name = none ∨ victim.removable = false := by
  rcases h.dirRemove_cases hv victim e with ⟨hb, he⟩ | ⟨hb, hr, e', j, -, -, he⟩
  · rw [he]
    exact ⟨fun _ => hb, fun _ => rfl⟩
  · rw [he, hr]
    exact ⟨fun hc => Bool.noConfusion hc, fun hc => hc.elim (absurd · hb) fun hc => Bool.noConfusion hc⟩

/-- A name is bound once at most, `dir_lookup`, `dir_add` and `dir_readdir` answer as the map does, and `dir_add`
overwrites nothing. -/
structure FiniteMap (f : DirFile) (map : CStr → Option (BitVec 32)) : Prop where
  named : ∀ k < slotCnt f, (slot f k).inUse = true → ∃ name, ValidName name ∧ Holds f name k
  unique : ∀ name, ValidName name → ∀ j < slotCnt f, ∀ k < slotCnt f, Holds f name j → Holds f name k → j = k
  lookup_eq : ∀ name, ValidName name → ∀ e, (lookup f name e).map (fun r => r.1.inodeSector) = map name
  add_fails : ∀ name, ValidName name → ∀ sector e, (dirAdd f name sector e).1 = false ↔ map name ≠ none
  add_keeps : ∀ name, ValidName name → ∀ sector e, ∀ k < slotCnt f, (slot f k).inUse = true →
    Same (slot (dirAdd f name sector e).2 k) (slot f k)
  readdir : ∀ junk n, slotCnt f < n → (readAll f junk n 0).Nodup ∧
    ∀ name, name ∈ readAll f junk n 0 ↔ map name ≠ none

theorem Represents.finiteMap (h : Represents f map) : FiniteMap f map where
  named := h.named
  unique := h.unique
  lookup_eq _ hv e := h.lookup_eq hv e
  add_fails _ hv sector e := h.dirAdd_fails_iff hv sector e
  add_keeps _ hv sector e _ hk hused := h.same_dirAdd hv sector e hk hused
  readdir junk _ hn := h.mem_readAll junk hn

/-- **A directory is a finite map** in every run, and `dir_remove` of an entry that is not a directory fails on the
names that are not bound only, unless `inode_open` finds no memory. -/
theorem directory_finiteMap (h : Reachable DirInit DirStep s) :
    FiniteMap s.file s.map ∧ ∀ name victim e, ValidName name → (∀ busy, victim ≠ .dir busy) →
      (((dirRemove s.file name victim e).1 = false ↔ s.map name = none) ↔
        (s.map name ≠ none → victim ≠ .noMemory)) := by
  have hrep := h.of_invariant represents_invariant
  refine ⟨hrep.finiteMap, fun name victim e hv hfile => ?_⟩
  have hremovable : victim.removable = false ↔ victim = .noMemory := by
    cases victim with
    | noMemory => exact ⟨fun _ => rfl, fun _ => rfl⟩
    | file => exact ⟨fun hc => Bool.noConfusion hc, fun hc => Victim.noConfusion hc⟩
    | dir busy => exact absurd rfl (hfile busy)
  rw [hrep.dirRemove_fails_iff hv victim e, hremovable]
  constructor
  · intro hiff hb hno
    exact hb (hiff.mp (.inr hno))
  · intro hmem
    constructor
    · rintro (hnone | hno)
      · exact hnone
      · by_contra hb
        exact hmem hb hno
    · exact .inl

/-! ### Without memory -/

/-- A directory for one entry. -/
def emptyDir : MapDir where
  file := ⟨20, fun _ => 0⟩
  map _ := none

/-- The directory with the file `a` in sector 5. -/
def dirWithFile : MapDir where
  file := (dirAdd emptyDir.file [97] 5 fun _ => 0).2
  map := Function.update emptyDir.map [97] (some 5)

theorem validName_a : ValidName [97] := ⟨by decide, by decide, by decide⟩

theorem reachable_dirWithFile : Reachable DirInit DirStep dirWithFile := by
  refine .step (a := .add [97] 5) (.start (s := emptyDir) ⟨rfl, fun _ _ => rfl, fun _ => rfl⟩) ?_
  exact DirStep.added (e := fun _ => 0) validName_a (Prod.ext (by decide +kernel) rfl)

/-- The entry is there, and `dir_remove` fails. -/
theorem remove_noMemory :
    Reachable DirInit DirStep dirWithFile ∧ dirWithFile.map [97] = some 5 ∧
      (lookup dirWithFile.file [97] fun _ => 0).isSome = true ∧
      (dirRemove dirWithFile.file [97] .noMemory fun _ => 0).1 = false :=
  ⟨reachable_dirWithFile, by decide +kernel, by decide +kernel, by decide +kernel⟩

theorem directory_finiteMap_file :
    FiniteMap dirWithFile.file dirWithFile.map ∧ (dirRemove dirWithFile.file [97] .file fun _ => 0).1 = true := by
  have h := directory_finiteMap reachable_dirWithFile
  refine ⟨h.1, ?_⟩
  have hiff := (h.2 [97] .file (fun _ => 0) validName_a fun busy hc => Victim.noConfusion hc).mpr
    fun _ hc => Victim.noConfusion hc
  rw [← Bool.not_eq_false, hiff]
  decide +kernel

end Pintos.Filesys.DirMap
