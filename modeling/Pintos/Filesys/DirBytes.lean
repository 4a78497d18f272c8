import Pintos.Filesys.DirState
import Pintos.Lib.Overlay
import Pintos.Lib.Words

/-! # The bytes of a directory

directory.c on the bytes of a directory's inode: entries of 20 bytes that are read one by one until a read comes
back short. A local `struct dir_entry` starts with whatever is on the stack. Every function here runs inside
`dir_lock`. -/

namespace Pintos.Filesys.DirBytes

open Pintos.Lib.Overlay Pintos.Lib.Words
open Pintos.Filesys.DirState (nameMax)

/-! ### Reads and writes -/

/-- The data of the inode. -/
structure DirFile where
  length : ℕ
  bytes : ℕ → UInt8

/-- `inode_read_at`. -/
def inodeReadAt (f : DirFile) (size offset : ℕ) : List UInt8 := slice f.bytes offset (min size (f.length - offset))

/-- `inode_write_at`, which grows the file with zeros. -/
def inodeWriteAt (f : DirFile) (buffer : List UInt8) (offset : ℕ) : DirFile where
  length := max f.length (offset + buffer.length)
  bytes := overlay (fun p => if p < f.length then f.bytes p else 0) offset buffer

/-! ### Entries -/

/-- `sizeof (struct dir_entry)`. -/
def entrySize : ℕ := 20

/-- The memory of a `struct dir_entry`. -/
abbrev Entry := ℕ → UInt8

/-- A C string, without its terminator. -/
abbrev CStr := List UInt8

namespace Entry

def inodeSector (e : Entry) : BitVec 32 := wordOf e 0

/-- The address `e.name`. -/
def name (e : Entry) : ℕ → UInt8 := fun i => e (4 + i)

def inUse (e : Entry) : Bool := e 19 ≠ 0

def setInodeSector (e : Entry) (sector : BitVec 32) : Entry := overlay e 0 (wordBytes sector)

/-- `strlcpy (e.name, name, sizeof e.name)`. -/
def setName (e : Entry) (name : CStr) : Entry := overlay e 4 (name.take nameMax ++ [0])

def setInUse (e : Entry) (value : Bool) : Entry := overlay e 19 [if value then 1 else 0]

/-- The entry as it is written. -/
def toBytes (e : Entry) : List UInt8 := slice e 0 entrySize

end Entry

/-- `!strcmp (path, s)`. -/
def strEq : CStr → (ℕ → UInt8) → Bool
  | [], s => s 0 = 0
  | c :: path, s => s 0 = c && strEq path fun i => s (i + 1)

/-- What `strlcpy` copies of `s`, at most `n` characters. -/
def strTake (s : ℕ → UInt8) : ℕ → CStr
  | 0 => []
  | n + 1 => if s 0 = 0 then [] else s 0 :: strTake (fun i => s (i + 1)) n

/-! ### directory.c -/

/-- `inode_read_at (dir->inode, &e, sizeof e, ofs)`: the entry afterwards. -/
def readEntry (f : DirFile) (e : Entry) (ofs : ℕ) : Entry := overlay e 0 (inodeReadAt f entrySize ofs)

/-- Whether it returns `sizeof e`. -/
def fullRead (f : DirFile) (ofs : ℕ) : Bool := (inodeReadAt f entrySize ofs).length = entrySize

/-- The loop of `lookup` from `ofs` on. A round reads 20 bytes, so that a round for each byte is enough. -/
def lookupLoop (f : DirFile) (path : CStr) : ℕ → ℕ → Entry → Option (Entry × ℕ)
  | 0, _, _ => none
  | n + 1, ofs, e =>
    if fullRead f ofs then
      if (readEntry f e ofs).inUse && strEq path (readEntry f e ofs).name then some (readEntry f e ofs, ofs)
      else lookupLoop f path n (ofs + entrySize) (readEntry f e ofs)
    else none

/-- `lookup`, with what `e` holds at first. -/
def lookup (f : DirFile) (path : CStr) (e : Entry) : Option (Entry × ℕ) := lookupLoop f path (f.length + 1) 0 e

/-- The loop of `dir_add`: the offset of the first free slot, or the end of the file, and what `e` holds. -/
def freeLoop (f : DirFile) : ℕ → ℕ → Entry → Entry × ℕ
  | 0, ofs, e => (e, ofs)
  | n + 1, ofs, e =>
    if fullRead f ofs then
      if !(readEntry f e ofs).inUse then (readEntry f e ofs, ofs)
      else freeLoop f n (ofs + entrySize) (readEntry f e ofs)
    else (readEntry f e ofs, ofs)

/-- `dir_add`, less the dentry cache. -/
def dirAdd (f : DirFile) (name : CStr) (inodeSector : BitVec 32) (e : Entry) : Bool × DirFile :=
  if name = [] ∨ nameMax < name.length then (false, f)
  else if (lookup f name e).isSome then (false, f)
  else
    let (e, ofs) := freeLoop f (f.length + 1) 0 e
    (true, inodeWriteAt f (((e.setInUse true).setName name).setInodeSector inodeSector).toBytes ofs)

/-- What `dir_remove` finds out about the inode of the entry. -/
inductive Victim
  /-- `inode_open` finds no memory for a `struct inode`. -/
  | noMemory
  | file
  /-- A directory, and whether it is the root, has entries or is open elsewhere. -/
  | dir (busy : Bool)
  deriving DecidableEq

/-- The entry may be erased. -/
def Victim.removable : Victim → Bool
  | .noMemory => false
  | .file => true
  | .dir busy => !busy

/-- `dir_remove`, less the dentry cache and the inode of the entry. -/
def dirRemove (f : DirFile) (name : CStr) (victim : Victim) (e : Entry) : Bool × DirFile :=
  match lookup f name e with
  | none => (false, f)
  | some (e, ofs) =>
    if victim.removable then (true, inodeWriteAt f (e.setInUse false).toBytes ofs) else (false, f)

/-- The loop of `dir_readdir`, from `dir->pos` on: the name, if there is one more, and `dir->pos` afterwards. -/
def readdirLoop (f : DirFile) : ℕ → ℕ → Entry → Option CStr × ℕ
  | 0, pos, _ => (none, pos)
  | n + 1, pos, e =>
    if fullRead f pos then
      if (readEntry f e pos).inUse then (some (strTake (readEntry f e pos).name nameMax), pos + entrySize)
      else readdirLoop f n (pos + entrySize) (readEntry f e pos)
    else (none, pos)

/-- `dir_readdir`. -/
def dirReaddir (f : DirFile) (pos : ℕ) (e : Entry) : Option CStr × ℕ := readdirLoop f (f.length + 1) pos e

/-- The names that `dir_readdir` returns when it is called again and again, up to `n` times. -/
def readAll (f : DirFile) (junk : ℕ → Entry) : ℕ → ℕ → List CStr
  | 0, _ => []
  | n + 1, pos =>
    match dirReaddir f pos (junk n) with
    | (none, _) => []
    | (some name, pos) => name :: readAll f junk n pos

/-! ### Slots -/

/-- The slot `k` of the directory. -/
def slot (f : DirFile) (k : ℕ) : Entry := fun i => f.bytes (entrySize * k + i)

/-- The number of slots. -/
def slotCnt (f : DirFile) : ℕ := f.length / entrySize

/-- Only whole entries. -/
def Whole (f : DirFile) : Prop := f.length % entrySize = 0

/-- Two entries that hold the same. -/
def Same (e e' : Entry) : Prop := ∀ i < entrySize, e i = e' i

/-- The slot `k` is in use and has the name `path`. -/
def Holds (f : DirFile) (path : CStr) (k : ℕ) : Prop := (slot f k).inUse = true ∧ strEq path (slot f k).name = true

variable {f : DirFile} {e e' : Entry} {path name : CStr} {k n ofs : ℕ} {sector : BitVec 32} {s t : ℕ → UInt8}

/-! ### Strings -/

theorem strEq_iff : ∀ {path : CStr} {s : ℕ → UInt8},
    strEq path s = true ↔ (∀ i (h : i < path.length), s i = path[i]) ∧ s path.length = 0
  | [], s => by simp [strEq]
  | c :: path, s => by
    rw [strEq, Bool.and_eq_true, decide_eq_true_iff, strEq_iff]
    constructor
    · rintro ⟨h0, h1, h2⟩
      refine ⟨fun i hi => ?_, h2⟩
      rcases i with _ | i
      · exact h0
      · exact h1 i (by simpa using hi)
    · rintro ⟨h1, h2⟩
      exact ⟨h1 0 (by simp), fun i hi => h1 (i + 1) (by simpa using hi), h2⟩

/-- Names with no terminator inside. -/
structure ValidName (name : CStr) : Prop where
  ne_nil : name ≠ []
  short : name.length ≤ nameMax
  no_zero : 0 ∉ name

/-- A string stands for one name only. -/
theorem strEq_unique (hp : 0 ∉ path) (hn : 0 ∉ name) (h1 : strEq path s = true) (h2 : strEq name s = true) :
    path = name := by
  obtain ⟨h1, h1'⟩ := strEq_iff.mp h1
  obtain ⟨h2, h2'⟩ := strEq_iff.mp h2
  have hlen : path.length = name.length := by
    rcases Nat.lt_trichotomy path.length name.length with h | h | h
    · exact absurd (List.mem_of_getElem (h2 _ h ▸ h1')) (by simpa using hn)
    · exact h
    · exact absurd (List.mem_of_getElem (h1 _ h ▸ h2')) (by simpa using hp)
  exact List.ext_getElem hlen fun i hi hi' => (h1 i hi).symm.trans (h2 i hi')

/-- What is copied out of a name is the name. -/
theorem strTake_eq : ∀ {path : CStr} {s : ℕ → UInt8} {n : ℕ}, 0 ∉ path → path.length ≤ n → strEq path s = true →
    strTake s n = path
  | [], s, n, _, _, h => by
    have h0 : s 0 = 0 := by simpa [strEq] using h
    rcases n with _ | n
    · rfl
    · rw [strTake, if_pos h0]
  | c :: path, s, n, hp, hn, h => by
    rw [strEq, Bool.and_eq_true, decide_eq_true_iff] at h
    obtain ⟨hc, hp'⟩ : c ≠ 0 ∧ 0 ∉ path := by
      rw [List.mem_cons, not_or] at hp
      exact ⟨fun h => hp.1 h.symm, hp.2⟩
    rcases n with _ | n
    · simp at hn
    · rw [strTake, if_neg (h.1 ▸ hc), h.1, strTake_eq hp' (by simpa using hn) h.2]

theorem strEq_congr (h : ∀ i ≤ path.length, s i = t i) : strEq path s = strEq path t := by
  rw [Bool.eq_iff_iff, strEq_iff, strEq_iff]
  constructor
  · rintro ⟨h1, h2⟩
    exact ⟨fun i hi => (h i hi.le).symm.trans (h1 i hi), (h _ le_rfl).symm.trans h2⟩
  · rintro ⟨h1, h2⟩
    exact ⟨fun i hi => (h i hi.le).trans (h1 i hi), (h _ le_rfl).trans h2⟩

/-! ### Reading slots -/

theorem Whole.length_eq (h : Whole f) : f.length = entrySize * slotCnt f := by
  unfold Whole slotCnt entrySize at *
  omega

theorem fullRead_iff (h : Whole f) : fullRead f (entrySize * k) = true ↔ k < slotCnt f := by
  have hlen := h.length_eq
  rw [fullRead, decide_eq_true_iff, inodeReadAt, length_slice]
  unfold entrySize at *
  omega

/-- An entry that is read in full is the slot. -/
theorem same_readEntry (h : Whole f) (hk : k < slotCnt f) (e : Entry) :
    Same (readEntry f e (entrySize * k)) (slot f k) := by
  intro i hi
  have hlen := h.length_eq
  have hmin : min entrySize (f.length - entrySize * k) = entrySize := by
    unfold entrySize at *
    omega
  rw [readEntry, inodeReadAt, hmin, overlay_of_mem (Nat.zero_le i) (by rw [length_slice]; omega)]
  simp [slice, slot]

theorem Same.inUse (h : Same e e') : e.inUse = e'.inUse := by
  unfold Entry.inUse
  rw [h 19 (by decide)]

theorem Same.inodeSector (h : Same e e') : e.inodeSector = e'.inodeSector :=
  wordOf_congr fun k hk => h (0 + k) (by unfold entrySize; omega)

theorem Same.strEq (h : Same e e') (hn : path.length ≤ nameMax) : strEq path e.name = strEq path e'.name := by
  refine strEq_congr fun i hi => h (4 + i) ?_
  unfold entrySize nameMax at *
  omega

/-- **`lookup` from the slot `k` on** finds the first slot that holds the name. -/
theorem lookupLoop_spec (hw : Whole f) (hp : path.length ≤ nameMax) : ∀ (n k : ℕ) (e : Entry), slotCnt f < n + k →
    (∃ e' j, lookupLoop f path n (entrySize * k) e = some (e', entrySize * j) ∧ j < slotCnt f ∧ Holds f path j ∧
        Same e' (slot f j)) ∨
      lookupLoop f path n (entrySize * k) e = none ∧ ∀ j, k ≤ j → j < slotCnt f → ¬Holds f path j
  | 0, k, e, hn => .inr ⟨rfl, fun j h1 h2 => by omega⟩
  | n + 1, k, e, hn => by
    rw [lookupLoop]
    by_cases hk : k < slotCnt f
    · have hsame := same_readEntry hw hk e
      rw [if_pos ((fullRead_iff hw).mpr hk), hsame.inUse, hsame.strEq hp]
      by_cases hh : Holds f path k
      · rw [if_pos (by rw [hh.1, hh.2]; rfl)]
        exact .inl ⟨_, k, rfl, hk, hh, hsame⟩
      · rw [if_neg fun hc => hh (Bool.and_eq_true_iff.mp hc),
          show entrySize * k + entrySize = entrySize * (k + 1) from rfl]
        rcases lookupLoop_spec hw hp n (k + 1) _ (by omega) with h | ⟨h1, h2⟩
        · exact .inl h
        · refine .inr ⟨h1, fun j hj hlt => ?_⟩
          rcases Nat.eq_or_lt_of_le hj with rfl | hj
          · exact hh
          · exact h2 j hj hlt
    · rw [if_neg fun hc => hk ((fullRead_iff hw).mp hc)]
      exact .inr ⟨rfl, fun j h1 h2 => by omega⟩

/-- **`lookup`** finds a slot that holds the name, if there is one. -/
theorem lookup_spec (hw : Whole f) (hp : path.length ≤ nameMax) (e : Entry) :
    (∃ e' j, lookup f path e = some (e', entrySize * j) ∧ j < slotCnt f ∧ Holds f path j ∧ Same e' (slot f j)) ∨
      lookup f path e = none ∧ ∀ j < slotCnt f, ¬Holds f path j := by
  have hcnt : slotCnt f ≤ f.length := Nat.div_le_self _ _
  rcases lookupLoop_spec hw hp (f.length + 1) 0 e (by omega) with h | ⟨h1, h2⟩
  · exact .inl h
  · exact .inr ⟨h1, fun j hj => h2 j (Nat.zero_le j) hj⟩

/-- **The free slot of `dir_add`**: the first one that is not in use, or the end of the file. -/
theorem freeLoop_spec (hw : Whole f) : ∀ (n k : ℕ) (e : Entry), slotCnt f < n + k → k ≤ slotCnt f →
    ∃ e' j, freeLoop f n (entrySize * k) e = (e', entrySize * j) ∧ j ≤ slotCnt f ∧
      (j < slotCnt f → (slot f j).inUse = false)
  | 0, k, e, hn, hle => by omega
  | n + 1, k, e, hn, hle => by
    rw [freeLoop]
    by_cases hk : k < slotCnt f
    · have hsame := same_readEntry hw hk e
      rw [if_pos ((fullRead_iff hw).mpr hk), hsame.inUse]
      rcases hu : (slot f k).inUse with _ | _
      · rw [if_pos (by rfl)]
        exact ⟨_, k, rfl, hle, fun _ => hu⟩
      · rw [if_neg (by decide), show entrySize * k + entrySize = entrySize * (k + 1) from rfl]
        exact freeLoop_spec hw n (k + 1) _ (by omega) hk
    · rw [if_neg fun hc => hk ((fullRead_iff hw).mp hc)]
      exact ⟨_, k, rfl, hle, fun h => absurd h hk⟩

/-- **`dir_readdir` from the slot `k` on**: the next slot in use, or none. -/
theorem readdirLoop_spec (hw : Whole f) : ∀ (n k : ℕ) (e : Entry), slotCnt f < n + k → k ≤ slotCnt f →
    (∃ e' j, readdirLoop f n (entrySize * k) e = (some (strTake e'.name nameMax), entrySize * (j + 1)) ∧ k ≤ j ∧
        j < slotCnt f ∧ (slot f j).inUse = true ∧ Same e' (slot f j) ∧
        ∀ i, k ≤ i → i < j → (slot f i).inUse = false) ∨
      readdirLoop f n (entrySize * k) e = (none, entrySize * slotCnt f) ∧
        ∀ i, k ≤ i → i < slotCnt f → (slot f i).inUse = false
  | 0, k, e, hn, hle => by omega
  | n + 1, k, e, hn, hle => by
    rw [readdirLoop]
    by_cases hk : k < slotCnt f
    · have hsame := same_readEntry hw hk e
      rw [if_pos ((fullRead_iff hw).mpr hk), hsame.inUse]
      rcases hu : (slot f k).inUse with _ | _
      · rw [if_neg (by decide), show entrySize * k + entrySize = entrySize * (k + 1) from rfl]
        have hfrom : ∀ {m : ℕ}, (∀ i, k + 1 ≤ i → i < m → (slot f i).inUse = false) →
            ∀ i, k ≤ i → i < m → (slot f i).inUse = false := by
          intro m h i h1 h2
          rcases Nat.eq_or_lt_of_le h1 with rfl | h1
          · exact hu
          · exact h i h1 h2
        rcases readdirLoop_spec hw n (k + 1) _ (by omega) hk with ⟨e', j, h1, h2, h3, h4, h5, h6⟩ | ⟨h1, h2⟩
        · exact .inl ⟨e', j, h1, by omega, h3, h4, h5, hfrom h6⟩
        · exact .inr ⟨h1, hfrom h2⟩
      · rw [if_pos rfl]
        exact .inl ⟨_, k, rfl, le_rfl, hk, hu, hsame, fun i h1 h2 => by omega⟩
    · rw [if_neg fun hc => hk ((fullRead_iff hw).mp hc)]
      obtain rfl : k = slotCnt f := by omega
      exact .inr ⟨rfl, fun i h1 h2 => by omega⟩

/-! ### Writing slots -/

/-- The file after the entry `e` is written to the slot `k`. -/
def writeSlot (f : DirFile) (k : ℕ) (e : Entry) : DirFile := inodeWriteAt f e.toBytes (entrySize * k)

theorem writeSlot_length (hw : Whole f) (hk : k ≤ slotCnt f) :
    Whole (writeSlot f k e) ∧ slotCnt (writeSlot f k e) = max (slotCnt f) (k + 1) := by
  have hlen := hw.length_eq
  have hnew : (writeSlot f k e).length = entrySize * max (slotCnt f) (k + 1) := by
    show max f.length (entrySize * k + (slice e 0 entrySize).length) = _
    rw [length_slice]
    unfold entrySize at *
    omega
  rw [Whole, slotCnt, hnew]
  unfold entrySize
  omega

theorem same_writeSlot (f : DirFile) (k : ℕ) (e : Entry) : Same (slot (writeSlot f k e) k) e := by
  intro i hi
  show overlay (fun p => if p < f.length then f.bytes p else 0) (entrySize * k) (slice e 0 entrySize)
    (entrySize * k + i) = e i
  rw [overlay_of_mem (by omega) (by rw [length_slice]; omega)]
  simp [slice]

/-- The other slots stay as they are. -/
theorem same_writeSlot_of_ne (hw : Whole f) {j : ℕ} (hj : j < slotCnt f) (hne : j ≠ k) :
    Same (slot (writeSlot f k e) j) (slot f j) := by
  intro i hi
  have hlen := hw.length_eq
  have hin : entrySize * j + i < f.length := by
    unfold entrySize at *
    omega
  show overlay (fun p => if p < f.length then f.bytes p else 0) (entrySize * k) (slice e 0 entrySize)
    (entrySize * j + i) = slot f j i
  rcases Nat.lt_or_ge j k with h | h
  · rw [overlay_of_lt _ (by unfold entrySize at *; omega), if_pos hin]
    rfl
  · rw [overlay_of_le (by rw [length_slice]; unfold entrySize at *; omega), if_pos hin]
    rfl

/-! ### Setting the fields of an entry -/

theorem inUse_setInUse (value : Bool) : (e.setInUse value).inUse = value := by
  have h : e.setInUse value 19 = if value then 1 else 0 := by
    rw [Entry.setInUse, overlay_of_mem le_rfl (by simp)]
    rfl
  rw [Entry.inUse, h]
  cases value <;> rfl

/-- The entry that `dir_add` writes. -/
def newEntry (e : Entry) (name : CStr) (sector : BitVec 32) : Entry :=
  ((e.setInUse true).setName name).setInodeSector sector

theorem newEntry_spec (e : Entry) (hn : name.length ≤ nameMax) (sector : BitVec 32) :
    (newEntry e name sector).inUse = true ∧ strEq name (newEntry e name sector).name = true ∧
      (newEntry e name sector).inodeSector = sector := by
  have hword := length_wordBytes sector
  have hlen : (name.take nameMax ++ [0]).length = name.length + 1 := by
    rw [List.take_of_length_le hn, List.length_append, List.length_singleton]
  have hbehind : ∀ i, 4 ≤ i → newEntry e name sector i = (e.setInUse true).setName name i := by
    intro i hi
    rw [newEntry, Entry.setInodeSector, overlay_of_le (by omega)]
  have happend : (name ++ [0]).length = name.length + 1 := by
    rw [List.length_append, List.length_singleton]
  have hname : ∀ (i : ℕ) (h : i < (name ++ [0]).length), newEntry e name sector (4 + i) = (name ++ [0])[i] := by
    intro i hi
    rw [hbehind _ (by omega), Entry.setName, overlay_of_mem (by omega) (by omega)]
    simp only [List.take_of_length_le hn, Nat.add_sub_cancel_left]
  refine ⟨?_, strEq_iff.mpr ⟨fun i hi => ?_, ?_⟩, wordOf_wordBytes fun k hk => ?_⟩
  · have h19 : newEntry e name sector 19 = e.setInUse true 19 := by
      rw [hbehind _ (by omega), Entry.setName, overlay_of_le (by unfold nameMax at hn; omega)]
    have hu := inUse_setInUse (e := e) true
    unfold Entry.inUse at *
    rw [h19]
    exact hu
  · show newEntry e name sector (4 + i) = _
    rw [hname i (by omega), List.getElem_append_left hi]
  · show newEntry e name sector (4 + name.length) = 0
    rw [hname _ (by omega)]
    simp
  · have hk' : k < (wordBytes sector).length := by omega
    have hmem : (newEntry e name sector) (0 + k) = (wordBytes sector)[k] := by
      rw [newEntry, Entry.setInodeSector, overlay_of_mem (by omega) (by omega)]
      simp
    rw [hmem, List.getElem?_eq_getElem (by omega)]

end Pintos.Filesys.DirBytes
