import Pintos.Kernel.Ustar
import Pintos.Filesys.VolumeStore

/-! # The archive on the scratch device

`fsutil_append` and `fsutil_extract` of `filesys/fsutil.c`: files go to a ustar archive on the scratch device, a
header and their data in whole sectors, and come back from it. What is taken from the archive is what was put
into it, under the stripped names. -/

namespace Pintos.Filesys.Fsutil

open Pintos.Filesys.Bcache (Device SectorData blockSectorSize blockRead blockWrite memcpyAt)
open Pintos.Filesys.Sector (byteAt zeros)
open Pintos.Filesys.InodeExpand (maxHuge)
open Pintos.Filesys.VolumeStore (StoredFile)
open Pintos.Kernel.Ustar hiding zeros
open Pintos.Lib.Ops Pintos.Lib.Overlay Pintos.Lib.ListFile

/-- What the file system makes of names: the place in its tree that a name is resolved to, if its directory
exists, and whether there is room for a new file of some size. -/
structure Naming (κ : Type) where
  place : Bytes → Option κ
  granted : (κ → Option StoredFile) → Bytes → ℕ → Bool

/-- The scratch device, the files, and the static `sector` of `fsutil_append` and of `fsutil_extract`. -/
structure Machine (κ : Type) where
  scratch : Device
  files : κ → Option StoredFile
  appendSector : ℕ
  extractSector : ℕ

variable {κ : Type}

/-! ### The calls of the two functions -/

/-- `block_read` from the scratch device. -/
def readScratch (sector : ℕ) : Op (Machine κ) SectorData := do
  let m ← get
  deref (blockRead m.scratch sector)

/-- `block_write` to the scratch device. -/
def writeScratch (sector : ℕ) (data : SectorData) : Op (Machine κ) Unit := do
  let m ← get
  let scratch ← deref (blockWrite m.scratch sector data)
  set { m with scratch := scratch }

/-- `filesys_open`, for a file. -/
def filesysOpen (n : Naming κ) (name : Bytes) : Op (Machine κ) (Option κ) := do
  let m ← get
  pure ((n.place name).filter fun k => (m.files k).isSome)

/-- `file_length`. -/
def fileLength (k : κ) : Op (Machine κ) ℕ := do
  let m ← get
  let f ← deref (m.files k)
  pure f.bytes.length

/-- `file_read` at the position `pos`. -/
def fileReadAt (k : κ) (size pos : ℕ) : Op (Machine κ) Bytes := do
  let m ← get
  let f ← deref (m.files k)
  pure (fileRead f.bytes size pos)

section

variable [DecidableEq κ]

/-- `filesys_create`, for a file. -/
def filesysCreate (n : Naming κ) (name : Bytes) (size : ℕ) : Op (Machine κ) Bool := do
  let m ← get
  match n.place name with
  | none => pure false
  | some k =>
    if (m.files k).isNone && decide (size ≤ maxHuge) && n.granted m.files name size then do
      set { m with files := Function.update m.files k (some ⟨List.replicate size 0, 0⟩) }
      pure true
    else pure false

/-- `file_write` at the position `pos`. -/
def fileWriteAt (k : κ) (bytes : Bytes) (pos : ℕ) : Op (Machine κ) ℕ := do
  let m ← get
  let f ← deref (m.files k)
  set { m with files := Function.update m.files k (some (f.write bytes pos).2) }
  pure (f.write bytes pos).1

end

/-! ### `fsutil_append` -/

/-- The bytes of a buffer as a sector. -/
def sectorOf (h : Header) : SectorData := fun i => h i

/-- The loop of `fsutil_append`, `size` bytes from its end. -/
def appendLoop (k : κ) (pos size : ℕ) : Op (Machine κ) Unit :=
  if 0 < size then do
    let chunkSize := if size > blockSectorSize then blockSectorSize else size
    let m ← get
    assert (m.appendSector < m.scratch.size)
    let data ← fileReadAt k chunkSize pos
    assert (data.length = chunkSize)
    writeScratch m.appendSector (memcpyAt zeros 0 data)
    modify fun m => { m with appendSector := m.appendSector + 1 }
    appendLoop k (pos + chunkSize) (size - chunkSize)
  else pure ()
termination_by size
decreasing_by
  have hpos : 0 < blockSectorSize := by decide
  split_ifs <;> omega

/-- `fsutil_append`; `buffer` is what `malloc` returns. -/
def fsutilAppend (n : Naming κ) (buffer : Header) (name : Bytes) : Op (Machine κ) Unit := do
  let opened ← filesysOpen n name
  let k ← deref opened
  let size ← fileLength k
  let made ← deref (ustarMakeHeader name .regular (BitVec.ofNat 32 size) buffer)
  assert made.1
  let m ← get
  writeScratch m.appendSector (sectorOf made.2)
  modify fun m => { m with appendSector := m.appendSector + 1 }
  appendLoop k 0 size
  let m ← get
  writeScratch m.appendSector zeros
  writeScratch (m.appendSector + 1) zeros

/-! ### `fsutil_extract` -/

section

variable [DecidableEq κ]

/-- The copying loop of `fsutil_extract`, `size` bytes from its end. -/
def copyLoop (k : κ) (pos size : ℕ) : Op (Machine κ) Unit :=
  if 0 < size then do
    let chunkSize := if size > blockSectorSize then blockSectorSize else size
    let m ← get
    let data ← readScratch m.extractSector
    modify fun m => { m with extractSector := m.extractSector + 1 }
    let written ← fileWriteAt k (slice (byteAt data) 0 chunkSize) pos
    assert (written = chunkSize)
    copyLoop k (pos + chunkSize) (size - chunkSize)
  else pure ()
termination_by size
decreasing_by
  have hpos : 0 < blockSectorSize := by decide
  split_ifs <;> omega

/-- A regular file of the archive. -/
def extractFile (n : Naming κ) (name : Bytes) (size : ℕ) : Op (Machine κ) Unit := do
  let created ← filesysCreate n name size
  assert created
  let opened ← filesysOpen n name
  let dst ← deref opened
  copyLoop dst 0 size

/-- The loop of `fsutil_extract`; each round reads a sector at least. -/
def extractLoop (n : Naming κ) : ℕ → Op (Machine κ) Unit
  | 0 => halt
  | fuel + 1 => do
    let m ← get
    let header ← readScratch m.extractSector
    modify fun m => { m with extractSector := m.extractSector + 1 }
    match ustarParseHeader (byteAt header) with
    | .error _ => halt
    | .ok ⟨_, .eof, _⟩ => pure ()
    | .ok ⟨_, .directory, _⟩ => extractLoop n fuel
    | .ok ⟨fileName, .regular, size⟩ => do
      let name ← deref fileName
      extractFile n name size.toNat
      extractLoop n fuel

/-- `fsutil_extract`. -/
def fsutilExtract (n : Naming κ) : Op (Machine κ) Unit := do
  let m ← get
  extractLoop n (m.scratch.size + 1)
  writeScratch 0 zeros
  writeScratch 1 zeros

end

/-! ### What is appended -/

/-- The data of a file in whole sectors, the last one filled up with zeros. -/
def dataSectors (bytes : Bytes) : List SectorData :=
  if _h : bytes = [] then [] else
    memcpyAt zeros 0 (bytes.take blockSectorSize) :: dataSectors (bytes.drop blockSectorSize)
termination_by bytes.length
decreasing_by
  have hpos := List.length_pos_iff.mpr _h
  rw [List.length_drop, blockSectorSize]
  omega

/-- The machine with some more sectors behind those it has appended. -/
def Machine.laid (m : Machine κ) (l : List SectorData) : Machine κ :=
  { m with
    scratch := ⟨m.scratch.size, overlay m.scratch.sectors m.appendSector l⟩
    appendSector := m.appendSector + l.length }

variable {m m' : Machine κ} {n : Naming κ} {k : κ} {f : StoredFile} {bytes : Bytes} {pos size : ℕ}

theorem laid_nil (m : Machine κ) : m.laid [] = m := by
  simp [Machine.laid, overlay_nil]

theorem laid_append (m : Machine κ) (l l' : List SectorData) : m.laid (l ++ l') = (m.laid l).laid l' := by
  simp [Machine.laid, overlay_append, Nat.add_assoc]

theorem writeScratch_bind_apply {α : Type} (p : ℕ) (x : SectorData) (g : Unit → Op (Machine κ) α) :
    (writeScratch p x >>= g) m =
      if p < m.scratch.size then
        g () { m with scratch := ⟨m.scratch.size, Function.update m.scratch.sectors p x⟩ } else none := by
  simp only [writeScratch, bind_assoc, get_bind_apply, deref_bind_apply, set_bind_apply, blockWrite]
  by_cases h : p < m.scratch.size
  · rw [if_neg (by omega), if_pos h]
    rfl
  · rw [if_pos (by omega), if_neg h]
    rfl

theorem fileReadAt_bind_apply {α : Type} (hf : m.files k = some f) (g : Bytes → Op (Machine κ) α) :
    (fileReadAt k size pos >>= g) m = g (fileRead f.bytes size pos) m := by
  simp only [fileReadAt, bind_assoc, get_bind_apply, deref_bind_apply, hf, pure_bind]
  rfl

/-- One round of the loop. -/
theorem appendLoop_round (hf : m.files k = some f) (hsize : pos + size = f.bytes.length) (hpos : 0 < size) :
    appendLoop k pos size m =
      if m.appendSector < m.scratch.size then
        appendLoop k (pos + min size blockSectorSize) (size - min size blockSectorSize)
          (m.laid [memcpyAt zeros 0 ((f.bytes.drop pos).take blockSectorSize)])
      else none := by
  have hchunk : (if size > blockSectorSize then blockSectorSize else size) = min size blockSectorSize := by
    split_ifs <;> omega
  have hread : fileRead f.bytes (min size blockSectorSize) pos = (f.bytes.drop pos).take blockSectorSize := by
    rw [fileRead, List.take_eq_take_iff, List.length_drop]
    omega
  have hlen : ((f.bytes.drop pos).take blockSectorSize).length = min size blockSectorSize := by
    rw [List.length_take, List.length_drop]
    omega
  rw [appendLoop, if_pos hpos, hchunk]
  simp only [get_bind_apply, assert_bind_apply, decide_eq_true_eq, fileReadAt_bind_apply hf, hread, hlen, if_true,
    writeScratch_bind_apply, modify_bind_apply]
  split_ifs with h
  · rw [Machine.laid, overlay_singleton]
    rfl
  · rfl

theorem dataSectors_of_ne_nil (h : bytes ≠ []) : dataSectors bytes =
    memcpyAt zeros 0 (bytes.take blockSectorSize) :: dataSectors (bytes.drop blockSectorSize) := by
  rw [dataSectors, dif_neg h]

theorem appendLoop_eq (hf : m.files k = some f) (hsize : pos + size = f.bytes.length)
    (hroom : m.appendSector ≤ m.scratch.size) : appendLoop k pos size m =
      if m.appendSector + (dataSectors (f.bytes.drop pos)).length ≤ m.scratch.size then
        some ((), m.laid (dataSectors (f.bytes.drop pos))) else none := by
  induction size using Nat.strong_induction_on generalizing pos m with
  | _ size ih =>
    rcases size.eq_zero_or_pos with rfl | hpos
    · have hnil : f.bytes.drop pos = [] := List.drop_eq_nil_of_le (by omega)
      rw [appendLoop, if_neg (lt_irrefl 0), hnil, dataSectors, dif_pos rfl, if_pos (by simpa using hroom), laid_nil]
      rfl
    · have hne : f.bytes.drop pos ≠ [] := by
        rw [← List.length_pos_iff, List.length_drop]
        omega
      have hsector : 0 < blockSectorSize := by decide
      rw [appendLoop_round hf hsize hpos, dataSectors_of_ne_nil hne, List.length_cons, List.drop_drop]
      by_cases h : m.appendSector < m.scratch.size
      · have hnext : pos + min size blockSectorSize + (size - min size blockSectorSize) = f.bytes.length := by omega
        have hdrop : f.bytes.drop (pos + min size blockSectorSize) = f.bytes.drop (pos + blockSectorSize) := by
          rcases le_total size blockSectorSize with hle | hle
          · rw [List.drop_eq_nil_of_le (by omega), List.drop_eq_nil_of_le (by omega)]
          · rw [min_eq_right hle]
        have hroom' : (m.laid [memcpyAt zeros 0 ((f.bytes.drop pos).take blockSectorSize)]).appendSector ≤
          m.scratch.size := h
        rw [if_pos h, @ih _ (by omega) (m.laid _) _ hf hnext hroom', hdrop, ← laid_append]
        congr 1
        exact propext (by simp only [Machine.laid, List.length_singleton]; omega)
      · rw [if_neg h, if_neg (by omega)]

/-- A file of the archive: its stripped name and its bytes. -/
structure Entry where
  name : Bytes
  bytes : Bytes

/-- The file that a name denotes, as it is put into an archive. -/
def entryOf (n : Naming κ) (files : κ → Option StoredFile) (name : Bytes) : Option Entry :=
  ((n.place name).bind files).map fun f => ⟨stripAntisocialPrefixes name, f.bytes⟩

/-- The sectors of an entry, with the header made in `buffer`. -/
def Entry.sectors (buffer : Header) (e : Entry) : List SectorData :=
  sectorOf (madeHeader buffer e.name .regular (BitVec.ofNat 32 e.bytes.length)) :: dataSectors e.bytes

/-- The end mark behind what was appended. -/
def Machine.marked (m : Machine κ) : Machine κ :=
  { m with scratch := ⟨m.scratch.size, overlay m.scratch.sectors m.appendSector [zeros, zeros]⟩ }

theorem ustarMakeHeader_regular (buffer : Header) (name : Bytes) (size : BitVec 32) :
    ustarMakeHeader name .regular size buffer =
      if 99 < (stripAntisocialPrefixes name).length then some (false, buffer)
      else some (true, madeHeader buffer (stripAntisocialPrefixes name) .regular size) := by
  simp only [ustarMakeHeader]
  split_ifs
  · simp [assert_bind_apply]
    rfl
  · simp [assert_bind_apply, modify_bind_apply]
    rfl

theorem writeScratch_apply (p : ℕ) (x : SectorData) : (writeScratch p x : Op (Machine κ) Unit) m =
    if p < m.scratch.size then
      some ((), { m with scratch := ⟨m.scratch.size, Function.update m.scratch.sectors p x⟩ }) else none := by
  have h := writeScratch_bind_apply (m := m) p x pure
  rwa [bind_pure] at h

theorem overlay_pair (g : ℕ → SectorData) (p : ℕ) (x y : SectorData) :
    overlay g p [x, y] = Function.update (Function.update g p x) (p + 1) y := by
  rw [← overlay_singleton, ← overlay_singleton, show [x, y] = [x] ++ [y] from rfl, overlay_append]
  rfl

/-- The two last writes. -/
theorem writeMark_apply (m : Machine κ) :
    (writeScratch m.appendSector zeros >>= fun _ => writeScratch (m.appendSector + 1) zeros) m =
      if m.appendSector + 2 ≤ m.scratch.size then some ((), m.marked) else none := by
  rw [writeScratch_bind_apply, Machine.marked, overlay_pair]
  by_cases h : m.appendSector + 2 ≤ m.scratch.size
  · rw [if_pos (by omega), if_pos h, writeScratch_apply, if_pos (by exact h)]
  · rw [if_neg h]
    split_ifs with h1
    · rw [writeScratch_apply, if_neg (by exact h)]
    · rfl

/-- **What `fsutil_append` does**: the file's header and data go behind what was appended before, and the end mark
behind them. It panics where the file does not exist, its name is too long or the device is full. -/
theorem fsutilAppend_eq (n : Naming κ) (buffer : Header) (name : Bytes) (m : Machine κ) :
    fsutilAppend n buffer name m = (entryOf n m.files name).bind fun e =>
      if e.name.length ≤ 99 ∧ m.appendSector + (e.sectors buffer).length + 2 ≤ m.scratch.size then
        some ((), (m.laid (e.sectors buffer)).marked) else none := by
  unfold fsutilAppend filesysOpen fileLength entryOf
  rcases hplace : n.place name with _ | k
  · simp [get_bind_apply, deref_bind_apply]
  rcases hf : m.files k with _ | f
  · simp [get_bind_apply, deref_bind_apply, hf]
  simp only [bind_assoc, get_bind_apply, pure_bind, Option.filter_some, hf, Option.isSome_some, if_true,
    deref_bind_apply, Option.bind_some, Option.map_some, ustarMakeHeader_regular]
  by_cases hlen : 99 < (stripAntisocialPrefixes name).length
  · rw [if_pos hlen, if_neg (by simp; omega)]
    rfl
  rw [if_neg hlen, Option.bind_some, assert_bind_apply, if_pos rfl, get_bind_apply, writeScratch_bind_apply]
  simp only [modify_bind_apply]
  set header := sectorOf (madeHeader buffer (stripAntisocialPrefixes name) .regular (BitVec.ofNat 32 f.bytes.length))
    with hheader
  have hsectors : Entry.sectors buffer ⟨stripAntisocialPrefixes name, f.bytes⟩ = [header] ++ dataSectors f.bytes := rfl
  by_cases hroom : m.appendSector < m.scratch.size
  · have hlaid : { m with
        scratch := ⟨m.scratch.size, Function.update m.scratch.sectors m.appendSector header⟩
        appendSector := m.appendSector + 1 } = m.laid [header] := by
      rw [Machine.laid, overlay_singleton]
      rfl
    have hloop := appendLoop_eq (m := m.laid [header]) (k := k) hf (Nat.zero_add _) hroom
    rw [List.drop_zero, ← laid_append, ← hsectors] at hloop
    rw [if_pos hroom, hlaid, bind_apply, hloop]
    by_cases hfit : m.appendSector + (Entry.sectors buffer ⟨stripAntisocialPrefixes name, f.bytes⟩).length ≤
      m.scratch.size
    · rw [if_pos (by
        rw [hsectors, List.length_append] at hfit
        exact (Nat.add_assoc _ _ _).trans_le hfit)]
      refine (writeMark_apply (m.laid _)).trans (if_congr ?_ rfl rfl)
      exact ⟨fun h => ⟨not_lt.mp hlen, h⟩, fun h => h.2⟩
    · rw [if_neg fun h => hfit (by
        rw [hsectors, List.length_append]
        exact (Nat.add_assoc _ _ _).symm.trans_le h), if_neg fun h => hfit ((Nat.le_add_right _ 2).trans h.2)]
      rfl
  · have hlong : ¬m.appendSector + (Entry.sectors buffer ⟨stripAntisocialPrefixes name, f.bytes⟩).length + 2 ≤
        m.scratch.size := by omega
    rw [if_neg hroom, if_neg fun h => hlong h.2]

/-! ### What lies on the device -/

/-- `l` is how the entry `e` lies on the device. -/
def IsEntry (e : Entry) (l : List SectorData) : Prop :=
  e.bytes.length < 2 ^ 31 ∧ ∃ header, l = header :: dataSectors e.bytes ∧
    ustarParseHeader (byteAt header) = .ok ⟨some e.name, .regular, BitVec.ofNat 32 e.bytes.length⟩

/-- The entries of an archive, up to where the next one goes. -/
def Archived (m : Machine κ) (es : List Entry) : Prop :=
  ∃ ls, List.Forall₂ IsEntry es ls ∧ LiesAt m.scratch.sectors 0 ls.flatten ∧ m.appendSector = ls.flatten.length

/-- The end mark is there. -/
def Marked (m : Machine κ) : Prop :=
  LiesAt m.scratch.sectors m.appendSector [zeros, zeros] ∧ m.appendSector + 2 ≤ m.scratch.size

/-- Only the bytes of a header are parsed. -/
theorem ustarParseHeader_congr {h h' : Header} (heq : ∀ q < headerSize, h q = h' q) :
    ustarParseHeader h = ustarParseHeader h' := by
  have hall : slice h 0 headerSize = slice h' 0 headerSize := slice_congr fun q _ hq => heq q (by omega)
  have hfield : ∀ f : Field, f.ofs + f.size ≤ headerSize → f.bytes h = f.bytes h' := fun f hf =>
    slice_congr fun q _ hq => heq q (hq.trans_le hf)
  have hsum : calculateChksum h = calculateChksum h' := by
    unfold calculateChksum
    refine congrArg List.sum (List.map_congr_left fun q hq => ?_)
    rw [heq q (List.mem_range.mp hq)]
  unfold ustarParseHeader
  rw [hall, hfield .magic (by decide), hfield .chksum (by decide), hfield .name (by decide),
    hfield .fileSize (by decide), hsum, heq Field.version.ofs (by decide), heq (Field.version.ofs + 1) (by decide),
    heq (Field.name.ofs + Field.name.size - 1) (by decide), heq Field.namePrefix.ofs (by decide),
    heq Field.typeflag.ofs (by decide)]

theorem ustarParseHeader_zeros : ustarParseHeader (byteAt zeros) = .ok ⟨none, .eof, 0⟩ := by
  rw [ustarParseHeader, if_pos]
  simp [List.all_eq_true, mem_slice]

theorem isEntry_sectors {e : Entry} {name : Bytes} (buffer : Header) (hname : 0 ∉ name)
    (he : entryOf n m.files name = some e) (hlen : e.name.length ≤ 99) (hsize : e.bytes.length < 2 ^ 31) :
    IsEntry e (e.sectors buffer) := by
  obtain ⟨f, -, rfl⟩ := Option.map_eq_some_iff.mp he
  refine ⟨hsize, _, rfl, ?_⟩
  have hbytes : ∀ h : Header, ∀ q < headerSize, byteAt (sectorOf h) q = h q := fun h q hq => by
    rw [byteAt, dif_pos (by exact hq), sectorOf]
  have hint : 0 ≤ (BitVec.ofNat 32 f.bytes.length).toInt := by
    rw [BitVec.toInt_eq_toNat_of_lt]
    · exact Int.natCast_nonneg _
    · rw [BitVec.toNat_ofNat]
      dsimp only at hsize
      omega
  rw [ustarParseHeader_congr (hbytes _),
    ustarParseHeader_madeHeader (notMem_stripAntisocialPrefixes hname) hlen (by decide) hint,
    stripAntisocialPrefixes_idem, if_neg (by decide)]

/-- **One more file** in the archive. -/
theorem archived_fsutilAppend {es : List Entry} {buffer : Header} {name : Bytes} (h : Archived m es) (hname : 0 ∉ name)
    (hsize : ∀ k f, m.files k = some f → f.bytes.length < 2 ^ 31)
    (hrun : fsutilAppend n buffer name m = some ((), m')) :
    ∃ e, entryOf n m.files name = some e ∧ Archived m' (es ++ [e]) ∧ Marked m' ∧ m'.files = m.files := by
  rw [fsutilAppend_eq] at hrun
  obtain ⟨e, he, hrun⟩ := Option.bind_eq_some_iff.mp hrun
  obtain ⟨hcond, hrun⟩ := Option.ite_none_right_eq_some.mp hrun
  obtain ⟨ls, hls, hlies, hpos⟩ := h
  have hesize : e.bytes.length < 2 ^ 31 := by
    obtain ⟨f, hf, rfl⟩ := Option.map_eq_some_iff.mp he
    obtain ⟨k, -, hk⟩ := Option.bind_eq_some_iff.mp hf
    exact hsize k f hk
  obtain rfl : (m.laid (e.sectors buffer)).marked = m' := by simpa using hrun
  have hend : 0 + ls.flatten.length ≤ m.appendSector := by omega
  have hmore : LiesAt (overlay m.scratch.sectors m.appendSector (e.sectors buffer)) 0
      (ls.flatten ++ e.sectors buffer) := by
    refine liesAt_append.mpr ⟨hlies.before hend _, ?_⟩
    rw [Nat.zero_add, ← hpos]
    exact liesAt_overlay
  have hentry := isEntry_sectors buffer hname he hcond.1 hesize
  refine ⟨e, he, ⟨ls ++ [e.sectors buffer], List.rel_append hls (.cons hentry .nil), ?_, ?_⟩,
    ⟨liesAt_overlay, hcond.2⟩, rfl⟩
  · rw [List.flatten_append, List.flatten_singleton]
    refine hmore.before ?_ _
    rw [List.length_append, Nat.zero_add, ← hpos]
    rfl
  · rw [List.flatten_append, List.flatten_singleton, List.length_append, ← hpos]
    rfl

/-! ### What is extracted -/

section Extract

variable [DecidableEq κ]

/-- A file is put into the file system, if it is a new one and there is room for it. -/
def put (n : Naming κ) (files : κ → Option StoredFile) (e : Entry) : Option (κ → Option StoredFile) :=
  (n.place e.name).bind fun k =>
    if (files k).isNone && decide (e.bytes.length ≤ maxHuge) && n.granted files e.name e.bytes.length then
      some (Function.update files k (some ⟨e.bytes, 0⟩))
    else none

/-- The files of an archive, one after the other. -/
def putAll (n : Naming κ) (files : κ → Option StoredFile) (es : List Entry) : Option (κ → Option StoredFile) :=
  es.foldlM (put n) files

theorem write_of_fits (hdeny : f.denyWriteCnt = 0) (hmax : f.bytes.length ≤ maxHuge)
    (hfit : pos + bytes.length ≤ f.bytes.length) :
    f.write bytes pos = (bytes.length, { f with bytes := overwrite f.bytes pos bytes }) := by
  have hmax' : maxHuge < 2 ^ 31 := by decide
  rw [StoredFile.write, if_neg (not_not_intro hdeny), if_neg (by omega), if_neg (by omega), fileWrite,
    extendTo_of_le _ hfit]

theorem slice_byteAt_memcpyAt {c : ℕ} (hc : bytes.length = c) (hle : c ≤ blockSectorSize) :
    slice (byteAt (memcpyAt zeros 0 bytes)) 0 c = bytes := by
  subst hc
  refine (slice_congr fun p _ hp => ?_).trans (slice_overlay (fun _ => 0) 0 bytes)
  have hp' : p < bytes.length := by omega
  rw [Sector.byteAt_memcpyAt _ _ (hp'.trans_le hle), if_pos ⟨Nat.zero_le p, by omega⟩,
    overlay_of_mem (Nat.zero_le p) (by simpa using hp')]
  simp [hp']

theorem fileWriteAt_bind_apply {α : Type} (hf : m.files k = some f) (g : ℕ → Op (Machine κ) α) :
    (fileWriteAt k bytes pos >>= g) m =
      g (f.write bytes pos).1 { m with files := Function.update m.files k (some (f.write bytes pos).2) } := by
  simp only [fileWriteAt, bind_assoc, get_bind_apply, deref_bind_apply, hf, pure_bind, set_bind_apply]
  rfl

omit [DecidableEq κ] in
theorem readScratch_bind_apply {α : Type} (p : ℕ) (g : SectorData → Op (Machine κ) α) :
    (readScratch p >>= g) m = if p < m.scratch.size then g (m.scratch.sectors p) m else none := by
  simp only [readScratch, bind_assoc, get_bind_apply, deref_bind_apply, blockRead]
  by_cases h : p < m.scratch.size
  · rw [if_neg (by omega), if_pos h]
    rfl
  · rw [if_pos (by omega), if_neg h]
    rfl

/-- One round of the loop. -/
theorem copyLoop_round {rest : Bytes} (hf : m.files k = some f) (hdeny : f.denyWriteCnt = 0)
    (hmax : f.bytes.length ≤ maxHuge) (hsize : pos + rest.length = f.bytes.length) (hne : rest ≠ [])
    (hroom : m.extractSector < m.scratch.size)
    (hdata : m.scratch.sectors m.extractSector = memcpyAt zeros 0 (rest.take blockSectorSize)) :
    copyLoop k pos rest.length m =
      copyLoop k (pos + (rest.take blockSectorSize).length) (rest.drop blockSectorSize).length
        { m with
          files := Function.update m.files k (some ⟨overwrite f.bytes pos (rest.take blockSectorSize), 0⟩)
          extractSector := m.extractSector + 1 } := by
  have hchunk : (if rest.length > blockSectorSize then blockSectorSize else rest.length) =
      (rest.take blockSectorSize).length := by
    rw [List.length_take]
    split_ifs <;> omega
  have hfit : pos + (rest.take blockSectorSize).length ≤ f.bytes.length := by
    rw [List.length_take]
    omega
  have hrest : rest.length - (rest.take blockSectorSize).length = (rest.drop blockSectorSize).length := by
    rw [List.length_take, List.length_drop]
    omega
  rw [copyLoop, if_pos (List.length_pos_iff.mpr hne), hchunk]
  simp only [get_bind_apply, readScratch_bind_apply, if_pos hroom, modify_bind_apply, hdata,
    slice_byteAt_memcpyAt rfl ((List.length_take_le _ _))]
  rw [fileWriteAt_bind_apply (by exact hf), write_of_fits hdeny hmax hfit, assert_bind_apply,
    if_pos (decide_eq_true rfl), hrest, hdeny]

theorem copyLoop_eq {rest : Bytes} (hf : m.files k = some f) (hdeny : f.denyWriteCnt = 0)
    (hmax : f.bytes.length ≤ maxHuge) (hsize : pos + rest.length = f.bytes.length)
    (hlies : LiesAt m.scratch.sectors m.extractSector (dataSectors rest))
    (hroom : m.extractSector + (dataSectors rest).length ≤ m.scratch.size) :
    copyLoop k pos rest.length m = some ((), { m with
      files := Function.update m.files k (some ⟨f.bytes.take pos ++ rest, 0⟩)
      extractSector := m.extractSector + (dataSectors rest).length }) := by
  induction hk : rest.length using Nat.strong_induction_on generalizing rest pos m f with
  | _ size ih =>
    subst hk
    by_cases hne : rest = []
    · subst hne
      have hsame : f.bytes.take pos = f.bytes := List.take_of_length_le (by simp at hsize; omega)
      have hkeep : Function.update m.files k (some ⟨f.bytes, 0⟩) = m.files := by
        rw [← hdeny]
        exact (congrArg (Function.update m.files k) hf.symm).trans (Function.update_eq_self k m.files)
      rw [copyLoop, if_neg (by simp), dataSectors, dif_pos rfl, List.append_nil, hsame, hkeep]
      rfl
    · rw [dataSectors_of_ne_nil hne, liesAt_cons] at hlies
      rw [dataSectors_of_ne_nil hne, List.length_cons] at hroom
      have hpos := List.length_pos_iff.mpr hne
      have htake : (rest.take blockSectorSize).length + (rest.drop blockSectorSize).length = rest.length := by
        rw [← List.length_append, List.take_append_drop]
      have hshort : (rest.drop blockSectorSize).length < rest.length := by
        rw [List.length_drop, blockSectorSize]
        omega
      have hlen : (overwrite f.bytes pos (rest.take blockSectorSize)).length = f.bytes.length := length_overwrite _ _ _
      have hround := copyLoop_round hf hdeny hmax hsize hne (by omega) hlies.1
      have hlater := @ih _ hshort { m with
          files := Function.update m.files k (some ⟨overwrite f.bytes pos (rest.take blockSectorSize), 0⟩)
          extractSector := m.extractSector + 1 } _ (pos + (rest.take blockSectorSize).length) _
        (Function.update_self _ _ _) rfl (by rwa [hlen]) (by rw [hlen]; omega) hlies.2 (by dsimp only; omega) rfl
      rw [hround, hlater]
      simp only [Function.update_idem, take_overwrite (by omega : pos + (rest.take blockSectorSize).length ≤
        f.bytes.length), List.append_assoc, List.take_append_drop, dataSectors_of_ne_nil hne, List.length_cons]
      rw [Nat.add_assoc, Nat.add_comm 1]

/-- **What the extraction of a file does.** -/
theorem extractFile_eq (n : Naming κ) (e : Entry)
    (hlies : LiesAt m.scratch.sectors m.extractSector (dataSectors e.bytes))
    (hroom : m.extractSector + (dataSectors e.bytes).length ≤ m.scratch.size) :
    extractFile n e.name e.bytes.length m = (put n m.files e).map fun files => ((), { m with
      files := files
      extractSector := m.extractSector + (dataSectors e.bytes).length }) := by
  unfold extractFile filesysCreate filesysOpen put
  rcases hplace : n.place e.name with _ | k
  · simp [assert_bind_apply]
  simp only [bind_assoc, get_bind_apply, Option.bind_some]
  split_ifs with hc
  · have hmax : e.bytes.length ≤ maxHuge := by simp at hc; exact hc.1.2
    have hlen : 0 + e.bytes.length = (List.replicate e.bytes.length (0 : UInt8)).length := by
      rw [List.length_replicate, Nat.zero_add]
    have hcopy := copyLoop_eq (k := k) (f := ⟨List.replicate e.bytes.length 0, 0⟩)
      (m := { m with files := Function.update m.files k (some ⟨List.replicate e.bytes.length 0, 0⟩) })
      (Function.update_self _ _ _) rfl (by rwa [← hlen, Nat.zero_add]) hlen hlies hroom
    simp only [List.take_zero, List.nil_append, Function.update_idem] at hcopy
    rw [Option.map_some, ← hcopy]
    simp only [set_bind_apply, pure_bind, assert_bind_apply, if_true, bind_assoc, get_bind_apply, deref_bind_apply]
    rw [Option.filter_some, if_pos (by rw [Function.update_self]; rfl)]
    rfl
  · simp [assert_bind_apply]

/-- The machine after an extraction of `c` sectors. -/
def Machine.extracted (m : Machine κ) (c : ℕ) (files : κ → Option StoredFile) : Machine κ :=
  { m with
    files := files
    extractSector := m.extractSector + c }

/-- **The files of an archive are put into the file system** one after the other. -/
theorem extractLoop_eq (n : Naming κ) {es : List Entry} {ls : List (List SectorData)}
    (h : List.Forall₂ IsEntry es ls) : ∀ {m : Machine κ} {fuel : ℕ},
      LiesAt m.scratch.sectors m.extractSector (ls.flatten ++ [zeros]) →
      m.extractSector + ls.flatten.length < m.scratch.size → es.length < fuel →
      extractLoop n fuel m =
        (putAll n m.files es).map fun files => ((), m.extracted (ls.flatten.length + 1) files) := by
  induction h with
  | nil =>
    intro m fuel hlies hroom hfuel
    obtain ⟨fuel, rfl⟩ := Nat.exists_eq_add_of_lt hfuel
    obtain ⟨hzero, -⟩ := liesAt_cons.mp hlies
    have hstep : 0 + fuel + 1 = fuel + 1 := by omega
    simp only [List.length_nil, List.flatten_nil, Nat.add_zero] at hroom
    rw [List.length_nil, hstep, extractLoop, get_bind_apply, readScratch_bind_apply, if_pos hroom, hzero,
      modify_bind_apply, ustarParseHeader_zeros]
    rfl
  | @cons e l es ls he _ ih =>
    intro m fuel hlies hroom hfuel
    obtain ⟨fuel, rfl⟩ := Nat.exists_eq_add_of_lt hfuel
    obtain ⟨hsize, header, rfl, hparse⟩ := he
    rw [List.flatten_cons, List.cons_append, List.cons_append, List.append_assoc, liesAt_cons, liesAt_append] at hlies
    obtain ⟨hheader, hdata, hrest⟩ := hlies
    rw [List.flatten_cons, List.cons_append, List.length_cons, List.length_append] at hroom
    have hnat : (BitVec.ofNat 32 e.bytes.length).toNat = e.bytes.length := by
      rw [BitVec.toNat_ofNat]
      omega
    have hfile := extractFile_eq (m := { m with extractSector := m.extractSector + 1 }) n e hdata
      (by dsimp only; omega)
    have hputs : putAll n m.files (e :: es) = (put n m.files e).bind fun files => putAll n files es := rfl
    rw [extractLoop, get_bind_apply, readScratch_bind_apply, if_pos (by omega), hheader, modify_bind_apply, hparse]
    dsimp only
    rw [deref_bind_apply, Option.bind_some, bind_apply, hnat, hfile, hputs]
    rcases put n m.files e with _ | files
    · rfl
    have hlater := @ih { m with
        files := files
        extractSector := m.extractSector + 1 + (dataSectors e.bytes).length } ((e :: es).length + fuel)
      hrest (by dsimp only; omega) (by rw [List.length_cons]; omega)
    simp only [Option.map_some, Option.bind_some]
    refine hlater.trans (congrArg (Option.map · _) (funext fun files => ?_))
    simp [Machine.extracted]
    omega

/-- The machine whose archive is gone. -/
def Machine.erased (m : Machine κ) : Machine κ :=
  { m with scratch := ⟨m.scratch.size, overlay m.scratch.sectors 0 [zeros, zeros]⟩ }

omit [DecidableEq κ] in
theorem length_le_flatten {es : List Entry} {ls : List (List SectorData)} (h : List.Forall₂ IsEntry es ls) :
    es.length ≤ ls.flatten.length := by
  induction h with
  | nil => exact le_rfl
  | cons he _ ih =>
    obtain ⟨-, header, rfl, -⟩ := he
    rw [List.flatten_cons, List.cons_append, List.length_cons, List.length_cons, List.length_append]
    omega

/-- **`fsutil_extract`** takes the archive it finds. -/
theorem fsutilExtract_eq (n : Naming κ) {es : List Entry} {ls : List (List SectorData)}
    (h : List.Forall₂ IsEntry es ls) (hlies : LiesAt m.scratch.sectors m.extractSector (ls.flatten ++ [zeros]))
    (hroom : m.extractSector + ls.flatten.length < m.scratch.size) (htwo : 2 ≤ m.scratch.size) :
    fsutilExtract n m =
      (putAll n m.files es).map fun files => ((), (m.extracted (ls.flatten.length + 1) files).erased) := by
  have hfuel : es.length < m.scratch.size + 1 := by
    have hle := length_le_flatten h
    omega
  rw [fsutilExtract, get_bind_apply, bind_apply, extractLoop_eq n h hlies hroom hfuel]
  rcases putAll n m.files es with _ | files
  · rfl
  rw [Option.map_some, Option.bind_some, writeScratch_bind_apply, if_pos (by exact (by decide : 0 < 2).trans_le htwo),
    writeScratch_apply, if_pos (by exact htwo), Option.map_some]
  simp only [Machine.erased, Machine.extracted, overlay_pair, Nat.zero_add]

/-! ### There and back -/

omit [DecidableEq κ] in
/-- **A run of `fsutil_append`** makes an archive of the files. -/
theorem archived_run (hsize : ∀ k f, m.files k = some f → f.bytes.length < 2 ^ 31) :
    ∀ {calls : List (Header × Bytes)} {m₀ : Machine κ} {es : List Entry}, (∀ c ∈ calls, 0 ∉ c.2) → Archived m₀ es →
      m₀.files = m.files → calls.forM (fun c => fsutilAppend n c.1 c.2) m₀ = some ((), m') →
      m'.files = m.files ∧ (calls ≠ [] → Marked m') ∧
        ∃ new, List.Forall₂ (fun c e => entryOf n m.files c.2 = some e) calls new ∧ Archived m' (es ++ new)
  | [], m₀, es, _, ha, hfiles, hrun => by
    obtain rfl : m₀ = m' := by simpa [pure_apply] using hrun
    exact ⟨hfiles, fun h => absurd rfl h, [], .nil, by rwa [List.append_nil]⟩
  | c :: calls, m₀, es, hnull, ha, hfiles, hrun => by
    obtain ⟨hc, hnull⟩ := List.forall_mem_cons.mp hnull
    have hcons : (c :: calls).forM (fun c => fsutilAppend n c.1 c.2) m₀ =
        (fsutilAppend n c.1 c.2 m₀).bind fun r => calls.forM (fun c => fsutilAppend n c.1 c.2) r.2 := bind_apply _ _ _
    obtain ⟨⟨_, m₁⟩, hfirst, hrest⟩ := Option.bind_eq_some_iff.mp (hcons.symm.trans hrun)
    obtain ⟨e, he, ha₁, hmarked, hfiles₁⟩ := archived_fsutilAppend ha hc (by rwa [hfiles]) hfirst
    obtain ⟨hfiles', hmarks, new, hnew, ha'⟩ := archived_run hsize hnull ha₁ (hfiles₁.trans hfiles) hrest
    refine ⟨hfiles', fun _ => ?_, e :: new, .cons (hfiles ▸ he) hnew, ?_⟩
    · rcases calls with _ | ⟨c', calls⟩
      · obtain rfl : m₁ = m' := by simpa [pure_apply] using hrest
        exact hmarked
      · exact hmarks (List.cons_ne_nil _ _)
    · rwa [List.append_assoc] at ha'

/-- One file, `a`. -/
def oneName : Naming Unit where
  place name := if name = [97] then some () else none
  granted _ _ _ := true

def oneFile : Machine Unit where
  scratch := ⟨4, fun _ => zeros⟩
  files _ := some ⟨[1, 2], 0⟩
  appendSector := 0
  extractSector := 0

end Extract

end Pintos.Filesys.Fsutil
