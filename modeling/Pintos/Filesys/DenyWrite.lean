import Pintos.Filesys.InodeExpand
import Pintos.Lib.Runs

/-! # Denied writes

file.c over the open inodes: each `struct file` has a flag, each `struct inode` counts the flags that are set on
it. The calls run one after the other; in between, the device may change in any way. -/

namespace Pintos.Filesys.DenyWrite

open Pintos.Filesys.FreeMap Pintos.Filesys.InodeLayout Pintos.Filesys.InodeIo Pintos.Filesys.InodeExpand
open Pintos.Kernel.Bitmap Pintos.Lib.Runs Pintos.Lib.Stopping

/-! ### inode.c -/

/-- `struct inode`. -/
structure OpenInode where
  openCnt : ℕ
  removed : Bool
  inode : Inode

/-- `inode_reopen`. -/
def inodeReopen (i : OpenInode) : OpenInode := { i with openCnt := i.openCnt + 1 }

/-- `inode_open`, with the inode that is open already. -/
def inodeOpen (found : Option OpenInode) (sector : ℕ) : FsCall (Option OpenInode) := do
  match found with
  | some i => return some (inodeReopen i)
  | none =>
    if ← calloc then
      let data ← bcacheRead sector
      return some ⟨1, false, ⟨sector, false, 0, .ofSector data⟩⟩
    else return none

/-- `free_map_release`, which does not look at what `bitmap_write` returns. -/
def freeMapRelease (sector cnt : ℕ) : FsCall Unit := do
  let s ← get
  if bitmapAll s.freeMap sector cnt = some true then
    set { s with freeMap := setBits s.freeMap sector false cnt }
    let _ ← request
  else throw .assertion

/-- `inode_close`; `none` if it frees the inode. -/
def inodeClose (i : OpenInode) : FsCall (Option OpenInode) := do
  if i.openCnt = 1 then
    if i.removed then
      freeMapRelease i.inode.sector 1
      return none
    else return none
  else return some { i with openCnt := i.openCnt - 1 }

/-- `inode_remove`. -/
def inodeRemove (i : OpenInode) : OpenInode := { i with removed := true }

/-- The inode with another `deny_write_cnt`. -/
def OpenInode.setDenied (i : OpenInode) (cnt : ℕ) : OpenInode :=
  { i with inode := { i.inode with denyWriteCnt := cnt } }

/-- `inode_deny_write`; `none` if its assertion fails. -/
def inodeDenyWrite (i : OpenInode) : Option OpenInode :=
  if i.inode.denyWriteCnt + 1 ≤ i.openCnt then some (i.setDenied (i.inode.denyWriteCnt + 1)) else none

/-- `inode_allow_write`; `none` if one of its assertions fails. -/
def inodeAllowWrite (i : OpenInode) : Option OpenInode :=
  if 0 < i.inode.denyWriteCnt ∧ i.inode.denyWriteCnt ≤ i.openCnt then
    some (i.setDenied (i.inode.denyWriteCnt - 1))
  else none

/-! ### file.c -/

/-- `struct file`, with a pointer to its inode. -/
structure File where
  inode : ℕ
  pos : ℕ
  denyWrite : Bool
  deriving DecidableEq

/-- `file_open`, on the inode `i` that `p` points to. -/
def fileOpen (p : ℕ) (i : OpenInode) : FsCall (Option File × Option OpenInode) := do
  if ← calloc then return (some ⟨p, 0, false⟩, some i)
  else
    let i ← inodeClose i
    return (none, i)

/-- `file_reopen`, with the inode of the file. -/
def fileReopen (file : File) (i : OpenInode) : FsCall (Option File × Option OpenInode) :=
  fileOpen file.inode (inodeReopen i)

def fileDenyWrite (file : File) (i : OpenInode) : Option (File × OpenInode) :=
  if file.denyWrite then some (file, i)
  else (inodeDenyWrite i).map fun i => ({ file with denyWrite := true }, i)

def fileAllowWrite (file : File) (i : OpenInode) : Option (File × OpenInode) :=
  if file.denyWrite then (inodeAllowWrite i).map fun i => ({ file with denyWrite := false }, i)
  else some (file, i)

def fileClose (file : File) (i : OpenInode) : FsCall (Option OpenInode) :=
  match fileAllowWrite file i with
  | some (_, i) => inodeClose i
  | none => throw .assertion

/-- `file_write_at`: the number of bytes written. -/
def fileWriteAt (i : OpenInode) (buffer : List UInt8) (fileOfs : ℕ) : FsCall (ℕ × OpenInode) := do
  let (written, inode) ← inodeWriteAt i.inode buffer fileOfs
  return (written, { i with inode := inode })

def fileWrite (file : File) (i : OpenInode) (buffer : List UInt8) : FsCall (ℕ × File × OpenInode) := do
  let (written, i) ← fileWriteAt i buffer file.pos
  return (written, { file with pos := file.pos + written }, i)

/-! ### The system -/

/-- The number of files on the inode at `p`. -/
def opensOf (files : Multiset File) (p : ℕ) : ℕ := files.countP fun file => file.inode = p

/-- The number of files on the inode at `p` whose flag is set. -/
def denies (files : Multiset File) (p : ℕ) : ℕ := files.countP fun file => file.inode = p ∧ file.denyWrite = true

structure Opens where
  fs : Fs
  /-- The `struct inode` at each address. -/
  inodes : ℕ → Option OpenInode
  /-- The `struct file` that are open. -/
  files : Multiset File
  /-- The pointers to inodes that others hold: directories, and files that are about to be opened. -/
  others : Multiset ℕ

inductive FileAction
  | inodeOpen (sector : ℕ)
  | inodeReopen (p : ℕ)
  | inodeRemove (p : ℕ)
  | inodeClose (p : ℕ)
  | fileOpen (p : ℕ)
  | fileReopen (file : File)
  | fileSeek (file : File) (pos : ℕ)
  | fileDenyWrite (file : File)
  | fileAllowWrite (file : File)
  | fileClose (file : File)
  | fileWrite (file : File) (buffer : List UInt8)
  | fileWriteAt (file : File) (buffer : List UInt8) (fileOfs : ℕ)
  | device

namespace Opens

variable (s : Opens)

def setInode (p : ℕ) (i : Option OpenInode) : ℕ → Option OpenInode := Function.update s.inodes p i

/-- The pointer that `inode_open` returns for `sector`: the inode of the sector, or free memory. -/
def Finds (sector p : ℕ) : Prop :=
  (∃ i, s.inodes p = some i ∧ i.inode.sector = sector) ∨
    s.inodes p = none ∧ ∀ q i, s.inodes q = some i → i.inode.sector ≠ sector

/-- The pointer is in use. -/
def Held (p : ℕ) : Prop := p ∈ s.others ∨ ∃ file ∈ s.files, file.inode = p

/-- The number of references to the inode at `p`. -/
def openers (p : ℕ) : ℕ := s.others.count p + opensOf s.files p

end Opens

/-- A call that returns. The inode of a pointer in use is the one that the call is given. -/
inductive FileStep (s : Opens) : FileAction → Opens → Prop
  | inodeOpened {sector p : ℕ} {i : OpenInode} {fs : Fs} (hp : s.Finds sector p)
      (h : outcome (inodeOpen (s.inodes p) sector) s.fs = (.ok (some i), fs)) :
      FileStep s (.inodeOpen sector) ⟨fs, s.setInode p (some i), s.files, p ::ₘ s.others⟩
  | inodeNotOpened {sector p : ℕ} {fs : Fs} (hp : s.Finds sector p)
      (h : outcome (inodeOpen (s.inodes p) sector) s.fs = (.ok none, fs)) :
      FileStep s (.inodeOpen sector) { s with fs := fs }
  | inodeReopen {p : ℕ} {i : OpenInode} (hp : s.Held p) (hi : s.inodes p = some i) :
      FileStep s (.inodeReopen p) ⟨s.fs, s.setInode p (some (inodeReopen i)), s.files, p ::ₘ s.others⟩
  | inodeRemove {p : ℕ} {i : OpenInode} (hp : s.Held p) (hi : s.inodes p = some i) :
      FileStep s (.inodeRemove p) { s with inodes := s.setInode p (some (inodeRemove i)) }
  | inodeClose {p : ℕ} {i : OpenInode} {o : Option OpenInode} {fs : Fs} (hp : p ∈ s.others)
      (hi : s.inodes p = some i) (h : outcome (inodeClose i) s.fs = (.ok o, fs)) :
      FileStep s (.inodeClose p) ⟨fs, s.setInode p o, s.files, s.others.erase p⟩
  | fileOpened {p : ℕ} {i : OpenInode} {file : File} {o : Option OpenInode} {fs : Fs} (hp : p ∈ s.others)
      (hi : s.inodes p = some i) (h : outcome (fileOpen p i) s.fs = (.ok (some file, o), fs)) :
      FileStep s (.fileOpen p) ⟨fs, s.setInode p o, file ::ₘ s.files, s.others.erase p⟩
  | fileNotOpened {p : ℕ} {i : OpenInode} {o : Option OpenInode} {fs : Fs} (hp : p ∈ s.others)
      (hi : s.inodes p = some i) (h : outcome (fileOpen p i) s.fs = (.ok (none, o), fs)) :
      FileStep s (.fileOpen p) ⟨fs, s.setInode p o, s.files, s.others.erase p⟩
  | fileReopened {file file' : File} {i : OpenInode} {o : Option OpenInode} {fs : Fs} (hf : file ∈ s.files)
      (hi : s.inodes file.inode = some i) (h : outcome (fileReopen file i) s.fs = (.ok (some file', o), fs)) :
      FileStep s (.fileReopen file) ⟨fs, s.setInode file.inode o, file' ::ₘ s.files, s.others⟩
  | fileNotReopened {file : File} {i : OpenInode} {o : Option OpenInode} {fs : Fs} (hf : file ∈ s.files)
      (hi : s.inodes file.inode = some i) (h : outcome (fileReopen file i) s.fs = (.ok (none, o), fs)) :
      FileStep s (.fileReopen file) ⟨fs, s.setInode file.inode o, s.files, s.others⟩
  | fileSeek {file : File} {pos : ℕ} (hf : file ∈ s.files) :
      FileStep s (.fileSeek file pos) { s with files := { file with pos := pos } ::ₘ s.files.erase file }
  | fileDenyWrite {file file' : File} {i i' : OpenInode} (hf : file ∈ s.files) (hi : s.inodes file.inode = some i)
      (h : fileDenyWrite file i = some (file', i')) :
      FileStep s (.fileDenyWrite file)
        ⟨s.fs, s.setInode file.inode (some i'), file' ::ₘ s.files.erase file, s.others⟩
  | fileAllowWrite {file file' : File} {i i' : OpenInode} (hf : file ∈ s.files) (hi : s.inodes file.inode = some i)
      (h : fileAllowWrite file i = some (file', i')) :
      FileStep s (.fileAllowWrite file)
        ⟨s.fs, s.setInode file.inode (some i'), file' ::ₘ s.files.erase file, s.others⟩
  | fileClose {file : File} {i : OpenInode} {o : Option OpenInode} {fs : Fs} (hf : file ∈ s.files)
      (hi : s.inodes file.inode = some i) (h : outcome (fileClose file i) s.fs = (.ok o, fs)) :
      FileStep s (.fileClose file) ⟨fs, s.setInode file.inode o, s.files.erase file, s.others⟩
  | fileWrite {file file' : File} {i i' : OpenInode} {buffer : List UInt8} {written : ℕ} {fs : Fs}
      (hf : file ∈ s.files) (hi : s.inodes file.inode = some i)
      (h : outcome (fileWrite file i buffer) s.fs = (.ok (written, file', i'), fs)) :
      FileStep s (.fileWrite file buffer)
        ⟨fs, s.setInode file.inode (some i'), file' ::ₘ s.files.erase file, s.others⟩
  | fileWriteAt {file : File} {i i' : OpenInode} {buffer : List UInt8} {fileOfs written : ℕ} {fs : Fs}
      (hf : file ∈ s.files) (hi : s.inodes file.inode = some i)
      (h : outcome (fileWriteAt i buffer fileOfs) s.fs = (.ok (written, i'), fs)) :
      FileStep s (.fileWriteAt file buffer fileOfs) { s with fs := fs, inodes := s.setInode file.inode (some i') }
  | device {fs : Fs} : FileStep s .device { s with fs := fs }

/-- Nothing is open. -/
def OpensInit (s : Opens) : Prop := (∀ p, s.inodes p = none) ∧ s.files = 0 ∧ s.others = 0

/-! ### What the calls do to the counters -/

/-- The same inode, whatever its data. -/
structure SameInode (i i' : Inode) : Prop where
  sector : i'.sector = i.sector
  denyWriteCnt : i'.denyWriteCnt = i.denyWriteCnt

theorem SameInode.refl (i : Inode) : SameInode i i := ⟨rfl, rfl⟩

theorem SameInode.trans {i j k : Inode} (h : SameInode i j) (h' : SameInode j k) : SameInode i k :=
  ⟨h'.sector.trans h.sector, h'.denyWriteCnt.trans h.denyWriteCnt⟩

variable {inode : Inode} {s s' : Opens} {i i' j : OpenInode} {file file' : File} {p q : ℕ}

/-! ### Growing keeps the counter -/

theorem SameInode.grown (inode : Inode) (newSize : ℕ) : SameInode inode (grown inode newSize) := ⟨rfl, rfl⟩

theorem gives_recreate (create : FsCall Bool) : Gives (fun r => SameInode inode r.2) (recreate inode create) := by
  unfold recreate
  exact .bind fun _ => .ite (fun _ => .bind fun _ => .pure ⟨rfl, rfl⟩) fun _ => .pure (.refl _)

theorem gives_expandLarge (newSize : ℕ) : Gives (fun r => SameInode inode r.2) (expandLarge inode newSize) := by
  have hsame := SameInode.grown inode newSize
  unfold expandLarge
  refine .ite (fun _ => .bind fun _ => .pure hsame) fun _ => .bind fun _ => .ite (fun _ => ?_) fun _ => .pure hsame
  refine .bind fun a => .bind fun _ => .bind fun o => ?_
  cases o with
  | none => exact .pure hsame
  | some a => exact .bind fun _ => .bind fun _ => .pure hsame

theorem gives_fillArray (m n : ℕ) : Gives (fun r => SameInode inode r.2) (fillArray inode m n) := by
  unfold fillArray
  refine .ite (fun _ => .throw) fun _ => .bind fun a => .bind fun last => .bind fun b => .bind fun o => ?_
  cases o with
  | none => exact .pure (.refl _)
  | some a => exact .bind fun _ => .bind fun _ => .pure (.refl _)

theorem gives_crossArray (m n : ℕ) : Gives (fun r => SameInode inode r.2) (crossArray inode m n) := by
  unfold crossArray
  refine .bind fun a => .bind fun last => .bind fun b => .bind fun o => ?_
  cases o with
  | none => exact .pure (.refl _)
  | some b =>
    refine .bind fun target => .bind fun _ => .bind fun a => .bind fun o => ?_
    cases o with
    | none => exact .pure (.refl _)
    | some a => exact .bind fun _ => .bind fun _ => .pure (.refl _)

theorem gives_expandHuge (newSize : ℕ) : Gives (fun r => SameInode inode r.2) (expandHuge inode newSize) := by
  have hsame := SameInode.grown inode newSize
  have hmore : ∀ {m : FsCall (Option Bool × Inode)}, Gives (fun r => SameInode (grown inode newSize) r.2) m →
      Gives (fun r => SameInode inode r.2) m := fun h s => (h s).mono (fun _ _ h' => hsame.trans h') fun _ h' => h'
  unfold expandHuge
  refine .ite (fun _ => .bind fun _ => .pure hsame) fun _ => .bind fun _ => .ite (fun _ => ?_) fun _ => .pure hsame
  refine .bind fun _ => .ite (fun _ => .ite (fun _ => ?_) fun _ => ?_) fun _ => .pure hsame
  · exact hmore (gives_fillArray _ _)
  · exact hmore (gives_crossArray _ _)

theorem gives_expandSectors (newSize : ℕ) :
    Gives (fun r => SameInode inode r.2) (inodeExpandSectors inode newSize) := by
  unfold inodeExpandSectors
  refine .bind fun _ => .ite (fun _ => .ite (fun _ => ?_) fun _ => .ite (fun _ => ?_) fun _ => .ite (fun _ => ?_)
    fun _ => .throw) fun _ => .pure (.refl _)
  · exact .ite (fun _ => .pure (.refl _)) fun _ => .ite (fun _ => gives_recreate _) fun _ => gives_recreate _
  · exact .ite (fun _ => gives_recreate _) fun _ => gives_expandLarge newSize
  · exact .ite (fun _ => .pure (.refl _)) fun _ => gives_expandHuge newSize

/-- **`inode_write_at` leaves the counter**, if what grows the inode does. -/
theorem gives_inodeWriteWith {expand : Inode → ℕ → FsCall (Bool × Inode)}
    (hexpand : ∀ i newSize, Gives (fun r => SameInode i r.2) (expand i newSize)) (buffer : List UInt8)
    (offset : ℕ) : Gives (fun r => SameInode inode r.2) (inodeWriteWith expand inode buffer offset) := by
  unfold inodeWriteWith
  refine .ite (fun _ => .pure (.refl _)) fun _ => .ite (fun _ => ?_) fun _ => .bind fun _ => .pure (.refl _)
  have hlock : Gives (SameInode inode) (lockAcquire inode) := by
    unfold lockAcquire
    exact .ite (fun _ => .throw) fun _ => .pure ⟨rfl, rfl⟩
  refine hlock.bind_of fun i hi => (hexpand i _).bind_of fun r hr => ?_
  have hsame : SameInode inode (lockRelease r.2) := hi.trans ⟨hr.sector, hr.denyWriteCnt⟩
  exact .ite (fun _ => .bind fun _ => .pure hsame) fun _ => .pure hsame

theorem gives_inodeExpand (newSize : ℕ) : Gives (fun r => SameInode inode r.2) (inodeExpand inode newSize) := by
  unfold inodeExpand
  refine .ite (fun _ => (gives_expandSectors newSize).bind_of fun r hr => .pure hr) fun _ => .bind fun d =>
    .ite (fun _ => .bind fun _ => .ite (fun _ => .bind fun data => ?_) fun _ => .pure (.refl _)) fun _ => ?_
  · refine .ite (fun _ => .pure (.refl _)) fun _ => (gives_expandSectors newSize).bind_of fun r hr => ?_
    rcases r with ⟨_ | _ | _, i⟩
    · exact .pure hr
    · exact .throw
    · have hw : Gives (fun r => SameInode i r.2) (inodeWriteWith (fun _ _ => throw .relock) i data 0) :=
        gives_inodeWriteWith (fun _ _ => .throw) data 0
      exact hw.bind_of fun r hr' => .pure (hr.trans hr')
  · refine (gives_expandSectors newSize).bind_of fun r hr => ?_
    rcases r with ⟨_ | _ | _, i⟩
    · exact .pure hr
    · exact .pure hr
    · exact .throw

theorem gives_inodeWriteAt (buffer : List UInt8) (offset : ℕ) :
    Gives (fun r => SameInode inode r.2) (inodeWriteAt inode buffer offset) :=
  gives_inodeWriteWith (fun _ => gives_inodeExpand) buffer offset

/-! ### What the calls return -/

/-- What `inode_close` leaves. -/
def Closed (i : OpenInode) (o : Option OpenInode) : Prop :=
  i.openCnt = 1 ∧ o = none ∨ i.openCnt ≠ 1 ∧ o = some { i with openCnt := i.openCnt - 1 }

theorem gives_inodeClose (i : OpenInode) : Gives (Closed i) (inodeClose i) := by
  unfold inodeClose
  refine .ite (fun h => .ite (fun _ => .bind fun _ => .pure (.inl ⟨h, rfl⟩)) fun _ => .pure (.inl ⟨h, rfl⟩)) fun h =>
    ?_
  exact .pure (.inr ⟨h, rfl⟩)

theorem gives_inodeOpen_none (sector : ℕ) :
    Gives (fun o => ∀ i, o = some i → i.openCnt = 1 ∧ i.inode.denyWriteCnt = 0 ∧ i.inode.sector = sector)
      (inodeOpen none sector) := by
  refine .bind fun _ => .ite (fun _ => .bind fun data => .pure ?_) fun _ => .pure ?_
  · intro i hi
    obtain rfl := Option.some.inj hi
    exact ⟨rfl, rfl, rfl⟩
  · intro i hi
    cases hi

theorem gives_inodeOpen_some (i : OpenInode) (sector : ℕ) :
    Gives (fun o => o = some (inodeReopen i)) (inodeOpen (some i) sector) := .pure rfl

theorem gives_fileOpen (p : ℕ) (i : OpenInode) :
    Gives (fun r => r = (some ⟨p, 0, false⟩, some i) ∨ r.1 = none ∧ Closed i r.2) (fileOpen p i) := by
  unfold fileOpen
  exact .bind fun _ => .ite (fun _ => .pure (.inl rfl)) fun _ =>
    (gives_inodeClose i).bind_of fun o ho => .pure (.inr ⟨rfl, ho⟩)

theorem gives_fileWriteAt (i : OpenInode) (buffer : List UInt8) (fileOfs : ℕ) :
    Gives (fun r => r.2.openCnt = i.openCnt ∧ SameInode i.inode r.2.inode) (fileWriteAt i buffer fileOfs) := by
  unfold fileWriteAt
  exact (gives_inodeWriteAt buffer fileOfs).bind_of fun r hr => .pure ⟨rfl, hr⟩

theorem gives_fileWrite (file : File) (i : OpenInode) (buffer : List UInt8) :
    Gives (fun r => r.2.1.inode = file.inode ∧ r.2.1.denyWrite = file.denyWrite ∧
      r.2.2.openCnt = i.openCnt ∧ SameInode i.inode r.2.2.inode) (fileWrite file i buffer) := by
  unfold fileWrite
  exact (gives_fileWriteAt i buffer file.pos).bind_of fun r hr => .pure ⟨rfl, rfl, hr⟩

/-! ### The invariant -/

/-- The counters of the inode at an address say how many openers and deniers it has. -/
def Fits (o : Option OpenInode) (openers deniers : ℕ) : Prop :=
  match o with
  | none => openers = 0
  | some i => i.openCnt = openers ∧ i.inode.denyWriteCnt = deniers

structure Counted (s : Opens) : Prop where
  fits : ∀ p, Fits (s.inodes p) (s.openers p) (denies s.files p)
  unique : ∀ p q i j, s.inodes p = some i → s.inodes q = some j → i.inode.sector = j.inode.sector → p = q

variable {o : Option OpenInode} {m n : ℕ} {files : Multiset File}

theorem opensOf_cons (file : File) (files : Multiset File) (p : ℕ) :
    opensOf (file ::ₘ files) p = opensOf files p + if file.inode = p then 1 else 0 := Multiset.countP_cons _ _ _

theorem denies_cons (file : File) (files : Multiset File) (p : ℕ) :
    denies (file ::ₘ files) p = denies files p + if file.inode = p ∧ file.denyWrite = true then 1 else 0 :=
  Multiset.countP_cons _ _ _

theorem denies_le (files : Multiset File) (p : ℕ) : denies files p ≤ opensOf files p := by
  induction files using Multiset.induction_on with
  | empty => exact le_rfl
  | cons file files ih =>
    rw [denies_cons, opensOf_cons]
    split_ifs with h1 h2
    · omega
    · exact absurd h1.1 h2
    · omega
    · omega

theorem opensOf_erase (hf : file ∈ files) (p : ℕ) :
    opensOf files p = opensOf (files.erase file) p + if file.inode = p then 1 else 0 := by
  rw [← opensOf_cons, Multiset.cons_erase hf]

theorem denies_erase (hf : file ∈ files) (p : ℕ) :
    denies files p = denies (files.erase file) p + if file.inode = p ∧ file.denyWrite = true then 1 else 0 := by
  rw [← denies_cons, Multiset.cons_erase hf]

theorem Counted.fits_some (h : Counted s) (hi : s.inodes p = some i) :
    i.openCnt = s.openers p ∧ i.inode.denyWriteCnt = denies s.files p := by
  have hf := h.fits p
  rw [hi] at hf
  exact hf

theorem denies_le_openers (s : Opens) (p : ℕ) : denies s.files p ≤ s.openers p :=
  (denies_le s.files p).trans (Nat.le_add_left _ _)

/-- **A step on the inode at `p`.** -/
theorem Counted.of_set (h : Counted s) (hin : s'.inodes = s.setInode p o)
    (hother : ∀ q, q ≠ p → s'.openers q = s.openers q ∧ denies s'.files q = denies s.files q)
    (hp : Fits o (s'.openers p) (denies s'.files p))
    (hsector : ∀ i, o = some i → ∀ q j, q ≠ p → s.inodes q = some j → j.inode.sector ≠ i.inode.sector) :
    Counted s' := by
  have hself : s'.inodes p = o := by rw [hin]; exact Function.update_self _ _ _
  have hne : ∀ q, q ≠ p → s'.inodes q = s.inodes q := fun q hq => by
    rw [hin]
    exact Function.update_of_ne hq _ _
  refine ⟨fun q => ?_, fun a b i j ha hb hs => ?_⟩
  · by_cases hq : q = p
    · rw [hq, hself]
      exact hp
    · rw [hne q hq, (hother q hq).1, (hother q hq).2]
      exact h.fits q
  · by_cases hap : a = p <;> by_cases hbp : b = p
    · rw [hap, hbp]
    · rw [hap, hself] at ha
      rw [hne b hbp] at hb
      exact absurd hs.symm (hsector i ha b j hbp hb)
    · rw [hbp, hself] at hb
      rw [hne a hap] at ha
      exact absurd hs (hsector j hb a i hap ha)
    · rw [hne a hap] at ha
      rw [hne b hbp] at hb
      exact h.unique a b i j ha hb hs

/-- A step that leaves the sector. -/
theorem Counted.of_same (h : Counted s) (hi : s.inodes p = some i) (hin : s'.inodes = s.setInode p o)
    (hother : ∀ q, q ≠ p → s'.openers q = s.openers q ∧ denies s'.files q = denies s.files q)
    (hp : Fits o (s'.openers p) (denies s'.files p))
    (hsector : ∀ j, o = some j → j.inode.sector = i.inode.sector) : Counted s' := by
  refine h.of_set hin hother hp fun j hj q k hq hk hs => hq ?_
  exact h.unique q p k i hk hi (hs.trans (hsector j hj))

theorem Closed.fits (h : Closed i o) (hi : i.openCnt = m + 1) (hd : i.inode.denyWriteCnt = n) : Fits o m n := by
  rcases h with ⟨h1, rfl⟩ | ⟨h1, rfl⟩
  · show m = 0
    omega
  · exact ⟨by show i.openCnt - 1 = m; omega, hd⟩

theorem Closed.sector (h : Closed i o) (ho : o = some j) : j.inode.sector = i.inode.sector := by
  rcases h with ⟨-, h⟩ | ⟨-, h⟩
  · rw [h] at ho
    cases ho
  · rw [h] at ho
    obtain rfl := Option.some.inj ho
    rfl

/-! ### Steps -/

theorem count_erase {others : Multiset ℕ} (hp : p ∈ others) (q : ℕ) :
    others.count q = (others.erase p).count q + if q = p then 1 else 0 := by
  rw [← Multiset.count_cons, Multiset.cons_erase hp]

/-- 1 if the flag is set. -/
def flag (file : File) : ℕ := if file.denyWrite = true then 1 else 0

theorem flag_of_true (h : file.denyWrite = true) : flag file = 1 := if_pos h

theorem flag_of_false (h : file.denyWrite = false) : flag file = 0 := by
  rw [flag, h]
  rfl

theorem denies_cons_self (file : File) (files : Multiset File) :
    denies (file ::ₘ files) file.inode = denies files file.inode + flag file := by
  rw [denies_cons, flag]
  simp only [true_and]

theorem denies_cons_of_ne (h : file.inode ≠ p) (files : Multiset File) :
    denies (file ::ₘ files) p = denies files p := by
  rw [denies_cons, if_neg fun hc => h hc.1, Nat.add_zero]

theorem opensOf_cons_self (file : File) (files : Multiset File) :
    opensOf (file ::ₘ files) file.inode = opensOf files file.inode + 1 := by
  rw [opensOf_cons, if_pos rfl]

theorem opensOf_cons_of_ne (h : file.inode ≠ p) (files : Multiset File) :
    opensOf (file ::ₘ files) p = opensOf files p := by
  rw [opensOf_cons, if_neg h, Nat.add_zero]

/-- A call on a file that stays open. -/
theorem Counted.replaced (h : Counted s) (fs : Fs) (hf : file ∈ s.files) (hi : s.inodes file.inode = some i)
    (hin : file'.inode = file.inode) (ho : i'.openCnt = i.openCnt) (hs : i'.inode.sector = i.inode.sector)
    (hd : i'.inode.denyWriteCnt + flag file = i.inode.denyWriteCnt + flag file') :
    Counted ⟨fs, s.setInode file.inode (some i'), file' ::ₘ s.files.erase file, s.others⟩ := by
  obtain ⟨h1, h2⟩ := h.fits_some hi
  have hopens : ∀ q, opensOf (file' ::ₘ s.files.erase file) q = opensOf s.files q := fun q => by
    rw [opensOf_cons, opensOf_erase hf q, hin]
  refine h.of_same hi rfl (fun q hq => ⟨?_, ?_⟩) ⟨?_, ?_⟩ fun j hj => ?_
  · show s.others.count q + opensOf (file' ::ₘ s.files.erase file) q = s.openers q
    rw [hopens]
    rfl
  · show denies (file' ::ₘ s.files.erase file) q = denies s.files q
    rw [denies_cons_of_ne (by rw [hin]; exact hq.symm), ← denies_cons_of_ne hq.symm, Multiset.cons_erase hf]
  · show i'.openCnt = s.others.count file.inode + opensOf (file' ::ₘ s.files.erase file) file.inode
    rw [hopens, ho, h1]
    rfl
  · show i'.inode.denyWriteCnt = denies (file' ::ₘ s.files.erase file) file.inode
    have h3 : denies s.files file.inode = denies (s.files.erase file) file.inode + flag file := by
      rw [← denies_cons_self, Multiset.cons_erase hf]
    rw [← hin, denies_cons_self, hin]
    omega
  · obtain rfl := Option.some.inj hj
    exact hs

/-- A new reference to the inode at `p`. -/
theorem Counted.shared (h : Counted s) (fs : Fs) (hi : s.inodes p = some i) :
    Counted ⟨fs, s.setInode p (some (inodeReopen i)), s.files, p ::ₘ s.others⟩ := by
  obtain ⟨h1, h2⟩ := h.fits_some hi
  refine h.of_same hi rfl (fun q hq => ⟨?_, rfl⟩) ⟨?_, h2⟩ fun j hj => ?_
  · show (p ::ₘ s.others).count q + opensOf s.files q = s.others.count q + opensOf s.files q
    rw [Multiset.count_cons_of_ne hq]
  · show i.openCnt + 1 = (p ::ₘ s.others).count p + opensOf s.files p
    rw [Multiset.count_cons_self, h1, Opens.openers]
    omega
  · obtain rfl := Option.some.inj hj
    rfl

/-- The new inode of a sector that is not open. -/
theorem Counted.loaded (h : Counted s) (fs : Fs) (hnone : s.inodes p = none)
    (hfree : ∀ q j, s.inodes q = some j → j.inode.sector ≠ i.inode.sector) (h1 : i.openCnt = 1)
    (h2 : i.inode.denyWriteCnt = 0) : Counted ⟨fs, s.setInode p (some i), s.files, p ::ₘ s.others⟩ := by
  have h0 : s.openers p = 0 := by
    have hf := h.fits p
    rw [hnone] at hf
    exact hf
  have hd := denies_le_openers s p
  refine h.of_set rfl (fun q hq => ⟨?_, rfl⟩) ⟨?_, ?_⟩ fun j hj q k hq hk => ?_
  · show (p ::ₘ s.others).count q + opensOf s.files q = s.others.count q + opensOf s.files q
    rw [Multiset.count_cons_of_ne hq]
  · show i.openCnt = (p ::ₘ s.others).count p + opensOf s.files p
    rw [Opens.openers] at h0
    rw [Multiset.count_cons_self]
    omega
  · show i.inode.denyWriteCnt = denies s.files p
    omega
  · obtain rfl := Option.some.inj hj
    exact hfree q k hk

/-- A reference is closed. -/
theorem Counted.closed (h : Counted s) (fs : Fs) (hp : p ∈ s.others) (hi : s.inodes p = some i) (ho : Closed i o) :
    Counted ⟨fs, s.setInode p o, s.files, s.others.erase p⟩ := by
  obtain ⟨h1, h2⟩ := h.fits_some hi
  have hself := count_erase hp p
  rw [if_pos rfl] at hself
  refine h.of_same hi rfl (fun q hq => ⟨?_, rfl⟩) (ho.fits ?_ h2) fun j hj => ho.sector hj
  · show (s.others.erase p).count q + opensOf s.files q = s.others.count q + opensOf s.files q
    rw [Multiset.count_erase_of_ne hq]
  · show i.openCnt = (s.others.erase p).count p + opensOf s.files p + 1
    rw [h1, Opens.openers]
    omega

/-- A reference becomes a file. -/
theorem Counted.opened (h : Counted s) (fs : Fs) (hp : p ∈ s.others) (hi : s.inodes p = some i) :
    Counted ⟨fs, s.setInode p (some i), ⟨p, 0, false⟩ ::ₘ s.files, s.others.erase p⟩ := by
  obtain ⟨h1, h2⟩ := h.fits_some hi
  have hself := count_erase hp p
  rw [if_pos rfl] at hself
  refine h.of_same hi rfl (fun q hq => ⟨?_, denies_cons_of_ne hq.symm _⟩) ⟨?_, ?_⟩ fun j hj => ?_
  · show (s.others.erase p).count q + opensOf (⟨p, 0, false⟩ ::ₘ s.files) q = s.openers q
    rw [Multiset.count_erase_of_ne hq, opensOf_cons_of_ne hq.symm]
    rfl
  · show i.openCnt = (s.others.erase p).count p + opensOf (⟨p, 0, false⟩ ::ₘ s.files) p
    have hcons : opensOf (⟨p, 0, false⟩ ::ₘ s.files) p = opensOf s.files p + 1 := opensOf_cons_self ⟨p, 0, false⟩ _
    rw [hcons, h1, Opens.openers]
    omega
  · exact h2.trans (denies_cons_self ⟨p, 0, false⟩ s.files).symm
  · obtain rfl := Option.some.inj hj
    rfl

/-- A new file on the inode of another. -/
theorem Counted.reopened (h : Counted s) (fs : Fs) (hi : s.inodes p = some i) :
    Counted ⟨fs, s.setInode p (some (inodeReopen i)), ⟨p, 0, false⟩ ::ₘ s.files, s.others⟩ := by
  have h' := (h.shared fs hi).opened fs (Multiset.mem_cons_self p _) (Function.update_self _ _ _)
  have hset : Opens.setInode ⟨fs, s.setInode p (some (inodeReopen i)), s.files, p ::ₘ s.others⟩ p
      (some (inodeReopen i)) = s.setInode p (some (inodeReopen i)) := Function.update_idem _ _ _
  rw [hset, Multiset.erase_cons_head] at h'
  exact h'

/-- A reference that is taken and given back at once. -/
theorem Counted.notReopened (h : Counted s) (fs : Fs) (hi : s.inodes p = some i) (ho : Closed (inodeReopen i) o) :
    Counted ⟨fs, s.setInode p o, s.files, s.others⟩ := by
  have h' := (h.shared fs hi).closed fs (Multiset.mem_cons_self p _) (Function.update_self _ _ _) ho
  have hset : Opens.setInode ⟨fs, s.setInode p (some (inodeReopen i)), s.files, p ::ₘ s.others⟩ p o =
      s.setInode p o := Function.update_idem _ _ _
  rw [hset, Multiset.erase_cons_head] at h'
  exact h'

/-- A file that denies nothing is closed. -/
theorem Counted.fileClosed (h : Counted s) (fs : Fs) (hf : file ∈ s.files) (hflag : file.denyWrite = false)
    (hi : s.inodes file.inode = some i) (ho : Closed i o) :
    Counted ⟨fs, s.setInode file.inode o, s.files.erase file, s.others⟩ := by
  obtain ⟨h1, h2⟩ := h.fits_some hi
  have hopens : ∀ q, q ≠ file.inode → opensOf (s.files.erase file) q = opensOf s.files q := fun q hq => by
    rw [opensOf_erase hf q, if_neg hq.symm, Nat.add_zero]
  have hdenies : ∀ q, denies (s.files.erase file) q = denies s.files q := fun q => by
    rw [denies_erase hf q, if_neg (by rw [hflag]; simp), Nat.add_zero]
  have hself := opensOf_erase hf file.inode
  rw [if_pos rfl] at hself
  refine h.of_same hi rfl (fun q hq => ⟨?_, hdenies q⟩) (ho.fits ?_ (h2.trans (hdenies _).symm)) fun j hj =>
    ho.sector hj
  · show s.others.count q + opensOf (s.files.erase file) q = s.openers q
    rw [hopens q hq]
    rfl
  · show i.openCnt = s.others.count file.inode + opensOf (s.files.erase file) file.inode + 1
    rw [h1, Opens.openers]
    omega

theorem fileDenyWrite_spec (h : fileDenyWrite file i = some (file', i')) :
    file'.inode = file.inode ∧ i'.openCnt = i.openCnt ∧ i'.inode.sector = i.inode.sector ∧
      i'.inode.denyWriteCnt + flag file = i.inode.denyWriteCnt + flag file' := by
  unfold fileDenyWrite at h
  rcases hflag : file.denyWrite with _ | _
  · rw [hflag, if_neg (by decide), inodeDenyWrite] at h
    obtain ⟨j, hj, he⟩ := Option.map_eq_some_iff.mp h
    obtain ⟨rfl, rfl⟩ := Prod.mk.inj he
    split_ifs at hj with hle
    obtain rfl := Option.some.inj hj
    refine ⟨rfl, rfl, rfl, ?_⟩
    rw [flag_of_false hflag]
    rfl
  · rw [hflag, if_pos rfl] at h
    obtain ⟨rfl, rfl⟩ := Prod.mk.inj (Option.some.inj h)
    exact ⟨rfl, rfl, rfl, rfl⟩

theorem fileAllowWrite_spec (h : fileAllowWrite file i = some (file', i')) :
    file'.inode = file.inode ∧ file'.denyWrite = false ∧ i'.openCnt = i.openCnt ∧
      i'.inode.sector = i.inode.sector ∧ i'.inode.denyWriteCnt + flag file = i.inode.denyWriteCnt + flag file' := by
  unfold fileAllowWrite at h
  rcases hflag : file.denyWrite with _ | _
  · rw [hflag, if_neg (by decide)] at h
    obtain ⟨rfl, rfl⟩ := Prod.mk.inj (Option.some.inj h)
    exact ⟨rfl, hflag, rfl, rfl, rfl⟩
  · rw [hflag, if_pos rfl, inodeAllowWrite] at h
    obtain ⟨j, hj, he⟩ := Option.map_eq_some_iff.mp h
    obtain ⟨rfl, rfl⟩ := Prod.mk.inj he
    split_ifs at hj with hle
    obtain rfl := Option.some.inj hj
    refine ⟨rfl, rfl, rfl, rfl, ?_⟩
    rw [flag_of_true hflag]
    show i.inode.denyWriteCnt - 1 + 1 = i.inode.denyWriteCnt + 0
    omega

theorem counted_init (h : OpensInit s) : Counted s := by
  obtain ⟨h1, h2, h3⟩ := h
  refine ⟨fun p => ?_, fun p q i j hp => ?_⟩
  · rw [h1 p]
    show s.others.count p + opensOf s.files p = 0
    rw [h2, h3]
    rfl
  · rw [h1 p] at hp
    cases hp

/-- **Every call keeps the counters.** -/
theorem counted_step {a : FileAction} (h : Counted s) (hstep : FileStep s a s') : Counted s' := by
  cases hstep with
  | @inodeOpened sector p i fs hp ho =>
    rcases hp with ⟨j, hj, hs⟩ | ⟨hnone, hfree⟩
    · rw [hj] at ho
      obtain rfl := Option.some.inj ((gives_inodeOpen_some j sector).of_outcome ho)
      exact h.shared _ hj
    · rw [hnone] at ho
      obtain ⟨h1, h2, h3⟩ := (gives_inodeOpen_none sector).of_outcome ho i rfl
      exact h.loaded _ hnone (fun q j hq => h3 ▸ hfree q j hq) h1 h2
  | inodeNotOpened => exact ⟨h.fits, h.unique⟩
  | inodeReopen hp hi => exact h.shared _ hi
  | @inodeRemove p i hp hi =>
    obtain ⟨h1, h2⟩ := h.fits_some hi
    refine h.of_same hi rfl (fun q _ => ⟨rfl, rfl⟩) ⟨h1, h2⟩ fun j hj => ?_
    obtain rfl := Option.some.inj hj
    rfl
  | inodeClose hp hi ho => exact h.closed _ hp hi ((gives_inodeClose _).of_outcome ho)
  | @fileOpened p i file o fs hp hi ho =>
    rcases (gives_fileOpen p i).of_outcome ho with he | ⟨he, -⟩
    · obtain ⟨he1, rfl⟩ := Prod.mk.inj he
      obtain rfl := Option.some.inj he1
      exact h.opened _ hp hi
    · cases he
  | @fileNotOpened p i o fs hp hi ho =>
    rcases (gives_fileOpen p i).of_outcome ho with he | ⟨-, hc⟩
    · exact absurd (Prod.mk.inj he).1 (by simp)
    · exact h.closed _ hp hi hc
  | @fileReopened file file' i o fs hf hi ho =>
    rcases (gives_fileOpen file.inode (inodeReopen i)).of_outcome ho with he | ⟨he, -⟩
    · obtain ⟨he1, rfl⟩ := Prod.mk.inj he
      obtain rfl := Option.some.inj he1
      exact h.reopened _ hi
    · cases he
  | @fileNotReopened file i o fs hf hi ho =>
    rcases (gives_fileOpen file.inode (inodeReopen i)).of_outcome ho with he | ⟨-, hc⟩
    · exact absurd (Prod.mk.inj he).1 (by simp)
    · exact h.notReopened _ hi hc
  | @fileSeek file pos hf =>
    have hopens : ∀ q, opensOf ({ file with pos := pos } ::ₘ s.files.erase file) q = opensOf s.files q := fun q => by
      rw [opensOf_cons, opensOf_erase hf q]
    have hdenies : ∀ q, denies ({ file with pos := pos } ::ₘ s.files.erase file) q = denies s.files q := fun q => by
      rw [denies_cons, denies_erase hf q]
    refine ⟨fun p => ?_, h.unique⟩
    show Fits (s.inodes p) (s.others.count p + opensOf _ p) (denies _ p)
    rw [hopens, hdenies]
    exact h.fits p
  | fileDenyWrite hf hi hd =>
    obtain ⟨h1, h2, h3, h4⟩ := fileDenyWrite_spec hd
    exact h.replaced _ hf hi h1 h2 h3 h4
  | fileAllowWrite hf hi hd =>
    obtain ⟨h1, -, h2, h3, h4⟩ := fileAllowWrite_spec hd
    exact h.replaced _ hf hi h1 h2 h3 h4
  | @fileClose file i o fs hf hi ho =>
    unfold fileClose at ho
    rcases hd : fileAllowWrite file i with _ | ⟨file', i'⟩
    · rw [hd] at ho
      exact absurd (Prod.mk.inj ho).1 (by simp)
    · rw [hd] at ho
      obtain ⟨h1, hflag, h2, h3, h4⟩ := fileAllowWrite_spec hd
      -- `file_allow_write` first, and then the file is closed
      have hallowed := h.replaced fs hf hi h1 h2 h3 h4
      have hclosed := hallowed.fileClosed fs (Multiset.mem_cons_self file' _) hflag
        (by rw [h1]; exact Function.update_self _ _ _) ((gives_inodeClose i').of_outcome ho)
      have hset : Opens.setInode ⟨fs, s.setInode file.inode (some i'), file' ::ₘ s.files.erase file, s.others⟩
          file'.inode o = s.setInode file.inode o := by
        rw [h1]
        exact Function.update_idem _ _ _
      rw [hset, Multiset.erase_cons_head] at hclosed
      exact hclosed
  | @fileWrite file file' i i' buffer written fs hf hi ho =>
    obtain ⟨h1, h2, h3, h4⟩ := (gives_fileWrite file i buffer).of_outcome ho
    have hflag : flag file' = flag file := by rw [flag, flag, h2]
    exact h.replaced _ hf hi h1 h3 h4.sector (by rw [h4.denyWriteCnt, hflag])
  | @fileWriteAt file i i' buffer fileOfs written fs hf hi ho =>
    obtain ⟨h1, h2⟩ := (gives_fileWriteAt i buffer fileOfs).of_outcome ho
    have hcnt : i'.inode.denyWriteCnt + flag file = i.inode.denyWriteCnt + flag file := by rw [h2.denyWriteCnt]
    have h' := h.replaced fs hf hi rfl h1 h2.sector hcnt
    rw [Multiset.cons_erase hf] at h'
    exact h'
  | device => exact ⟨h.fits, h.unique⟩

theorem counted_invariant : Invariant OpensInit FileStep Counted := ⟨counted_init, counted_step⟩

/-! ### Denied writes -/

/-- **While writes are denied**, `file_write` and `file_write_at` change nothing. -/
theorem denied_write (hdeny : 0 < i.inode.denyWriteCnt) (file : File) (buffer : List UInt8) (fileOfs : ℕ) (fs : Fs) :
    outcome (fileWrite file i buffer) fs = (.ok (0, file, i), fs) ∧
      outcome (fileWriteAt i buffer fileOfs) fs = (.ok (0, i), fs) := by
  have hat : ∀ ofs, outcome (inodeWriteAt i.inode buffer ofs) fs = (.ok (0, i.inode), fs) := fun ofs => by
    unfold inodeWriteAt inodeWriteWith
    rw [if_pos (by omega)]
    rfl
  have hfile : ∀ ofs, outcome (fileWriteAt i buffer ofs) fs = (.ok (0, i), fs) := fun ofs => by
    unfold fileWriteAt
    rw [outcome_bind, hat]
    rfl
  refine ⟨?_, hfile fileOfs⟩
  unfold fileWrite
  rw [outcome_bind, hfile]
  rfl

/-- The assertions hold for a file on the inode. -/
theorem Counted.asserts (h : Counted s) (hf : file ∈ s.files) (hi : s.inodes file.inode = some i) :
    (fileDenyWrite file i).isSome = true ∧ (fileAllowWrite file i).isSome = true := by
  obtain ⟨h1, h2⟩ := h.fits_some hi
  have hopen := opensOf_erase hf file.inode
  have hdenies : denies s.files file.inode = denies (s.files.erase file) file.inode + flag file := by
    rw [← denies_cons_self, Multiset.cons_erase hf]
  have hle := denies_le (s.files.erase file) file.inode
  rw [if_pos rfl] at hopen
  unfold Opens.openers at h1
  unfold fileDenyWrite fileAllowWrite
  rcases hflag : file.denyWrite with _ | _
  · rw [flag_of_false hflag] at hdenies
    rw [if_neg (by decide), if_neg (by decide), inodeDenyWrite, if_pos (by omega)]
    exact ⟨rfl, rfl⟩
  · rw [flag_of_true hflag] at hdenies
    rw [if_pos rfl, if_pos rfl, inodeAllowWrite, if_pos ⟨by omega, by omega⟩]
    exact ⟨rfl, rfl⟩

/-- **Denied writes are counted**: in every run, the inode of an open file is open and is the only one of its sector,
its counter is the number of files whose flag is set, the assertions hold, and no write gets through. -/
theorem deny_write_counted (h : Reachable OpensInit FileStep s) :
    (∀ file ∈ s.files, ∃ i, s.inodes file.inode = some i) ∧
      (∀ p q i j, s.inodes p = some i → s.inodes q = some j → i.inode.sector = j.inode.sector → p = q) ∧
      ∀ p i, s.inodes p = some i →
        i.inode.denyWriteCnt = denies s.files p ∧ i.inode.denyWriteCnt ≤ i.openCnt ∧
        (∀ file ∈ s.files, file.inode = p →
          (fileDenyWrite file i).isSome = true ∧ (fileAllowWrite file i).isSome = true) ∧
        (0 < i.inode.denyWriteCnt → ∀ file ∈ s.files, file.inode = p → ∀ buffer fileOfs,
          outcome (fileWrite file i buffer) s.fs = (.ok (0, file, i), s.fs) ∧
          outcome (fileWriteAt i buffer fileOfs) s.fs = (.ok (0, i), s.fs)) := by
  have hc := h.of_invariant counted_invariant
  refine ⟨fun file hf => ?_, hc.unique, fun p i hi => ?_⟩
  · rcases hi : s.inodes file.inode with _ | i
    · have hfits := hc.fits file.inode
      have hopen := opensOf_erase hf file.inode
      rw [hi] at hfits
      have hzero : s.others.count file.inode + opensOf s.files file.inode = 0 := hfits
      rw [if_pos rfl] at hopen
      omega
    · exact ⟨i, rfl⟩
  · obtain ⟨h1, h2⟩ := hc.fits_some hi
    have hle := denies_le_openers s p
    refine ⟨h2, by omega, fun file hf hp => hc.asserts hf (hp ▸ hi), fun hdeny file _ _ buffer fileOfs => ?_⟩
    exact denied_write hdeny file buffer fileOfs s.fs

/-- A device of four sectors of zeros, after some requests. -/
def zeroFs (asked : ℕ) : Fs := ⟨fun _ _ => 0, [true, true, true, true], 0, fun _ => true, asked, 0, []⟩

/-- The inode in sector 2, with one opener. -/
def zeroInode (denyWriteCnt : ℕ) : OpenInode := ⟨1, false, ⟨2, false, denyWriteCnt, .ofSector fun _ => 0⟩⟩

/-- That inode alone, at the address 0. -/
def oneInode (asked denyWriteCnt : ℕ) (files : Multiset File) (others : Multiset ℕ) : Opens :=
  ⟨zeroFs asked, Function.update (fun _ => none) 0 (some (zeroInode denyWriteCnt)), files, others⟩

theorem oneInode_step {a : FileAction} {m n k l : ℕ} {files files' : Multiset File} {others others' : Multiset ℕ}
    (h : Reachable OpensInit FileStep (oneInode m n files others))
    (hstep : FileStep (oneInode m n files others) a
      ⟨zeroFs k, (oneInode m n files others).setInode 0 (some (zeroInode l)), files', others'⟩) :
    Reachable OpensInit FileStep (oneInode k l files' others') := by
  have hset : (oneInode m n files others).setInode 0 (some (zeroInode l)) =
      Function.update (fun _ => none) 0 (some (zeroInode l)) := Function.update_idem _ _ _
  rw [hset] at hstep
  exact h.step hstep

/-- The inode is opened, the file is opened, and it denies writes. -/
theorem reachable_oneDenier : Reachable OpensInit FileStep (oneInode 2 1 {⟨0, 0, true⟩} 0) := by
  have h0 : Reachable OpensInit FileStep ⟨zeroFs 0, fun _ => none, 0, 0⟩ := .start ⟨fun _ => rfl, rfl, rfl⟩
  have hinode : outcome (inodeOpen none 2) (zeroFs 0) = (.ok (some (zeroInode 0)), zeroFs 1) := rfl
  have h1 : Reachable OpensInit FileStep (oneInode 1 0 0 {0}) :=
    h0.step (.inodeOpened (p := 0) (.inr ⟨rfl, fun _ _ hc => nomatch hc⟩) hinode)
  have hfile : outcome (fileOpen 0 (zeroInode 0)) (zeroFs 1) =
      (.ok (some ⟨0, 0, false⟩, some (zeroInode 0)), zeroFs 2) := rfl
  have h2 : Reachable OpensInit FileStep (oneInode 2 0 {⟨0, 0, false⟩} (Multiset.erase {0} 0)) :=
    oneInode_step h1 (.fileOpened (Multiset.mem_singleton_self 0) rfl hfile)
  rw [Multiset.erase_singleton] at h2
  have hdeny : fileDenyWrite ⟨0, 0, false⟩ (zeroInode 0) = some (⟨0, 0, true⟩, zeroInode 1) := rfl
  have h3 : Reachable OpensInit FileStep
      (oneInode 2 1 (⟨0, 0, true⟩ ::ₘ Multiset.erase {⟨0, 0, false⟩} ⟨0, 0, false⟩) 0) :=
    oneInode_step h2 (.fileDenyWrite (Multiset.mem_singleton_self _) rfl hdeny)
  rw [Multiset.erase_singleton] at h3
  exact h3

theorem deny_write_counted_oneDenier :
    outcome (fileWrite ⟨0, 0, true⟩ (zeroInode 1) [7]) (zeroFs 2) =
      (.ok (0, ⟨0, 0, true⟩, zeroInode 1), zeroFs 2) :=
  ((((deny_write_counted reachable_oneDenier).2.2 0 (zeroInode 1) rfl).2.2.2 (by decide)) ⟨0, 0, true⟩
    (Multiset.mem_singleton_self _) rfl [7] 0).1

end Pintos.Filesys.DenyWrite
