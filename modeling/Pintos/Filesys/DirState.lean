import Pintos.Lib.Ops
import Pintos.Filesys.DentryCache

/-! # Inodes as directories use them

The directory code sees an inode through its type, its parent sector and, for a directory, its sequence of
`struct dir_entry`; how inode.c lays these bytes out on the device is below this file. The state has the
inodes on the device, the list of open inodes, the dentry cache, the current directories and the owner of
`dir_lock`. Freed memory is never used again here: an open inode carries a generation, and a pointer with
another generation is dangling. Allocating memory never fails, as the directory code assumes. -/

namespace Pintos.Filesys.DirState

open Pintos.Lib.Ops
open Pintos.Filesys.Path Pintos.Filesys.DentryCache

abbrev Pid := ℕ

/-- `ROOT_DIR_SECTOR`. -/
def rootDirSector : Sector := 1

/-- `FREE_MAP_SECTOR`. -/
def freeMapSector : Sector := 0

/-- `NAME_MAX`. -/
def nameMax : ℕ := 14

/-- `struct dir_entry`. -/
structure DirEntry where
  inodeSector : Sector
  name : CStr
  inUse : Bool
  deriving DecidableEq

/-- An inode on the device: its parent sector, and the slots of a directory. -/
inductive Inode
  | file (parent : Sector)
  | dir (parent : Sector) (entries : List DirEntry)
  deriving DecidableEq

def Inode.parent : Inode → Sector
  | .file p => p
  | .dir p _ => p

def Inode.isDir : Inode → Bool
  | .file _ => false
  | .dir _ _ => true

/-- The inode sectors in use and what they hold. -/
abbrev Inodes := Sector → Option Inode

/-- `struct inode`, an element of `open_inodes`. -/
structure OpenInode where
  gen : ℕ
  openCnt : ℤ
  removed : Bool
  deriving DecidableEq

/-- A `struct inode *`. -/
structure InodePtr where
  sector : Sector
  gen : ℕ
  deriving DecidableEq

/-- `struct dir`. -/
structure Dir where
  inode : InodePtr
  pos : ℕ
  deriving DecidableEq

/-- `struct file`. -/
structure File where
  inode : InodePtr
  pos : ℕ
  denyWrite : Bool
  deriving DecidableEq

/-- What `filesys_open` hands out. -/
inductive UserFile
  | file (f : File)
  | dir (d : Dir)
  deriving DecidableEq

structure FS where
  inodes : Inodes
  opened : Sector → Option OpenInode
  nextGen : ℕ
  dentryCache : Cache
  /-- `process_info->cwd`; a kernel thread has no `process_info`. -/
  cwd : Pid → Option Dir
  dirLock : Option Pid
  /-- The open files and directories of all processes. -/
  userFiles : List UserFile

def FS.setOpened (s : FS) (sector : Sector) (o : Option OpenInode) : FS :=
  { s with opened := Function.update s.opened sector o }

def FS.setInode (s : FS) (sector : Sector) (ino : Option Inode) : FS :=
  { s with inodes := Function.update s.inodes sector ino }

/-- The open inode behind a pointer, unless it dangles. -/
def FS.openInode (s : FS) (p : InodePtr) : Option OpenInode :=
  (s.opened p.sector).filter (·.gen = p.gen)

/-! ### inode.c -/

/-- Follows a pointer to an open inode. -/
def inodeAt (p : InodePtr) : Op FS OpenInode := do
  let s ← get
  deref (s.openInode p)

/-- The on-disk part of an open inode (`inode->data`). -/
def inodeData (p : InodePtr) : Op FS Inode := do
  let _ ← inodeAt p
  let s ← get
  deref (s.inodes p.sector)

/-- `inode_open`. A sector without an inode is not opened in this layer. -/
def inodeOpen (sector : Sector) : Op FS InodePtr := do
  let s ← get
  match s.opened sector with
  | some inode =>
    set (s.setOpened sector (some { inode with openCnt := inode.openCnt + 1 }))
    return ⟨sector, inode.gen⟩
  | none =>
    let _ ← deref (s.inodes sector)
    set { s with
      opened := Function.update s.opened sector (some ⟨s.nextGen, 1, false⟩)
      nextGen := s.nextGen + 1 }
    return ⟨sector, s.nextGen⟩

/-- `inode_reopen`. -/
def inodeReopen (p : InodePtr) : Op FS InodePtr := do
  let inode ← inodeAt p
  modify (·.setOpened p.sector (some { inode with openCnt := inode.openCnt + 1 }))
  return p

/-- `free_map_release` of an inode sector. -/
def freeMapRelease (sector : Sector) : Op FS Unit :=
  modify (·.setInode sector none)

/-- `inode_close`: the last close frees the memory, and the sector of a removed inode. -/
def inodeClose (p : InodePtr) : Op FS Unit := do
  let inode ← inodeAt p
  if inode.openCnt - 1 = 0 then
    modify (·.setOpened p.sector none)
    if inode.removed then freeMapRelease p.sector
  else
    modify (·.setOpened p.sector (some { inode with openCnt := inode.openCnt - 1 }))

/-- `inode_remove`. -/
def inodeRemove (p : InodePtr) : Op FS Unit := do
  let inode ← inodeAt p
  modify (·.setOpened p.sector (some { inode with removed := true }))

/-- `inode_get_inumber`. -/
def inodeGetInumber (p : InodePtr) : Op FS Sector := do
  let _ ← inodeAt p
  return p.sector

/-- `inode_get_open_cnt`. -/
def inodeGetOpenCnt (p : InodePtr) : Op FS ℤ := do
  let inode ← inodeAt p
  return inode.openCnt

/-- `inode_get_parent_sector`. -/
def inodeGetParentSector (p : InodePtr) : Op FS Sector := do
  let data ← inodeData p
  return data.parent

/-- `inode_is_directory`. `free` fills memory with 0xcc, which is no directory's type. -/
def inodeIsDirectory (p : InodePtr) : Op FS Bool := do
  let s ← get
  match s.openInode p, s.inodes p.sector with
  | some _, some ino => return ino.isDir
  | _, _ => return false

/-- `inode_create` for the type `ino`, of `length` bytes. The flag `room` says whether the free map has
the data sectors; without them nothing is written to `sector`. -/
def inodeCreate (sector : Sector) (length : ℤ) (ino : Inode) (room : Bool) : Op FS Bool := do
  assert (0 ≤ length)
  if room then
    modify (·.setInode sector (some ino))
    return true
  else
    return false

/-- `free_map_allocate(1, &sector)`: `found` is the sector of the free map's choice, if there is one. No
inode is stored there. -/
def freeMapAllocate (found : Option Sector) : Op FS (Option Sector) := do
  let s ← get
  match found with
  | none => return none
  | some sector =>
    assert ((s.inodes sector).isNone && sector ≠ freeMapSector)
    return some sector

/-! ### Locks -/

/-- `lock_acquire(&dir_lock)`: the owner fails an assertion, everybody else waits for ever, since the
owner is not inside a call. -/
def dirLockAcquire (pid : Pid) : Op FS Unit := do
  let s ← get
  assert s.dirLock.isNone
  set { s with dirLock := some pid }

/-- `lock_release(&dir_lock)`. -/
def dirLockRelease (pid : Pid) : Op FS Unit := do
  let s ← get
  assert (s.dirLock = some pid)
  set { s with dirLock := none }

/-! ### What opening and closing changes -/

/-- The slot `k` of the directory `d` holds the entry `e`, in use. -/
def HasEntry (inodes : Inodes) (d : Sector) (k : ℕ) (e : DirEntry) : Prop :=
  ∃ p es, inodes d = some (.dir p es) ∧ es[k]? = some e ∧ e.inUse = true

/-- A file that no directory names. -/
def Unlinked (inodes : Inodes) (sec : Sector) : Prop :=
  (∃ p, inodes sec = some (.file p)) ∧ ∀ d k e, HasEntry inodes d k e → e.inodeSector ≠ sec

/-- The list of open inodes agrees with the device: every open inode is there and counted, and a removed
one is a file without a name. -/
structure OpenOk (s : FS) : Prop where
  cnt : ∀ {sec o}, s.opened sec = some o → 1 ≤ o.openCnt
  inode : ∀ {sec o}, s.opened sec = some o → ∃ ino, s.inodes sec = some ino
  removed : ∀ {sec o}, s.opened sec = some o → o.removed = true → Unlinked s.inodes sec

/-- An open directory is not removed. -/
theorem OpenOk.dir {s : FS} (hs : OpenOk s) {sec p : Sector} {o : OpenInode} {es : List DirEntry}
    (ho : s.opened sec = some o) (hd : s.inodes sec = some (.dir p es)) : o.removed = false := by
  by_contra hr
  obtain ⟨⟨q, hq⟩, -⟩ := hs.removed ho (by simpa using hr)
  rw [hd] at hq
  simp at hq

/-- `s'` differs from `s` in its open inodes only. -/
def Opens (s s' : FS) : Prop :=
  s' = { s with opened := s'.opened, nextGen := s'.nextGen } ∧ OpenOk s'

/-- The pointer `p` does not dangle. -/
def Held (s : FS) (p : InodePtr) : Prop := ∃ o, s.opened p.sector = some o ∧ o.gen = p.gen

namespace Opens

variable {s s' s'' : FS}

theorem refl (h : OpenOk s) : Opens s s := ⟨rfl, h⟩

theorem trans (h : Opens s s') (h' : Opens s' s'') : Opens s s'' := by
  refine ⟨?_, h'.2⟩
  rw [h'.1, h.1]

theorem inodes (h : Opens s s') : s'.inodes = s.inodes := by rw [h.1]
theorem dentryCache (h : Opens s s') : s'.dentryCache = s.dentryCache := by rw [h.1]
theorem cwd (h : Opens s s') : s'.cwd = s.cwd := by rw [h.1]
theorem dirLock (h : Opens s s') : s'.dirLock = s.dirLock := by rw [h.1]
theorem userFiles (h : Opens s s') : s'.userFiles = s.userFiles := by rw [h.1]

end Opens

/-- `s'` differs from `s` in open inodes and in the dentry cache only. -/
def Touches (s s' : FS) : Prop :=
  s' = { s with opened := s'.opened, nextGen := s'.nextGen, dentryCache := s'.dentryCache } ∧
    OpenOk s'

theorem Opens.touches {s s' : FS} (h : Opens s s') : Touches s s' := by
  refine ⟨?_, h.2⟩
  rw [h.1]

theorem Touches.trans {s s' s'' : FS} (h : Touches s s') (h' : Touches s' s'') :
    Touches s s'' := by
  refine ⟨?_, h'.2⟩
  rw [h'.1, h.1]

theorem Touches.inodes {s s' : FS} (h : Touches s s') : s'.inodes = s.inodes := by rw [h.1]
theorem Touches.cwd {s s' : FS} (h : Touches s s') : s'.cwd = s.cwd := by rw [h.1]
theorem Touches.dirLock {s s' : FS} (h : Touches s s') : s'.dirLock = s.dirLock := by rw [h.1]

theorem openInode_of_held {s : FS} {p : InodePtr} {o : OpenInode}
    (h : s.opened p.sector = some o) (hg : o.gen = p.gen) : s.openInode p = some o := by
  simp [FS.openInode, h, hg, Option.filter]

theorem held_of_openInode {s : FS} {p : InodePtr} {o : OpenInode} (h : s.openInode p = some o) :
    s.opened p.sector = some o ∧ o.gen = p.gen := by
  simpa [FS.openInode, Option.filter_eq_some_iff] using h

theorem inodeAt_spec {s : FS} {p : InodePtr} {o : OpenInode} {Q : OpenInode → FS → Prop}
    (ho : s.opened p.sector = some o) (hg : o.gen = p.gen) (h : Q o s) :
    Yields (inodeAt p) s Q :=
  .bind (.get (.deref (openInode_of_held ho hg) h))

theorem inodeData_spec {s : FS} {p : InodePtr} {ino : Inode} {Q : Inode → FS → Prop}
    (hh : Held s p) (hi : s.inodes p.sector = some ino) (h : Q ino s) :
    Yields (inodeData p) s Q := by
  obtain ⟨o, ho, hg⟩ := hh
  exact .bind (inodeAt_spec ho hg (.bind (.get (.deref hi h))))

/-- Setting the entry of one sector to a good one. -/
theorem OpenOk.setOpened {s : FS} (hs : OpenOk s) {sec : Sector} {o : Option OpenInode}
    (h : ∀ o', o = some o' → 1 ≤ o'.openCnt ∧ (∃ ino, s.inodes sec = some ino) ∧
      (o'.removed = true → Unlinked s.inodes sec)) :
    OpenOk (s.setOpened sec o) where
  cnt {sec' o'} h' := by
    by_cases he : sec' = sec
    · subst he
      exact (h o' (by simpa [FS.setOpened] using h')).1
    · exact hs.cnt (show s.opened sec' = some o' by simpa [FS.setOpened, he] using h')
  inode {sec' o'} h' := by
    by_cases he : sec' = sec
    · subst he
      exact (h o' (by simpa [FS.setOpened] using h')).2.1
    · exact hs.inode (show s.opened sec' = some o' by simpa [FS.setOpened, he] using h')
  removed {sec' o'} h' hr := by
    by_cases he : sec' = sec
    · subst he
      exact (h o' (by simpa [FS.setOpened] using h')).2.2 hr
    · exact hs.removed (show s.opened sec' = some o' by simpa [FS.setOpened, he] using h') hr

/-- `inode_open` returns the one open inode of its sector, counted once more. -/
theorem inodeOpen_spec {s : FS} {sec : Sector} {ino : Inode} (hs : OpenOk s)
    (hi : s.inodes sec = some ino) :
    Yields (inodeOpen sec) s fun p s' => Opens s s' ∧ p.sector = sec ∧ Held s' p ∧
      (∀ sec' ≠ sec, s'.opened sec' = s.opened sec') ∧
      ∀ o, s.opened sec = some o →
        s'.opened sec = some { o with openCnt := o.openCnt + 1 } ∧ o.gen = p.gen := by
  refine .bind (.get ?_)
  rcases h : s.opened sec with _ | o
  · refine .bind (.deref hi (.bind (.set (.pure ⟨⟨rfl, ?_⟩, rfl, ?_, ?_, ?_⟩))))
    · have hok : OpenOk (s.setOpened sec (some ⟨s.nextGen, 1, false⟩)) :=
        hs.setOpened fun o' ho => by
          obtain rfl := by simpa using ho
          exact ⟨le_rfl, ⟨ino, hi⟩, by simp⟩
      exact ⟨hok.cnt, hok.inode, hok.removed⟩
    · exact ⟨⟨s.nextGen, 1, false⟩, by simp, rfl⟩
    · intro sec' hne
      simp [hne]
    · simp
  · refine .bind (.set (.pure ⟨⟨rfl, ?_⟩, rfl, ?_, ?_, ?_⟩))
    · refine hs.setOpened fun o' ho => ?_
      obtain rfl := by simpa using ho
      exact ⟨by have := hs.cnt h; simp only; omega, ⟨ino, hi⟩, fun hr => hs.removed h hr⟩
    · exact ⟨{ o with openCnt := o.openCnt + 1 }, by simp [FS.setOpened], rfl⟩
    · intro sec' hne
      simp [FS.setOpened, hne]
    · intro o' ho
      obtain rfl := by simpa using ho
      exact ⟨by simp [FS.setOpened], rfl⟩

/-- `inode_reopen`. -/
theorem inodeReopen_spec {s : FS} {p : InodePtr} {o : OpenInode} (hs : OpenOk s)
    (ho : s.opened p.sector = some o) (hg : o.gen = p.gen) :
    Yields (inodeReopen p) s fun q s' => Opens s s' ∧ p = q ∧ Held s' p ∧
      s'.opened = Function.update s.opened p.sector
        (some { o with openCnt := o.openCnt + 1 }) := by
  refine .bind (inodeAt_spec ho hg ?_)
  refine .bind (.modify (.pure ⟨⟨rfl, ?_⟩, rfl, ?_, rfl⟩))
  · refine hs.setOpened fun o' ho' => ?_
    obtain rfl := by simpa using ho'
    exact ⟨by have := hs.cnt ho; simp only; omega, hs.inode ho, fun hr => hs.removed ho hr⟩
  · exact ⟨{ o with openCnt := o.openCnt + 1 }, by simp [FS.setOpened], hg⟩

/-- `inode_close` of an inode that was not removed only counts it down. -/
theorem inodeClose_spec {s : FS} {p : InodePtr} {o : OpenInode} (hs : OpenOk s)
    (ho : s.opened p.sector = some o) (hg : o.gen = p.gen) (hr : o.removed = false) :
    Yields (inodeClose p) s fun _ s' => Opens s s' ∧
      s'.opened = Function.update s.opened p.sector
        (if o.openCnt = 1 then none else some { o with openCnt := o.openCnt - 1 }) := by
  refine .bind (inodeAt_spec ho hg ?_)
  have hc := hs.cnt ho
  by_cases h1 : o.openCnt = 1
  · rw [if_pos (by omega), if_pos h1, hr]
    refine .bind (.modify (.pure ⟨⟨rfl, ?_⟩, rfl⟩))
    exact hs.setOpened fun o' ho' => by simp at ho'
  · rw [if_neg (by omega), if_neg h1]
    refine .modify ⟨⟨rfl, ?_⟩, rfl⟩
    refine hs.setOpened fun o' ho' => ?_
    obtain rfl := by simpa using ho'
    exact ⟨by simp only; omega, hs.inode ho, fun hr => hs.removed ho hr⟩

end Pintos.Filesys.DirState
