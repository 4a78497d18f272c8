import Pintos.Filesys.CacheTransparency
import Pintos.Filesys.Calls

/-! # Releasing dir_lock

Five functions of directory.c take `dir_lock`. Each gives it back before it returns, but for `dir_add`, whose
early return for an invalid name keeps it. A call of the file system is a sequence of calls of these functions
with steps between them that leave the lock alone; so as long as no `dir_add` gets an invalid name, every one
of them finds the lock free. -/

namespace Pintos.Filesys.DirLock

open Pintos.Lib.Ops Pintos.Lib.Runs
open Pintos.Filesys.Path Pintos.Filesys.DentryCache Pintos.Filesys.DirState
open Pintos.Filesys.Directory Pintos.Filesys.Calls

/-! ### dir_readdir -/

/-- The loop of `dir_readdir` over the slots that are left: the name it finds, and `dir->pos` after it. -/
def nextEntry : (pos : ℕ) → List DirEntry → Option CStr × ℕ
  | pos, [] => (none, pos)
  | pos, e :: es => if e.inUse then (some e.name, pos + 1) else nextEntry (pos + 1) es

/-- `dir_readdir`: the name and the handle with its new position. -/
def dirReaddir (pid : Pid) (dir : Dir) : Op FS (Option CStr × Dir) := do
  dirLockAcquire pid
  let entries ← dirEntries dir
  let found := nextEntry dir.pos (entries.drop dir.pos)
  dirLockRelease pid
  return (found.1, { dir with pos := found.2 })

/-- `sys_readdir` of an open directory. -/
def sysReaddir (pid : Pid) (dir : Dir) : Op FS Unit := do
  let s ← get
  assert (UserFile.dir dir ∈ s.userFiles)
  let found ← dirReaddir pid dir
  modify fun s => { s with userFiles := .dir found.2 :: s.userFiles.erase (.dir dir) }

/-! ### The functions that take the lock -/

/-- A call of a function that takes `dir_lock`. -/
inductive DirCall
  | add (dir : Dir) (cpath : CanonPath) (name : CStr) (inodeSector : Sector) (isDir room : Bool)
  | remove (dir : Dir) (name : CStr)
  | lookup (dir : Dir) (path : CStr)
  | readdir (dir : Dir)
  | openCanonPath (cpath : CanonPath) (isDir : Bool)

/-- The call by the thread `pid`. -/
def DirCall.run (pid : Pid) : DirCall → Op FS Unit
  | .add dir cpath name inodeSector isDir room => do
    let _ ← dirAdd pid dir cpath name inodeSector isDir room
  | .remove dir name => do
    let _ ← dirRemove pid dir name
  | .lookup dir path => do
    let _ ← dirLookup pid dir path
  | .readdir dir => do
    let _ ← dirReaddir pid dir
  | .openCanonPath cpath isDir => do
    let _ ← dirOpenCanonPath pid cpath isDir

/-- The name of a `dir_add` is valid. -/
def DirCall.NameOk : DirCall → Prop
  | .add _ _ name _ _ _ => name ≠ [] ∧ name.length ≤ nameMax
  | _ => True

/-- A step of the file system: a call of a function that takes the lock, or anything else. -/
inductive Event
  | call (pid : Pid) (c : DirCall)
  | other

/-- The event `e` may take `s` to `s'`; other steps do not touch the lock. -/
def EventStep (s : FS) : Event → FS → Prop
  | .call pid c, s' => c.run pid s = some ((), s')
  | .other, s' => s'.dirLock = s.dirLock

/-- An event at which the lock is free and, in a `dir_add`, the name valid. -/
def FreeStep (s : FS) (e : Event) (s' : FS) : Prop :=
  s.dirLock = none ∧ (∀ pid c, e = .call pid c → c.NameOk) ∧ EventStep s e s'

/-! ### What leaves the lock alone -/

/-- The operation leaves the lock as it is. -/
def Neutral {α : Type} (m : Op FS α) : Prop := ∀ s, Ensures m s fun _ s' => s'.dirLock = s.dirLock

section Neutral

variable {α β : Type}

theorem Neutral.bind {m : Op FS α} {f : α → Op FS β} (hm : Neutral m) (hf : ∀ a, Neutral (f a)) :
    Neutral (m >>= f) := fun s =>
  .bind ((hm s).mono fun a s1 h1 => (hf a s1).mono fun _ _ h2 => h2.trans h1)

theorem Neutral.pure {a : α} : Neutral (pure a : Op FS α) := fun _ => .pure rfl

theorem Neutral.halt : Neutral (halt : Op FS α) := fun _ => .halt

theorem Neutral.get : Neutral (get : Op FS FS) := fun _ => .get rfl

theorem Neutral.modify {f : FS → FS} (h : ∀ s, (f s).dirLock = s.dirLock) :
    Neutral (modify f : Op FS PUnit) := fun s => .modify (h s)

theorem Neutral.assert {b : Bool} : Neutral (Pintos.Lib.Ops.assert b : Op FS Unit) :=
  fun _ => .assert fun _ => rfl

theorem Neutral.deref {o : Option α} : Neutral (Pintos.Lib.Ops.deref o : Op FS α) :=
  fun _ => .deref fun _ _ => rfl

theorem Neutral.ite {c : Prop} [Decidable c] {m n : Op FS α} (h1 : Neutral m) (h2 : Neutral n) :
    Neutral (if c then m else n) := by
  split_ifs
  · exact h1
  · exact h2

theorem neutral_inodeAt (p : InodePtr) : Neutral (inodeAt p) := .bind .get fun _ => .deref

theorem neutral_inodeData (p : InodePtr) : Neutral (inodeData p) :=
  .bind (neutral_inodeAt p) fun _ => .bind .get fun _ => .deref

theorem neutral_inodeOpen (sector : Sector) : Neutral (inodeOpen sector) := by
  intro s
  refine .bind (.get ?_)
  rcases s.opened sector with _ | o
  · exact .bind (.deref fun _ _ => .bind (.set (.pure rfl)))
  · exact .bind (.set (.pure rfl))

theorem neutral_inodeReopen (p : InodePtr) : Neutral (inodeReopen p) :=
  .bind (neutral_inodeAt p) fun _ => .bind (.modify fun _ => rfl) fun _ => .pure

theorem neutral_inodeClose (p : InodePtr) : Neutral (inodeClose p) := by
  refine .bind (neutral_inodeAt p) fun o => .ite (.bind (.modify fun _ => rfl) fun _ => ?_) ?_
  · exact .ite (.modify fun _ => rfl) .pure
  · exact .modify fun _ => rfl

theorem neutral_inodeRemove (p : InodePtr) : Neutral (inodeRemove p) :=
  .bind (neutral_inodeAt p) fun _ => .modify fun _ => rfl

theorem neutral_inodeGetInumber (p : InodePtr) : Neutral (inodeGetInumber p) :=
  .bind (neutral_inodeAt p) fun _ => .pure

theorem neutral_inodeIsDirectory (p : InodePtr) : Neutral (inodeIsDirectory p) := by
  refine .bind .get fun s => ?_
  rcases s.openInode p with _ | o
  · exact .pure
  · rcases s.inodes p.sector with _ | ino <;> exact .pure

theorem neutral_dirOpen (p : InodePtr) : Neutral (dirOpen p) :=
  .bind (neutral_inodeIsDirectory p) fun _ => .bind .assert fun _ => .pure

theorem neutral_dirGetParent (d : Dir) : Neutral (dirGetParent d) :=
  .bind (.bind (neutral_inodeData _) fun _ => .pure) fun _ =>
    .bind (neutral_inodeOpen _) fun _ => neutral_dirOpen _

theorem neutral_dirEntries (d : Dir) : Neutral (dirEntries d) := by
  refine .bind (neutral_inodeData _) fun ino => ?_
  rcases ino with p | ⟨p, es⟩
  · exact .halt
  · exact .pure

theorem neutral_lookup (d : Dir) (path : CStr) : Neutral (Directory.lookup d path) :=
  .bind (neutral_dirEntries d) fun _ => .pure

theorem neutral_writeEntry (d : Dir) (ofs : ℕ) (e : DirEntry) (room : Bool) :
    Neutral (writeEntry d ofs e room) := by
  refine .bind (neutral_inodeData _) fun ino => ?_
  rcases ino with p | ⟨p, es⟩
  · exact .halt
  · refine .ite (.bind (.modify fun _ => rfl) fun _ => .pure) (.ite ?_ .pure)
    exact .bind (.modify fun _ => rfl) fun _ => .pure

theorem neutral_cacheAppend (cpath : CanonPath) (level : ℕ) (i : Sector) :
    Neutral (cacheAppend cpath level i) := .modify fun _ => rfl

theorem neutral_walkLoop (cpath : CanonPath) : ∀ (n i : ℕ) (current : Dir),
    Neutral (walkLoop cpath n i current)
  | 0, _, _ => .pure
  | n + 1, i, current => by
    refine .bind .deref fun token => .ite ?_ ?_
    · exact .bind (neutral_dirGetParent current) fun parent =>
        .bind (neutral_inodeClose _) fun _ => neutral_walkLoop cpath n (i + 1) parent
    · refine .bind (neutral_lookup current token) fun r => ?_
      rcases r with _ | ⟨e, k⟩
      · exact .pure
      refine .bind (neutral_inodeClose _) fun _ => .bind (neutral_inodeOpen _) fun inode => ?_
      refine .bind (neutral_inodeIsDirectory inode) fun b => .ite ?_ .pure
      exact .bind (neutral_dirOpen inode) fun next => neutral_walkLoop cpath n (i + 1) next

theorem neutral_cacheWalk (cpath : CanonPath) (isDir : Bool) (r : Option Dir) :
    Neutral (cacheWalk cpath isDir r) := by
  rcases r with _ | current
  · exact .pure
  refine .ite (.ite ?_ ?_) .pure
  · exact .bind (neutral_inodeGetInumber _) fun _ => .bind (neutral_cacheAppend _ _ _) fun _ =>
      .bind (neutral_dirGetParent _) fun _ => .bind (neutral_inodeGetInumber _) fun _ =>
        neutral_cacheAppend _ _ _
  · exact .bind (neutral_inodeGetInumber _) fun _ => neutral_cacheAppend _ _ _

theorem neutral_dirOpenRoot : Neutral dirOpenRoot :=
  .bind (neutral_inodeOpen _) fun _ => neutral_dirOpen _

theorem neutral_dirReopen (d : Dir) : Neutral (dirReopen d) :=
  .bind (neutral_inodeReopen _) fun _ => neutral_dirOpen _

theorem neutral_walkStart (pid : Pid) (cpath : CanonPath) : Neutral (walkStart pid cpath) := by
  refine .ite neutral_dirOpenRoot (.bind .get fun s => ?_)
  rcases s.cwd pid with _ | cwd
  · exact neutral_dirOpenRoot
  · exact neutral_dirReopen cwd

theorem neutral_openCanonPath (pid : Pid) (cpath : CanonPath) (isDir : Bool) :
    Neutral (openCanonPath pid cpath isDir) := by
  refine .bind .get fun s => ?_
  rcases (if cpath.isAbsolute then cacheQuery s.dentryCache cpath isDir else none) with _ | inumber
  · exact .bind (neutral_walkStart pid cpath) fun start =>
      .bind (neutral_walkLoop cpath _ 0 start) fun current =>
        .bind (neutral_cacheWalk cpath isDir current) fun _ => .pure
  · exact .bind (neutral_inodeOpen _) fun _ => .bind (neutral_dirOpen _) fun _ => .pure

theorem neutral_addEntry (d : Dir) (cpath : CanonPath) (name : CStr) (i : Sector) (isDir room : Bool) :
    Neutral (addEntry d cpath name i isDir room) := by
  refine .bind (neutral_dirEntries d) fun es => .bind (neutral_writeEntry _ _ _ _) fun success => ?_
  have hrest : Neutral (do
      let inumber ← inodeGetInumber d.inode
      cacheAppend cpath 1 inumber
      return success) :=
    .bind (neutral_inodeGetInumber _) fun _ => .bind (neutral_cacheAppend _ _ _) fun _ => .pure
  cases isDir with
  | false => exact hrest
  | true => exact .bind (neutral_cacheAppend _ _ _) fun _ => hrest

theorem neutral_removable (inode : InodePtr) : Neutral (removable inode) := by
  refine .bind (neutral_inodeIsDirectory inode) fun b => .ite ?_ .pure
  exact .bind (neutral_inodeReopen inode) fun _ => .bind (neutral_dirOpen _) fun victim =>
    .bind (neutral_inodeGetInumber inode) fun _ => .bind (neutral_dirEntries victim) fun _ =>
      .bind (.bind (neutral_inodeAt inode) fun _ => .pure) fun _ =>
        .bind (neutral_inodeClose _) fun _ => .pure

end Neutral

/-! ### The lock is given back -/

/-- Run with the lock held, the operation returns with the lock free. -/
def Releases {α : Type} (pid : Pid) (m : Op FS α) : Prop :=
  ∀ s, s.dirLock = some pid → Ensures m s fun _ s' => s'.dirLock = none

/-- Run with the lock free, the operation returns with the lock free. -/
def Balanced {α : Type} (m : Op FS α) : Prop :=
  ∀ s, s.dirLock = none → Ensures m s fun _ s' => s'.dirLock = none

section Releases

variable {α β : Type} {pid : Pid}

theorem Releases.bind {m : Op FS α} {f : α → Op FS β} (hm : Neutral m)
    (hf : ∀ a, Releases pid (f a)) : Releases pid (m >>= f) := fun s hs =>
  .bind ((hm s).mono fun a s1 h1 => hf a s1 (h1.trans hs))

/-- The end of every path through the functions below. -/
theorem releases_return (a : α) : Releases pid (do dirLockRelease pid; return a) := fun _ _ =>
  .bind (.bind (.get (.bind (.assert fun _ => .set (.pure rfl)))))

theorem balanced_of_releases {m : Op FS α} (hm : Releases pid m) :
    Balanced (do dirLockAcquire pid; m) := fun _ _ =>
  .bind (.bind (.get (.bind (.assert fun _ => .set (hm _ rfl)))))

theorem Neutral.balanced {m : Op FS α} (hm : Neutral m) : Balanced m := fun s hs =>
  (hm s).mono fun _ _ h => h.trans hs

theorem balanced_dirOpenCanonPath (cpath : CanonPath) (isDir : Bool) :
    Balanced (dirOpenCanonPath pid cpath isDir) :=
  balanced_of_releases (.bind (neutral_openCanonPath pid cpath isDir) fun _ => releases_return _)

theorem balanced_dirLookup (dir : Dir) (path : CStr) : Balanced (dirLookup pid dir path) := by
  refine balanced_of_releases (.bind (neutral_lookup dir path) fun r => ?_)
  rcases r with _ | ⟨e, k⟩
  · exact releases_return _
  · exact .bind (neutral_inodeOpen _) fun _ => releases_return _

theorem balanced_dirReaddir (dir : Dir) : Balanced (dirReaddir pid dir) :=
  balanced_of_releases (.bind (neutral_dirEntries dir) fun _ => releases_return _)

theorem balanced_dirRemove (dir : Dir) (name : CStr) : Balanced (dirRemove pid dir name) := by
  refine balanced_of_releases (.bind (neutral_lookup dir name) fun r => ?_)
  rcases r with _ | ⟨e, ofs⟩
  · exact releases_return _
  refine .bind (neutral_inodeOpen _) fun inode => .bind (neutral_removable inode) fun b => ?_
  cases b with
  | false => exact .bind (neutral_inodeClose _) fun _ => releases_return _
  | true =>
    exact .bind (neutral_inodeGetInumber _) fun _ => .bind (.modify fun _ => rfl) fun _ =>
      .bind (neutral_writeEntry _ _ _ _) fun _ => .bind (neutral_inodeRemove _) fun _ =>
        .bind (neutral_inodeClose _) fun _ => releases_return _

theorem balanced_dirAdd {dir : Dir} {cpath : CanonPath} {name : CStr} {i : Sector}
    {isDir room : Bool} (hname : name ≠ [] ∧ name.length ≤ nameMax) :
    Balanced (dirAdd pid dir cpath name i isDir room) := by
  refine balanced_of_releases ?_
  rw [if_neg (by rw [not_or]; exact ⟨hname.1, by omega⟩)]
  refine .bind (neutral_lookup dir name) fun r => ?_
  rcases r with _ | e
  · exact .bind (neutral_addEntry dir cpath name i isDir room) fun _ => releases_return _
  · exact releases_return _

/-- **The early return** of `dir_add` keeps the lock. -/
theorem dirAdd_invalid {s : FS} (hs : s.dirLock = none) (dir : Dir) (cpath : CanonPath) {name : CStr}
    (i : Sector) (isDir room : Bool) (hname : ¬(name ≠ [] ∧ name.length ≤ nameMax)) :
    dirAdd pid dir cpath name i isDir room s = some (false, { s with dirLock := some pid }) := by
  have hbad : name = [] ∨ nameMax < name.length := by
    by_contra h
    rw [not_or] at h
    exact hname ⟨h.1, by omega⟩
  have hlock : dirLockAcquire pid s = some ((), { s with dirLock := some pid }) := by
    show (Pintos.Lib.Ops.assert s.dirLock.isNone >>= fun _ => set { s with dirLock := some pid }) s = _
    rw [hs]
    rfl
  unfold dirAdd
  rw [if_pos hbad, bind_apply, hlock]
  rfl

theorem balanced_call {c : DirCall} (hc : c.NameOk) : Balanced (c.run pid) := fun s hs => by
  cases c with
  | add dir cpath name i isDir room =>
    exact .bind ((balanced_dirAdd hc s hs).mono fun _ _ h => .pure h)
  | remove dir name => exact .bind ((balanced_dirRemove dir name s hs).mono fun _ _ h => .pure h)
  | lookup dir path => exact .bind ((balanced_dirLookup dir path s hs).mono fun _ _ h => .pure h)
  | readdir dir => exact .bind ((balanced_dirReaddir dir s hs).mono fun _ _ h => .pure h)
  | openCanonPath cpath isDir =>
    exact .bind ((balanced_dirOpenCanonPath cpath isDir s hs).mono fun _ _ h => .pure h)

/-- **One call** returns with the lock released exactly if it is no `dir_add` of an invalid name. -/
theorem call_releases_iff {s : FS} (hs : s.dirLock = none) (pid : Pid) (c : DirCall) :
    (∀ s', c.run pid s = some ((), s') → s'.dirLock ≠ some pid) ↔ c.NameOk := by
  constructor
  · intro h
    by_contra hc
    cases c with
    | add dir cpath name i isDir room =>
      refine h { s with dirLock := some pid } ?_ rfl
      show (dirAdd pid dir cpath name i isDir room >>= fun _ => pure ()) s = _
      rw [bind_apply, dirAdd_invalid hs dir cpath i isDir room hc]
      rfl
    | _ => exact hc trivial
  · intro hc s' hs'
    rw [balanced_call hc s hs () s' hs']
    simp

end Releases

/-! ### Whole calls of the file system -/

/-- The operation is a sequence of events, each of which finds the lock free, and leaves it free. -/
def Sequence {α : Type} (m : Op FS α) : Prop := ∀ s, s.dirLock = none →
  Ensures m s fun _ s' => s'.dirLock = none ∧ ∃ es, Run FreeStep s es s'

section Sequence

variable {α β : Type} {pid : Pid}

theorem run_append {s s1 s2 : FS} : ∀ {es fs : List Event}, Run FreeStep s es s1 →
    Run FreeStep s1 fs s2 → Run FreeStep s (es ++ fs) s2
  | _, _, .nil, h => h
  | _, _, .cons he hs, h => .cons he (run_append hs h)

theorem Sequence.bind {m : Op FS α} {f : α → Op FS β} (hm : Sequence m) (hf : ∀ a, Sequence (f a)) :
    Sequence (m >>= f) := fun s hs =>
  .bind ((hm s hs).mono fun a s1 ⟨h1, es, hes⟩ => (hf a s1 h1).mono fun _ _ ⟨h2, fs, hfs⟩ =>
    ⟨h2, es ++ fs, run_append hes hfs⟩)

theorem Neutral.sequence {m : Op FS α} (hm : Neutral m) : Sequence m := fun s hs =>
  (hm s).mono fun _ s' h => ⟨h.trans hs, [.other], .cons ⟨hs, by simp, h⟩ .nil⟩

theorem sequence_modify {f : FS → FS} (h : ∀ s, (f s).dirLock = s.dirLock) :
    Sequence (modify f : Op FS PUnit) := (Neutral.modify h).sequence

/-- What every result of the first part is may be used for the rest. -/
theorem Sequence.bind_of {m : Op FS α} {f : α → Op FS β} {P : α → Prop} (hm : Sequence m)
    (hp : ∀ s, Ensures m s fun a _ => P a) (hf : ∀ a, P a → Sequence (f a)) :
    Sequence (m >>= f) := fun s hs =>
  .bind fun a s1 ha => by
    obtain ⟨h1, es, hes⟩ := hm s hs a s1 ha
    exact (hf a (hp s a s1 ha) s1 h1).mono fun _ _ ⟨h2, fs, hfs⟩ => ⟨h2, es ++ fs, run_append hes hfs⟩

/-- A function that takes the lock is one event. -/
theorem sequence_of_call {m : Op FS α} (c : DirCall) (hrun : c.run pid = do let _ ← m; return ())
    (hc : c.NameOk) : Sequence m := by
  intro s hs a s' hm
  have hcall : c.run pid s = some ((), s') := by
    rw [hrun, bind_apply, hm]
    rfl
  refine ⟨balanced_call hc s hs () s' hcall, [.call pid c], .cons ⟨hs, ?_, hcall⟩ .nil⟩
  rintro _ _ ⟨⟩
  exact hc

theorem Sequence.ite {c : Prop} [Decidable c] {m n : Op FS α} (h1 : c → Sequence m)
    (h2 : ¬c → Sequence n) : Sequence (if c then m else n) := by
  split_ifs with hc
  · exact h1 hc
  · exact h2 hc

theorem sequence_dirOpenCanonPath (pid : Pid) (cpath : CanonPath) (isDir : Bool) :
    Sequence (dirOpenCanonPath pid cpath isDir) :=
  sequence_of_call (.openCanonPath cpath isDir) rfl trivial

theorem sequence_close (d : Dir) (a : α) : Sequence (do dirClose d; return a) :=
  (Neutral.bind (neutral_inodeClose _) fun _ => .pure).sequence

end Sequence

/-- A call of the file system, with `readdir`. -/
inductive FsAction
  | call (a : Action)
  | readdir (pid : Pid) (dir : Dir)

def FsAction.run : FsAction → Op FS Unit
  | .call a => a.run
  | .readdir pid dir => sysReaddir pid dir

def FsStep (s : FS) (a : FsAction) (s' : FS) : Prop := a.run s = some ((), s')

/-- No `filesys_create` gets as far as `dir_add` with a leaf that is too long. -/
def FsOk (_ : FS) : FsAction → Prop
  | .call (.create _ path _ _ room) => ∀ cpath name, pathCanonicalize path = some cpath →
      cpath.getLeaf = some name → room.sector ≠ none → room.inode = true → name.length ≤ nameMax
  | _ => True

theorem sequence_filesysOpen (pid : Pid) (path : CStr) (allowDir : Bool) :
    Sequence (filesysOpen pid path allowDir) := by
  have hpure : ∀ r : Option UserFile, Sequence (pure r : Op FS (Option UserFile)) :=
    fun _ => Neutral.pure.sequence
  have hfound : ∀ inode, Sequence (openFound inode allowDir) := fun inode =>
    (Neutral.bind (neutral_inodeIsDirectory inode) fun _ =>
      .ite (.ite (.bind (neutral_dirOpen inode) fun _ => .pure) .pure) .pure).sequence
  unfold filesysOpen
  rcases pathCanonicalize path with _ | cpath
  · exact hpure none
  refine .ite (fun _ => ?_) fun _ => ?_
  · refine .ite (fun _ => .ite (fun _ => ?_) fun _ => ?_) fun _ => hpure none
    · exact (Neutral.bind neutral_dirOpenRoot fun _ => .pure).sequence
    · refine Neutral.sequence (.bind .get fun s => ?_)
      rcases s.cwd pid with _ | cwd
      · exact .pure
      · exact .bind (neutral_dirReopen cwd) fun _ => .pure
  · refine .bind Neutral.deref.sequence fun name => .bind (sequence_dirOpenCanonPath _ _ _) fun r => ?_
    rcases r with _ | dir
    · exact hpure none
    have hleaf : Sequence (openLeaf pid cpath dir name) := by
      refine .ite (fun _ => ?_) fun _ => sequence_of_call (.lookup dir name) rfl trivial
      exact .bind (sequence_dirOpenCanonPath _ _ _) fun _ => .bind Neutral.deref.sequence fun _ =>
        sequence_close _ _
    refine .bind hleaf fun q => ?_
    rcases q with _ | inode
    · exact hpure none
    · exact .bind (neutral_inodeClose _).sequence fun _ => hfound inode

theorem sequence_filesysRemove (pid : Pid) (path : CStr) : Sequence (filesysRemove pid path) := by
  have hpure : ∀ b : Bool, Sequence (pure b : Op FS Bool) := fun _ => Neutral.pure.sequence
  unfold filesysRemove
  rcases pathCanonicalize path with _ | cpath
  · exact hpure false
  refine .ite (fun _ => hpure false) fun _ => ?_
  refine .bind Neutral.deref.sequence fun name => .bind (sequence_dirOpenCanonPath _ _ _) fun r => ?_
  rcases r with _ | dir
  · exact hpure false
  · exact .bind (sequence_of_call (.remove dir name) rfl trivial) fun _ => sequence_close _ _

theorem sequence_sysChdir (pid : Pid) (path : CStr) : Sequence (sysChdir pid path) := by
  have hpure : ∀ b : Bool, Sequence (pure b : Op FS Bool) := fun _ => Neutral.pure.sequence
  unfold sysChdir
  rcases pathCanonicalize path with _ | cpath
  · exact hpure false
  refine .bind Neutral.get.sequence fun s => .bind Neutral.deref.sequence fun oldDir => ?_
  refine .bind (sequence_dirOpenCanonPath _ _ _) fun r => ?_
  rcases r with _ | dir
  · exact hpure false
  · have hcwd : Neutral (modify fun s : FS => { s with cwd := Function.update s.cwd pid (some dir) }) :=
      .modify fun _ => rfl
    exact .bind hcwd.sequence fun _ => sequence_close _ _

/-- The end of `filesys_create`. -/
theorem neutral_createEnd (i : Sector) (dir : Dir) (success : Bool) :
    Neutral (do
      if !success then freeMapRelease i
      dirClose dir
      return success) := by
  cases success with
  | false => exact .bind (.modify fun _ => rfl) fun _ => .bind (neutral_inodeClose _) fun _ => .pure
  | true => exact .bind (neutral_inodeClose _) fun _ => .pure

theorem neutral_inodeCreate (i : Sector) (length : ℤ) (ino : Inode) (room : Bool) :
    Neutral (inodeCreate i length ino room) :=
  .bind .assert fun _ => .ite (.bind (.modify fun _ => rfl) fun _ => .pure) .pure

theorem leaf_ne_nil {cpath : CanonPath} {name : CStr} (h : cpath.getLeaf = some name) : name ≠ [] :=
  (cpath.canonical.isToken name (List.mem_of_getElem? h)).1

theorem tokensCnt_ne_zero {cpath : CanonPath} {name : CStr} (h : cpath.getLeaf = some name) :
    cpath.tokensCnt ≠ 0 := by
  intro h0
  unfold CanonPath.getLeaf at h
  rw [List.getElem?_eq_none (by unfold CanonPath.tokensCnt at h0; omega)] at h
  cases h

/-- `inode_create` succeeds exactly with room. -/
theorem inodeCreate_ensures (i : Sector) (length : ℤ) (ino : Inode) (room : Bool) (s : FS) :
    Ensures (inodeCreate i length ino room) s fun created s' =>
      created = room ∧ s'.dirLock = s.dirLock := by
  refine .bind (.assert fun _ => ?_)
  cases room with
  | true => exact .bind (.modify (.pure ⟨rfl, rfl⟩))
  | false => exact .pure ⟨rfl, rfl⟩

theorem freeMapAllocate_ensures (found : Option Sector) (s : FS) :
    Ensures (freeMapAllocate found) s fun r s' => r = found ∧ s'.dirLock = s.dirLock := by
  refine .bind (.get ?_)
  rcases found with _ | i
  · exact .pure ⟨rfl, rfl⟩
  · exact .bind (.assert fun _ => .pure ⟨rfl, rfl⟩)

theorem sequence_filesysCreate {s : FS} {pid : Pid} {path : CStr} {initialSize : ℤ} {isDir : Bool}
    {room : Room} (hok : FsOk s (.call (.create pid path initialSize isDir room))) :
    Sequence (filesysCreate pid path initialSize isDir room) := by
  have hpure : ∀ b : Bool, Sequence (pure b : Op FS Bool) := fun _ => Neutral.pure.sequence
  unfold filesysCreate
  rcases hc : pathCanonicalize path with _ | cpath
  · exact hpure false
  refine .ite (fun _ => hpure false) fun hcnt => ?_
  refine .bind_of (P := fun name => cpath.getLeaf = some name) Neutral.deref.sequence
    (fun s => .deref fun _ h => h) fun name hname => ?_
  refine .bind (sequence_dirOpenCanonPath _ _ _) fun opened => .bind Neutral.deref.sequence fun dir => ?_
  refine .bind (neutral_inodeGetInumber _).sequence fun parent => ?_
  have halloc : Neutral (freeMapAllocate room.sector) := fun s =>
    (freeMapAllocate_ensures _ s).mono fun _ _ h => h.2
  refine .bind_of (P := fun r => r = room.sector) halloc.sequence
    (fun s => (freeMapAllocate_ensures _ s).mono fun _ _ h => h.1) fun r hr => ?_
  rcases r with _ | i
  · exact sequence_close _ _
  have hend : ∀ success, Sequence (do
      if !success then freeMapRelease i
      dirClose dir
      return success) := fun success => (neutral_createEnd i dir success).sequence
  -- the new inode, then its entry, for a file and a directory alike
  have hcreate : ∀ length ino, Sequence (do
      let created ← inodeCreate i length ino room.inode
      let success ← if created then dirAdd pid dir cpath name i isDir room.entry else pure false
      if !success then freeMapRelease i
      dirClose dir
      return success) := by
    intro length ino
    refine .bind_of (P := fun created => created = room.inode) (neutral_inodeCreate _ _ _ _).sequence
      (fun s => (inodeCreate_ensures i length ino room.inode s).mono fun _ _ h => h.1)
      fun created hcreated => .ite (fun hb => ?_) fun _ => ?_
    · have hlen : name.length ≤ nameMax := hok cpath name hc hname (by rw [← hr]; simp)
        (hcreated.symm.trans hb)
      have hcall : Sequence (dirAdd pid dir cpath name i isDir room.entry) :=
        sequence_of_call (.add dir cpath name i isDir room.entry) rfl ⟨leaf_ne_nil hname, hlen⟩
      exact .bind hcall hend
    · exact .bind (hpure false) hend
  cases isDir with
  | true => exact hcreate _ _
  | false => exact hcreate _ _

/-- **A call of the file system** is a sequence of events that find the lock free. -/
theorem sequence_run {s : FS} {a : FsAction} (hok : FsOk s a) : Sequence a.run := by
  rcases a with a | ⟨pid, dir⟩
  · cases a with
    | create pid path initialSize isDir room =>
      exact .bind (sequence_filesysCreate hok) fun _ => Neutral.pure.sequence
    | «open» pid path allowDir =>
      refine .bind (sequence_filesysOpen pid path allowDir) fun r => ?_
      rcases r with _ | uf
      · exact Neutral.pure.sequence
      · exact sequence_modify fun _ => rfl
    | remove pid path => exact .bind (sequence_filesysRemove pid path) fun _ => Neutral.pure.sequence
    | chdir pid path => exact .bind (sequence_sysChdir pid path) fun _ => Neutral.pure.sequence
    | close uf =>
      intro t ht
      refine .bind (.get (.bind (.assert fun _ => .bind (.set ?_))))
      refine ((neutral_inodeClose _).balanced _ ?_).mono fun _ s' h' => ?_
      · exact ht
      · exact ⟨h', [.other], .cons ⟨ht, by simp, h'.trans ht.symm⟩ .nil⟩
  · refine .bind Neutral.get.sequence fun t => .bind Neutral.assert.sequence fun _ => ?_
    refine .bind (sequence_of_call (.readdir dir) rfl trivial) fun found => ?_
    exact sequence_modify fun _ => rfl

/-- A `filesys_create` that gets to `dir_add` with a leaf that is too long returns with the lock held. -/
theorem filesysCreate_held {s : FS} (hs : s.dirLock = none) {pid : Pid} {path : CStr}
    {initialSize : ℤ} {isDir : Bool} {room : Room} {cpath : CanonPath} {name : CStr}
    (hc : pathCanonicalize path = some cpath) (hname : cpath.getLeaf = some name)
    (hsector : room.sector ≠ none) (hinode : room.inode = true) (hlen : nameMax < name.length) :
    Ensures (filesysCreate pid path initialSize isDir room) s fun _ s' => s'.dirLock = some pid := by
  unfold filesysCreate
  rw [hc]
  dsimp only
  rw [if_neg (tokensCnt_ne_zero hname)]
  refine .bind (.deref fun name' hname' => ?_)
  obtain rfl : name = name' := Option.some.inj (hname.symm.trans hname')
  refine .bind ((balanced_dirOpenCanonPath cpath false s hs).mono fun opened s1 h1 => ?_)
  refine .bind (.deref fun dir _ => .bind ((neutral_inodeGetInumber _ s1).mono fun parent s2 h2 => ?_))
  refine .bind ((freeMapAllocate_ensures _ s2).mono fun r s3 h3 => ?_)
  have h3none : s3.dirLock = none := h3.2.trans (h2.trans h1)
  rcases r with _ | i
  · exact absurd h3.1.symm hsector
  have hcreate : ∀ length ino, Ensures (do
      let created ← inodeCreate i length ino room.inode
      let success ← if created then dirAdd pid dir cpath name i isDir room.entry else pure false
      if !success then freeMapRelease i
      dirClose dir
      return success) s3 fun _ s' => s'.dirLock = some pid := by
    intro length ino
    refine .bind ((inodeCreate_ensures i length ino room.inode s3).mono fun created s4 h4 => ?_)
    rw [h4.1, hinode]
    have hinvalid : dirAdd pid dir cpath name i isDir room.entry s4 =
        some (false, { s4 with dirLock := some pid }) :=
      dirAdd_invalid (h4.2.trans h3none) dir cpath i isDir room.entry fun h => by omega
    refine .bind fun success s5 h5 => ?_
    obtain rfl : { s4 with dirLock := some pid } = s5 :=
      (Prod.mk.inj (Option.some.inj (hinvalid.symm.trans h5))).2
    exact (neutral_createEnd i dir success _).mono fun _ _ h => h
  cases isDir with
  | true => exact hcreate _ _
  | false => exact hcreate _ _

/-- The lock is free after a call exactly if the call is `FsOk`. -/
theorem step_free_iff {s s' : FS} {a : FsAction} (hs : s.dirLock = none) (hstep : FsStep s a s') :
    s'.dirLock = none ↔ FsOk s a := by
  constructor
  · intro hfree
    by_contra hok
    rcases a with a | ⟨pid, dir⟩
    · cases a with
      | create pid path initialSize isDir room =>
        have hbad : ∃ cpath name, pathCanonicalize path = some cpath ∧ cpath.getLeaf = some name ∧
            room.sector ≠ none ∧ room.inode = true ∧ nameMax < name.length := by
          simpa [FsOk] using hok
        obtain ⟨cpath, name, hc, hname, hsector, hinode, hlen⟩ := hbad
        have hheld : Ensures (FsAction.call (.create pid path initialSize isDir room)).run s
            fun _ t => t.dirLock = some pid :=
          .bind ((filesysCreate_held hs hc hname hsector hinode hlen).mono fun _ _ h => .pure h)
        rw [hheld () s' hstep] at hfree
        cases hfree
      | _ => exact hok trivial
    · exact hok trivial
  · exact fun hok => (sequence_run hok s hs () s' hstep).1

/-- **When dir_lock is released.** A function that takes the lock returns with the lock released exactly if it
is no `dir_add` of an invalid name. In every run of calls that are `FsOk`, the lock is free after every call,
and every further call that is `FsOk` takes it only while it is free; a call that is not leaves it held. -/
theorem dirLock_released (s : FS) :
    (∀ (pid : Pid) (c : DirCall), s.dirLock = none →
      ((∀ s', c.run pid s = some ((), s') → s'.dirLock ≠ some pid) ↔ c.NameOk)) ∧
    (Reachable (fun s => s.dirLock = none) (Guarded FsOk FsStep) s →
      s.dirLock = none ∧ ∀ a s', FsStep s a s' →
        (s'.dirLock = none ↔ FsOk s a) ∧ (FsOk s a → ∃ es, Run FreeStep s es s')) := by
  refine ⟨fun pid c hs => call_releases_iff hs pid c, fun hs => ?_⟩
  have hinv : Invariant (fun s : FS => s.dirLock = none) (Guarded FsOk FsStep)
      fun s => s.dirLock = none :=
    ⟨fun h => h, fun h hr => (step_free_iff h hr.2).mpr hr.1⟩
  have hfree : s.dirLock = none := hs.of_invariant hinv
  exact ⟨hfree, fun a s' hstep => ⟨step_free_iff hfree hstep,
    fun hok => (sequence_run hok s hfree () s' hstep).2⟩⟩

/-- After making the file "/c" the lock is free. -/
theorem dirLock_released_create :
    ∃ s', FsStep CacheTransparency.abState (.call (.create 0 ['/', 'c'] 0 false ⟨some 4, true, true⟩)) s' ∧
      s'.dirLock = none := by
  have hrun : ((FsAction.call (.create 0 ['/', 'c'] 0 false ⟨some 4, true, true⟩)).run
      CacheTransparency.abState).isSome = true := by decide
  obtain ⟨⟨⟨⟩, s'⟩, hs'⟩ := Option.isSome_iff_exists.mp hrun
  refine ⟨s', hs', ((((dirLock_released CacheTransparency.abState).2 (.start rfl)).2 _ s' hs').1).mpr ?_⟩
  intro cpath name hc hname _ _
  obtain rfl : canonOf true ['c'] = cpath := Option.some.inj hc
  obtain rfl : ['c'] = name := Option.some.inj hname
  decide

/-- The file "/aaaaaaaaaaaaaaa", whose name has 15 letters. -/
def createLong : FsAction :=
  .call (.create 0 ('/' :: List.replicate 15 'a') 0 false ⟨some 4, true, true⟩)

/-- **The slip**: after that call the thread still holds the lock. -/
theorem not_dirLock_released :
    ¬∀ s : FS, Reachable (fun s => s.dirLock = none) FsStep s → ∀ pid, s.dirLock ≠ some pid := by
  intro h
  have hrun : (createLong.run CacheTransparency.abState).map (fun r => r.2.dirLock) = some (some 0) := by
    decide +kernel
  obtain ⟨⟨⟨⟩, s'⟩, hs', hlock⟩ := Option.map_eq_some_iff.mp hrun
  exact h s' (.step (.start rfl) hs') 0 hlock

end Pintos.Filesys.DirLock
