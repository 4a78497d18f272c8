import Pintos.Filesys.DirState

/-! # Directories (filesys/directory.c)

The functions of directory.c on the state of `DirState`. A slot `k` of a directory stands at byte offset
`20 k` of its inode. `dir_open_canon_path` asks the dentry cache first and else walks the tokens, starting
at the root or at the current directory; where the walk fails, the last directory stays open, and the
parent opened for the cache stays open too. -/

namespace Pintos.Filesys.Directory

open Pintos.Lib.Ops
open Pintos.Filesys.Path Pintos.Filesys.DentryCache Pintos.Filesys.DirState

/-! ### Slots of a directory -/

/-- The loop of `lookup`, from slot `ofs` on. -/
def lookupFrom (path : CStr) : ℕ → List DirEntry → Option (DirEntry × ℕ)
  | _, [] => none
  | ofs, e :: es => if e.inUse ∧ path = e.name then some (e, ofs) else lookupFrom path (ofs + 1) es

/-- `lookup_any`. -/
def lookupAny : List DirEntry → Bool
  | [] => false
  | e :: es => if e.inUse then true else lookupAny es

/-- The loop of `dir_add` that looks for a free slot, from slot `ofs` on; the end of the file if there
is none. -/
def freeSlotFrom : ℕ → List DirEntry → ℕ
  | ofs, [] => ofs
  | ofs, e :: es => if ¬e.inUse then ofs else freeSlotFrom (ofs + 1) es

/-- An entry as `inode_create` leaves it in a new directory: all bytes zero. -/
def zeroEntry : DirEntry := ⟨0, [], false⟩

/-- `dir_create`; `room` says whether the free map has the data sector. -/
def dirCreate (sector : Sector) (entryCnt : ℕ) (parentSector : Sector) (room : Bool) : Op FS Bool :=
  inodeCreate sector (entryCnt * 20) (.dir parentSector (List.replicate entryCnt zeroEntry)) room

/-! ### Opening and closing -/

/-- `dir_open`. -/
def dirOpen (inode : InodePtr) : Op FS Dir := do
  let isDir ← inodeIsDirectory inode
  assert isDir
  return ⟨inode, 0⟩

/-- `dir_open_root`. -/
def dirOpenRoot : Op FS Dir := do
  let inode ← inodeOpen rootDirSector
  dirOpen inode

/-- `dir_reopen`. -/
def dirReopen (dir : Dir) : Op FS Dir := do
  let inode ← inodeReopen dir.inode
  dirOpen inode

/-- `dir_close`. -/
def dirClose (dir : Dir) : Op FS Unit := inodeClose dir.inode

/-- `dir_get_parent`. -/
def dirGetParent (child : Dir) : Op FS Dir := do
  let parentSector ← inodeGetParentSector child.inode
  let inode ← inodeOpen parentSector
  dirOpen inode

/-- The slots of a directory, as `inode_read_at` returns them one by one. -/
def dirEntries (dir : Dir) : Op FS (List DirEntry) := do
  match ← inodeData dir.inode with
  | .dir _ entries => return entries
  | .file _ => halt

/-- `lookup`. -/
def lookup (dir : Dir) (path : CStr) : Op FS (Option (DirEntry × ℕ)) := do
  let entries ← dirEntries dir
  return lookupFrom path 0 entries

/-- `inode_write_at` of one slot: in place, or at the end of the file if there is `room` to grow. -/
def writeEntry (dir : Dir) (ofs : ℕ) (e : DirEntry) (room : Bool) : Op FS Bool := do
  match ← inodeData dir.inode with
  | .dir parent entries =>
    if ofs < entries.length then
      modify (·.setInode dir.inode.sector (some (.dir parent (entries.set ofs e))))
      return true
    else if room then
      modify (·.setInode dir.inode.sector (some (.dir parent (entries ++ [e]))))
      return true
    else return false
  | .file _ => halt

/-! ### Canonical paths -/

/-- `dentry_cache_append` on the state. -/
def cacheAppend (cpath : CanonPath) (outerLevel : ℕ) (inumber : Sector) : Op FS Unit :=
  modify fun s =>
    { s with dentryCache := (dentryCacheAppend s.dentryCache cpath outerLevel inumber).1 }

/-- The queries of `dir_open_canon_path`: the path itself if a directory is wanted, then its parent. -/
def cacheQuery (cache : Cache) (cpath : CanonPath) (isDir : Bool) : Option Sector :=
  match if isDir then dentryCacheQuery cache cpath 0 else none with
  | some inumber => some inumber
  | none => dentryCacheQuery cache cpath 1

/-- `num_iters`; the subtraction of a `size_t` wraps around. -/
def numIters (cpath : CanonPath) (isDir : Bool) : ℕ :=
  if isDir then cpath.tokensCnt
  else if cpath.tokensCnt = 0 then 2 ^ 32 - 1
  else cpath.tokensCnt - 1

/-- The loop of `dir_open_canon_path`: `n` more tokens from token `i` on. -/
def walkLoop (cpath : CanonPath) : ℕ → ℕ → Dir → Op FS (Option Dir)
  | 0, _, current => return some current
  | n + 1, i, current => do
    let token ← deref (cpath.getToken i)
    if token = dotdot then
      let parent ← dirGetParent current
      dirClose current
      walkLoop cpath n (i + 1) parent
    else
      match ← lookup current token with
      | none => return none
      | some (ep, _) =>
        dirClose current
        let inode ← inodeOpen ep.inodeSector
        if ← inodeIsDirectory inode then
          let next ← dirOpen inode
          walkLoop cpath n (i + 1) next
        else return none

/-- The label `done` of `dir_open_canon_path`: what is stored in the dentry cache. -/
def cacheWalk (cpath : CanonPath) (isDir : Bool) : Option Dir → Op FS Unit
  | none => return
  | some current =>
    if cpath.isAbsolute then
      if isDir then do
        let inumber ← inodeGetInumber current.inode
        cacheAppend cpath 0 inumber
        let parent ← dirGetParent current
        let parentInumber ← inodeGetInumber parent.inode
        cacheAppend cpath 1 parentInumber
      else do
        let inumber ← inodeGetInumber current.inode
        cacheAppend cpath 1 inumber
    else return

/-- The directory where the walk starts: the root, or the current directory of a process. -/
def walkStart (pid : Pid) (cpath : CanonPath) : Op FS Dir := do
  if cpath.isAbsolute then dirOpenRoot
  else
    let s ← get
    match s.cwd pid with
    | some cwd => dirReopen cwd
    | none => dirOpenRoot

/-- `dir_open_canon_path` inside `dir_lock`. -/
def openCanonPath (pid : Pid) (cpath : CanonPath) (isDir : Bool) : Op FS (Option Dir) := do
  let s ← get
  match if cpath.isAbsolute then cacheQuery s.dentryCache cpath isDir else none with
  | some inumber =>
    let inode ← inodeOpen inumber
    let current ← dirOpen inode
    return some current
  | none =>
    let start ← walkStart pid cpath
    let current ← walkLoop cpath (numIters cpath isDir) 0 start
    cacheWalk cpath isDir current
    return current

/-- `dir_open_canon_path`. -/
def dirOpenCanonPath (pid : Pid) (cpath : CanonPath) (isDir : Bool) : Op FS (Option Dir) := do
  dirLockAcquire pid
  let current ← openCanonPath pid cpath isDir
  dirLockRelease pid
  return current

/-! ### Looking up, adding and removing names -/

/-- `dir_lookup`. -/
def dirLookup (pid : Pid) (dir : Dir) (path : CStr) : Op FS (Option InodePtr) := do
  dirLockAcquire pid
  match ← lookup dir path with
  | some (e, _) =>
    let inode ← inodeOpen e.inodeSector
    dirLockRelease pid
    return some inode
  | none =>
    dirLockRelease pid
    return none

/-- `dir_add` once the name is known to be new. The cache is told about the entry whether or not the
write succeeded. -/
def addEntry (dir : Dir) (cpath : CanonPath) (name : CStr) (inodeSector : Sector)
    (isDir room : Bool) : Op FS Bool := do
  let entries ← dirEntries dir
  let success ← writeEntry dir (freeSlotFrom 0 entries) ⟨inodeSector, name, true⟩ room
  if isDir then cacheAppend cpath 0 inodeSector
  let inumber ← inodeGetInumber dir.inode
  cacheAppend cpath 1 inumber
  return success

/-- `dir_add`; the return for an invalid name keeps `dir_lock`. -/
def dirAdd (pid : Pid) (dir : Dir) (cpath : CanonPath) (name : CStr) (inodeSector : Sector)
    (isDir room : Bool) : Op FS Bool := do
  dirLockAcquire pid
  if name = [] ∨ nameMax < name.length then return false
  else
    match ← lookup dir name with
    | some _ =>
      dirLockRelease pid
      return false
    | none =>
      let success ← addEntry dir cpath name inodeSector isDir room
      dirLockRelease pid
      return success

/-- The check of `dir_remove`: no root, no directory with entries, none that is open elsewhere. -/
def removable (inode : InodePtr) : Op FS Bool := do
  if ← inodeIsDirectory inode then
    let reopened ← inodeReopen inode
    let victimDir ← dirOpen reopened
    let inumber ← inodeGetInumber inode
    let entries ← dirEntries victimDir
    let openCnt ← inodeGetOpenCnt inode
    dirClose victimDir
    return !(inumber = rootDirSector || lookupAny entries || openCnt > 2)
  else return true

/-- `dir_remove`. -/
def dirRemove (pid : Pid) (dir : Dir) (name : CStr) : Op FS Bool := do
  dirLockAcquire pid
  match ← lookup dir name with
  | none =>
    dirLockRelease pid
    return false
  | some (e, ofs) =>
    let inode ← inodeOpen e.inodeSector
    if ← removable inode then
      let inumber ← inodeGetInumber inode
      modify fun s => { s with dentryCache := (dentryCacheInvalidate s.dentryCache inumber).1 }
      let _ ← writeEntry dir ofs { e with inUse := false } true
      inodeRemove inode
      inodeClose inode
      dirLockRelease pid
      return true
    else
      inodeClose inode
      dirLockRelease pid
      return false

end Pintos.Filesys.Directory
