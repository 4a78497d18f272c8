import Pintos.Lib.Runs
import Pintos.Filesys.Directory

/-! # Calls of the file system (filesys/filesys.c, sys_chdir)

The calls that take a path, and a run of them by any processes. What the free map has to offer during a
`filesys_create` is a choice of the environment (`Room`). A call that follows a null pointer, fails an
assertion or waits for `dir_lock` for ever has no state after it. `filesys_open` of ".." closes the directory
it returns: its handle may dangle. -/

namespace Pintos.Filesys.Calls

open Pintos.Lib.Ops
open Pintos.Filesys.Path Pintos.Filesys.DentryCache Pintos.Filesys.DirState
open Pintos.Filesys.Directory

/-- What there is room for: the sector for the new inode, its data, and one more entry at the end of the
parent directory. -/
structure Room where
  sector : Option Sector
  inode : Bool
  entry : Bool

/-- `filesys_create`. A missing parent directory is a null pointer that is followed. -/
def filesysCreate (pid : Pid) (path : CStr) (initialSize : ℤ) (isDir : Bool) (room : Room) :
    Op FS Bool :=
  match pathCanonicalize path with
  | none => return false
  | some cpath =>
    if cpath.tokensCnt = 0 then return false
    else do
      let name ← deref cpath.getLeaf
      let opened ← dirOpenCanonPath pid cpath false
      let dir ← deref opened
      let parentSector ← inodeGetInumber dir.inode
      match ← freeMapAllocate room.sector with
      | none =>
        dirClose dir
        return false
      | some inodeSector =>
        let created ←
          if isDir then dirCreate inodeSector 10 parentSector room.inode
          else inodeCreate inodeSector initialSize (.file parentSector) room.inode
        let success ←
          if created then dirAdd pid dir cpath name inodeSector isDir room.entry else pure false
        if !success then freeMapRelease inodeSector
        dirClose dir
        return success

/-- The inode that `filesys_open` finds behind the leaf of a path. -/
def openLeaf (pid : Pid) (cpath : CanonPath) (dir : Dir) (name : CStr) :
    Op FS (Option InodePtr) :=
  if name = dotdot then do
    let opened ← dirOpenCanonPath pid cpath true
    let d ← deref opened
    dirClose d
    return some d.inode
  else dirLookup pid dir name

/-- The end of `filesys_open`: a directory or a file for the inode. -/
def openFound (inode : InodePtr) (allowDir : Bool) : Op FS (Option UserFile) := do
  if ← inodeIsDirectory inode then
    if allowDir then
      let d ← dirOpen inode
      return some (.dir d)
    else return none
  else return some (.file ⟨inode, 0, false⟩)

/-- `filesys_open`. -/
def filesysOpen (pid : Pid) (path : CStr) (allowDir : Bool) : Op FS (Option UserFile) :=
  match pathCanonicalize path with
  | none => return none
  | some cpath =>
    if cpath.tokensCnt = 0 then
      if allowDir then
        if cpath.isAbsolute then do
          let d ← dirOpenRoot
          return some (.dir d)
        else do
          let s ← get
          match s.cwd pid with
          | some cwd =>
            let d ← dirReopen cwd
            return some (.dir d)
          | none => return none
      else return none
    else do
      let name ← deref cpath.getLeaf
      match ← dirOpenCanonPath pid cpath false with
      | none => return none
      | some dir =>
        match ← openLeaf pid cpath dir name with
        | none => return none
        | some inode =>
          dirClose dir
          openFound inode allowDir

/-- `filesys_remove`. -/
def filesysRemove (pid : Pid) (path : CStr) : Op FS Bool :=
  match pathCanonicalize path with
  | none => return false
  | some cpath =>
    if cpath.tokensCnt = 0 then return false
    else do
      let name ← deref cpath.getLeaf
      match ← dirOpenCanonPath pid cpath false with
      | none => return false
      | some dir =>
        let success ← dirRemove pid dir name
        dirClose dir
        return success

/-- `sys_chdir`, for a process. -/
def sysChdir (pid : Pid) (path : CStr) : Op FS Bool :=
  match pathCanonicalize path with
  | none => return false
  | some cpath => do
    let s ← get
    let oldDir ← deref (s.cwd pid)
    match ← dirOpenCanonPath pid cpath true with
    | none => return false
    | some dir =>
      modify fun s => { s with cwd := Function.update s.cwd pid (some dir) }
      dirClose oldDir
      return true

/-- The inode of an open file or directory. -/
def UserFile.inode : UserFile → InodePtr
  | .file f => f.inode
  | .dir d => d.inode

/-- `sys_close`: `file_close` or `dir_close` of something `filesys_open` handed out. -/
def sysClose (uf : UserFile) : Op FS Unit := do
  let s ← get
  assert (uf ∈ s.userFiles)
  set { s with userFiles := s.userFiles.erase uf }
  inodeClose (UserFile.inode uf)

/-- One call. -/
inductive Action
  | create (pid : Pid) (path : CStr) (initialSize : ℤ) (isDir : Bool) (room : Room)
  | open (pid : Pid) (path : CStr) (allowDir : Bool)
  | remove (pid : Pid) (path : CStr)
  | chdir (pid : Pid) (path : CStr)
  | close (uf : UserFile)

/-- A call, and the handle it hands out. -/
def Action.run : Action → Op FS Unit
  | .create pid path initialSize isDir room => do
    let _ ← filesysCreate pid path initialSize isDir room
  | .open pid path allowDir => do
    match ← filesysOpen pid path allowDir with
    | some uf => modify fun s => { s with userFiles := uf :: s.userFiles }
    | none => return
  | .remove pid path => do
    let _ ← filesysRemove pid path
  | .chdir pid path => do
    let _ ← sysChdir pid path
  | .close uf => sysClose uf

/-- The call `a` may take the state `s` to `s'`. -/
def Step (s : FS) (a : Action) (s' : FS) : Prop := a.run s = some ((), s')

end Pintos.Filesys.Calls
