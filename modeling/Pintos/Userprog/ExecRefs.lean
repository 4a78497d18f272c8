import Pintos.Userprog.ExecName
import Pintos.Userprog.Loader

/-! # The references of exec

`process_execute` with the references to inodes that it takes: for the current directories, on the way to the
executable, for the executable itself, and for the pages of its segments. Where the new process fails to load, the
child gives back its `process_info` and exits, and no reference is dropped. -/

namespace Pintos.Userprog.ExecRefs

open Pintos.Lib.Ops
open Pintos.Filesys.Path Pintos.Filesys.DentryCache Pintos.Filesys.DirState Pintos.Filesys.Directory
open Pintos.Filesys.DirTree (IsDirAt)
open Pintos.Filesys.Calls
open Pintos.Vm.State (VM FileData PdId pgSize Upage min_pgSize_lt)
open Pintos.Vm.Vpage (Env lazyAllocate)
open Pintos.Vm.Run (createPagedir exitPagedir)
open Pintos.Userprog.Load Pintos.Userprog.Segment Pintos.Userprog.Loader
open Pintos.Userprog.Lifecycle (sizeofFileName)
open Pintos.Userprog.Arguments (isSpace)
open Pintos.Userprog.ExecName (tokens_of_leaf_dotdot dirOpen_isDirAt)

/-! ### The state -/

/-- `struct process_info`, as far as it holds references. -/
structure ProcessInfo where
  cwd : Option Dir
  exeFile : Option File

structure Kernel where
  fs : FS
  /-- `deny_write_cnt` of the inode in a sector, zero if it is not open. -/
  denyCnt : Sector → ℤ
  /-- The memory; the contents of a file go by the sector of its inode. -/
  vm : VM
  /-- The `process_info`s in memory. -/
  infos : Pid → Option ProcessInfo
  /-- The `process_info` of each thread. -/
  processInfo : ℕ → Option Pid
  lastPid : Pid

def onFs {α : Type} (m : Op FS α) : Op Kernel α := zoom Kernel.fs (fun k fs => { k with fs := fs }) m

def onVm {α : Type} (m : Op VM α) : Op Kernel α := zoom Kernel.vm (fun k vm => { k with vm := vm }) m

def Kernel.setInfo (k : Kernel) (pid : Pid) (info : Option ProcessInfo) : Kernel :=
  { k with infos := Function.update k.infos pid info }

/-! ### directory.c and file.c -/

/-- `dir_open`, which closes the inode where there is no memory for a `struct dir`. -/
def dirOpenIf (memory : Bool) (inode : InodePtr) : Op FS (Option Dir) :=
  if memory then do
    let d ← dirOpen inode
    return some d
  else do
    let isDir ← inodeIsDirectory inode
    assert isDir
    inodeClose inode
    return none

/-- `inode_deny_write`. -/
def inodeDenyWrite (p : InodePtr) : Op Kernel Unit := do
  let inode ← onFs (inodeAt p)
  let k ← get
  let cnt := k.denyCnt p.sector + 1
  set { k with denyCnt := Function.update k.denyCnt p.sector cnt }
  assert (cnt ≤ inode.openCnt)

/-- `file_deny_write`. -/
def fileDenyWrite (file : File) : Op Kernel File :=
  if file.denyWrite then return file
  else do
    inodeDenyWrite file.inode
    return { file with denyWrite := true }

/-! ### load -/

/-- `vpage_info_lazy_allocate`, with the `file_reopen` of the executable. -/
def lazyAllocateRef (env : Env) (uaddr : Upage) (file : File) (offset : ℕ) (length : Fin (pgSize + 1)) (pid : Pid)
    (writable : Bool) : Op Kernel Bool :=
  if env.malloc then do
    let copy ← onFs (inodeReopen file.inode)
    onVm (lazyAllocate env uaddr ⟨some copy.sector, offset, length⟩ pid writable)
  else return false

/-- The loop of `load_segment`, with at most `fuel` tests of its condition. -/
def loadSegmentLoopRef (pid : Pid) (envs : ℕ → Env) (file : File) (writable : Bool) :
    (fuel i ofs upage readBytes zeroBytes : ℕ) → Op Kernel Bool
  | 0, _, _, _, _, _ => halt
  | fuel + 1, i, ofs, upage, readBytes, zeroBytes =>
    if 0 < readBytes ∨ 0 < zeroBytes then do
      let pageReadBytes := min readBytes pgSize
      let pageZeroBytes := pgSize - pageReadBytes
      if ← lazyAllocateRef (envs i) (upage / pgSize) file ofs ⟨min readBytes pgSize, min_pgSize_lt readBytes⟩
          pid writable then
        loadSegmentLoopRef pid envs file writable fuel (i + 1) (add32 ofs pageReadBytes) (add32 upage pgSize)
          (sub32 readBytes pageReadBytes) (sub32 zeroBytes pageZeroBytes)
      else return false
    else return true

/-- `load_segment`. -/
def loadSegmentRef (pid : Pid) (envs : ℕ → Env) (file : File) (ofs upage readBytes zeroBytes : ℕ)
    (writable : Bool) : Op Kernel Bool := do
  assert (add32 readBytes zeroBytes % pgSize = 0)
  assert (upage % pgSize = 0)
  assert (ofs % pgSize = 0)
  loadSegmentLoopRef pid envs file writable (2 ^ 20 + 1) 0 ofs upage readBytes zeroBytes

/-- The call of `load_segment` in `load`. -/
def loadPhdrRef (pid : Pid) (envs : ℕ → Env) (file : File) (p : Phdr) : Op Kernel Bool :=
  loadSegmentRef pid envs file (filePage p) (memPage p) (readBytes p) (zeroBytes p) (writable p)

/-- The loop over the program headers, with `left` of them to go. -/
def loadPhdrsRef (pid : Pid) (env : LoadEnv) (file : File) (f : FileData) : (left i : ℕ) → (fileOfs : ℤ) →
    Op Kernel Bool
  | 0, _, _ => return true
  | left + 1, i, fileOfs =>
    if fileOfs < 0 ∨ f.length < fileOfs then return false
    else do
      onVm (fileSeek fileOfs)
      if env.read (i + 1) ∧ fileOfs + sizeofPhdr ≤ f.length then do
        let p := readPhdr f fileOfs.toNat
        assert (fileOfs + sizeofPhdr < 2 ^ 31)
        match phdrKind p.pType with
        | .ignored => loadPhdrsRef pid env file f left (i + 1) (fileOfs + sizeofPhdr)
        | .refused => return false
        | .load =>
          if validateSegment f p then do
            if ← loadPhdrRef pid (env.segment i) file p then
              loadPhdrsRef pid env file f left (i + 1) (fileOfs + sizeofPhdr)
            else return false
          else return false
      else return false

/-- `load`, from the header of the open file on. -/
def loadFileRef (pid : Pid) (env : LoadEnv) (file : File) (cmdLine : List UInt8) : Op Kernel Bool := do
  let k ← get
  let f := k.vm.files file.inode.sector
  if env.read 0 ∧ ehdrOk f then do
    if ← loadPhdrsRef pid env file f (le16 f 44) 0 (offT (le32 f 28)) then onVm (loadStack pid env cmdLine)
    else return false
  else return false

/-- `pi->file_name`: the command line up to its first space. -/
def fileName (cmdLine : List UInt8) : CStr := (cmdLine.takeWhile (!isSpace ·)).map fun b => Char.ofNat b.toNat

/-- `load`. The thread has no `process_info` yet, and finds the file from the root. -/
def loadRef (pid : Pid) (env : LoadEnv) (cmdLine : List UInt8) : Op Kernel Bool :=
  match env.pagedir with
  | none => return false
  | some d => do
    onVm (modify (createPagedir · pid d))
    assert (fileNameLen cmdLine + 1 < sizeofFileName)
    match ← onFs (filesysOpen pid (fileName cmdLine) false) with
    | some (.file file) => do
      let file ← fileDenyWrite file
      modify fun k => k.setInfo pid ((k.infos pid).map fun info => { info with exeFile := some file })
      loadFileRef pid env file cmdLine
    | _ => return false

/-! ### process_info -/

/-- Memory for a `process_info`, and for the `struct dir` of its current directory. -/
structure InfoEnv where
  info : Bool
  dir : Bool

/-- The inode of a new process's current directory: that of the parent once more, or the root. -/
def openCwd : Option Pid → Op Kernel InodePtr
  | none => onFs (inodeOpen rootDirSector)
  | some parentPi => do
    let k ← get
    let pi ← deref (k.infos parentPi)
    let dir ← deref pi.cwd
    onFs (inodeReopen dir.inode)

/-- `process_info_allocate`. -/
def processInfoAllocate (env : InfoEnv) (parentPi : Option Pid) : Op Kernel (Option Pid) :=
  if env.info then do
    let k ← get
    let pid := k.lastPid
    set { k with lastPid := pid + 1 }
    let inode ← openCwd parentPi
    let cwd ← onFs (dirOpenIf env.dir inode)
    modify (·.setInfo pid (some ⟨cwd, none⟩))
    return some pid
  else return none

/-- `process_info_release`: the memory is freed, and what it points to stays. -/
def processInfoRelease (pid : Pid) : Op Kernel Unit := modify (·.setInfo pid none)

/-- `process_exit` in a thread without a `process_info`. -/
def processExit (pid : Pid) : Op Kernel Unit := do
  let k ← get
  match k.vm.pagedir pid with
  | some _ => onVm (exitPagedir pid)
  | none => return ()

/-! ### process_execute -/

/-- What `process_execute` finds. -/
structure ExecEnv where
  /-- A page for the arguments of the child. -/
  args : Bool
  sema : Bool
  /-- For the `process_info` of a caller without one. -/
  parent : InfoEnv
  /-- The thread, if it can be created. -/
  thread : Option ℕ
  child : InfoEnv
  load : LoadEnv

/-- `sizeof (args->cmd_line)`. -/
def sizeofCmdLine : ℕ := 0x800

/-- `start_process` up to the first instruction of the program, or the exit of the thread. Without memory for its
`process_info`, the child follows a null pointer to the semaphore. -/
def startProcess (thread : ℕ) (env : ExecEnv) (parentPi : Pid) (cmdLine : List UInt8) : Op Kernel (Option Pid) := do
  let allocated ← processInfoAllocate env.child (some parentPi)
  let pid ← deref allocated
  if ← loadRef pid env.load cmdLine then do
    modify fun k => { k with
      processInfo := Function.update k.processInfo thread (some pid)
      fs := { k.fs with cwd := Function.update k.fs.cwd pid ((k.infos pid).bind (·.cwd)) } }
    return some pid
  else do
    processInfoRelease pid
    processExit pid
    return none

/-- `thread_create`, and the child until it has loaded or given up; the caller waits for it. -/
def createChild (env : ExecEnv) (pi : Pid) (cmdLine : List UInt8) : Op Kernel (Option Pid) :=
  match env.thread with
  | none => return none
  | some thread => startProcess thread env pi cmdLine

/-- `process_execute` in `thread`, from `thread_create` on. -/
def runChild (thread : ℕ) (env : ExecEnv) (newPi : Bool) (pi : Pid) (cmdLine : List UInt8) :
    Op Kernel (Option Pid) := do
  match ← createChild env pi cmdLine with
  | some pid => do
    modify fun k => { k with processInfo := Function.update k.processInfo thread (some pi) }
    return some pid
  | none =>
    if newPi then do
      processInfoRelease pi
      return none
    else return none

/-- `process_execute` in `thread`; `none` is `PID_ERROR`. -/
def processExecute (thread : ℕ) (env : ExecEnv) (cmdLine : List UInt8) : Op Kernel (Option Pid) :=
  if env.args ∧ env.sema then do
    let k ← get
    match k.processInfo thread with
    | some pi => runChild thread env false pi (cmdLine.take (sizeofCmdLine - 1))
    | none => do
      match ← processInfoAllocate env.parent none with
      | some pi => runChild thread env true pi (cmdLine.take (sizeofCmdLine - 1))
      | none => return none
  else return none

/-! ### Open counts -/

variable {fs fs' fs'' : FS} {pid : Pid} {sec : Sector} {p : InodePtr} {dir : Dir} {cpath : CanonPath} {path : CStr}
  {δ δ' : Sector → ℤ}

def count : Option OpenInode → ℤ
  | some inode => inode.openCnt
  | none => 0

/-- `open_cnt` of the inode in a sector. -/
def openCnt (fs : FS) (sec : Sector) : ℤ := count (fs.opened sec)

/-- One reference. -/
def one (sec : Sector) : Sector → ℤ := Pi.single sec 1

/-- The references `δ` are taken. -/
def Takes (fs : FS) (δ : Sector → ℤ) (fs' : FS) : Prop := openCnt fs' = openCnt fs + δ

theorem takes_of_opened (h : fs'.opened = fs.opened) : Takes fs 0 fs' := by
  funext sec
  simp [openCnt, h]

theorem Takes.trans (h : Takes fs δ fs') (h' : Takes fs' δ' fs'') : Takes fs (δ + δ') fs'' := by
  unfold Takes at *
  rw [h', h, add_assoc]

theorem takes_update {o : Option OpenInode} {c : ℤ} (h : fs'.opened = Function.update fs.opened sec o)
    (hc : count o = count (fs.opened sec) + c) : Takes fs (Pi.single sec c) fs' := by
  funext x
  unfold openCnt
  rw [h, Pi.add_apply]
  by_cases hx : x = sec
  · subst hx
    rw [Function.update_self, Pi.single_eq_same, hc]
  · rw [Function.update_of_ne hx, Pi.single_eq_of_ne hx, add_zero]

theorem inodeOpen_takes : Ensures (inodeOpen sec) fs fun p fs' => p.sector = sec ∧ Takes fs (one sec) fs' := by
  refine .bind (.get ?_)
  cases ho : fs.opened sec with
  | none => exact .bind (.deref fun _ _ => .bind (.set (.pure ⟨rfl, takes_update rfl (by rw [ho]; rfl)⟩)))
  | some o => exact .bind (.set (.pure ⟨rfl, takes_update rfl (by rw [ho]; rfl)⟩))

theorem inodeAt_ensures : Ensures (inodeAt p) fs fun o fs' => fs' = fs ∧ fs.opened p.sector = some o :=
  .bind (.get (.deref fun _ ho => ⟨rfl, (Option.filter_eq_some_iff.mp ho).1⟩))

theorem inodeReopen_takes : Ensures (inodeReopen p) fs fun p' fs' => p' = p ∧ Takes fs (one p.sector) fs' := by
  refine .bind (inodeAt_ensures.mono ?_)
  rintro o _ ⟨rfl, ho⟩
  exact .bind (.modify (.pure ⟨rfl, takes_update rfl (by rw [ho]; rfl)⟩))

theorem inodeClose_takes : Ensures (inodeClose p) fs fun _ fs' => Takes fs (-one p.sector) fs' := by
  unfold one
  rw [← Pi.single_neg]
  refine .bind (inodeAt_ensures.mono ?_)
  rintro o fs ⟨rfl, ho⟩
  have hlast : o.openCnt - 1 = 0 → count none = count (fs.opened p.sector) + -1 := fun h => by
    rw [ho]
    exact h.symm
  refine .ite (fun h => .bind (.modify (.ite (fun _ => .modify ?_) fun _ => .pure ?_))) fun _ => .modify ?_
  · exact takes_update rfl (hlast h)
  · exact takes_update rfl (hlast h)
  · exact takes_update rfl (by rw [ho]; rfl)

/-- Where an inode is open, it is a directory. -/
def DirOrGone (fs : FS) (sec : Sector) : Prop := fs.opened sec = none ∨ IsDirAt fs.inodes sec

theorem inodeClose_keeps (h : DirOrGone fs sec) : Ensures (inodeClose p) fs fun _ fs' => DirOrGone fs' sec := by
  refine .bind (inodeAt_ensures.mono ?_)
  rintro o fs ⟨rfl, ho⟩
  by_cases hsec : sec = p.sector
  · subst hsec
    refine .ite (fun _ => .bind (.modify (.ite (fun _ => .modify ?_) fun _ => .pure ?_))) fun _ => .modify ?_
    · exact .inl (Function.update_self ..)
    · exact .inl (Function.update_self ..)
    · exact .inr (h.resolve_left fun hnone => by simp [ho] at hnone)
  · have hopened : ∀ o, (fs.setOpened p.sector o).opened sec = fs.opened sec := fun o => Function.update_of_ne hsec ..
    have hset : ∀ o, DirOrGone (fs.setOpened p.sector o) sec := fun o => h.imp_left (hopened o).trans
    refine .ite (fun _ => .bind (.modify (.ite (fun _ => .modify ?_) fun _ => .pure (hset _)))) fun _ =>
      .modify (hset _)
    refine (hset none).imp_right ?_
    rintro ⟨q, es, hd⟩
    exact ⟨q, es, (Function.update_of_ne hsec ..).trans hd⟩

theorem inodeIsDirectory_ensures : Ensures (inodeIsDirectory p) fs fun isDir fs' =>
    fs' = fs ∧ (isDir = false → DirOrGone fs p.sector → fs.openInode p = none) := by
  refine .bind (.get ?_)
  cases ho : fs.openInode p with
  | none => exact .pure ⟨rfl, fun _ _ => rfl⟩
  | some o =>
    have hopen : fs.opened p.sector ≠ none := by
      rw [(Option.filter_eq_some_iff.mp ho).1]
      exact Option.some_ne_none o
    cases hi : fs.inodes p.sector with
    | none =>
      refine .pure ⟨rfl, fun _ h => ?_⟩
      obtain ⟨q, es, hd⟩ := h.resolve_left hopen
      cases hd.symm.trans hi
    | some inode =>
      refine .pure ⟨rfl, fun hdir h => ?_⟩
      obtain ⟨q, es, hd⟩ := h.resolve_left hopen
      obtain rfl := Option.some.inj (hd.symm.trans hi)
      cases hdir

theorem dirOpen_ensures :
    Ensures (dirOpen p) fs fun d fs' => d.inode = p ∧ fs' = fs ∧ IsDirAt fs.inodes p.sector := by
  have hopen : Ensures (dirOpen p) fs fun d fs' => d.inode = p ∧ fs' = fs := by
    refine .bind (inodeIsDirectory_ensures.mono ?_)
    rintro _ _ ⟨rfl, -⟩
    exact .bind (.assert fun _ => .pure ⟨rfl, rfl⟩)
  exact (hopen.and dirOpen_isDirAt).mono fun _ _ ⟨⟨hd, hfs⟩, hdir⟩ => ⟨hd, hfs, hdir⟩

/-- A directory is opened. -/
structure Enters (fs : FS) (d : Dir) (fs' : FS) : Prop where
  takes : Takes fs (one d.inode.sector) fs'
  dir : DirOrGone fs' d.inode.sector

theorem enter_takes : Ensures (do let inode ← inodeOpen sec; dirOpen inode) fs (Enters fs) := by
  refine .bind (inodeOpen_takes.mono ?_)
  rintro p fs₁ ⟨rfl, htakes⟩
  refine dirOpen_ensures.mono ?_
  rintro d _ ⟨rfl, rfl, hdir⟩
  exact ⟨htakes, .inr hdir⟩

theorem dirReopen_takes : Ensures (dirReopen dir) fs (Enters fs) := by
  refine .bind (inodeReopen_takes.mono ?_)
  rintro p fs₁ ⟨rfl, htakes⟩
  refine dirOpen_ensures.mono ?_
  rintro d _ ⟨hd, rfl, hdir⟩
  rw [← hd] at htakes hdir
  exact ⟨htakes, .inr hdir⟩

theorem inodeData_ensures : Ensures (inodeData p) fs fun _ fs' => fs' = fs := by
  refine .bind (inodeAt_ensures.mono ?_)
  rintro _ _ ⟨rfl, -⟩
  exact .bind (.get (.deref fun _ _ => rfl))

theorem dirGetParent_takes : Ensures (dirGetParent dir) fs (Enters fs) := by
  refine .bind (.bind (inodeData_ensures.mono ?_))
  rintro data _ rfl
  exact .pure enter_takes

theorem lookup_ensures {name : CStr} : Ensures (lookup dir name) fs fun _ fs' => fs' = fs := by
  refine .bind (.bind (inodeData_ensures.mono ?_))
  rintro data _ rfl
  cases data with
  | dir _ es => exact .pure (.pure rfl)
  | file _ => exact .halt

/-- A reference is exchanged for one to `r`, or for one that nobody knows of. -/
def Exchanges (fs : FS) (current : Sector) (r : Option Dir) (fs' : FS) : Prop :=
  ∃ x, Takes fs (-one current + one x) fs' ∧ ∀ d, r = some d → d.inode.sector = x ∧ DirOrGone fs' x

/-- **A walk hands its reference on**, to the directory that it reaches or to where it fails. -/
theorem walkLoop_takes : ∀ (n i : ℕ) {fs : FS} {current : Dir}, DirOrGone fs current.inode.sector →
    Ensures (walkLoop cpath n i current) fs (Exchanges fs current.inode.sector)
  | 0, i, fs, current, hdir => by
    refine .pure ⟨current.inode.sector, ?_, ?_⟩
    · rw [neg_add_cancel]
      exact takes_of_opened rfl
    · rintro d ⟨⟩
      exact ⟨rfl, hdir⟩
  | n + 1, i, fs, current, _ => by
    have hnext : ∀ {d : Dir} {fs₁ : FS}, Takes fs (-one current.inode.sector + one d.inode.sector) fs₁ →
        DirOrGone fs₁ d.inode.sector →
        Ensures (walkLoop cpath n (i + 1) d) fs₁ (Exchanges fs current.inode.sector) := by
      intro d fs₁ htakes hdir
      refine (walkLoop_takes n (i + 1) hdir).mono ?_
      rintro r fs' ⟨x, hx, hr⟩
      refine ⟨x, ?_, hr⟩
      have := htakes.trans hx
      rwa [add_assoc, add_neg_cancel_left] at this
    refine .bind (.deref fun token _ => .ite (fun _ => ?_) fun _ => ?_)
    · refine .bind (dirGetParent_takes.mono fun parent fs₁ h₁ => ?_)
      refine .bind ((inodeClose_takes.and (inodeClose_keeps h₁.dir)).mono fun _ fs₂ ⟨h₂, hdir⟩ => hnext ?_ hdir)
      have := h₁.takes.trans h₂
      rwa [add_comm] at this
    · refine .bind (lookup_ensures.mono ?_)
      rintro found _ rfl
      cases found with
      | none =>
        refine .pure ⟨current.inode.sector, ?_, nofun⟩
        rw [neg_add_cancel]
        exact takes_of_opened rfl
      | some ep =>
        refine .bind (inodeClose_takes.mono fun _ fs₁ h₁ => .bind (inodeOpen_takes.mono ?_))
        rintro inode fs₂ ⟨hsec, h₂⟩
        refine .bind (inodeIsDirectory_ensures.mono ?_)
        rintro isDir _ ⟨rfl, -⟩
        refine .ite (fun _ => .bind (dirOpen_ensures.mono ?_)) fun _ => .pure ⟨_, h₁.trans h₂, nofun⟩
        rintro next _ ⟨rfl, rfl, hdir⟩
        refine hnext ?_ (.inr hdir)
        rw [hsec]
        exact h₁.trans h₂

/-- One reference is taken: for the directory that is returned, or for one that nobody knows of. -/
def TakesOne (fs : FS) (r : Option Dir) (fs' : FS) : Prop :=
  ∃ x, Takes fs (one x) fs' ∧ ∀ d, r = some d → d.inode.sector = x ∧ DirOrGone fs' x

/-- Neither the inodes nor their counts change. -/
def SameInodes (fs fs' : FS) : Prop := fs'.opened = fs.opened ∧ fs'.inodes = fs.inodes

theorem TakesOne.same {r : Option Dir} (h : TakesOne fs r fs') (hs : SameInodes fs' fs'') : TakesOne fs r fs'' := by
  obtain ⟨x, htakes, hr⟩ := h
  refine ⟨x, ?_, fun d hd => ⟨(hr d hd).1, ?_⟩⟩
  · have := htakes.trans (takes_of_opened hs.1)
    rwa [add_zero] at this
  · rw [DirOrGone, hs.1, hs.2]
    exact (hr d hd).2

theorem cacheWalk_same {isDir : Bool} (h : cpath.isAbsolute = true → isDir = false) (r : Option Dir) :
    Ensures (cacheWalk cpath isDir r) fs fun _ fs' => SameInodes fs fs' := by
  cases r with
  | none => exact .pure ⟨rfl, rfl⟩
  | some current =>
    refine .ite (fun ha => ?_) fun _ => .pure ⟨rfl, rfl⟩
    rw [h ha]
    refine .bind (.bind (inodeAt_ensures.mono ?_))
    rintro _ _ ⟨rfl, -⟩
    exact .pure (.modify ⟨rfl, rfl⟩)

theorem walkStart_takes : Ensures (walkStart pid cpath) fs (Enters fs) := by
  refine .ite (fun _ => enter_takes) fun _ => .bind (.get ?_)
  cases fs.cwd pid with
  | none => exact enter_takes
  | some cwd => exact dirReopen_takes

/-- **`dir_open_canon_path` takes one reference**, also where it fails. The other one, to the parent of the directory
that is wanted, is for absolute paths only. -/
theorem openCanonPath_takes {isDir : Bool} (h : cpath.isAbsolute = true → isDir = false) :
    Ensures (openCanonPath pid cpath isDir) fs (TakesOne fs) := by
  refine .bind (.get ?_)
  split
  · refine .bind (inodeOpen_takes.mono ?_)
    rintro p fs₁ ⟨rfl, htakes⟩
    refine .bind (dirOpen_ensures.mono ?_)
    rintro d _ ⟨rfl, rfl, hdir⟩
    refine .pure ⟨_, htakes, ?_⟩
    rintro _ ⟨⟩
    exact ⟨rfl, .inr hdir⟩
  · refine .bind (walkStart_takes.mono fun start fs₁ h₁ => .bind ((walkLoop_takes _ 0 h₁.dir).mono ?_))
    rintro r fs₂ ⟨x, h₂, hr⟩
    refine .bind ((cacheWalk_same h r).mono fun _ fs₃ h₃ => .pure (TakesOne.same ⟨x, ?_, hr⟩ h₃))
    have := h₁.takes.trans h₂
    rwa [add_neg_cancel_left] at this

theorem dirLockAcquire_same : Ensures (dirLockAcquire pid) fs fun _ fs' => SameInodes fs fs' :=
  .bind (.get (.bind (.assert fun _ => .set ⟨rfl, rfl⟩)))

theorem dirLockRelease_same : Ensures (dirLockRelease pid) fs fun _ fs' => SameInodes fs fs' :=
  .bind (.get (.bind (.assert fun _ => .set ⟨rfl, rfl⟩)))

theorem SameInodes.takes (h : SameInodes fs fs') : Takes fs 0 fs' := takes_of_opened h.1

theorem dirOpenCanonPath_takes {isDir : Bool} (h : cpath.isAbsolute = true → isDir = false) :
    Ensures (dirOpenCanonPath pid cpath isDir) fs (TakesOne fs) := by
  refine .bind (dirLockAcquire_same.mono fun _ fs₁ h₁ => .bind ((openCanonPath_takes h).mono ?_))
  rintro r fs₂ ⟨x, h₂, hr⟩
  refine .bind (dirLockRelease_same.mono fun _ fs₃ h₃ => .pure (TakesOne.same ⟨x, ?_, hr⟩ h₃))
  have := h₁.takes.trans h₂
  rwa [zero_add] at this

/-! ### filesys_open -/

/-- The references that `dir_lookup` takes. -/
def found : Option InodePtr → Sector → ℤ
  | some p => one p.sector
  | none => 0

theorem dirLookup_takes {name : CStr} :
    Ensures (dirLookup pid dir name) fs fun r fs' => Takes fs (found r) fs' := by
  refine .bind (dirLockAcquire_same.mono fun _ fs₁ h₁ => .bind (lookup_ensures.mono ?_))
  rintro r _ rfl
  cases r with
  | none =>
    refine .bind (dirLockRelease_same.mono fun _ fs₂ h₂ => .pure ?_)
    have := h₁.takes.trans h₂.takes
    rwa [add_zero] at this
  | some e =>
    refine .bind (inodeOpen_takes.mono ?_)
    rintro p fs₂ ⟨hp, h₂⟩
    refine .bind (dirLockRelease_same.mono fun _ fs₃ h₃ => .pure ?_)
    have := (h₁.takes.trans h₂).trans h₃.takes
    rwa [zero_add, add_zero, ← hp] at this

/-- **A name that opens nothing**: it is not canonical, without components, or "..". -/
def Nameless (path : CStr) : Prop :=
  ∀ cpath, pathCanonicalize path = some cpath → cpath.tokensCnt = 0 ∨ cpath.getLeaf = some dotdot

theorem one_nonneg (sec : Sector) : 0 ≤ one sec := Pi.single_nonneg.mpr zero_le_one

theorem one_ne_zero (sec : Sector) : one sec ≠ 0 := fun h => absurd (Pi.single_eq_zero_iff.mp h) (by decide)

theorem not_isAbsolute_of_leaf_dotdot (hleaf : cpath.getLeaf = some dotdot) : cpath.isAbsolute ≠ true :=
  fun ha => cpath.canonical.not_dotdot ha (List.mem_of_getElem? hleaf)

/-- The directory ".." is closed before it is returned. -/
theorem openLeaf_takes {name : CStr} (hleaf : cpath.getLeaf = some name) :
    Ensures (openLeaf pid cpath dir name) fs fun r fs' =>
      if name = dotdot then ∃ p, r = some p ∧ Takes fs 0 fs' ∧ DirOrGone fs' p.sector
      else Takes fs (found r) fs' := by
  unfold openLeaf
  split_ifs with hname
  · subst hname
    have hrel : cpath.isAbsolute = true → true = false := fun ha => absurd ha (not_isAbsolute_of_leaf_dotdot hleaf)
    refine .bind ((dirOpenCanonPath_takes hrel).mono ?_)
    rintro r fs₁ ⟨x, h₁, hr⟩
    refine .bind (.deref fun d hd => ?_)
    obtain ⟨rfl, hdir⟩ := hr d hd
    refine .bind ((inodeClose_takes.and (inodeClose_keeps hdir)).mono fun _ fs₂ ⟨h₂, hdir₂⟩ =>
      .pure ⟨_, rfl, ?_, hdir₂⟩)
    have := h₁.trans h₂
    rwa [add_neg_cancel] at this
  · exact dirLookup_takes

/-- The directory that holds ".." is where the walk starts. -/
theorem dirOpenCanonPath_dotdot (hleaf : cpath.getLeaf = some dotdot) :
    Ensures (dirOpenCanonPath pid cpath false) fs fun r _ => r ≠ none := by
  have hiters : numIters cpath false = 0 := by
    rw [numIters, CanonPath.tokensCnt, tokens_of_leaf_dotdot hleaf]
    rfl
  refine .bind (fun _ fs₁ _ => .bind (.bind (.get ?_)))
  rw [if_neg (not_isAbsolute_of_leaf_dotdot hleaf), hiters]
  refine .bind fun start _ _ => .bind (.pure (.bind fun _ _ _ => .pure (.bind fun _ _ _ => .pure ?_)))
  exact Option.some_ne_none start

/-- What `filesys_open` returns for a file. -/
structure FileFound (r : Option UserFile) (fs : FS) (p : InodePtr) : Prop where
  notDir : ∀ d, r ≠ some (.dir d)
  file : ∀ f, r = some (.file f) → f.denyWrite = false ∧ f.inode = p ∧ (DirOrGone fs p.sector → fs.openInode p = none)

theorem openFound_ensures : Ensures (openFound p false) fs fun r fs' => fs' = fs ∧ FileFound r fs p := by
  refine .bind (inodeIsDirectory_ensures.mono ?_)
  rintro isDir _ ⟨rfl, hdir⟩
  refine .ite (fun _ => .ite nofun fun _ => .pure ⟨rfl, nofun, nofun⟩) fun h => .pure ⟨rfl, nofun, ?_⟩
  rintro _ ⟨⟩
  exact ⟨rfl, rfl, hdir (Bool.eq_false_iff.mpr h)⟩

/-- **What `filesys_open` of a file takes**: no reference is dropped, and where it finds no file one is kept, except
for the names that open nothing. -/
structure OpenTakes (path : CStr) (fs : FS) (r : Option UserFile) (fs' : FS) (δ : Sector → ℤ) : Prop where
  takes : Takes fs δ fs'
  nonneg : 0 ≤ δ
  lost : r = none → (δ = 0 ↔ Nameless path)
  notDir : ∀ d, r ≠ some (.dir d)
  file : ∀ f, r = some (.file f) → f.denyWrite = false ∧ (Nameless path → fs'.openInode f.inode = none)

theorem openTakes_none (htakes : Takes fs δ fs') (hnonneg : 0 ≤ δ) (hlost : δ = 0 ↔ Nameless path) :
    OpenTakes path fs none fs' δ := ⟨htakes, hnonneg, fun _ => hlost, nofun, nofun⟩

theorem nameless_iff (hcanon : pathCanonicalize path = some cpath) :
    Nameless path ↔ cpath.tokensCnt = 0 ∨ cpath.getLeaf = some dotdot := by
  unfold Nameless
  rw [hcanon]
  exact ⟨fun h => h cpath rfl, fun h c hc => Option.some.inj hc ▸ h⟩

theorem filesysOpen_takes : Ensures (filesysOpen pid path false) fs fun r fs' => ∃ δ, OpenTakes path fs r fs' δ := by
  unfold filesysOpen
  cases hcanon : pathCanonicalize path with
  | none =>
    have hno : Nameless path := fun c hc => by simp [hcanon] at hc
    exact .pure ⟨0, openTakes_none (takes_of_opened rfl) le_rfl (iff_of_true rfl hno)⟩
  | some cpath =>
    refine .ite (fun h0 => .ite nofun fun _ => ?_) fun h0 => .bind (.deref fun name hleaf => ?_)
    · have hno : Nameless path := (nameless_iff hcanon).mpr (.inl h0)
      exact .pure ⟨0, openTakes_none (takes_of_opened rfl) le_rfl (iff_of_true rfl hno)⟩
    have hiff : Nameless path ↔ name = dotdot := by
      rw [nameless_iff hcanon, hleaf, or_iff_right h0, Option.some_inj]
    have hdotdot : Ensures (dirOpenCanonPath pid cpath false) fs fun r _ => name = dotdot → r ≠ none := by
      rintro r fs₁ hrun rfl
      exact dirOpenCanonPath_dotdot hleaf r fs₁ hrun
    refine .bind (((dirOpenCanonPath_takes fun _ => rfl).and hdotdot).mono ?_)
    rintro r fs₁ ⟨⟨x, h₁, hr⟩, hnone⟩
    cases r with
    | none =>
      have hname : ¬Nameless path := fun h => hnone (hiff.mp h) rfl
      exact .pure ⟨_, openTakes_none h₁ (one_nonneg x) (iff_of_false (one_ne_zero x) hname)⟩
    | some dir =>
      obtain ⟨rfl, -⟩ := hr dir rfl
      refine .bind ((openLeaf_takes hleaf).mono fun r fs₂ h₂ => ?_)
      by_cases hname : name = dotdot
      · rw [if_pos hname] at h₂
        obtain ⟨p, rfl, h₂, hdir₂⟩ := h₂
        refine .bind ((inodeClose_takes.and (inodeClose_keeps hdir₂)).mono fun _ fs₃ ⟨h₃, hdir₃⟩ => ?_)
        refine openFound_ensures.mono ?_
        rintro r _ ⟨rfl, hfound⟩
        have := (h₁.trans h₂).trans h₃
        rw [add_zero, add_neg_cancel] at this
        refine ⟨0, this, le_rfl, fun _ => iff_of_true rfl (hiff.mpr hname), hfound.notDir, fun f hf => ?_⟩
        obtain ⟨hdeny, rfl, hgone⟩ := hfound.file f hf
        exact ⟨hdeny, fun _ => hgone hdir₃⟩
      · rw [if_neg hname] at h₂
        have hnot : ¬Nameless path := hiff.not.mpr hname
        cases r with
        | none =>
          have := h₁.trans h₂
          rw [found, add_zero] at this
          exact .pure ⟨_, openTakes_none this (one_nonneg _) (iff_of_false (one_ne_zero _) hnot)⟩
        | some p =>
          refine .bind (inodeClose_takes.mono fun _ fs₃ h₃ => openFound_ensures.mono ?_)
          rintro r _ ⟨rfl, hfound⟩
          have := (h₁.trans h₂).trans h₃
          rw [add_neg_cancel_comm] at this
          refine ⟨_, this, one_nonneg _, fun _ => iff_of_false (one_ne_zero _) hnot, hfound.notDir, fun f hf => ?_⟩
          exact ⟨(hfound.file f hf).1, fun h => absurd h hnot⟩

/-! ### The counts of the kernel -/

variable {k k' k'' : Kernel} {o o' d d' : Sector → ℤ} {env : LoadEnv} {cmdLine : List UInt8} {file : File}
  {α β : Type}

/-- The references `o` are taken, and writes are denied `d` times more. -/
structure Counts (k : Kernel) (o d : Sector → ℤ) (k' : Kernel) : Prop where
  opens : Takes k.fs o k'.fs
  denies : k'.denyCnt = k.denyCnt + d

theorem counts_of_eq (hfs : k'.fs = k.fs) (hdeny : k'.denyCnt = k.denyCnt) : Counts k 0 0 k' :=
  ⟨hfs ▸ takes_of_opened rfl, by rw [hdeny, add_zero]⟩

theorem Counts.trans (h : Counts k o d k') (h' : Counts k' o' d' k'') : Counts k (o + o') (d + d') k'' :=
  ⟨h.opens.trans h'.opens, by rw [h'.denies, h.denies, add_assoc]⟩

theorem onFs_ensures {m : Op FS α} {Q : α → FS → Prop} (h : Ensures m k.fs Q) :
    Ensures (onFs m) k fun a k' => Q a k'.fs ∧ k' = { k with fs := k'.fs } :=
  .zoom (h.mono fun _ _ hq => ⟨hq, rfl⟩)

/-- An operation on files only. -/
theorem onFs_counts {m : Op FS α} {Q : α → (Sector → ℤ) → FS → Prop}
    (h : Ensures m k.fs fun a fs' => ∃ δ, Takes k.fs δ fs' ∧ Q a δ fs') :
    Ensures (onFs m) k fun a k' => ∃ δ, Counts k δ 0 k' ∧ Q a δ k'.fs ∧ k' = { k with fs := k'.fs } := by
  refine (onFs_ensures h).mono ?_
  rintro a k' ⟨⟨δ, htakes, hq⟩, hk⟩
  refine ⟨δ, ⟨htakes, ?_⟩, hq, hk⟩
  rw [hk, add_zero]

theorem onVm_ensures {m : Op VM α} :
    Ensures (onVm m) k fun a k' => m k.vm = some (a, k'.vm) ∧ k' = { k with vm := k'.vm } :=
  .zoom fun _ _ hm => ⟨hm, rfl⟩

/-! ### The pages of the executable -/

/-- `m` is `n` in memory, and for the rest it only opens the inode in `sec` again and again. -/
def Reopens (sec : Sector) (m : Op Kernel α) (n : Op VM α) : Prop :=
  ∀ k, Ensures m k fun a k' => n k.vm = some (a, k'.vm) ∧ ∃ c : ℕ, Counts k (c • one sec) 0 k'

namespace Reopens

theorem of_counts {m : Op Kernel α} {n : Op VM α}
    (h : ∀ k, Ensures m k fun a k' => n k.vm = some (a, k'.vm) ∧ Counts k 0 0 k') : Reopens sec m n :=
  fun k => (h k).mono fun _ _ ⟨hn, hc⟩ => ⟨hn, 0, by rwa [zero_nsmul]⟩

theorem pure (a : α) : Reopens sec (pure a) (pure a) := of_counts fun _ => .pure ⟨rfl, counts_of_eq rfl rfl⟩

theorem halt : Reopens sec (halt : Op Kernel α) halt := fun _ => .halt

theorem assert (b : Bool) : Reopens sec (assert b) (assert b) := by
  cases b
  · exact halt
  · exact pure ()

theorem onVm (m : Op VM α) : Reopens sec (onVm m) m := by
  refine of_counts fun k => onVm_ensures.mono ?_
  rintro a k' ⟨hm, hk⟩
  exact ⟨hm, counts_of_eq (by rw [hk]) (by rw [hk])⟩

theorem bind {m : Op Kernel α} {n : Op VM α} {f : α → Op Kernel β} {g : α → Op VM β} (h : Reopens sec m n)
    (hf : ∀ a, Reopens sec (f a) (g a)) : Reopens sec (m >>= f) (n >>= g) := by
  refine fun k => .bind ((h k).mono ?_)
  rintro a k₁ ⟨hn, c, h₁⟩
  refine (hf a k₁).mono ?_
  rintro b k₂ ⟨hg, c', h₂⟩
  refine ⟨by rw [bind_apply, hn]; exact hg, c + c', ?_⟩
  rw [add_nsmul, ← add_zero (0 : Sector → ℤ)]
  exact h₁.trans h₂

theorem ite {c : Prop} [Decidable c] {m m' : Op Kernel α} {n n' : Op VM α} (h : Reopens sec m n)
    (h' : Reopens sec m' n') : Reopens sec (if c then m else m') (if c then n else n') := by
  split_ifs
  · exact h
  · exact h'

theorem get_bind {f : Kernel → Op Kernel β} {g : VM → Op VM β} (h : ∀ k : Kernel, Reopens sec (f k) (g k.vm)) :
    Reopens sec (get >>= f) (get >>= g) := fun k => h k k

end Reopens

/-- **A page of a segment is a reference to the executable.** -/
theorem lazyAllocateRef_reopens {e : Env} {uaddr : Upage} {offset : ℕ} {length : Fin (pgSize + 1)}
    {writable : Bool} : Reopens file.inode.sector (lazyAllocateRef e uaddr file offset length pid writable)
      (lazyAllocate e uaddr ⟨some file.inode.sector, offset, length⟩ pid writable) := by
  intro k
  refine .ite (fun _ => ?_) fun hm => .pure ⟨?_, 0, ?_⟩
  · refine .bind ((onFs_ensures inodeReopen_takes).mono ?_)
    rintro p k₁ ⟨⟨rfl, h₁⟩, hk₁⟩
    refine onVm_ensures.mono ?_
    rintro a k₂ ⟨hrun, hk₂⟩
    have hvm : k₁.vm = k.vm := by rw [hk₁]
    refine ⟨by rwa [← hvm], 1, ?_, ?_⟩
    · rw [hk₂, one_nsmul]
      exact h₁
    · rw [hk₂, hk₁, add_zero]
  · show (if e.malloc && (k.vm.find ⟨pid, uaddr⟩).isNone then _ else pure false : Op VM Bool) k.vm = _
    rw [Bool.eq_false_iff.mpr hm]
    rfl
  · rw [zero_nsmul]
    exact counts_of_eq rfl rfl

theorem loadSegmentLoopRef_reopens (envs : ℕ → Env) (file : File) (w : Bool) :
    ∀ fuel i ofs upage readBytes zeroBytes : ℕ, Reopens file.inode.sector
      (loadSegmentLoopRef pid envs file w fuel i ofs upage readBytes zeroBytes)
      (loadSegmentLoop pid envs file.inode.sector w fuel i ofs upage readBytes zeroBytes)
  | 0, _, _, _, _, _ => .halt
  | fuel + 1, i, ofs, upage, readBytes, zeroBytes => by
    refine .ite (.bind lazyAllocateRef_reopens fun ok => .ite ?_ (.pure false)) (.pure true)
    exact loadSegmentLoopRef_reopens envs file w fuel _ _ _ _ _

theorem loadPhdrRef_reopens (envs : ℕ → Env) (file : File) (p : Phdr) :
    Reopens file.inode.sector (loadPhdrRef pid envs file p) (loadPhdr pid envs file.inode.sector p) :=
  .bind (.assert _) fun _ => .bind (.assert _) fun _ => .bind (.assert _) fun _ =>
    loadSegmentLoopRef_reopens envs file _ _ _ _ _ _ _

/-- What `filesys_open` finds. -/
def withFile (env : LoadEnv) (file : Option Sector) : LoadEnv := { env with file := file }

theorem loadPhdrsRef_reopens (env : LoadEnv) (found : Option Sector) (file : File) (f : FileData) :
    ∀ (left i : ℕ) (fileOfs : ℤ), Reopens file.inode.sector (loadPhdrsRef pid env file f left i fileOfs)
      (loadPhdrs pid (withFile env found) file.inode.sector f left i fileOfs)
  | 0, _, _ => .pure true
  | left + 1, i, fileOfs => by
    have hrest := loadPhdrsRef_reopens env found file f left (i + 1) (fileOfs + sizeofPhdr)
    refine .ite (.pure false) (.bind (.onVm _) fun _ => .ite (.bind (.assert _) fun _ => ?_) (.pure false))
    cases phdrKind (readPhdr f fileOfs.toNat).pType with
    | ignored => exact hrest
    | refused => exact .pure false
    | load => exact .ite (.bind (loadPhdrRef_reopens _ file _) fun ok => .ite hrest (.pure false)) (.pure false)

theorem loadFileRef_reopens (env : LoadEnv) (found : Option Sector) (file : File) (cmdLine : List UInt8) :
    Reopens file.inode.sector (loadFileRef pid env file cmdLine)
      (loadFile pid (withFile env found) file.inode.sector cmdLine) := by
  refine .get_bind fun k => .ite (.bind (loadPhdrsRef_reopens env found file _ _ _ _) fun ok => ?_) (.pure false)
  exact .ite (.onVm _) (.pure false)

/-! ### load -/

theorem update_add_one (f : Sector → ℤ) (sec : Sector) : Function.update f sec (f sec + 1) = f + one sec := by
  funext x
  rw [Pi.add_apply, one]
  by_cases hx : x = sec
  · subst hx
    rw [Function.update_self, Pi.single_eq_same]
  · rw [Function.update_of_ne hx, Pi.single_eq_of_ne hx, add_zero]

theorem fileDenyWrite_counts (hdeny : file.denyWrite = false) : Ensures (fileDenyWrite file) k fun file' k' =>
    file'.inode = file.inode ∧ Counts k 0 (one file.inode.sector) k' ∧ k'.vm = k.vm ∧
      k.fs.openInode file.inode ≠ none := by
  unfold fileDenyWrite inodeDenyWrite
  rw [hdeny]
  have hat : Ensures (inodeAt file.inode) k.fs fun inode fs' =>
      fs' = k.fs ∧ k.fs.openInode file.inode = some inode := .bind (.get (.deref fun _ ho => ⟨rfl, ho⟩))
  refine .bind (.bind ((onFs_ensures hat).mono ?_))
  rintro inode k₁ ⟨⟨hfs, ho⟩, hk₁⟩
  rw [hfs] at hk₁
  subst hk₁
  refine .bind (.get (.bind (.set (.assert fun _ => .pure ⟨rfl, ⟨takes_of_opened rfl, ?_⟩, rfl, ?_⟩))))
  · exact update_add_one k.denyCnt file.inode.sector
  · rw [ho]
    exact Option.some_ne_none inode

/-- **What a failing operation leaves behind**: no count falls, and all are the same exactly if `P` holds. -/
def Leaves (P : Prop) (k k' : Kernel) : Prop := ∃ o d, Counts k o d k' ∧ 0 ≤ o ∧ 0 ≤ d ∧ (o = 0 ∧ d = 0 ↔ P)

section Load

variable {pd : PdId} (hpd : env.pagedir = some pd)
  (hname : decide (fileNameLen cmdLine + 1 < sizeofFileName) = true)
include hpd hname

/-- `load` without a file. -/
theorem load_withFile_none (vm : VM) :
    load pid (withFile env none) cmdLine vm = some (false, createPagedir vm pid pd) := by
  unfold load withFile
  simp only [hpd, hname]
  rfl

/-- `load` of a file. -/
theorem load_withFile_some (vm : VM) (sec : Sector) : load pid (withFile env (some sec)) cmdLine vm =
    loadFile pid (withFile env (some sec)) sec cmdLine (createPagedir vm pid pd) := by
  unfold load withFile
  simp only [hpd, hname]
  rfl

end Load

/-- **`load`**: it is the `load` of the memory with the file that is found, and where it fails, all counts are
the same exactly if there is no page directory or the name opens nothing. -/
theorem loadRef_counts : Ensures (loadRef pid env cmdLine) k fun ok k' =>
    (∃ found, load pid (withFile env found) cmdLine k.vm = some (ok, k'.vm)) ∧
      (ok = false → Leaves (env.pagedir = none ∨ Nameless (fileName cmdLine)) k k') := by
  unfold loadRef
  cases hpd : env.pagedir with
  | none =>
    refine .pure ⟨⟨none, ?_⟩, fun _ => ⟨0, 0, counts_of_eq rfl rfl, le_rfl, le_rfl,
      iff_of_true ⟨rfl, rfl⟩ (.inl rfl)⟩⟩
    unfold load withFile
    simp only [hpd]
    rfl
  | some pd =>
    rw [or_iff_right (Option.some_ne_none pd)]
    refine .bind (.zoom (.modify (.bind (.assert fun hname => ?_))))
    set k₁ : Kernel := { k with vm := createPagedir k.vm pid pd }
    refine .bind ((onFs_ensures (k := k₁) filesysOpen_takes).mono ?_)
    rintro r k₂ ⟨⟨δ, ho⟩, hk₂⟩
    have h₁ : Counts k δ 0 k₂ := ⟨ho.takes, by rw [hk₂, add_zero]⟩
    have hvm₂ : k₂.vm = createPagedir k.vm pid pd := by rw [hk₂]
    cases r with
    | none =>
      refine .pure ⟨⟨none, ?_⟩, fun _ => ⟨δ, 0, h₁, ho.nonneg, le_rfl, ?_⟩⟩
      · rw [load_withFile_none hpd hname, hvm₂]
      · rw [and_iff_left rfl]
        exact ho.lost rfl
    | some uf =>
      cases uf with
      | dir d => exact absurd rfl (ho.notDir d)
      | file file =>
        obtain ⟨hdeny, hgone⟩ := ho.file file rfl
        refine .bind ((fileDenyWrite_counts hdeny).mono ?_)
        rintro file' k₃ ⟨hinode, h₂, hvm₃, hopen⟩
        refine .bind (.modify ((loadFileRef_reopens env (some file.inode.sector) file' cmdLine _).mono ?_))
        rintro ok k₄ ⟨hrun, c, h₃⟩
        rw [hinode] at hrun h₃
        have h₃' : Counts k₃ (c • one file.inode.sector) 0 k₄ := ⟨h₃.opens, h₃.denies⟩
        have hdenied : 0 + one file.inode.sector + 0 = one file.inode.sector := by rw [zero_add, add_zero]
        refine ⟨⟨some file.inode.sector, ?_⟩, fun _ => ⟨_, _, (h₁.trans h₂).trans h₃', ?_, ?_, ?_⟩⟩
        · rw [load_withFile_some hpd hname, ← hvm₂, ← hvm₃]
          exact hrun
        · rw [add_zero]
          exact add_nonneg ho.nonneg (nsmul_nonneg (one_nonneg _) c)
        · rw [hdenied]
          exact one_nonneg _
        · rw [hdenied]
          exact iff_of_false (fun h => one_ne_zero _ h.2) fun h => hopen (hgone h)

/-! ### process_execute -/

theorem processExit_counts : Ensures (processExit pid) k fun _ k' => Counts k 0 0 k' := by
  refine .bind (.get ?_)
  cases k.vm.pagedir pid with
  | none => exact .pure (counts_of_eq rfl rfl)
  | some d =>
    refine onVm_ensures.mono ?_
    rintro _ k' ⟨-, hk⟩
    exact counts_of_eq (by rw [hk]) (by rw [hk])

/-- `dir_open` keeps the reference that it is given, or drops it. -/
theorem dirOpenIf_takes {memory : Bool} : Ensures (dirOpenIf memory p) fs fun r fs' =>
    Takes fs (if memory then 0 else -one p.sector) fs' ∧ r.isSome = memory := by
  unfold dirOpenIf
  cases memory with
  | true =>
    refine .bind (dirOpen_ensures.mono ?_)
    rintro d _ ⟨-, rfl, -⟩
    exact .pure ⟨takes_of_opened rfl, rfl⟩
  | false =>
    refine .bind (inodeIsDirectory_ensures.mono ?_)
    rintro isDir _ ⟨rfl, -⟩
    exact .bind (.assert fun _ => .bind (inodeClose_takes.mono fun _ fs' h => .pure ⟨h, rfl⟩))

/-- The current directory of a process. -/
def Kernel.cwdOf (k : Kernel) (pid : Pid) : Option Dir := (k.infos pid).bind (·.cwd)

theorem cwdOf_setInfo (k : Kernel) (pid : Pid) (info : Option ProcessInfo) :
    (k.setInfo pid info).cwdOf pid = info.bind (·.cwd) := by
  show (Function.update k.infos pid info pid).bind _ = _
  rw [Function.update_self]

theorem openCwd_counts {parentPi : Option Pid} : Ensures (openCwd parentPi) k fun p k' =>
    Counts k (one p.sector) 0 k' ∧ ∀ pi, parentPi = some pi → (k.cwdOf pi).isSome = true := by
  cases parentPi with
  | none =>
    refine (onFs_ensures inodeOpen_takes).mono ?_
    rintro p k₁ ⟨⟨hp, h₁⟩, hk₁⟩
    rw [← hp] at h₁
    exact ⟨⟨h₁, by rw [hk₁, add_zero]⟩, nofun⟩
  | some pi =>
    refine .bind (.get (.bind (.deref fun info hinfo => .bind (.deref fun dir hdir => ?_))))
    refine (onFs_ensures inodeReopen_takes).mono ?_
    rintro p k₁ ⟨⟨rfl, h₁⟩, hk₁⟩
    refine ⟨⟨h₁, by rw [hk₁, add_zero]⟩, ?_⟩
    rintro _ ⟨⟩
    rw [Kernel.cwdOf, hinfo, Option.bind_some, hdir]
    rfl

/-- **`process_info_allocate`** takes a reference to the current directory, if there is memory for it. -/
theorem processInfoAllocate_counts {env : InfoEnv} {parentPi : Option Pid} :
    Ensures (processInfoAllocate env parentPi) k fun r k' =>
      (r = none → env.info = false ∧ k' = k) ∧ ∀ pid, r = some pid → env.info = true ∧
        (∀ pi, parentPi = some pi → (k.cwdOf pi).isSome = true) ∧ (k'.cwdOf pid).isSome = env.dir ∧
        ∃ sec, Counts k (if env.dir then one sec else 0) 0 k' := by
  refine .ite (fun hinfo => .bind (.get (.bind (.set (.bind (openCwd_counts.mono ?_)))))) fun hinfo =>
    .pure ⟨?_, nofun⟩
  · rintro p k₁ ⟨h₁, hparent⟩
    refine .bind ((onFs_ensures dirOpenIf_takes).mono ?_)
    rintro cwd k₂ ⟨⟨h₂, hcwd⟩, hk₂⟩
    refine .bind (.modify (.pure ⟨nofun, ?_⟩))
    rintro _ ⟨⟩
    refine ⟨hinfo, hparent, ?_, p.sector, ?_⟩
    · rw [cwdOf_setInfo]
      exact hcwd
    · have hcounts : Counts k₁ (if env.dir then 0 else -one p.sector) 0 (k₂.setInfo k.lastPid (some ⟨cwd, none⟩)) :=
        ⟨h₂, by rw [Kernel.setInfo, hk₂, add_zero]⟩
      have hall : Counts k _ _ _ := Counts.trans ⟨h₁.opens, h₁.denies⟩ hcounts
      rw [add_zero (0 : Sector → ℤ)] at hall
      split_ifs at hall ⊢
      · rwa [add_zero] at hall
      · rwa [add_neg_cancel] at hall
  · exact fun _ => ⟨Bool.eq_false_iff.mpr hinfo, rfl⟩

variable {thread : ℕ} {exec : ExecEnv} {parentPi : Pid}

/-- The child takes no reference before it fails: there is no memory to reopen the current directory, and no page
directory or a name that opens nothing. -/
def TakesNothing (exec : ExecEnv) (cmdLine : List UInt8) : Prop :=
  exec.child.dir = false ∧ (exec.load.pagedir = none ∨ Nameless (fileName cmdLine))

/-- **A failed child** gives back no reference. -/
theorem startProcess_counts : Ensures (startProcess thread exec parentPi cmdLine) k fun r k' =>
    r = none → (k.cwdOf parentPi).isSome = true ∧ Leaves (TakesNothing exec cmdLine) k k' := by
  unfold TakesNothing
  refine .bind (processInfoAllocate_counts.mono fun r k₁ ⟨_, hsome⟩ => .bind (.deref fun pid hpid => ?_))
  obtain ⟨-, hparent, -, sec, h₁⟩ := hsome pid hpid
  refine .bind (loadRef_counts.mono ?_)
  rintro ok k₂ ⟨-, hload⟩
  refine .ite (fun _ => .bind (.modify (.pure nofun))) fun hok => ?_
  obtain ⟨o, d, h₂, ho, hd, hiff⟩ := hload (Bool.eq_false_iff.mpr hok)
  have h₃ : Counts k₂ 0 0 (k₂.setInfo pid none) := counts_of_eq rfl rfl
  refine .bind (.modify (.bind (processExit_counts.mono fun _ k₃ h₄ => .pure fun _ => ⟨hparent _ rfl, ?_⟩)))
  have h := ((h₁.trans h₂).trans h₃).trans h₄
  rw [add_zero, add_zero, add_zero, add_zero, zero_add] at h
  cases hdir : exec.child.dir with
  | true =>
    rw [hdir, if_pos rfl] at h
    refine ⟨_, _, h, add_nonneg (one_nonneg sec) ho, hd, iff_of_false (fun hz => ?_) fun hno => ?_⟩
    · exact one_ne_zero sec ((add_eq_zero_iff_of_nonneg (one_nonneg sec) ho).mp hz.1).1
    · cases hno.1
  | false =>
    rw [hdir, if_neg Bool.false_ne_true, zero_add] at h
    exact ⟨_, _, h, ho, hd, hiff.trans (and_iff_right rfl).symm⟩

theorem leaves_refl {P : Prop} (h : P) (heq : Counts k 0 0 k') : Leaves P k k' :=
  ⟨0, 0, heq, le_rfl, le_rfl, iff_of_true ⟨rfl, rfl⟩ h⟩

/-- From `thread_create` on. -/
theorem runChild_counts {newPi : Bool} {pi : Pid} : Ensures (runChild thread exec newPi pi cmdLine) k fun r k' =>
    r = none → (exec.thread = none ∨ (k.cwdOf pi).isSome = true) ∧
      Leaves (exec.thread = none ∨ TakesNothing exec cmdLine) k k' := by
  have hchild : Ensures (createChild exec pi cmdLine) k fun r k' => r = none →
      (exec.thread = none ∨ (k.cwdOf pi).isSome = true) ∧
        Leaves (exec.thread = none ∨ TakesNothing exec cmdLine) k k' := by
    unfold createChild
    cases exec.thread with
    | none => exact .pure fun _ => ⟨.inl rfl, leaves_refl (.inl rfl) (counts_of_eq rfl rfl)⟩
    | some childThread =>
      rw [or_iff_right (Option.some_ne_none childThread), or_iff_right (Option.some_ne_none childThread)]
      exact startProcess_counts
  refine .bind (hchild.mono fun r k₁ hr => ?_)
  cases r with
  | some pid => exact .bind (.modify (.pure nofun))
  | none =>
    obtain ⟨hcwd, o, d, h₁, hrest⟩ := hr rfl
    refine .ite (fun _ => .bind (.modify (.pure fun _ => ⟨hcwd, o, d, ⟨h₁.opens, h₁.denies⟩, hrest⟩))) fun _ => ?_
    exact .pure fun _ => ⟨hcwd, o, d, h₁, hrest⟩

/-- **No reference is taken.** The call fails without a page for the arguments or memory for the semaphore. A caller
with a `process_info` gets no thread, or its child fails before it takes a reference; a caller without one gets no
memory for it, or no thread and no memory to open the root. -/
def Unreferenced (k : Kernel) (thread : ℕ) (exec : ExecEnv) (cmdLine : List UInt8) : Prop :=
  exec.args = false ∨ exec.sema = false ∨
    match k.processInfo thread with
    | some _ => exec.thread = none ∨ TakesNothing exec (cmdLine.take (sizeofCmdLine - 1))
    | none => exec.parent.info = false ∨ exec.thread = none ∧ exec.parent.dir = false

/-- **What a failed `exec` leaves behind**: no count falls, and all are the same exactly if no reference was taken. -/
theorem processExecute_counts : Ensures (processExecute thread exec cmdLine) k fun r k' =>
    r = none → Leaves (Unreferenced k thread exec cmdLine) k k' := by
  unfold Unreferenced
  refine .ite (fun h => .bind (.get ?_)) fun h => .pure fun _ => leaves_refl ?_ (counts_of_eq rfl rfl)
  swap
  · rcases not_and_or.mp h with h | h
    · exact .inl (Bool.eq_false_iff.mpr h)
    · exact .inr (.inl (Bool.eq_false_iff.mpr h))
  obtain ⟨hargs, hsema⟩ := h
  rw [or_iff_right (by simp [hargs]), or_iff_right (by simp [hsema])]
  cases k.processInfo thread with
  | some pi => exact runChild_counts.mono fun r k' h hr => (h hr).2
  | none =>
    refine .bind (processInfoAllocate_counts.mono ?_)
    rintro r k₁ ⟨hnone, hsome⟩
    cases r with
    | none =>
      obtain ⟨hinfo, rfl⟩ := hnone rfl
      exact .pure fun _ => leaves_refl (.inl hinfo) (counts_of_eq rfl rfl)
    | some pi =>
      obtain ⟨hinfo, -, hcwd, sec, h₁⟩ := hsome pi rfl
      refine runChild_counts.mono fun r k₂ h hr => ?_
      obtain ⟨hthread, o, d, h₂, ho, hd, hiff⟩ := h hr
      have h := h₁.trans h₂
      rw [zero_add] at h
      cases hdir : exec.parent.dir with
      | true =>
        rw [hdir, if_pos rfl] at h
        refine ⟨_, _, h, add_nonneg (one_nonneg sec) ho, hd, iff_of_false (fun hz => ?_) ?_⟩
        · exact one_ne_zero sec ((add_eq_zero_iff_of_nonneg (one_nonneg sec) ho).mp hz.1).1
        · simp [hinfo]
      | false =>
        rw [hdir, if_neg Bool.false_ne_true, zero_add] at h
        have hno : exec.thread = none := hthread.resolve_right (by simp [hcwd, hdir])
        exact ⟨_, _, h, ho, hd, iff_of_true (hiff.mpr (.inl hno)) (.inr ⟨hno, rfl⟩)⟩

/-- **All counts are what they were.** -/
structure Restored (k k' : Kernel) : Prop where
  openCnt : ∀ sec, openCnt k'.fs sec = openCnt k.fs sec
  denyCnt : ∀ sec, k'.denyCnt sec = k.denyCnt sec

theorem Counts.restored_iff (h : Counts k o d k') : Restored k k' ↔ o = 0 ∧ d = 0 := by
  constructor
  · rintro ⟨hopen, hdeny⟩
    refine ⟨add_left_cancel (a := openCnt k.fs) ?_, add_left_cancel (a := k.denyCnt) ?_⟩
    · rw [add_zero, ← h.opens]
      exact funext hopen
    · rw [add_zero, ← h.denies]
      exact funext hdeny
  · rintro ⟨rfl, rfl⟩
    refine ⟨fun sec => ?_, fun sec => ?_⟩
    · rw [show openCnt k'.fs = openCnt k.fs + 0 from h.opens, add_zero]
    · rw [h.denies, add_zero]

/-- **A failed `exec` restores every file exactly if it takes no reference**: what it takes is never given back. -/
theorem processExecute_restores_iff (h : processExecute thread exec cmdLine k = some (none, k')) :
    Restored k k' ↔ Unreferenced k thread exec cmdLine := by
  obtain ⟨o, d, hcounts, -, -, hiff⟩ := processExecute_counts none k' h rfl
  exact hcounts.restored_iff.trans hiff

/-! ### A program that is not there -/

/-- There is an empty root only, and the process 1 is there. -/
def rootKernel : Kernel where
  fs := ⟨fun sec => if sec = 1 then some (.dir 1 []) else none,
    fun sec => if sec = 1 then some ⟨0, 1, false⟩ else none, 1, [], fun _ => none, none, []⟩
  denyCnt _ := 0
  vm := freshMachine (oneSegment [0, 0x80, 0x04, 0x08])
  infos pid := if pid = 1 then some ⟨some ⟨⟨1, 0⟩, 0⟩, none⟩ else none
  processInfo thread := if thread = 1 then some 1 else none
  lastPid := 2

/-- There is memory for everything. -/
def plentyExec : ExecEnv := ⟨true, true, ⟨true, true⟩, some 2, ⟨true, true⟩, plentyEnv⟩

/-- **The root stays open** twice more. -/
theorem not_restored : ¬∀ k', processExecute 1 plentyExec [97] rootKernel = some (none, k') →
    Restored rootKernel k' := by
  have hrun : (processExecute 1 plentyExec [97] rootKernel).map (fun r => (r.1, openCnt r.2.fs 1)) =
    some (none, 3) := by
    decide +kernel
  obtain ⟨⟨r, k'⟩, hk, hr⟩ := Option.map_eq_some_iff.mp hrun
  obtain ⟨rfl, hcnt⟩ := Prod.mk.inj hr
  intro h
  have hsame := (h k' hk).openCnt 1
  rw [hcnt] at hsame
  exact absurd hsame (by decide)

/-- No thread can be created. -/
theorem restored_noThread : Restored rootKernel rootKernel := by
  have hrun : processExecute 1 { plentyExec with thread := none } [97] rootKernel = some (none, rootKernel) := rfl
  exact (processExecute_restores_iff hrun).mpr (.inr (.inr (.inl rfl)))

end Pintos.Userprog.ExecRefs
