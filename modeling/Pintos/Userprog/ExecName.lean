import Pintos.Filesys.CacheTransparency
import Pintos.Filesys.Calls

/-! # The name of an executable

`process_execute` up to the `filesys_open` of `load`, against a `filesys_open` of the calling process. The thread of
the child gets its `process_info` when `load` has succeeded, so that `load` resolves a relative name from the root. -/

namespace Pintos.Userprog.ExecName

open Pintos.Lib.Ops Pintos.Lib.Walks
open Pintos.Filesys.Path Pintos.Filesys.DentryCache Pintos.Filesys.DirState Pintos.Filesys.Directory
open Pintos.Filesys.DirTree Pintos.Filesys.OpenCanonPath Pintos.Filesys.CacheTransparency Pintos.Filesys.Calls

/-! ### The code -/

/-- `start_process` in the thread `child` of a child of `parent`, with the `filesys_open` of `load`:
`process_info_allocate` reopens the current directory of the parent, and the thread gets the `process_info` at the
end, if `load` succeeds. -/
def startProcess (child parent : Pid) (path : CStr) : Op FS (Option UserFile) := do
  let s ← get
  let parentCwd ← deref (s.cwd parent)
  let cwd ← dirReopen parentCwd
  match ← filesysOpen child path false with
  | none => return none
  | some file => do
    modify fun s => { s with cwd := Function.update s.cwd child (some cwd) }
    return some file

/-- The inode of what was opened. -/
def sectorOf (r : Option UserFile) : Option Sector := r.map fun uf => (UserFile.inode uf).sector

/-- **The child loads what the parent would open**: the same inode, or neither of them finds the file. -/
def SameFile (s : FS) (child parent : Pid) (path : CStr) : Prop :=
  ∀ r s₁ r' s₂, filesysOpen parent path false s = some (r, s₁) → startProcess child parent path s = some (r', s₂) →
    sectorOf r' = sectorOf r

/-! ### What a name stands for -/

/-- The file `name` in the directory `d`. -/
def fileAt (inodes : Inodes) (d : Sector) (name : CStr) : Option Sector :=
  match inodes d with
  | some (.dir _ es) =>
    match lookupFrom name 0 es with
    | some (e, _) =>
      match inodes e.inodeSector with
      | some (.file _) => some e.inodeSector
      | _ => none
    | none => none
  | _ => none

/-- What `filesys_open` finds from `start` on, for a relative path. The directory ".." is closed before it is looked
at: where nobody has it open, the freed inode does not look like a directory. -/
def found (s : FS) (start : Sector) (cpath : CanonPath) : Option Sector :=
  cpath.getLeaf.bind fun name =>
    (walkDir s.inodes start cpath.tokens.dropLast).bind fun d =>
      if name = dotdot then (parentDir s.inodes d).filter fun p => (s.opened p).isNone else fileAt s.inodes d name

/-- Where the ".." at the head of a path leads to. -/
def climb (inodes : Inodes) (d : Sector) (cpath : CanonPath) : Sector :=
  if cpath.tokens.head? = some dotdot then parentSector inodes d else d

/-- Where `dir_open_canon_path` starts for a relative path. -/
def startOf (s : FS) (pid : Pid) : Sector :=
  match s.cwd pid with
  | some cwd => cwd.inode.sector
  | none => rootDirSector

/-- **The state before the call**: a tree of directories, and the current directories are among them. -/
structure Sane (s : FS) : Prop where
  openOk : OpenOk s
  tree : TreeWf s.inodes
  cwd : ∀ pid cwd, s.cwd pid = some cwd → Held s cwd.inode ∧ IsDirAt s.inodes cwd.inode.sector

variable {s s' : FS} {pid child parent : Pid} {path name : CStr} {cpath : CanonPath} {dir cwd : Dir} {d : Sector}
  {expected : Option Sector}

theorem Sane.startOf_isDirAt (h : Sane s) (pid : Pid) : IsDirAt s.inodes (startOf s pid) := by
  unfold startOf
  cases hcwd : s.cwd pid with
  | none => exact h.tree.isDirAt_root
  | some cwd => exact (h.cwd pid cwd hcwd).2

/-! ### A leaf that is a name -/

/-- Inside `dir_lock`. -/
def locked (s : FS) (pid : Pid) : FS := { s with dirLock := some pid }

theorem lockAcquire_spec {Q : Unit → FS → Prop} (hl : s.dirLock = none) (h : Q () (locked s pid)) :
    Yields (dirLockAcquire pid) s Q := .bind (.get (.bind (.assert (by simp [hl]) (.set h))))

theorem lockRelease_spec {Q : Unit → FS → Prop} (hl : s.dirLock = some pid)
    (h : Q () { s with dirLock := none }) : Yields (dirLockRelease pid) s Q :=
  .bind (.get (.bind (.assert (by simp [hl]) (.set h))))

/-- `dir_lookup`. -/
theorem dirLookup_spec (hs : OpenOk s) (ht : TreeWf s.inodes) (hl : s.dirLock = none) (hh : Held s dir.inode)
    {p : Sector} {es : List DirEntry} (hd : s.inodes dir.inode.sector = some (.dir p es)) :
    Yields (dirLookup pid dir name) s fun r s' =>
      (r = none ∧ lookupFrom name 0 es = none) ∨
      ∃ q e k, r = some q ∧ lookupFrom name 0 es = some (e, k) ∧ Opened s e.inodeSector ⟨q, 0⟩ s' := by
  have hs' : OpenOk (locked s pid) := ⟨hs.cnt, hs.inode, hs.removed⟩
  have hh' : Held (locked s pid) dir.inode := hh
  have hd' : (locked s pid).inodes dir.inode.sector = some (.dir p es) := hd
  refine .bind (lockAcquire_spec hl ?_)
  refine .bind ((lookup_spec hh' hd').mono ?_)
  rintro r _ ⟨rfl, rfl⟩
  cases hlook : lookupFrom name 0 es with
  | none => exact .bind (lockRelease_spec rfl (.pure (.inl ⟨rfl, rfl⟩)))
  | some r =>
    obtain ⟨e, k⟩ := r
    obtain ⟨he, -⟩ := hasEntry_of_lookup hd hlook
    obtain ⟨ino, hino⟩ := ht.live he
    refine .bind ((inodeOpen_spec hs' hino).mono ?_)
    rintro q s₁ ⟨hop, hq, hheld, hother, hagain⟩
    have hlock : s₁.dirLock = some pid := hop.dirLock
    refine .bind (lockRelease_spec hlock (.pure (.inr ⟨q, e, k, rfl, rfl, ?_⟩)))
    refine ⟨⟨?_, hop.2.cnt, hop.2.inode, hop.2.removed⟩, hq, hheld, hother, hagain⟩
    rw [hop.1, ← hl]
    rfl

theorem inodeIsDirectory_spec {q : InodePtr} {ino : Inode} (hh : Held s q) (hino : s.inodes q.sector = some ino) :
    Yields (inodeIsDirectory q) s fun b s' => b = ino.isDir ∧ s' = s := by
  obtain ⟨o, ho, hg⟩ := hh
  refine .bind (.get ?_)
  rw [openInode_of_held ho hg, hino]
  exact .pure ⟨rfl, rfl⟩

/-- **The end of `filesys_open`** in the directory of the leaf. -/
theorem openRest_spec (hs : OpenOk s) (ht : TreeWf s.inodes) (hl : s.dirLock = none) (hh : Held s dir.inode)
    (hd : IsDirAt s.inodes dir.inode.sector) (hname : name ≠ dotdot)
    {rest : Option InodePtr → Op FS (Option UserFile)}
    (hnone : rest none = pure none)
    (hsome : ∀ q, rest (some q) = (do dirClose dir; openFound q false)) :
    Yields (openLeaf pid cpath dir name >>= rest) s fun r _ =>
      sectorOf r = fileAt s.inodes dir.inode.sector name := by
  obtain ⟨p, es, hdir⟩ := id hd
  rw [openLeaf, if_neg hname]
  refine .bind ((dirLookup_spec hs ht hl hh hdir).mono ?_)
  rintro r s₁ (⟨rfl, hlook⟩ | ⟨q, e, k, rfl, hlook, ho⟩)
  · rw [hnone]
    exact .pure (by simp [sectorOf, fileAt, hdir, hlook])
  · rw [hsome]
    obtain ⟨he, -⟩ := hasEntry_of_lookup hdir hlook
    obtain ⟨ino, hino⟩ := ht.live he
    have hsector : q.sector = e.inodeSector := ho.sector
    refine .bind ((dirClose_keeps ho hs hh hd).mono ?_)
    rintro ⟨⟩ s₂ ⟨hop, hheld⟩
    have hino₂ : s₂.inodes q.sector = some ino := by rw [hop.inodes, ho.opens.inodes, hsector, hino]
    refine .bind ((inodeIsDirectory_spec hheld hino₂).mono ?_)
    rintro b _ ⟨rfl, rfl⟩
    cases ino with
    | file par => exact .pure (by simp [sectorOf, UserFile.inode, fileAt, hdir, hlook, hino, hsector])
    | dir par es' => exact .pure (by simp [sectorOf, fileAt, hdir, hlook, hino])

/-! ### The directory of the leaf -/

/-- A handle on the directory in sector `sec`, with its open count. -/
def raise (gen : ℕ) : Option OpenInode → OpenInode
  | some o => { o with openCnt := o.openCnt + 1 }
  | none => ⟨gen, 1, false⟩

/-- What `inode_close` leaves of an open inode that is not removed. -/
def lower (o : OpenInode) : Option OpenInode :=
  if o.openCnt = 1 then none else some { o with openCnt := o.openCnt - 1 }

/-- Opening and closing once. -/
theorem lower_raise (gen : ℕ) {c : Option OpenInode} (hc : ∀ o, c = some o → 1 ≤ o.openCnt) :
    lower (raise gen c) = c := by
  cases c with
  | none => rfl
  | some o =>
    have hcnt := hc o rfl
    rw [raise, lower, if_neg (by simp only; omega)]
    simp

/-- The open inodes after `inode_open`. -/
def up (opened : Sector → Option OpenInode) (sec : Sector) (gen : ℕ) : Sector → Option OpenInode :=
  Function.update opened sec (some (raise gen (opened sec)))

/-- The open inodes after `inode_close`. -/
def down (opened : Sector → Option OpenInode) (sec : Sector) : Sector → Option OpenInode :=
  Function.update opened sec ((opened sec).bind lower)

theorem down_up {opened : Sector → Option OpenInode} {sec : Sector} (gen : ℕ)
    (hc : ∀ o, opened sec = some o → 1 ≤ o.openCnt) : down (up opened sec gen) sec = opened := by
  rw [down, up, Function.update_self, Function.update_idem, Option.bind_some, lower_raise gen hc,
    Function.update_eq_self]

/-- Closing the first of two inodes. -/
theorem down_up_up {opened : Sector → Option OpenInode} {sec : Sector} (sec' : Sector) (gen gen' : ℕ)
    (hc : ∀ o, opened sec = some o → 1 ≤ o.openCnt) :
    ∃ gen₁, down (up (up opened sec gen) sec' gen') sec = up opened sec' gen₁ ∧
      (raise gen' (up opened sec gen sec')).gen = (raise gen₁ (opened sec')).gen := by
  by_cases he : sec' = sec
  · subst he
    have hself : up opened sec' gen sec' = some (raise gen (opened sec')) := Function.update_self ..
    refine ⟨gen, down_up gen' fun o ho => ?_, by rw [hself]; rfl⟩
    obtain rfl := Option.some.inj (hself.symm.trans ho)
    cases hm : opened sec' with
    | none => exact le_rfl
    | some o =>
      have hcnt := hc o hm
      simp only [raise]
      omega
  · refine ⟨gen', ?_, by rw [up, Function.update_of_ne he]⟩
    have hdown := down_up gen hc
    unfold down up at *
    rw [Function.update_of_ne (Ne.symm he), Function.update_of_ne he, Function.update_comm he, hdown]

/-- An open inode stays the same one. -/
theorem gen_up {opened : Sector → Option OpenInode} {sec' : Sector} {o : OpenInode} (sec : Sector) (gen : ℕ)
    (ho : opened sec' = some o) : ∃ o', up opened sec gen sec' = some o' ∧ o'.gen = o.gen := by
  by_cases he : sec' = sec
  · subst he
    exact ⟨raise gen (opened sec'), Function.update_self .., by rw [ho]; rfl⟩
  · exact ⟨o, (Function.update_of_ne he ..).trans ho, rfl⟩

/-- The directory `d` in sector `sec` was opened, and nothing else happened. -/
structure Entered (s : FS) (sec : Sector) (d : Dir) (s' : FS) : Prop where
  opens : Opens s s'
  sector : d.inode.sector = sec
  raised : ∃ gen, s'.opened = up s.opened sec gen ∧ d.inode.gen = (raise gen (s.opened sec)).gen

theorem Entered.held {sec : Sector} (h : Entered s sec dir s') : Held s' dir.inode := by
  obtain ⟨gen, hopened, hgen⟩ := h.raised
  exact ⟨raise gen (s.opened sec), by rw [h.sector, hopened, up, Function.update_self], hgen.symm⟩

/-- Other handles stay good. -/
theorem Entered.keeps {sec : Sector} (h : Entered s sec dir s') {p : InodePtr} (hp : Held s p) : Held s' p := by
  obtain ⟨o, ho, hg⟩ := hp
  obtain ⟨gen, hopened, -⟩ := h.raised
  obtain ⟨o', ho', hg'⟩ := gen_up sec gen ho
  exact ⟨o', by rw [hopened, ho'], hg'.trans hg⟩

theorem inodeOpen_raise {sec : Sector} : Ensures (inodeOpen sec) s fun p s' =>
    p.sector = sec ∧ s'.inodes = s.inodes ∧
      ∃ gen, s'.opened = up s.opened sec gen ∧ p.gen = (raise gen (s.opened sec)).gen := by
  unfold up
  refine .bind (.get ?_)
  cases s.opened sec with
  | none => exact .bind (.deref fun _ _ => .bind (.set (.pure ⟨rfl, rfl, s.nextGen, rfl, rfl⟩)))
  | some o => exact .bind (.set (.pure ⟨rfl, rfl, 0, rfl, rfl⟩))

/-- `dir_open (inode_open (sec))`. -/
theorem enter_spec {sec : Sector} (hs : OpenOk s) (hd : IsDirAt s.inodes sec) :
    Yields (do let inode ← inodeOpen sec; dirOpen inode) s (Entered s sec) := by
  obtain ⟨q, es, hi⟩ := id hd
  refine .bind (((inodeOpen_spec hs hi).and_ensures inodeOpen_raise).mono ?_)
  rintro p s₁ ⟨⟨hop, rfl, hh, -, -⟩, -, -, hraise⟩
  refine (dirOpen_spec hh (hop.inodes ▸ hd)).mono ?_
  rintro d _ ⟨rfl, rfl⟩
  exact ⟨hop, rfl, hraise⟩

/-- `dir_reopen`. -/
theorem dirReopen_spec (hs : OpenOk s) (hh : Held s dir.inode) (hd : IsDirAt s.inodes dir.inode.sector) :
    Yields (dirReopen dir) s (Entered s dir.inode.sector) := by
  obtain ⟨o, ho, hg⟩ := hh
  refine .bind ((inodeReopen_spec hs ho hg).mono ?_)
  rintro p s₁ ⟨hop, rfl, hheld, hopened⟩
  refine (dirOpen_spec hheld (hop.inodes ▸ hd)).mono ?_
  rintro d _ ⟨rfl, rfl⟩
  refine ⟨hop, rfl, 0, ?_, ?_⟩
  · rw [hopened, up, ho]
    rfl
  · rw [ho]
    exact hg.symm

/-- Where a relative path starts. -/
theorem walkStart_spec (h : Sane s) (ha : cpath.isAbsolute = false) :
    Yields (walkStart pid cpath) s (Entered s (startOf s pid)) := by
  unfold walkStart startOf
  rw [if_neg (by simp [ha])]
  refine .bind (.get ?_)
  cases hcwd : s.cwd pid with
  | none => exact enter_spec h.openOk h.tree.isDirAt_root
  | some cwd => exact dirReopen_spec h.openOk (h.cwd pid cwd hcwd).1 (h.cwd pid cwd hcwd).2

/-- The walk from the directory where it starts. -/
theorem walkFrom_spec {sec : Sector} {start : Dir} (h : Sane s) (he : Entered s sec start s')
    (hd : IsDirAt s.inodes sec) (hcnt : cpath.tokensCnt ≠ 0) (hroot : cpath.isAbsolute = true → sec = rootDirSector) :
    Yields (do
      let current ← walkLoop cpath (numIters cpath false) 0 start
      cacheWalk cpath false current
      return current) s' (PathOpened s cpath (walkDir s.inodes sec cpath.tokens.dropLast)) := by
  obtain rfl := he.sector
  have hin := he.opens.inodes
  refine (walkAndCache_spec he.opens.2 (hin ▸ h.tree) he.held (hin ▸ hd) (fun _ => hcnt) hroot).mono ?_
  intro r s₂ hr
  refine ⟨he.opens.touches.trans hr.touches, ?_, ?_, fun d hd => hin ▸ hr.held d hd⟩
  · rw [← hin, ← he.opens.dentryCache]
    exact hr.cache
  · rw [hr.sector, hin]
    rfl

/-- **A relative path**: `dir_open_canon_path` walks from the current directory, or from the root. -/
theorem openCanonPath_relative (h : Sane s) (ha : cpath.isAbsolute = false) (hcnt : cpath.tokensCnt ≠ 0) :
    Yields (openCanonPath pid cpath false) s
      (PathOpened s cpath (walkDir s.inodes (startOf s pid) cpath.tokens.dropLast)) := by
  refine .bind (.get ?_)
  rw [if_neg (by simp [ha])]
  refine .bind ((walkStart_spec h ha).mono fun start s₁ he => ?_)
  exact walkFrom_spec h he (h.startOf_isDirAt pid) hcnt (by simp [ha])

theorem dirOpen_isDirAt {q : InodePtr} : Ensures (dirOpen q) s fun _ _ => IsDirAt s.inodes q.sector := by
  have hdir : Ensures (inodeIsDirectory q) s fun b _ => b = true → IsDirAt s.inodes q.sector := by
    refine .bind (.get ?_)
    cases s.openInode q with
    | none => exact .pure nofun
    | some o =>
      cases hi : s.inodes q.sector with
      | none => exact .pure nofun
      | some ino =>
        cases ino with
        | file par => exact .pure nofun
        | dir par es => exact .pure fun _ => ⟨par, es, hi⟩
  exact .bind (hdir.mono fun b _ hb => .bind (.assert fun ht => .pure (hb ht)))

/-- **An absolute path**, whatever the cache holds. -/
theorem openCanonPath_cached (h : Sane s) (ha : cpath.isAbsolute = true) (hcnt : cpath.tokensCnt ≠ 0) :
    Ensures (openCanonPath pid cpath false) s (PathOpened s cpath (answer s cpath false)) := by
  refine .bind (.get ?_)
  rw [if_pos ha, answer]
  cases hq : cacheQuery s.dentryCache cpath false with
  | some i =>
    by_cases hd : IsDirAt s.inodes i
    · exact (cacheHit_spec h.openOk hd).ensures
    · refine .bind (inodeOpen_raise.mono ?_)
      rintro p s₁ ⟨hp, hin, -⟩
      refine .bind (dirOpen_isDirAt.mono fun _ _ hp' => ?_)
      rw [hp, hin] at hp'
      exact absurd hp' hd
  | none =>
    unfold walkStart
    rw [if_pos ha]
    refine .bind ((enter_spec h.openOk h.tree.isDirAt_root).ensures.mono fun start s₁ he => ?_)
    exact (walkFrom_spec h he h.tree.isDirAt_root hcnt fun _ => rfl).ensures

/-! ### filesys_open of a name -/

theorem Sane.locked (h : Sane s) (pid : Pid) : Sane (locked s pid) :=
  ⟨⟨h.openOk.cnt, h.openOk.inode, h.openOk.removed⟩, h.tree, h.cwd⟩

theorem pathOpened_unlock {r : Option Dir} (hl : s.dirLock = none)
    (h : PathOpened (locked s pid) cpath expected r s') :
    PathOpened s cpath expected r { s' with dirLock := none } := by
  refine ⟨⟨?_, h.touches.2.cnt, h.touches.2.inode, h.touches.2.removed⟩, h.cache, h.sector, h.held⟩
  rw [h.touches.1, ← hl]
  rfl

section Name

variable (h : Sane s) (hl : s.dirLock = none) (hcanon : pathCanonicalize path = some cpath)
  (hcnt : cpath.tokensCnt ≠ 0) (hleaf : cpath.getLeaf = some name) (hname : name ≠ dotdot)
include h hl hcanon hcnt hleaf hname

theorem filesysOpen_yields
    (hopen : Yields (openCanonPath pid cpath false) (locked s pid) (PathOpened (locked s pid) cpath expected)) :
    Yields (filesysOpen pid path false) s fun r _ => sectorOf r = expected.bind fun d => fileAt s.inodes d name := by
  unfold filesysOpen
  rw [hcanon]
  dsimp only
  rw [if_neg hcnt]
  refine .bind (.deref hleaf (.bind (.bind (lockAcquire_spec hl (.bind (hopen.mono fun r s₁ hr => ?_))))))
  have hlock : s₁.dirLock = some pid := hr.touches.dirLock
  refine .bind (lockRelease_spec hlock (.pure ?_))
  have hr' := pathOpened_unlock hl hr
  have hin := hr'.touches.inodes
  rw [← hr'.sector, ← hin]
  cases r with
  | none => exact .pure rfl
  | some dir =>
    obtain ⟨hheld, hd⟩ := hr'.held dir rfl
    refine openRest_spec hr'.touches.2 (hin ▸ h.tree) rfl hheld (hin ▸ hd) hname ?_ fun q => ?_ <;> rfl

theorem filesysOpen_ensures
    (hopen : Ensures (openCanonPath pid cpath false) (locked s pid) (PathOpened (locked s pid) cpath expected)) :
    Ensures (filesysOpen pid path false) s fun r _ => sectorOf r = expected.bind fun d => fileAt s.inodes d name := by
  cases hrun : openCanonPath pid cpath false (locked s pid) with
  | some r => exact (filesysOpen_yields h hl hcanon hcnt hleaf hname ⟨r.1, r.2, hrun, hopen _ _ hrun⟩).ensures
  | none =>
    have hno : Ensures (openCanonPath pid cpath false) (locked s pid) fun _ _ => False := by
      intro a s' hm
      rw [hrun] at hm
      cases hm
    unfold filesysOpen
    rw [hcanon]
    dsimp only
    rw [if_neg hcnt]
    refine .bind (.deref fun _ _ => .bind (.bind (.bind (.get (.bind (.assert fun _ => .set ?_))))))
    exact .bind (hno.mono fun _ _ hf => hf.elim)

end Name

/-! ### filesys_open of ".." -/

theorem dirClose_down (hs : OpenOk s) (hh : Held s dir.inode) (hd : IsDirAt s.inodes dir.inode.sector) :
    Yields (dirClose dir) s fun _ s' => Opens s s' ∧ s'.opened = down s.opened dir.inode.sector := by
  obtain ⟨o, ho, hg⟩ := hh
  obtain ⟨p, es, hi⟩ := hd
  refine (inodeClose_spec hs ho hg (hs.dir ho hi)).mono fun _ s' ⟨hop, hopened⟩ => ⟨hop, ?_⟩
  rw [hopened, down, ho]
  rfl

theorem dirGetParent_enters {p : Sector} {es : List DirEntry} (hs : OpenOk s) (hh : Held s dir.inode)
    (hd : s.inodes dir.inode.sector = some (.dir p es)) (hp : IsDirAt s.inodes p) :
    Yields (dirGetParent dir) s (Entered s p) :=
  .bind (.bind (inodeData_spec hh hd (.pure (enter_spec hs hp))))

/-- A relative path, with the loop still to come. -/
theorem openStart_spec {isDir : Bool} {Q : Option Dir → FS → Prop} (h : Sane s) (ha : cpath.isAbsolute = false)
    (hloop : ∀ start s', Entered s (startOf s pid) start s' →
      Yields (walkLoop cpath (numIters cpath isDir) 0 start) s' Q) : Yields (openCanonPath pid cpath isDir) s Q := by
  have hcache : ∀ r, cacheWalk cpath isDir r = pure () := fun r => by
    cases r with
    | none => rfl
    | some dir => simp [cacheWalk, ha]
  refine .bind (.get ?_)
  rw [if_neg (by simp [ha])]
  refine .bind ((walkStart_spec h ha).mono fun start s₁ he => .bind ((hloop start s₁ he).mono fun r s₂ hr => ?_))
  rw [hcache]
  exact .bind (.pure (.pure hr))

theorem Sane.entered {sec : Sector} (h : Sane s) (he : Entered s sec dir s') : Sane s' := by
  have hin := he.opens.inodes
  refine ⟨he.opens.2, hin ▸ h.tree, fun pid cwd hcwd => ?_⟩
  rw [he.opens.cwd] at hcwd
  obtain ⟨hheld, hd⟩ := h.cwd pid cwd hcwd
  exact ⟨he.keeps hheld, hin ▸ hd⟩

theorem tokensCnt_dotdot (htok : cpath.tokens = [dotdot]) : cpath.tokensCnt = 1 := by
  rw [CanonPath.tokensCnt, htok]
  rfl

/-- After `dir_lock` is released. -/
theorem entered_unlock {sec : Sector} (hl : s.dirLock = none) (h : Entered (locked s pid) sec dir s') :
    Entered s sec dir { s' with dirLock := none } := by
  refine ⟨⟨?_, h.opens.2.cnt, h.opens.2.inode, h.opens.2.removed⟩, h.sector, h.raised⟩
  rw [h.opens.1, ← hl]
  rfl

section Dotdot

variable (h : Sane s) (hl : s.dirLock = none) (ha : cpath.isAbsolute = false) (htok : cpath.tokens = [dotdot])
include h hl ha htok

/-- The directory of the leaf "..". -/
theorem openStart_dotdot : Yields (dirOpenCanonPath pid cpath false) s fun r s' =>
    ∃ start, r = some start ∧ Entered s (startOf s pid) start s' := by
  refine .bind (lockAcquire_spec hl (.bind (openStart_spec (h.locked pid) ha fun start s₁ he => ?_)))
  have hiters : numIters cpath false = 0 := by
    rw [numIters, if_neg Bool.false_ne_true, tokensCnt_dotdot htok]
    rfl
  have hlock : s₁.dirLock = some pid := he.opens.dirLock
  rw [hiters]
  exact .pure (.bind (lockRelease_spec hlock (.pure ⟨start, rfl, entered_unlock hl he⟩)))

/-- The directory "..". -/
theorem openParent_dotdot {p : Sector} {es : List DirEntry} (hp : s.inodes (startOf s pid) = some (.dir p es)) :
    Yields (dirOpenCanonPath pid cpath true) s fun r s' => ∃ d, r = some d ∧ Entered s p d s' := by
  refine .bind (lockAcquire_spec hl (.bind (openStart_spec (h.locked pid) ha fun start s₁ he => ?_)))
  have hiters : numIters cpath true = 1 := by
    rw [numIters, if_pos rfl, tokensCnt_dotdot htok]
  have htoken : cpath.getToken 0 = some dotdot := by
    rw [CanonPath.getToken, htok]
    rfl
  have hin : s₁.inodes = s.inodes := he.opens.inodes
  have hsector : start.inode.sector = startOf s pid := he.sector
  have hstart : s₁.inodes start.inode.sector = some (.dir p es) := by rw [hin, hsector, hp]
  have hpar : IsDirAt s₁.inodes p := by
    rw [hin]
    exact h.tree.isDirAt_parent hp
  rw [hiters, walkLoop]
  refine .bind (.deref htoken ?_)
  rw [if_pos rfl]
  refine .bind ((dirGetParent_enters he.opens.2 he.held hstart hpar).mono fun parent s₂ hp₂ => ?_)
  have hstart₂ : IsDirAt s₂.inodes start.inode.sector := ⟨p, es, by rw [hp₂.opens.inodes, hstart]⟩
  refine .bind ((dirClose_down hp₂.opens.2 (hp₂.keeps he.held) hstart₂).mono ?_)
  rintro _ s₃ ⟨hop, hopened⟩
  have hop' : Opens (locked s pid) s₃ := (he.opens.trans hp₂.opens).trans hop
  have hent : Entered (locked s pid) p parent s₃ := by
    refine ⟨hop', hp₂.sector, ?_⟩
    obtain ⟨gen, h1, -⟩ := he.raised
    obtain ⟨gen', h2, hgen⟩ := hp₂.raised
    have hcnt : ∀ o, s.opened (startOf s pid) = some o → 1 ≤ o.openCnt := fun _ ho => h.openOk.cnt ho
    obtain ⟨gen₁, hdown, hgen₁⟩ := down_up_up p gen gen' hcnt
    refine ⟨gen₁, ?_, ?_⟩
    · rw [hopened, h2, h1, hsector]
      exact hdown
    · rw [hgen, h1]
      exact hgen₁
  have hlock : s₃.dirLock = some pid := hop'.dirLock
  exact .pure (.bind (lockRelease_spec hlock (.pure ⟨parent, rfl, entered_unlock hl hent⟩)))

/-- **`filesys_open` of ".."** finds the parent directory, which is no file; where nobody else has it open, its inode
is freed before `inode_is_directory` looks at it. -/
theorem filesysOpen_dotdot (hcanon : pathCanonicalize path = some cpath) :
    Yields (filesysOpen pid path false) s fun r _ =>
      sectorOf r = (parentDir s.inodes (startOf s pid)).filter fun p => (s.opened p).isNone := by
  obtain ⟨p, es, hp⟩ := h.startOf_isDirAt pid
  rw [h.tree.parentDir_eq hp, Option.filter_some]
  have hcnt := tokensCnt_dotdot htok
  have hleaf : cpath.getLeaf = some dotdot := by
    rw [CanonPath.getLeaf, hcnt, htok]
    rfl
  unfold filesysOpen
  rw [hcanon]
  dsimp only
  rw [if_neg (by omega)]
  refine .bind (.deref hleaf (.bind ((openStart_dotdot h hl ha htok).mono ?_)))
  rintro _ s₁ ⟨start, rfl, he⟩
  have hin := he.opens.inodes
  have h₁ := h.entered he
  have hl₁ : s₁.dirLock = none := he.opens.dirLock.trans hl
  have hstart : startOf s₁ pid = startOf s pid := by rw [startOf, startOf, he.opens.cwd]
  have hp₁ : s₁.inodes (startOf s₁ pid) = some (.dir p es) := by rw [hin, hstart, hp]
  dsimp only
  rw [openLeaf, if_pos rfl]
  refine .bind (.bind ((openParent_dotdot h₁ hl₁ ha htok hp₁).mono ?_))
  rintro _ s₂ ⟨d, rfl, hd⟩
  have hpar : IsDirAt s₂.inodes d.inode.sector := by
    rw [hd.sector, hd.opens.inodes, hin]
    exact h.tree.isDirAt_parent hp
  refine .bind (.deref rfl (.bind ((dirClose_down hd.opens.2 hd.held hpar).mono ?_)))
  rintro _ s₃ ⟨hop₃, hopened₃⟩
  obtain ⟨gen, h1, -⟩ := he.raised
  obtain ⟨gen', h2, hgen'⟩ := hd.raised
  -- what was opened is closed again
  have hback₃ : s₃.opened = s₁.opened := by
    rw [hopened₃, hd.sector, h2]
    exact down_up gen' fun o ho => h₁.openOk.cnt ho
  have hheld₃ : Held s₃ start.inode := by
    rw [Held, hback₃]
    exact he.held
  have hop₁₃ : Opens s s₃ := (he.opens.trans hd.opens).trans hop₃
  have hd₃ : IsDirAt s₃.inodes start.inode.sector := by
    rw [hop₁₃.inodes, he.sector]
    exact ⟨p, es, hp⟩
  refine .pure (.bind ((dirClose_down hop₃.2 hheld₃ hd₃).mono ?_))
  rintro _ s₄ ⟨hop₄, hopened₄⟩
  have hback : s₄.opened = s.opened := by
    rw [hopened₄, he.sector, hback₃, h1]
    exact down_up gen fun o ho => h.openOk.cnt ho
  have hin₄ : s₄.inodes = s.inodes := (hop₁₃.trans hop₄).inodes
  obtain ⟨q, es', hpdir⟩ := h.tree.isDirAt_parent hp
  refine .bind (.bind (.get ?_))
  rw [FS.openInode, hback, hin₄, hd.sector, hpdir]
  cases hopen : s.opened p with
  | none => exact .pure (.pure (by simp [sectorOf, UserFile.inode, hd.sector]))
  | some o =>
    obtain ⟨o', ho', hg'⟩ := gen_up (startOf s pid) gen hopen
    have hgen : o.gen = d.inode.gen := by
      rw [hgen', h1, ho']
      exact hg'.symm
    rw [Option.filter_some, if_pos (decide_eq_true hgen)]
    exact .pure (.pure (by simp [sectorOf]))

end Dotdot

/-! ### filesys_open -/

theorem tokensCnt_ne_zero (hleaf : cpath.getLeaf = some name) : cpath.tokensCnt ≠ 0 := by
  have hlt : cpath.tokensCnt - 1 < cpath.tokens.length := (List.getElem?_eq_some_iff.mp hleaf).1
  unfold CanonPath.tokensCnt at *
  omega

/-- A path without a leaf is a directory. -/
theorem filesysOpen_no_leaf (hcanon : pathCanonicalize path = some cpath) (hleaf : cpath.getLeaf = none) :
    Yields (filesysOpen pid path false) s fun r _ => sectorOf r = none := by
  have hcnt : cpath.tokensCnt = 0 := by
    by_contra hne
    rw [CanonPath.getLeaf, List.getElem?_eq_none_iff] at hleaf
    unfold CanonPath.tokensCnt at *
    omega
  unfold filesysOpen
  rw [hcanon]
  dsimp only
  rw [if_pos hcnt]
  exact .pure rfl

/-- A leaf "..", which only a path of one token has. -/
theorem tokens_of_leaf_dotdot (hleaf : cpath.getLeaf = some dotdot) : cpath.tokens = [dotdot] := by
  unfold CanonPath.getLeaf CanonPath.tokensCnt at hleaf
  have htail := cpath.canonical.not_dotdot_tail
  cases htok : cpath.tokens with
  | nil => simp [htok] at hleaf
  | cons t ts =>
    cases ts with
    | nil =>
      rw [htok] at hleaf
      exact congrArg (· :: []) (Option.some.inj hleaf)
    | cons t' ts =>
      rw [htok, List.tail_cons] at htail
      rw [htok] at hleaf
      exact absurd (List.mem_of_getElem? (i := ts.length) (by simpa using hleaf)) htail

/-- **A relative path.** -/
theorem filesysOpen_relative (h : Sane s) (hl : s.dirLock = none) (hcanon : pathCanonicalize path = some cpath)
    (ha : cpath.isAbsolute = false) :
    Yields (filesysOpen pid path false) s fun r _ => sectorOf r = found s (startOf s pid) cpath := by
  cases hleaf : cpath.getLeaf with
  | none =>
    rw [found, hleaf]
    exact filesysOpen_no_leaf hcanon hleaf
  | some name =>
    by_cases hname : name = dotdot
    · subst hname
      have htok := tokens_of_leaf_dotdot hleaf
      refine (filesysOpen_dotdot h hl ha htok hcanon).mono fun r _ hr => ?_
      rw [hr, found, hleaf, htok]
      simp [walkDir]
    · have hcnt := tokensCnt_ne_zero hleaf
      have hopen : Yields (openCanonPath pid cpath false) (locked s pid) _ :=
        openCanonPath_relative (h.locked pid) ha hcnt
      refine (filesysOpen_yields h hl hcanon hcnt hleaf hname hopen).mono fun r _ hr => ?_
      rw [hr, found, hleaf, Option.bind_some]
      simp only [if_neg hname]
      rfl

/-- **An absolute path**, in every thread. -/
theorem filesysOpen_absolute (h : Sane s) (hl : s.dirLock = none) (hcanon : pathCanonicalize path = some cpath)
    (ha : cpath.isAbsolute = true) : Ensures (filesysOpen pid path false) s fun r _ =>
      sectorOf r = cpath.getLeaf.bind fun name => (answer s cpath false).bind fun d => fileAt s.inodes d name := by
  cases hleaf : cpath.getLeaf with
  | none =>
    exact (filesysOpen_no_leaf hcanon hleaf).ensures
  | some name =>
    have hname : name ≠ dotdot := by
      rintro rfl
      exact cpath.canonical.not_dotdot ha (List.mem_of_getElem? hleaf)
    have hcnt := tokensCnt_ne_zero hleaf
    exact filesysOpen_ensures h hl hcanon hcnt hleaf hname (openCanonPath_cached (h.locked pid) ha hcnt)

/-! ### From the root and from a directory -/

theorem fileAt_some {inodes : Inodes} {f : Sector} (h : fileAt inodes d name = some f) :
    ∃ k e, HasEntry inodes d k e ∧ e.inodeSector = f := by
  unfold fileAt at h
  split at h
  · rename_i p es hd
    split at h
    · rename_i e k hlook
      obtain ⟨he, -⟩ := hasEntry_of_lookup hd hlook
      split at h
      · exact ⟨k, e, he, Option.some.inj h⟩
      · cases h
    · cases h
  · cases h

/-- A file is in one directory. -/
theorem fileAt_injective {inodes : Inodes} (ht : TreeWf inodes) {d' f : Sector} (h : fileAt inodes d name = some f)
    (h' : fileAt inodes d' name = some f) : d = d' := by
  obtain ⟨k, e, he, rfl⟩ := fileAt_some h
  obtain ⟨k', e', he', hsec⟩ := fileAt_some h'
  exact (ht.links he he' hsec.symm).1

theorem parentSector_eq {inodes : Inodes} (ht : TreeWf inodes) (hd : IsDirAt inodes d) :
    parentDir inodes d = some (parentSector inodes d) := by
  obtain ⟨p, es, hi⟩ := hd
  rw [ht.parentDir_eq hi, parentSector, hi]
  rfl

theorem climb_root (ht : TreeWf s.inodes) : climb s.inodes rootDirSector cpath = rootDirSector := by
  obtain ⟨es, hi⟩ := ht.root
  unfold climb
  split_ifs
  · rw [parentSector, hi]
    rfl
  · rfl

/-- The walk of a path with a name for a leaf, from where its ".." leads to. -/
theorem walkDir_climb (ht : TreeWf s.inodes) (hleaf : cpath.getLeaf = some name) (hname : name ≠ dotdot) :
    ∃ names, dotdot ∉ names ∧ ∀ d, IsDirAt s.inodes d →
      walkDir s.inodes d cpath.tokens.dropLast = walkDir s.inodes (climb s.inodes d cpath) names := by
  have htail := cpath.canonical.not_dotdot_tail
  unfold CanonPath.getLeaf CanonPath.tokensCnt at hleaf
  unfold climb
  cases htok : cpath.tokens with
  | nil => simp [htok] at hleaf
  | cons t ts =>
    rw [htok, List.tail_cons] at htail
    rw [htok] at hleaf
    by_cases hdd : t = dotdot
    · subst hdd
      cases ts with
      | nil => exact absurd (Option.some.inj hleaf).symm hname
      | cons t' ts =>
        refine ⟨(t' :: ts).dropLast, fun hm => htail (List.dropLast_subset _ hm), fun d hd => ?_⟩
        rw [List.dropLast_cons_cons, List.head?_cons, if_pos rfl]
        show (stepDir s.inodes d dotdot).bind _ = _
        rw [stepDir, if_pos rfl, parentSector_eq ht hd]
        rfl
    · refine ⟨(t :: ts).dropLast, fun hm => ?_, fun d _ => ?_⟩
      · rcases List.mem_cons.mp (List.dropLast_subset _ hm) with h0 | h0
        · exact hdd h0.symm
        · exact htail h0
      · rw [List.head?_cons, if_neg fun h0 => hdd (Option.some.inj h0)]

/-- **What a relative path finds** depends on where its ".." leads to, and a file is found from one directory only. -/
theorem found_climb (ht : TreeWf s.inodes) (cpath : CanonPath) : ∃ g : Sector → Option Sector,
    (∀ d, IsDirAt s.inodes d → found s d cpath = g (climb s.inodes d cpath)) ∧
    ∀ a b f, g a = some f → g b = some f → a = b := by
  cases hleaf : cpath.getLeaf with
  | none => exact ⟨fun _ => none, fun d _ => by rw [found, hleaf]; rfl, fun _ _ _ => nofun⟩
  | some name =>
    by_cases hname : name = dotdot
    · subst hname
      have htok := tokens_of_leaf_dotdot hleaf
      refine ⟨fun a => (some a).filter fun p => (s.opened p).isNone, fun d hd => ?_, fun a b f ha hb => ?_⟩
      · rw [found, hleaf, climb, htok, List.head?_cons, if_pos rfl]
        simp [walkDir, parentSector_eq ht hd]
      · obtain rfl := Option.some.inj (Option.eq_some_of_filter_eq_some ha)
        exact (Option.some.inj (Option.eq_some_of_filter_eq_some hb)).symm
    · obtain ⟨names, hdd, hwalk⟩ := walkDir_climb ht hleaf hname
      refine ⟨fun a => (walkDir s.inodes a names).bind fun x => fileAt s.inodes x name, fun d hd => ?_, ?_⟩
      · rw [found, hleaf, Option.bind_some, hwalk d hd]
        simp only [if_neg hname]
      · intro a b f ha hb
        obtain ⟨x, hx, hfx⟩ := Option.bind_eq_some_iff.mp ha
        obtain ⟨y, hy, hfy⟩ := Option.bind_eq_some_iff.mp hb
        obtain rfl := fileAt_injective ht hfx hfy
        rw [walkDir_eq_childDir hdd] at hx hy
        exact ht.rooted.walk_injective names hx hy

/-- **The same is found from a directory as from the root** exactly if the path climbs to the root, or finds nothing
from either. -/
theorem found_eq_root_iff (ht : TreeWf s.inodes) (hd : IsDirAt s.inodes d) :
    found s rootDirSector cpath = found s d cpath ↔ climb s.inodes d cpath = rootDirSector ∨
      found s rootDirSector cpath = none ∧ found s d cpath = none := by
  obtain ⟨g, hg, hinj⟩ := found_climb ht cpath
  rw [hg d hd, hg rootDirSector ht.isDirAt_root, climb_root ht]
  constructor
  · intro he
    cases hroot : g rootDirSector with
    | none => exact .inr ⟨rfl, he ▸ hroot⟩
    | some f => exact .inl (hinj _ _ f (he ▸ hroot) hroot)
  · rintro (he | ⟨h1, h2⟩)
    · rw [he]
    · rw [h1, h2]

/-! ### start_process -/

theorem startOf_parent (hcwd : s.cwd parent = some cwd) : startOf s parent = cwd.inode.sector := by
  rw [startOf, hcwd]

theorem startOf_child (hchild : s.cwd child = none) : startOf s child = rootDirSector := by
  rw [startOf, hchild]

/-- An inode that is open once more. -/
theorem found_entered (he : Entered s cwd.inode.sector dir s') (hh : Held s cwd.inode) (d : Sector) :
    found s' d cpath = found s d cpath := by
  obtain ⟨o, ho, -⟩ := hh
  obtain ⟨gen, hopened, -⟩ := he.raised
  have hopen : ∀ p, (s'.opened p).isNone = (s.opened p).isNone := by
    intro p
    rw [hopened, up]
    by_cases hp : p = cwd.inode.sector
    · rw [hp, Function.update_self, ho]
      rfl
    · rw [Function.update_of_ne hp]
  unfold found
  simp only [he.opens.inodes, hopen]

/-- `start_process` opens the file in the child, with the current directory of the parent open once more. -/
theorem startProcess_ensures {Q : Option UserFile → Prop} (h : Sane s) (hcwd : s.cwd parent = some cwd)
    (hopen : ∀ dir s', Entered s cwd.inode.sector dir s' →
      Ensures (filesysOpen child path false) s' fun r _ => Q r) :
    Ensures (startProcess child parent path) s fun r _ => Q r := by
  obtain ⟨hheld, hd⟩ := h.cwd parent cwd hcwd
  refine .bind (.get (.bind (.deref fun cwd' hcwd' => ?_)))
  obtain rfl := Option.some.inj (hcwd.symm.trans hcwd')
  refine .bind ((dirReopen_spec h.openOk hheld hd).ensures.mono fun dir s' he => ?_)
  refine .bind ((hopen dir s' he).mono fun r _ hr => ?_)
  cases r with
  | none => exact .pure hr
  | some file => exact .bind (.modify (.pure hr))

theorem startProcess_yields {Q : Option UserFile → Prop} (h : Sane s) (hcwd : s.cwd parent = some cwd)
    (hopen : ∀ dir s', Entered s cwd.inode.sector dir s' →
      Yields (filesysOpen child path false) s' fun r _ => Q r) :
    Yields (startProcess child parent path) s fun r _ => Q r := by
  obtain ⟨hheld, hd⟩ := h.cwd parent cwd hcwd
  refine .bind (.get (.bind (.deref hcwd (.bind ((dirReopen_spec h.openOk hheld hd).mono fun dir s' he => ?_)))))
  refine .bind ((hopen dir s' he).mono fun r _ hr => ?_)
  cases r with
  | none => exact .pure hr
  | some file => exact .bind (.modify (.pure hr))

/-- What both find. -/
theorem sameFile_of {q : Option Sector} (hp : Ensures (filesysOpen parent path false) s fun r _ => sectorOf r = q)
    (hc : Ensures (startProcess child parent path) s fun r _ => sectorOf r = q) : SameFile s child parent path :=
  fun r s₁ r' s₂ hr hr' => (hc r' s₂ hr').trans (hp r s₁ hr).symm

/-- The tree of "/bin/sh", in the sectors 1 to 3. -/
def binInodes : Inodes
  | 1 => some (.dir 1 [⟨2, ['b', 'i', 'n'], true⟩])
  | 2 => some (.dir 1 [⟨3, ['s', 'h'], true⟩])
  | 3 => some (.file 2)
  | _ => none

/-- The process 1 is in "/bin". -/
def binState : FS where
  inodes := binInodes
  opened := fun sec => if sec = 2 then some ⟨0, 1, false⟩ else none
  nextGen := 1
  dentryCache := []
  cwd := fun pid => if pid = 1 then some ⟨⟨2, 0⟩, 0⟩ else none
  dirLock := none
  userFiles := []

theorem hasEntry_binInodes {d k : ℕ} {e : DirEntry} (h : HasEntry binInodes d k e) :
    k = 0 ∧ (d = 1 ∧ e = ⟨2, ['b', 'i', 'n'], true⟩ ∨ d = 2 ∧ e = ⟨3, ['s', 'h'], true⟩) := by
  obtain ⟨p, es, hd, hk, hu⟩ := h
  unfold binInodes at hd
  split at hd
  · obtain ⟨rfl, rfl⟩ := by simpa using hd
    rcases k with _ | k <;> simp_all
  · obtain ⟨rfl, rfl⟩ := by simpa using hd
    rcases k with _ | k <;> simp_all
  · simp at hd
  · simp at hd

theorem binInodes_wf : TreeWf binInodes where
  root := ⟨_, rfl⟩
  live h := by
    obtain ⟨-, ⟨-, rfl⟩ | ⟨-, rfl⟩⟩ := hasEntry_binInodes h
    · exact ⟨_, rfl⟩
    · exact ⟨_, rfl⟩
  ne_root h := by
    obtain ⟨-, ⟨-, rfl⟩ | ⟨-, rfl⟩⟩ := hasEntry_binInodes h <;> decide
  names h h' _ := (hasEntry_binInodes h).1.trans (hasEntry_binInodes h').1.symm
  links h h' he := by
    obtain ⟨rfl, ⟨rfl, rfl⟩ | ⟨rfl, rfl⟩⟩ := hasEntry_binInodes h <;>
      obtain ⟨rfl, ⟨rfl, rfl⟩ | ⟨rfl, rfl⟩⟩ := hasEntry_binInodes h' <;> simp_all
  parent h hd := by
    obtain ⟨-, ⟨rfl, rfl⟩ | ⟨rfl, rfl⟩⟩ := hasEntry_binInodes h <;> simp_all [binInodes]
  linked {d p es} hd hne := by
    unfold binInodes at hd
    split at hd
    · exact absurd rfl hne
    · obtain ⟨rfl, rfl⟩ := by simpa using hd
      exact ⟨0, ⟨2, ['b', 'i', 'n'], true⟩, ⟨_, _, rfl, rfl, rfl⟩, rfl⟩
    · simp at hd
    · simp at hd

theorem binState_sane : Sane binState := by
  have hopen : ∀ {sec o}, binState.opened sec = some o → sec = 2 ∧ o = ⟨0, 1, false⟩ := by
    intro sec o ho
    obtain ⟨hsec, rfl⟩ := by simpa [binState] using ho
    exact ⟨hsec, rfl⟩
  refine ⟨⟨fun ho => ?_, fun ho => ?_, fun ho hr => ?_⟩, binInodes_wf, fun pid cwd hcwd => ?_⟩
  · obtain ⟨rfl, rfl⟩ := hopen ho
    decide
  · obtain ⟨rfl, rfl⟩ := hopen ho
    exact ⟨_, rfl⟩
  · obtain ⟨rfl, rfl⟩ := hopen ho
    cases hr
  · obtain ⟨-, rfl⟩ := by simpa [binState] using hcwd
    exact ⟨⟨⟨0, 1, false⟩, rfl, rfl⟩, 1, _, rfl⟩

end Pintos.Userprog.ExecName
