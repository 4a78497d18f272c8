import Pintos.Filesys.RemoveEntry

/-! # Coherence of the dentry cache over runs

Every call keeps the invariant of the directory layer, but for `filesys_create`: it keeps it when what
`dir_add` tells the cache is true (`CreateOk`). So in every run whose `filesys_create` calls are of this kind,
from any tree with an empty cache, each cached pair is a directory and what walking its path from the root
reaches (`coherent_of_reachable`). -/

namespace Pintos.Filesys.Coherence

open Pintos.Lib.Ops Pintos.Lib.Walks Pintos.Lib.Tokens Pintos.Lib.Runs
open Pintos.Filesys.Path Pintos.Filesys.DentryCache Pintos.Filesys.DirState
open Pintos.Filesys.Directory Pintos.Filesys.DirTree Pintos.Filesys.DirTreeUpdate
open Pintos.Filesys.OpenCanonPath Pintos.Filesys.CacheTransparency Pintos.Filesys.Calls
open Pintos.Filesys.Preserve Pintos.Filesys.AddEntry Pintos.Filesys.RemoveEntry

/-- The calls of `filesys_create` after which the cache is right. They matter only if they get as far as
writing the entry `name` into the directory `d` with the slots `es`. Then the parent tokens must lead to `d`
from the root too, unless nothing is stored for the parent (no parent token, or its key is there). For a
directory, moreover, the name is not ".." and the entry can be written, unless its key is there. An absolute
path meets the conditions on tokens by itself. -/
def CreateOk (s : FS) (pid : Pid) (path : CStr) (isDir : Bool) (room : Room) : Prop :=
  ∀ cpath name d p es, pathCanonicalize path = some cpath → cpath.getLeaf = some name →
    walkDir s.inodes (startSector s pid cpath) cpath.tokens.dropLast = some d →
    s.inodes d = some (.dir p es) → room.sector ≠ none → room.inode = true →
    name.length ≤ nameMax → lookupFrom name 0 es = none →
      (dentryCacheQuery s.dentryCache cpath 1 = none → 1 < cpath.tokensCnt →
        walkDir s.inodes rootDirSector cpath.tokens.dropLast = some d) ∧
      (isDir = true → dentryCacheQuery s.dentryCache cpath 0 = none →
        walkDir s.inodes rootDirSector cpath.tokens.dropLast = some d ∧ name ≠ dotdot ∧
          (freeSlotFrom 0 es < es.length ∨ room.entry = true))

/-- Which calls are made. -/
def ActionOk (s : FS) : Action → Prop
  | .create pid path _ isDir room => CreateOk s pid path isDir room
  | _ => True

/-- A tree of directories, with an empty dentry cache; any current directories, any open files. -/
structure Start (s : FS) : Prop where
  tree : TreeWf s.inodes
  opened : OpenOk s
  cache : s.dentryCache = []

/-! ### The calls -/

theorem leaf_of_tokens {cpath : CanonPath} {name : CStr} (h : cpath.getLeaf = some name) :
    cpath.tokens = cpath.tokens.dropLast ++ [name] := by
  unfold CanonPath.getLeaf CanonPath.tokensCnt at h
  rw [← List.getLast?_eq_getElem?] at h
  exact (List.dropLast_append_getLast? name h).symm

/-- **`filesys_create`.** -/
theorem filesysCreate_ensures {s : FS} (h : DirInv s) {pid : Pid} {path : CStr} {isDir : Bool}
    {room : Room} (hok : CreateOk s pid path isDir room) (initialSize : ℤ) :
    Ensures (filesysCreate pid path initialSize isDir room) s fun _ s' => DirInv s' := by
  unfold filesysCreate
  rcases hc : pathCanonicalize path with _ | cpath
  · exact .pure h
  refine .ite (fun _ => .pure h) fun hcnt => ?_
  refine .bind (.deref fun name hname => ?_)
  refine .bind ((dirOpenCanonPath_ensures h pid cpath fun _ => hcnt).mono ?_)
  rintro r s1 ⟨expected, hp, hex⟩
  obtain rfl := hex rfl
  have h1 : DirInv s1 := h.of_pathOpened hp
  refine .bind (.deref fun dir hdir => ?_)
  subst hdir
  obtain ⟨hheld, p, es, hd⟩ := hp.held dir rfl
  have hd1 : s1.inodes dir.inode.sector = some (.dir p es) := by rw [hp.touches.inodes, hd]
  have hw : walkDir s.inodes (startSector s pid cpath) cpath.tokens.dropLast =
      some dir.inode.sector := hp.sector.symm
  have hclose : ∀ {t : FS} {b : Bool}, DirInv t →
      Ensures (do dirClose dir; return b) t fun _ s' => DirInv s' :=
    fun ht => .bind ((inodeClose_ensures ht _).mono fun _ _ h' => .pure h'.1)
  refine .bind (.bind (inodeAt_ensures fun _ _ _ => .pure ?_))
  rcases hroom : room.sector with _ | i
  · exact .bind (.bind (.get (.pure (hclose h1))))
  refine .bind (.bind (.get (.bind (.assert fun hfree => .pure ?_))))
  simp only [Bool.and_eq_true, Option.isNone_iff_eq_none, decide_eq_true_eq] at hfree
  -- the new inode, then its entry, for a file and a directory alike
  have hadd : ∀ (ino : Inode) (length : ℤ), ino.isDir = isDir →
      (∀ q es', ino = .dir q es' → q = dir.inode.sector ∧ ∀ e ∈ es', e.inUse = false) →
      Ensures (do
        let created ← inodeCreate i length ino room.inode
        let success ← if created then dirAdd pid dir cpath name i isDir room.entry else pure false
        if !success then freeMapRelease i
        dirClose dir
        return success) s1 fun _ s' => DirInv s' := by
    intro ino length hkind hempty
    have hadding : Adding s1 dir p es i ino isDir := ⟨h1, hd1, hfree.1, hkind, hempty⟩
    refine .bind (.bind (.assert fun _ => .ite (fun hin => ?_) fun _ => ?_))
    · refine .bind (.modify (.pure (.bind ?_)))
      have hsafe : name.length ≤ nameMax → lookupFrom name 0 es = none →
          CacheSafe s1 dir es cpath name isDir room.entry := by
        intro hlen hl
        obtain ⟨hpar, hself⟩ := hok cpath name _ p es hc hname hw hd (by simp [hroom]) hin hlen hl
        constructor
        · intro hq h2
          rw [hp.touches.inodes]
          exact hpar (query_none_mono hp.cache.1 hq) h2
        · intro hb hq
          rw [hp.touches.inodes]
          exact hself hb (query_none_mono hp.cache.1 hq)
      refine (dirAdd_ensures (t := s1.setInode i (some ino)) hadding pid hsafe
        (leaf_of_tokens hname) rfl rfl rfl).mono ?_
      intro success s2 hs2
      cases success with
      | true => exact hclose hs2
      | false => exact .bind (.modify (hclose hs2))
    · refine .pure (.bind (.pure (.bind (.modify (hclose ?_)))))
      refine h1.of_eq ?_ rfl rfl
      exact Function.update_eq_self_iff.mpr hfree.1.symm
  cases isDir with
  | true =>
    refine hadd _ _ rfl fun q es' he => ?_
    obtain ⟨rfl, rfl⟩ := by simpa using he
    refine ⟨rfl, fun e he' => ?_⟩
    obtain rfl : e = zeroEntry := by simpa using he'
    rfl
  | false => exact hadd (.file dir.inode.sector) initialSize rfl (by simp)

theorem openFound_ensures {s : FS} (h : DirInv s) (q : InodePtr) (allowDir : Bool) :
    Ensures (openFound q allowDir) s fun _ s' => DirInv s' := by
  have hdir : Ensures (inodeIsDirectory q) s fun _ s' => DirInv s' := by
    refine .bind (.get ?_)
    split
    · exact .pure h
    · exact .pure h
  refine .bind (hdir.mono fun b s1 h1 => ?_)
  refine .ite (fun _ => .ite (fun _ => ?_) fun _ => .pure h1) fun _ => .pure h1
  refine .bind (dirOpen_ensures.mono ?_)
  rintro d _ ⟨rfl, -⟩
  exact .pure h1

theorem openLeaf_ensures {s : FS} (h : DirInv s) (pid : Pid) (cpath : CanonPath) (dir : Dir)
    (name : CStr) : Ensures (openLeaf pid cpath dir name) s fun _ s' => DirInv s' := by
  refine .ite (fun _ => ?_) fun _ => dirLookup_ensures h pid dir name
  refine .bind ((dirOpenCanonPath_ensures h pid cpath (by simp)).mono ?_)
  rintro r s1 ⟨expected, hp, -⟩
  refine .bind (.deref fun d _ => .bind ?_)
  exact (inodeClose_ensures (h.of_pathOpened hp) _).mono fun _ _ h' => .pure h'.1

/-- **`filesys_open`.** -/
theorem filesysOpen_ensures {s : FS} (h : DirInv s) (pid : Pid) (path : CStr) (allowDir : Bool) :
    Ensures (filesysOpen pid path allowDir) s fun _ s' => DirInv s' := by
  unfold filesysOpen
  rcases pathCanonicalize path with _ | cpath
  · exact .pure h
  refine .ite (fun _ => ?_) fun hcnt => ?_
  · refine .ite (fun _ => .ite (fun _ => ?_) fun _ => ?_) fun _ => .pure h
    · exact .bind ((dirOpenRoot_ensures h.opened).mono fun d s1 h1 => .pure (h.of_opens h1.1))
    · refine .bind (.get ?_)
      rcases s.cwd pid with _ | cwd
      · exact .pure h
      · exact .bind ((dirReopen_ensures h.opened cwd).mono fun d s1 h1 => .pure (h.of_opens h1.1))
  · refine .bind (.deref fun name _ => ?_)
    refine .bind ((dirOpenCanonPath_ensures h pid cpath fun _ => hcnt).mono ?_)
    rintro r s1 ⟨expected, hp, -⟩
    have h1 : DirInv s1 := h.of_pathOpened hp
    rcases r with _ | dir
    · exact .pure h1
    refine .bind ((openLeaf_ensures h1 pid cpath dir name).mono fun r2 s2 h2 => ?_)
    rcases r2 with _ | q
    · exact .pure h2
    · exact .bind ((inodeClose_ensures h2 _).mono fun _ s3 h3 => openFound_ensures h3.1 q allowDir)

/-- **`filesys_remove`.** -/
theorem filesysRemove_ensures {s : FS} (h : DirInv s) (pid : Pid) (path : CStr) :
    Ensures (filesysRemove pid path) s fun _ s' => DirInv s' := by
  unfold filesysRemove
  rcases pathCanonicalize path with _ | cpath
  · exact .pure h
  refine .ite (fun _ => .pure h) fun hcnt => ?_
  refine .bind (.deref fun name _ => ?_)
  refine .bind ((dirOpenCanonPath_ensures h pid cpath fun _ => hcnt).mono ?_)
  rintro r s1 ⟨expected, hp, -⟩
  have h1 : DirInv s1 := h.of_pathOpened hp
  rcases r with _ | dir
  · exact .pure h1
  refine .bind ((dirRemove_ensures h1 pid dir name).mono fun b s2 h2 => ?_)
  exact .bind ((inodeClose_ensures h2 _).mono fun _ s3 h3 => .pure h3.1)

/-- **`sys_chdir`.** -/
theorem sysChdir_ensures {s : FS} (h : DirInv s) (pid : Pid) (path : CStr) :
    Ensures (sysChdir pid path) s fun _ s' => DirInv s' := by
  unfold sysChdir
  rcases pathCanonicalize path with _ | cpath
  · exact .pure h
  refine .bind (.get (.bind (.deref fun oldDir _ => ?_)))
  refine .bind ((dirOpenCanonPath_ensures h pid cpath (by simp)).mono ?_)
  rintro r s1 ⟨expected, hp, -⟩
  have h1 : DirInv s1 := h.of_pathOpened hp
  rcases r with _ | dir
  · exact .pure h1
  have h2 : DirInv { s1 with cwd := Function.update s1.cwd pid (some dir) } := h1.of_eq rfl rfl rfl
  refine .bind (.modify (.bind ?_))
  exact (inodeClose_ensures h2 _).mono fun _ s3 h3 => .pure h3.1

/-- **The step**: every call, when it is `ActionOk`, keeps the invariant. -/
theorem step_inv {s s' : FS} {a : Action} (h : DirInv s) (hok : ActionOk s a) (hs : Step s a s') :
    DirInv s' := by
  have hrun : Ensures a.run s fun _ t => DirInv t := by
    cases a with
    | create pid path initialSize isDir room =>
      exact .bind ((filesysCreate_ensures h hok initialSize).mono fun _ _ h' => .pure h')
    | «open» pid path allowDir =>
      refine .bind ((filesysOpen_ensures h pid path allowDir).mono fun r s1 h1 => ?_)
      rcases r with _ | uf
      · exact .pure h1
      · exact .modify (h1.of_eq rfl rfl rfl)
    | remove pid path => exact .bind ((filesysRemove_ensures h pid path).mono fun _ _ h' => .pure h')
    | chdir pid path => exact .bind ((sysChdir_ensures h pid path).mono fun _ _ h' => .pure h')
    | close uf =>
      have h1 : DirInv { s with userFiles := s.userFiles.erase uf } := h.of_eq rfl rfl rfl
      refine .bind (.get (.bind (.assert fun _ => .bind (.set ?_))))
      exact (inodeClose_ensures h1 _).mono fun _ _ h' => h'.1
  exact hrun () s' hs

/-- The invariant of the runs whose calls are `ActionOk`. -/
theorem dirInv_invariant : Invariant Start (Guarded ActionOk Step) DirInv where
  start hs := ⟨hs.tree, hs.opened, by rw [hs.cache]; exact ⟨by simp [Coherent], by simp⟩⟩
  step hi hr := step_inv hi hr.1 hr.2

/-- **Coherence of the dentry cache**: from any tree with an empty cache, after any calls that are
`ActionOk`, every entry of the cache names a directory, and walking its path from the root reaches it. -/
theorem coherent_of_reachable {s : FS} (h : Reachable Start (Guarded ActionOk Step) s) :
    ∀ path inumber, (path, inumber) ∈ s.dentryCache → IsDirAt s.inodes inumber ∧
      walkDir s.inodes rootDirSector (tokenize slash path) = some inumber :=
  (h.of_invariant dirInv_invariant).cache.coherent

/-! ### A relative path cached as an absolute one -/

/-- The tree of "/a/b" with process 0 in "/a". -/
def inA : FS where
  inodes := abInodes
  opened := fun sec => if sec = 2 then some ⟨0, 1, false⟩ else none
  nextGen := 1
  dentryCache := []
  cwd := fun pid => if pid = 0 then some ⟨⟨2, 0⟩, 0⟩ else none
  dirLock := none
  userFiles := []

theorem inA_start : Start inA where
  tree := abInodes_wf
  opened := by
    have hopen : ∀ {sec o}, inA.opened sec = some o → sec = 2 ∧ o = ⟨0, 1, false⟩ := by
      intro sec o h
      simp only [inA] at h
      split_ifs at h with hs
      exact ⟨hs, by simpa using h.symm⟩
    refine ⟨fun h => ?_, fun h => ?_, fun h hr => ?_⟩ <;> obtain ⟨rfl, rfl⟩ := hopen h
    · exact le_rfl
    · exact ⟨_, rfl⟩
    · simp at hr
  cache := rfl

/-- Process 0 makes the directory `path`, in sector 4. -/
def mkdirC (path : CStr) : Action := .create 0 path 0 true ⟨some 4, true, true⟩

def afterMkdir (path : CStr) : FS := (((mkdirC path).run inA).map (·.2)).getD inA

theorem step_mkdir {path : CStr} (h : ((mkdirC path).run inA).isSome = true) :
    Step inA (mkdirC path) (afterMkdir path) := by
  obtain ⟨⟨⟨⟩, s'⟩, hs⟩ := Option.isSome_iff_exists.mp h
  simp [Step, afterMkdir, hs]

/-- **The slip**: a process in "/a" makes the directory "c"; the cache then says that "/c" is a directory,
and there is none. -/
theorem not_coherent_of_reachable :
    ¬∀ s, Reachable Start Step s → ∀ path inumber, (path, inumber) ∈ s.dentryCache →
      IsDirAt s.inodes inumber ∧
        walkDir s.inodes rootDirSector (tokenize slash path) = some inumber := by
  intro h
  have hstep : Step inA (mkdirC ['c']) (afterMkdir ['c']) := step_mkdir (by decide)
  have hmem : (['/', 'c'], 4) ∈ (afterMkdir ['c']).dentryCache := by decide
  have hwalk : walkDir (afterMkdir ['c']).inodes rootDirSector (tokenize slash ['/', 'c']) = none := by
    decide
  obtain ⟨-, hw⟩ := h _ (.step (.start inA_start) hstep) _ _ hmem
  rw [hwalk] at hw
  simp at hw

/-- Made as "/c", the directory is cached right. -/
theorem coherent_of_reachable_mkdir :
    (['/', 'c'], 4) ∈ (afterMkdir ['/', 'c']).dentryCache ∧
      ∀ path inumber, (path, inumber) ∈ (afterMkdir ['/', 'c']).dentryCache →
        IsDirAt (afterMkdir ['/', 'c']).inodes inumber ∧
          walkDir (afterMkdir ['/', 'c']).inodes rootDirSector (tokenize slash path) =
            some inumber := by
  have hok : ActionOk inA (mkdirC ['/', 'c']) := by
    intro cpath name d p es hc hname hw hd _ _ _ _
    obtain rfl : canonOf true ['c'] = cpath := by simpa [pathCanonicalize] using hc
    obtain rfl : ['c'] = name := by simpa using (show some ['c'] = some name from hname)
    exact ⟨fun _ h1 => absurd h1 (by decide), fun _ _ => ⟨hw, by decide, .inr rfl⟩⟩
  exact ⟨by decide, coherent_of_reachable (.step (.start inA_start) ⟨hok, step_mkdir (by decide)⟩)⟩

end Pintos.Filesys.Coherence
