import Pintos.Filesys.OpenCanonPath

/-! # When the dentry cache is invisible

`dir_open_canon_path` on an absolute path, against the plain walk from the root. Whatever the cache holds, the
function returns the cached directory of the path or of its parent, else what the walk reaches
(`dirOpenCanonPath_absolute`). A cached parent is the right answer when the parent was asked for; when the
path itself was asked for, it never is. -/

namespace Pintos.Filesys.CacheTransparency

open Pintos.Lib.Ops Pintos.Lib.Walks Pintos.Lib.Tokens
open Pintos.Filesys.Path Pintos.Filesys.DentryCache Pintos.Filesys.DirState
open Pintos.Filesys.Directory Pintos.Filesys.DirTree Pintos.Filesys.OpenCanonPath

/-- What `dir_open_canon_path` returns for an absolute path: the answer of its queries, else the walk. -/
def answer (s : FS) (cpath : CanonPath) (isDir : Bool) : Option Sector :=
  match cacheQuery s.dentryCache cpath isDir with
  | some inumber => some inumber
  | none => walkDir s.inodes rootDirSector (target cpath isDir)

/-- The condition for a query of `dir_open_canon_path` to be harmless: if the path itself is wanted, its
parent is cached only together with it; if the parent is wanted, there is a last token to drop. -/
def QuerySafe (cache : Cache) (cpath : CanonPath) (isDir : Bool) : Prop :=
  if isDir then
    dentryCacheQuery cache cpath 0 = none → dentryCacheQuery cache cpath 1 = none
  else cpath.tokensCnt ≠ 0

instance (cache : Cache) (cpath : CanonPath) (isDir : Bool) :
    Decidable (QuerySafe cache cpath isDir) := by
  unfold QuerySafe
  infer_instance

/-- A cached pair is the walk along the tokens of its key. -/
theorem query_eq_walk {inodes : Inodes} {cache : Cache} {cpath : CanonPath} {level : ℕ} {i : Sector}
    (hc : Coherent inodes cache) (h : dentryCacheQuery cache cpath level = some i) :
    IsDirAt inodes i ∧ level < cpath.tokensCnt ∧
      walkDir inodes rootDirSector (cpath.outer level) = some i := by
  obtain ⟨path, hp, hm⟩ := mem_of_query h
  obtain ⟨hd, hw⟩ := hc path i hm
  refine ⟨hd, ?_, by rwa [tokenize_serialize hp] at hw⟩
  by_contra hl
  rw [canonPathSerialize_eq, if_pos (not_lt.mp hl)] at hp
  simp at hp

/-- Opening a cached directory. -/
theorem cacheHit_spec {s : FS} {cpath : CanonPath} {i : Sector} (hs : OpenOk s)
    (hd : IsDirAt s.inodes i) :
    Yields (do
      let inode ← inodeOpen i
      let current ← dirOpen inode
      return some current) s (PathOpened s cpath (some i)) := by
  obtain ⟨d, s', hm, ho⟩ := dirOpenSector_spec hs hd
  refine ⟨some d, s', ?_, ho.opens.touches, ?_, by simp [ho.sector], ?_⟩
  · rw [bind_apply] at hm ⊢
    rcases hi : inodeOpen i s with _ | ⟨p, s1⟩ <;> rw [hi] at hm
    · simp at hm
    · have hm' : dirOpen p s1 = some (d, s') := hm
      simp only [Option.bind_some, bind_apply, hm']
      rfl
  · rw [ho.opens.dentryCache]
    exact .refl ..
  · intro d' hd'
    obtain rfl : d = d' := by simpa using hd'
    exact ⟨ho.held, ho.sector ▸ hd⟩

theorem cacheQuery_isDirAt {inodes : Inodes} {cache : Cache} {cpath : CanonPath} {isDir : Bool}
    {i : Sector} (hc : Coherent inodes cache) (h : cacheQuery cache cpath isDir = some i) :
    IsDirAt inodes i := by
  unfold cacheQuery at h
  split at h
  · next j hj =>
    obtain rfl := by simpa using h
    split_ifs at hj
    exact (query_eq_walk hc hj).1
  · exact (query_eq_walk hc h).1

theorem openCanonPath_absolute {s : FS} (pid : Pid) {cpath : CanonPath} {isDir : Bool}
    (hs : OpenOk s) (ht : TreeWf s.inodes) (hc : Coherent s.inodes s.dentryCache)
    (ha : cpath.isAbsolute = true) (hcnt : isDir = false → cpath.tokensCnt ≠ 0) :
    Yields (openCanonPath pid cpath isDir) s (PathOpened s cpath (answer s cpath isDir)) := by
  refine .bind (.get ?_)
  rw [if_pos ha, answer]
  rcases hq : cacheQuery s.dentryCache cpath isDir with _ | i
  · refine .bind ?_
    unfold walkStart
    rw [if_pos ha]
    refine (dirOpenSector_spec hs ht.isDirAt_root).mono ?_
    intro start s1 ho
    have hin := ho.opens.inodes
    refine (walkAndCache_spec ho.opens.2 (hin ▸ ht) ho.held
      (by rw [ho.sector, hin]; exact ht.isDirAt_root) hcnt fun _ => ho.sector).mono ?_
    intro r s2 hr
    refine ⟨ho.opens.touches.trans hr.touches, ?_, ?_, ?_⟩
    · rw [← hin, ← ho.opens.dentryCache]
      exact hr.cache
    · rw [hr.sector, hin, ho.sector]
    · exact fun d hd => hin ▸ hr.held d hd
  · exact cacheHit_spec hs (cacheQuery_isDirAt hc hq)

/-- **What an absolute path opens**, for every coherent cache. -/
theorem dirOpenCanonPath_absolute {s : FS} (pid : Pid) {cpath : CanonPath} {isDir : Bool}
    (hs : OpenOk s) (ht : TreeWf s.inodes) (hc : Coherent s.inodes s.dentryCache)
    (hl : s.dirLock = none) (ha : cpath.isAbsolute = true)
    (hcnt : isDir = false → cpath.tokensCnt ≠ 0) :
    Yields (dirOpenCanonPath pid cpath isDir) s fun r s' =>
      r.map (·.inode.sector) = answer s cpath isDir ∧ s'.dirLock = none := by
  refine .bind (.bind (.get (.bind (.assert (by simp [hl]) (.set ?_)))))
  have hs' : OpenOk { s with dirLock := some pid } := ⟨hs.cnt, hs.inode, hs.removed⟩
  refine .bind ((openCanonPath_absolute pid hs' ht hc ha hcnt).mono ?_)
  intro r s1 hr
  have hlock : s1.dirLock = some pid := by rw [hr.touches.dirLock]
  exact .bind (.bind (.get (.bind (.assert (by simp [hlock]) (.set (.pure ⟨hr.sector, rfl⟩))))))

/-- Without tokens there is no parent: the loop follows a bad pointer. -/
theorem openCanonPath_no_tokens {s : FS} {pid : Pid} {cpath : CanonPath}
    (ha : cpath.isAbsolute = true) (h0 : cpath.tokensCnt = 0) :
    Ensures (openCanonPath pid cpath false) s fun _ _ => False := by
  refine .bind (.get ?_)
  have hq : cacheQuery s.dentryCache cpath false = none := by
    simp [cacheQuery, dentryCacheQuery, canonPathSerialize, h0]
  rw [if_pos ha, hq]
  refine .bind fun start s1 _ => .bind ?_
  have htok : cpath.getToken 0 = none := by
    simpa [CanonPath.getToken, CanonPath.tokensCnt] using h0
  rw [numIters, if_neg (by simp), if_pos h0, show 2 ^ 32 - 1 = 2 ^ 32 - 2 + 1 by rfl]
  unfold walkLoop
  exact .bind (.deref fun a ha' => by simp [htok] at ha')

/-- The answer is the walk exactly when the queries are harmless. -/
theorem answer_eq_walk_iff {s : FS} {cpath : CanonPath} {isDir : Bool} (ht : TreeWf s.inodes)
    (hc : Coherent s.inodes s.dentryCache) (ha : cpath.isAbsolute = true)
    (hcnt : isDir = false → cpath.tokensCnt ≠ 0) :
    answer s cpath isDir = walkDir s.inodes rootDirSector (target cpath isDir) ↔
      QuerySafe s.dentryCache cpath isDir := by
  unfold answer QuerySafe cacheQuery target
  cases isDir with
  | false =>
    simp only [Bool.false_eq_true, if_false]
    refine iff_of_true ?_ (hcnt rfl)
    rcases hq : dentryCacheQuery s.dentryCache cpath 1 with _ | i
    · rfl
    · obtain ⟨-, -, hw⟩ := query_eq_walk hc hq
      rw [outer_one] at hw
      exact hw.symm
  | true =>
    simp only [if_true]
    rcases hq0 : dentryCacheQuery s.dentryCache cpath 0 with _ | i
    · rcases hq1 : dentryCacheQuery s.dentryCache cpath 1 with _ | p
      · simp
      · obtain ⟨-, hlt, hw⟩ := query_eq_walk hc hq1
        rw [outer_one] at hw
        have hne : cpath.tokens ≠ [] := by
          rintro h0
          simp [CanonPath.tokensCnt, h0] at hlt
        have := walkDir_ne_dropLast ht hne (cpath.canonical.not_dotdot ha) hw
        simpa using Ne.symm this
    · obtain ⟨-, -, hw⟩ := query_eq_walk hc hq0
      rw [outer_zero] at hw
      simp [hw]

/-- **Transparency of the dentry cache, exactly.** For every directory tree and every coherent cache,
`dir_open_canon_path` on an absolute path returns what the plain walk reaches, a null pointer where it
fails, if and only if the queries are harmless. -/
theorem dirOpenCanonPath_eq_walk_iff {s : FS} {pid : Pid} {cpath : CanonPath} {isDir : Bool}
    (hs : OpenOk s) (ht : TreeWf s.inodes) (hc : Coherent s.inodes s.dentryCache)
    (hl : s.dirLock = none) (ha : cpath.isAbsolute = true) :
    (∃ r s', dirOpenCanonPath pid cpath isDir s = some (r, s') ∧
      r.map (·.inode.sector) = walkDir s.inodes rootDirSector (target cpath isDir)) ↔
      QuerySafe s.dentryCache cpath isDir := by
  by_cases hcnt : isDir = false → cpath.tokensCnt ≠ 0
  · obtain ⟨r, s', hrun, hr, -⟩ := dirOpenCanonPath_absolute pid hs ht hc hl ha hcnt
    rw [← answer_eq_walk_iff ht hc ha hcnt]
    constructor
    · rintro ⟨r', s'', hrun', hr'⟩
      rw [hrun] at hrun'
      obtain ⟨rfl, rfl⟩ : r = r' ∧ s' = s'' := by simpa using hrun'
      rw [← hr, hr']
    · exact fun h => ⟨r, s', hrun, hr.trans h⟩
  · push Not at hcnt
    obtain ⟨rfl, h0⟩ := hcnt
    refine iff_of_false ?_ (by simp [QuerySafe, h0])
    rintro ⟨r, s', hrun, -⟩
    refine (Ensures.bind (m := dirLockAcquire pid) ?_ : Ensures (dirOpenCanonPath pid cpath false) s
      fun _ _ => False) r s' hrun
    exact fun _ s1 _ => .bind ((openCanonPath_no_tokens ha h0).mono fun _ _ h => h.elim)

/-! ### A directory taken for its parent -/

/-- The tree of "/a/b", as directories in the sectors 1, 2 and 3. -/
def abInodes : Inodes
  | 1 => some (.dir 1 [⟨2, ['a'], true⟩])
  | 2 => some (.dir 1 [⟨3, ['b'], true⟩])
  | 3 => some (.dir 2 [])
  | _ => none

/-- That tree, nothing open, and "/a" in the dentry cache. -/
def abState : FS where
  inodes := abInodes
  opened := fun _ => none
  nextGen := 0
  dentryCache := [(['/', 'a'], 2)]
  cwd := fun _ => none
  dirLock := none
  userFiles := []

theorem hasEntry_abInodes {d k : ℕ} {e : DirEntry} (h : HasEntry abInodes d k e) :
    k = 0 ∧ (d = 1 ∧ e = ⟨2, ['a'], true⟩ ∨ d = 2 ∧ e = ⟨3, ['b'], true⟩) := by
  obtain ⟨p, es, hd, hk, hu⟩ := h
  unfold abInodes at hd
  split at hd
  · obtain ⟨rfl, rfl⟩ := by simpa using hd
    rcases k with _ | k <;> simp_all
  · obtain ⟨rfl, rfl⟩ := by simpa using hd
    rcases k with _ | k <;> simp_all
  · obtain ⟨rfl, rfl⟩ := by simpa using hd
    simp at hk
  · simp at hd

theorem abInodes_wf : TreeWf abInodes where
  root := ⟨_, rfl⟩
  live h := by
    obtain ⟨-, ⟨-, rfl⟩ | ⟨-, rfl⟩⟩ := hasEntry_abInodes h
    · exact ⟨_, rfl⟩
    · exact ⟨_, rfl⟩
  ne_root h := by
    obtain ⟨-, ⟨-, rfl⟩ | ⟨-, rfl⟩⟩ := hasEntry_abInodes h <;> decide
  names h h' _ := (hasEntry_abInodes h).1.trans (hasEntry_abInodes h').1.symm
  links h h' he := by
    obtain ⟨rfl, ⟨rfl, rfl⟩ | ⟨rfl, rfl⟩⟩ := hasEntry_abInodes h <;>
      obtain ⟨rfl, ⟨rfl, rfl⟩ | ⟨rfl, rfl⟩⟩ := hasEntry_abInodes h' <;> simp_all
  parent h hd := by
    obtain ⟨-, ⟨rfl, rfl⟩ | ⟨rfl, rfl⟩⟩ := hasEntry_abInodes h <;> simp_all [abInodes]
  linked {d p es} hd hne := by
    unfold abInodes at hd
    split at hd
    · exact absurd rfl hne
    · obtain ⟨rfl, rfl⟩ := by simpa using hd
      exact ⟨0, ⟨2, ['a'], true⟩, ⟨_, _, rfl, rfl, rfl⟩, rfl⟩
    · obtain ⟨rfl, rfl⟩ := by simpa using hd
      exact ⟨0, ⟨3, ['b'], true⟩, ⟨_, _, rfl, rfl, rfl⟩, rfl⟩
    · simp at hd

theorem abState_openOk : OpenOk abState where
  cnt h := by simp [abState] at h
  inode h := by simp [abState] at h
  removed h := by simp [abState] at h

theorem abState_coherent : Coherent abState.inodes abState.dentryCache := by
  intro path i h
  obtain ⟨rfl, rfl⟩ : path = ['/', 'a'] ∧ i = 2 := by simpa [abState] using h
  exact ⟨⟨1, _, rfl⟩, by decide⟩

/-- **The slip**: with "/a" cached and "/a/b" not, asking for the directory "/a/b" returns "/a". -/
theorem dirOpenCanonPath_not_walk :
    ¬∀ (s : FS) (pid : Pid) (cpath : CanonPath) (isDir : Bool), OpenOk s → TreeWf s.inodes →
      Coherent s.inodes s.dentryCache → s.dirLock = none → cpath.isAbsolute = true →
        ∃ r s', dirOpenCanonPath pid cpath isDir s = some (r, s') ∧
          r.map (·.inode.sector) = walkDir s.inodes rootDirSector (target cpath isDir) := by
  intro h
  obtain ⟨r, s', hrun, hr⟩ := h abState 0 (canonOf true ['a', '/', 'b']) true abState_openOk
    abInodes_wf abState_coherent rfl rfl
  have hparent : (dirOpenCanonPath 0 (canonOf true ['a', '/', 'b']) true abState).map
      (fun x => x.1.map (·.inode.sector)) = some (some 2) := by decide
  have hwalk : walkDir abState.inodes rootDirSector
      (target (canonOf true ['a', '/', 'b']) true) = some 3 := by decide
  rw [hrun] at hparent
  rw [hwalk] at hr
  simp [hr] at hparent

/-- The parent "/a" itself is opened right, from the cache. -/
theorem dirOpenCanonPath_a_eq_walk :
    QuerySafe abState.dentryCache (canonOf true ['a']) true ∧
      ∃ r s', dirOpenCanonPath 0 (canonOf true ['a']) true abState = some (r, s') ∧
        r.map (·.inode.sector) =
          walkDir abState.inodes rootDirSector (target (canonOf true ['a']) true) :=
  have hsafe : QuerySafe abState.dentryCache (canonOf true ['a']) true := by decide
  ⟨hsafe, (dirOpenCanonPath_eq_walk_iff abState_openOk abInodes_wf abState_coherent rfl rfl).mpr
    hsafe⟩

end Pintos.Filesys.CacheTransparency
