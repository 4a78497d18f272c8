import Pintos.Filesys.Preserve

/-! # Opening a path and adding a name

`dir_open_canon_path` for any path, absolute or relative, keeps the invariant and opens what the walk from
the path's start reaches. `dir_add` tells the cache about its entry as if the path were absolute, and also
when the entry could not be written; `CacheSafe` says when that does no harm. -/

namespace Pintos.Filesys.AddEntry

open Pintos.Lib.Ops Pintos.Lib.Walks Pintos.Lib.Tokens Pintos.Lib.Runs
open Pintos.Filesys.Path Pintos.Filesys.DentryCache Pintos.Filesys.DirState
open Pintos.Filesys.Directory Pintos.Filesys.DirTree Pintos.Filesys.DirTreeUpdate
open Pintos.Filesys.OpenCanonPath Pintos.Filesys.CacheTransparency Pintos.Filesys.Calls
open Pintos.Filesys.Preserve

/-! ### Opening a path -/

/-- The sector of the directory where a path starts. -/
def startSector (s : FS) (pid : Pid) (cpath : CanonPath) : Sector :=
  if cpath.isAbsolute then rootDirSector
  else
    match s.cwd pid with
    | some cwd => cwd.inode.sector
    | none => rootDirSector

theorem walkStart_ensures {s : FS} (h : DirInv s) (pid : Pid) (cpath : CanonPath) :
    Ensures (walkStart pid cpath) s fun d s' => Opens s s' ∧ Held s' d.inode ∧
      d.inode.sector = startSector s pid cpath ∧ IsDirAt s.inodes d.inode.sector := by
  have hroot : Ensures dirOpenRoot s fun d s' => Opens s s' ∧ Held s' d.inode ∧
      d.inode.sector = rootDirSector ∧ IsDirAt s.inodes d.inode.sector :=
    (dirOpenRoot_ensures h.opened).mono fun d s' ⟨h1, h2, h3, h4⟩ => ⟨h1, h2, h3, h3 ▸ h4⟩
  unfold walkStart startSector
  refine .ite (fun ha => ?_) fun ha => ?_
  · rw [if_pos ha]
    exact hroot
  · rw [if_neg ha]
    refine .bind (.get ?_)
    rcases hc : s.cwd pid with _ | cwd
    · exact hroot
    · refine (dirReopen_ensures h.opened cwd).mono ?_
      rintro d s' ⟨h1, h2, h3, h4⟩
      exact ⟨h1, h2, by rw [h3], by rw [h3]; exact h4⟩

/-- `dir_open_canon_path` for any path, if it returns. For the parent of a path it is the walk. -/
theorem openCanonPath_ensures {s : FS} (h : DirInv s) (pid : Pid) (cpath : CanonPath) {isDir : Bool}
    (hcnt : isDir = false → cpath.tokensCnt ≠ 0) :
    Ensures (openCanonPath pid cpath isDir) s fun r s' => ∃ expected,
      PathOpened s cpath expected r s' ∧ (isDir = false →
        expected = walkDir s.inodes (startSector s pid cpath) cpath.tokens.dropLast) := by
  by_cases ha : cpath.isAbsolute = true
  · refine ((openCanonPath_absolute pid h.opened h.tree h.cache.coherent ha hcnt).mono ?_).ensures
    intro r s' hr
    refine ⟨_, hr, ?_⟩
    rintro rfl
    rw [(answer_eq_walk_iff h.tree h.cache.coherent ha hcnt).mpr (by simpa [QuerySafe] using hcnt),
      startSector, if_pos ha]
    rfl
  · refine .bind (.get ?_)
    rw [if_neg ha]
    refine .bind ((walkStart_ensures h pid cpath).mono ?_)
    rintro start s1 ⟨hop, hheld, hsec, hd⟩
    refine ((walkAndCache_spec hop.2 (hop.inodes ▸ h.tree) hheld (hop.inodes ▸ hd) hcnt
      fun ha' => absurd ha' ha).mono ?_).ensures
    intro r s2 hr
    refine ⟨_, ⟨hop.touches.trans hr.touches, ?_, hr.sector, fun d hd' => ?_⟩, ?_⟩
    · rw [← hop.inodes, ← hop.dentryCache]
      exact hr.cache
    · exact hop.inodes ▸ hr.held d hd'
    · rintro rfl
      rw [hop.inodes, hsec]
      rfl

/-- Taking `dir_lock` around an operation that leaves it alone. -/
theorem locked_ensures {α : Type} {s : FS} {pid : Pid} {m : Op FS α} {Q : α → FS → Prop}
    (h : s.dirLock = none → Ensures m { s with dirLock := some pid } fun a s' =>
      s'.dirLock = some pid → Q a { s' with dirLock := none }) :
    Ensures (do
      dirLockAcquire pid
      let a ← m
      dirLockRelease pid
      return a) s Q := by
  refine .bind (.bind (.get (.bind (.assert fun hl => .set ?_))))
  refine .bind ((h (by simpa using hl)).mono ?_)
  intro a s' hq
  refine .bind (.bind (.get (.bind (.assert fun hl' => .set (.pure (hq ?_))))))
  simpa using hl'

/-- `dir_open_canon_path`, with its lock. -/
theorem dirOpenCanonPath_ensures {s : FS} (h : DirInv s) (pid : Pid) (cpath : CanonPath)
    {isDir : Bool} (hcnt : isDir = false → cpath.tokensCnt ≠ 0) :
    Ensures (dirOpenCanonPath pid cpath isDir) s fun r s' => ∃ expected,
      PathOpened s cpath expected r s' ∧ (isDir = false →
        expected = walkDir s.inodes (startSector s pid cpath) cpath.tokens.dropLast) := by
  refine locked_ensures fun hl => ?_
  have h1 : DirInv { s with dirLock := some pid } := h.of_eq rfl rfl rfl
  refine (openCanonPath_ensures h1 pid cpath hcnt).mono ?_
  rintro r s' ⟨expected, hp, he⟩ hl'
  refine ⟨expected, ⟨⟨?_, ?_⟩, hp.cache, hp.sector, hp.held⟩, he⟩
  · conv_lhs => rw [hp.touches.1]
    simp [hl]
  · exact ⟨hp.touches.2.cnt, hp.touches.2.inode, hp.touches.2.removed⟩

/-! ### Looking up -/

theorem inodeData_ensures {s : FS} {p : InodePtr} {Q : Inode → FS → Prop}
    (h : ∀ ino, Held s p → s.inodes p.sector = some ino → Q ino s) :
    Ensures (inodeData p) s Q := by
  refine .bind (inodeAt_ensures fun o ho hg => ?_)
  exact .bind (.get (.deref fun ino hi => h ino ⟨o, ho, hg⟩ hi))

theorem dirEntries_ensures {s : FS} {d : Dir} {Q : List DirEntry → FS → Prop}
    (h : ∀ p es, Held s d.inode → s.inodes d.inode.sector = some (.dir p es) → Q es s) :
    Ensures (dirEntries d) s Q := by
  refine .bind (inodeData_ensures fun ino hh hi => ?_)
  cases ino with
  | file p => exact .halt
  | dir p es => exact .pure (h p es hh hi)

theorem lookup_ensures {s : FS} {d : Dir} {name : CStr} {Q : Option (DirEntry × ℕ) → FS → Prop}
    (h : ∀ p es, Held s d.inode → s.inodes d.inode.sector = some (.dir p es) →
      Q (lookupFrom name 0 es) s) : Ensures (lookup d name) s Q :=
  .bind (dirEntries_ensures fun p es hh hi => .pure (h p es hh hi))

/-- `dir_lookup` keeps the invariant. -/
theorem dirLookup_ensures {s : FS} (h : DirInv s) (pid : Pid) (d : Dir) (name : CStr) :
    Ensures (dirLookup pid d name) s fun _ s' => DirInv s' := by
  refine .bind (.bind (.get (.bind (.assert fun _ => .set ?_))))
  have h1 : DirInv { s with dirLock := some pid } := h.of_eq rfl rfl rfl
  refine .bind (lookup_ensures fun p es _ _ => ?_)
  rcases lookupFrom name 0 es with _ | ⟨e, k⟩
  · exact .bind (.bind (.get (.bind (.assert fun _ => .set (.pure (h1.of_eq rfl rfl rfl))))))
  · refine .bind ((inodeOpen_ensures h1.opened _).mono ?_)
    rintro q s2 ⟨hop, -⟩
    exact .bind (.bind (.get (.bind (.assert fun _ => .set (.pure
      ((h1.of_opens hop).of_eq rfl rfl rfl))))))

/-! ### Adding a name -/

/-- `dentry_cache_append` keeps the cache, if a pair it really adds is a walk. -/
theorem cacheOk_append {inodes : Inodes} {cache : Cache} {cpath : CanonPath} {level : ℕ}
    {i : Sector} (h : CacheOk inodes cache) (hi : IsDirAt inodes i)
    (hnew : ∀ path, canonPathSerialize cpath level = some path → hashFind cache path = none →
      walkDir inodes rootDirSector (cpath.outer level) = some i) :
    CacheOk inodes (dentryCacheAppend cache cpath level i).1 where
  coherent path j hx := by
    rcases mem_append hx with hx | ⟨hs, rfl, hf⟩
    · exact h.coherent path j hx
    · exact ⟨hi, by rw [tokenize_serialize hs]; exact hnew path hs hf⟩
  no_dotdot x hx := by
    rcases mem_append hx with hx | ⟨hs, -, -⟩
    · exact h.no_dotdot x hx
    · rw [tokenize_serialize hs]
      exact fun hd => cpath.canonical.not_dotdot_tail (tail_subset_of_outer hd)

/-- What `filesys_create` hands to `dir_add`: a directory, and a new inode in a sector that was free. -/
structure Adding (s : FS) (d : Dir) (p : Sector) (es : List DirEntry) (i : Sector) (ino : Inode)
    (isDir : Bool) : Prop where
  inv : DirInv s
  dir : s.inodes d.inode.sector = some (.dir p es)
  sector : s.inodes i = none
  kind : ino.isDir = isDir
  empty : ∀ q es', ino = .dir q es' → q = d.inode.sector ∧ ∀ e ∈ es', e.inUse = false

/-- When telling the cache about the new entry is right: the key of the parent stands for the parent, the key
of a directory for the new directory, and the entry of a directory can be written. Keys that are there
already are not touched. -/
structure CacheSafe (s : FS) (d : Dir) (es : List DirEntry) (cpath : CanonPath) (name : CStr)
    (isDir room : Bool) : Prop where
  parent : dentryCacheQuery s.dentryCache cpath 1 = none → 1 < cpath.tokensCnt →
    walkDir s.inodes rootDirSector cpath.tokens.dropLast = some d.inode.sector
  self : isDir = true → dentryCacheQuery s.dentryCache cpath 0 = none →
    walkDir s.inodes rootDirSector cpath.tokens.dropLast = some d.inode.sector ∧
      name ≠ dotdot ∧ (freeSlotFrom 0 es < es.length ∨ room = true)

section Adding

variable {s : FS} {d : Dir} {p i : Sector} {es : List DirEntry} {ino : Inode} {isDir : Bool}
  {cpath : CanonPath} {name : CStr} {room : Bool}

theorem Adding.canAdd (h : Adding s d p es i ino isDir) (hn : lookupFrom name 0 es = none) :
    CanAdd s.inodes d.inode.sector p es (freeSlotFrom 0 es) name i ino where
  dir := h.dir
  slot := by simpa using (freeSlotFrom_spec 0 es).2.1
  free := by simpa using (freeSlotFrom_spec 0 es).2.2
  name := hn
  sector := h.sector
  empty := h.empty

/-- The cache after `dir_add`, over any inodes that keep the walks of the old ones. -/
theorem cacheOk_added {inodes' : Inodes}
    (hsafe : CacheSafe s d es cpath name isDir room) (hcache : CacheOk inodes' s.dentryCache)
    (hwalk : ∀ {w ts}, walkDir s.inodes rootDirSector ts = some w →
      walkDir inodes' rootDirSector ts = some w)
    (hdir : IsDirAt inodes' d.inode.sector)
    (hself : isDir = true → dentryCacheQuery s.dentryCache cpath 0 = none → IsDirAt inodes' i ∧
      walkDir inodes' rootDirSector cpath.tokens = some i) :
    CacheOk inodes' (dentryCacheAppend
      (if isDir = true then (dentryCacheAppend s.dentryCache cpath 0 i).1 else s.dentryCache)
      cpath 1 d.inode.sector).1 := by
  have hparent : ∀ path, canonPathSerialize cpath 1 = some path →
      hashFind s.dentryCache path = none →
        walkDir inodes' rootDirSector (cpath.outer 1) = some d.inode.sector := by
    intro path hs hf
    have h1 : 1 < cpath.tokensCnt := by
      by_contra hl
      rw [canonPathSerialize_eq, if_pos (by omega)] at hs
      simp at hs
    rw [outer_one]
    exact hwalk (hsafe.parent (query_of_serialize hs hf) h1)
  by_cases hb : isDir = true
  · rw [if_pos hb]
    by_cases hq : dentryCacheQuery s.dentryCache cpath 0 = none
    · obtain ⟨hi, hw⟩ := hself hb hq
      refine cacheOk_append (cacheOk_append hcache hi fun path _ _ => by rwa [outer_zero]) hdir ?_
      exact fun path hs hf => hparent path hs (hashFind_none_mono subset_append hf)
    · -- the key of the directory is there already: the first append does nothing
      have hsame : (dentryCacheAppend s.dentryCache cpath 0 i).1 = s.dentryCache := by
        unfold dentryCacheQuery at hq
        unfold dentryCacheAppend
        split at hq
        · exact absurd rfl hq
        · obtain ⟨j, hj⟩ := Option.ne_none_iff_exists'.mp hq
          simp [hj]
      rw [hsame]
      exact cacheOk_append hcache hdir hparent
  · rw [if_neg hb]
    exact cacheOk_append hcache hdir hparent

theorem Adding.ne (h : Adding s d p es i ino isDir) : d.inode.sector ≠ i := by
  intro he
  have := h.dir
  rw [he, h.sector] at this
  simp at this

/-- The open inodes stay in order when a new inode and its entry appear. -/
theorem openOk_added (h : Adding s d p es i ino isDir) (hn : lookupFrom name 0 es = none) {s' : FS}
    (ho : s'.opened = s.opened)
    (hi : s'.inodes = added s.inodes d.inode.sector p es (freeSlotFrom 0 es) name i ino) :
    OpenOk s' := by
  have hadd := h.canAdd hn
  refine ⟨fun h' => h.inv.opened.cnt (ho ▸ h'), fun {sec o} h' => ?_, fun {sec o} h' hr => ?_⟩
  · obtain ⟨old, hold⟩ := h.inv.opened.inode (ho ▸ h')
    rw [hi]
    rcases added_old hadd hold with ⟨-, hnew⟩ | ⟨rfl, -⟩
    · exact ⟨old, hnew⟩
    · exact ⟨_, added_dir⟩
  · have hold := ho ▸ h'
    obtain ⟨⟨q, hq⟩, hl⟩ := h.inv.opened.removed hold hr
    rw [hi]
    refine ⟨⟨q, ?_⟩, fun x k e he => ?_⟩
    · rcases added_old hadd hq with ⟨-, hnew⟩ | ⟨-, hd⟩
      · exact hnew
      · simp at hd
    · rcases (hasEntry_added hadd).mp he with he | ⟨-, -, rfl⟩
      · exact hl x k e he
      · rintro rfl
        rw [h.sector] at hq
        simp at hq

/-- **`dir_add` of a new name**: with the entry written, the invariant holds; else it holds once the sector
of the new inode is free again. -/
theorem addEntry_ensures (h : Adding s d p es i ino isDir)
    (hsafe : CacheSafe s d es cpath name isDir room) (hn : lookupFrom name 0 es = none)
    (htoks : cpath.tokens = cpath.tokens.dropLast ++ [name]) {t : FS}
    (hti : t.inodes = Function.update s.inodes i (some ino)) (hto : t.opened = s.opened)
    (htc : t.dentryCache = s.dentryCache) :
    Ensures (addEntry d cpath name i isDir room) t fun success s' =>
      if success then DirInv s' else DirInv (s'.setInode i none) := by
  have hadd := h.canAdd hn
  have hdt : t.inodes d.inode.sector = some (.dir p es) := by
    rw [hti, Function.update_of_ne h.ne, h.dir]
  refine .bind (dirEntries_ensures fun p' es' hh hd' => ?_)
  obtain ⟨rfl, rfl⟩ : p = p' ∧ es = es' := by simpa [hdt] using hd'
  -- what the rest of the function does to the state after the write
  have hrest : ∀ (success : Bool) (t' : FS), t'.opened = s.opened →
      t'.dentryCache = s.dentryCache →
      (∀ s', s'.opened = s.opened → s'.inodes = t'.inodes → s'.dentryCache = (dentryCacheAppend
        (if isDir = true then (dentryCacheAppend s.dentryCache cpath 0 i).1 else s.dentryCache)
        cpath 1 d.inode.sector).1 → if success then DirInv s' else DirInv (s'.setInode i none)) →
      Ensures (do
        if isDir then cacheAppend cpath 0 i
        let inumber ← inodeGetInumber d.inode
        cacheAppend cpath 1 inumber
        return success) t' fun success s' =>
          if success then DirInv s' else DirInv (s'.setInode i none) := by
    intro success t' ho hc hq
    have hfinal : ∀ t'' : FS, t''.opened = s.opened → t''.inodes = t'.inodes →
        t''.dentryCache =
          (if isDir = true then (dentryCacheAppend s.dentryCache cpath 0 i).1 else s.dentryCache) →
        Ensures (do
          let inumber ← inodeGetInumber d.inode
          cacheAppend cpath 1 inumber
          return success) t'' fun success s' =>
            if success then DirInv s' else DirInv (s'.setInode i none) := by
      intro t'' ho' hi' hc'
      refine .bind (.bind (inodeAt_ensures fun o _ _ => .pure ?_))
      exact .bind (.modify (.pure (hq _ ho' hi' (by simp only [hc']))))
    cases isDir with
    | true => exact .bind (.modify (hfinal _ ho rfl (by simp [hc])))
    | false => exact hfinal _ ho rfl (by simp [hc])
  refine .bind (.bind (inodeData_ensures fun data _ hdata => ?_))
  obtain rfl : data = .dir p es := by simpa [hdt] using hdata.symm
  -- the state after a write has the new entry, and is safe to cache
  have hwritten : ∀ t' : FS, t'.opened = s.opened → t'.dentryCache = s.dentryCache →
      t'.inodes = Function.update t.inodes d.inode.sector
        (some (.dir p (slotWritten es (freeSlotFrom 0 es) ⟨i, name, true⟩))) →
      Ensures (do
        if isDir then cacheAppend cpath 0 i
        let inumber ← inodeGetInumber d.inode
        cacheAppend cpath 1 inumber
        return true) t' fun success s' =>
          if success then DirInv s' else DirInv (s'.setInode i none) := by
    intro t' ho hc hi
    have hi' : t'.inodes = added s.inodes d.inode.sector p es (freeSlotFrom 0 es) name i ino := by
      rw [hi, hti]
      rfl
    refine hrest true t' ho hc fun s' ho' hin hc' => ?_
    rw [if_pos rfl]
    refine ⟨by rw [hin, hi']; exact added_wf h.inv.tree hadd,
      openOk_added h hn ho' (hin.trans hi'), ?_⟩
    rw [hc', hin, hi']
    have hwalk : ∀ {w ts}, walkDir s.inodes rootDirSector ts = some w →
        walkDir (added s.inodes d.inode.sector p es (freeSlotFrom 0 es) name i ino)
          rootDirSector ts = some w := walkDir_added h.inv.tree hadd
    refine cacheOk_added hsafe ⟨fun path j hx => ?_, h.inv.cache.no_dotdot⟩ hwalk
      (added_isDirAt hadd ⟨p, es, h.dir⟩) fun hb hq => ?_
    · obtain ⟨hd, hw⟩ := h.inv.cache.coherent path j hx
      exact ⟨added_isDirAt hadd hd, hwalk hw⟩
    · obtain ⟨hw, hne, -⟩ := hsafe.self hb hq
      have hw' := walkDir_added_new h.inv.tree hadd (h.kind.trans hb) hne hw
      rw [← htoks] at hw'
      exact ⟨walkDir_isDirAt (added_isDirAt hadd h.inv.tree.isDirAt_root) hw', hw'⟩
  refine .ite (fun hlt => ?_) fun hlt => ?_
  · refine .bind (.modify (.pure (hwritten _ hto htc ?_)))
    rw [slotWritten, if_pos hlt]
    rfl
  · refine .ite (fun hroom => ?_) fun hroom => ?_
    · refine .bind (.modify (.pure (hwritten _ hto htc ?_)))
      rw [slotWritten, if_neg hlt]
      rfl
    · refine .pure (hrest false t hto htc fun s' ho' hin hc' => ?_)
      have hback : (s'.setInode i none).inodes = s.inodes := by
        show Function.update s'.inodes i none = s.inodes
        rw [hin, hti, Function.update_idem]
        exact Function.update_eq_self_iff.mpr h.sector.symm
      rw [if_neg (by simp)]
      refine ⟨hback ▸ h.inv.tree, ⟨fun h' => h.inv.opened.cnt (ho' ▸ h'),
        fun h' => hback ▸ h.inv.opened.inode (ho' ▸ h'),
        fun h' => hback ▸ h.inv.opened.removed (ho' ▸ h')⟩, ?_⟩
      rw [hback, show (s'.setInode i none).dentryCache = s'.dentryCache from rfl, hc']
      refine cacheOk_added hsafe h.inv.cache (fun hw => hw) ⟨p, es, h.dir⟩ fun hb hq => ?_
      -- the entry of a directory was written
      obtain ⟨-, -, hfits⟩ := hsafe.self hb hq
      exact (hfits.elim hlt hroom).elim

/-- Freeing the sector of the new inode takes the state back. -/
theorem inv_restored (h : Adding s d p es i ino isDir) {t : FS}
    (hti : t.inodes = Function.update s.inodes i (some ino)) (hto : t.opened = s.opened)
    (htc : t.dentryCache = s.dentryCache) : DirInv (t.setInode i none) := by
  refine h.inv.of_eq ?_ hto htc
  show Function.update t.inodes i none = s.inodes
  rw [hti, Function.update_idem]
  exact Function.update_eq_self_iff.mpr h.sector.symm

/-- **`dir_add`.** Where it fails, the invariant holds once the sector of the new inode is free again. -/
theorem dirAdd_ensures (h : Adding s d p es i ino isDir) (pid : Pid)
    (hsafe : name.length ≤ nameMax → lookupFrom name 0 es = none →
      CacheSafe s d es cpath name isDir room)
    (htoks : cpath.tokens = cpath.tokens.dropLast ++ [name]) {t : FS}
    (hti : t.inodes = Function.update s.inodes i (some ino)) (hto : t.opened = s.opened)
    (htc : t.dentryCache = s.dentryCache) :
    Ensures (dirAdd pid d cpath name i isDir room) t fun success s' =>
      if success then DirInv s' else DirInv (s'.setInode i none) := by
  refine .bind (.bind (.get (.bind (.assert fun _ => .set ?_))))
  refine .ite (fun _ => .pure ?_) fun hname => ?_
  · rw [if_neg (by simp)]
    exact inv_restored h hti hto htc
  have hname' : name.length ≤ nameMax := by
    by_contra hl
    exact hname (.inr (by omega))
  refine .bind (lookup_ensures fun p' es' _ hd' => ?_)
  have hdt : t.inodes d.inode.sector = some (.dir p es) := by
    rw [hti, Function.update_of_ne h.ne, h.dir]
  obtain ⟨rfl, rfl⟩ : p = p' ∧ es = es' := by simpa [hdt] using hd'
  rcases hl : lookupFrom name 0 es with _ | ⟨e, k⟩
  · refine .bind ((addEntry_ensures (t := { t with dirLock := some pid }) h (hsafe hname' hl) hl
      htoks hti hto htc).mono ?_)
    intro success s' hq
    refine .bind (.bind (.get (.bind (.assert fun _ => .set (.pure ?_)))))
    cases success with
    | true =>
      rw [if_pos rfl] at hq ⊢
      exact hq.of_eq rfl rfl rfl
    | false =>
      rw [if_neg (by simp)] at hq ⊢
      exact hq.of_eq rfl rfl rfl
  · refine .bind (.bind (.get (.bind (.assert fun _ => .set (.pure ?_)))))
    rw [if_neg (by simp)]
    exact inv_restored h hti hto htc

end Adding

end Pintos.Filesys.AddEntry
