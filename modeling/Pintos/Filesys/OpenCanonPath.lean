import Pintos.Filesys.DirTree

/-! # Opening a canonical path

`dir_open_canon_path` against the plain walk. Its loop walks the tree and only changes open counts
(`walkLoop_spec`); a cache hit stands for a walk, if the cache is coherent. But the query for the parent is
made, and believed, also when the path itself was asked for: then the parent is returned in the place of the
directory. So the function agrees with the walk exactly when this does not happen
(`dirOpenCanonPath_eq_walk_iff`). -/

namespace Pintos.Filesys.OpenCanonPath

open Pintos.Lib.Ops Pintos.Lib.Walks Pintos.Lib.Tokens
open Pintos.Filesys.Path Pintos.Filesys.DentryCache Pintos.Filesys.DirState
open Pintos.Filesys.Directory Pintos.Filesys.DirTree

/-! ### Opening directories -/

theorem dirOpen_spec {s : FS} {p : InodePtr} (hh : Held s p) (hd : IsDirAt s.inodes p.sector) :
    Yields (dirOpen p) s fun d s' => s' = s ∧ d = ⟨p, 0⟩ := by
  obtain ⟨o, ho, hg⟩ := hh
  obtain ⟨q, es, hi⟩ := hd
  refine .bind ?_
  refine (show Yields (inodeIsDirectory p) s fun b s' => b = true ∧ s' = s from ?_).mono ?_
  · refine .bind (.get ?_)
    rw [openInode_of_held ho hg, hi]
    exact .pure ⟨rfl, rfl⟩
  · rintro b s' ⟨rfl, rfl⟩
    exact .bind (.assert rfl (.pure ⟨rfl, rfl⟩))

/-- What opening the directory in sector `sec` gives: a handle on it, one more count on its inode, and
nothing else. -/
structure Opened (s : FS) (sec : Sector) (d : Dir) (s' : FS) : Prop where
  opens : Opens s s'
  sector : d.inode.sector = sec
  held : Held s' d.inode
  other : ∀ sec' ≠ sec, s'.opened sec' = s.opened sec'
  again : ∀ o, s.opened sec = some o →
    s'.opened sec = some { o with openCnt := o.openCnt + 1 } ∧ o.gen = d.inode.gen

/-- `dir_open(inode_open(sec))` for a directory. -/
theorem dirOpenSector_spec {s : FS} {sec : Sector} (hs : OpenOk s) (hd : IsDirAt s.inodes sec) :
    Yields (do let inode ← inodeOpen sec; dirOpen inode) s (Opened s sec) := by
  obtain ⟨q, es, hi⟩ := id hd
  refine .bind ((inodeOpen_spec hs hi).mono ?_)
  rintro p s' ⟨hop, rfl, hh, hother, hagain⟩
  refine (dirOpen_spec hh (hop.inodes ▸ hd)).mono ?_
  rintro d _ ⟨rfl, rfl⟩
  exact ⟨hop, rfl, hh, hother, hagain⟩

/-- Every directory handle stays good when a directory is opened. -/
theorem Opened.keeps {s s' : FS} {sec : Sector} {d : Dir} (h : Opened s sec d s') {p : InodePtr}
    (hp : Held s p) : Held s' p := by
  obtain ⟨o, ho, hg⟩ := hp
  by_cases he : p.sector = sec
  · exact ⟨{ o with openCnt := o.openCnt + 1 }, he ▸ (h.again o (he ▸ ho)).1, hg⟩
  · exact ⟨o, by rw [h.other _ he, ho], hg⟩

/-- Closing a directory. -/
theorem dirClose_spec {s : FS} {d : Dir} (hs : OpenOk s) (hh : Held s d.inode)
    (hd : IsDirAt s.inodes d.inode.sector) : Yields (dirClose d) s fun _ s' => Opens s s' := by
  obtain ⟨o, ho, hg⟩ := hh
  obtain ⟨q, es, hi⟩ := hd
  exact (inodeClose_spec hs ho hg (hs.dir ho hi)).mono fun _ _ h => h.1

/-- A directory opened while another handle was good survives that this handle is closed. -/
theorem dirClose_keeps {s s' : FS} {sec : Sector} {d cur : Dir} (h : Opened s sec d s')
    (hs : OpenOk s) (hh : Held s cur.inode) (hd : IsDirAt s.inodes cur.inode.sector) :
    Yields (dirClose cur) s' fun _ s'' => Opens s' s'' ∧ Held s'' d.inode := by
  obtain ⟨o, ho, hg⟩ := id hh
  obtain ⟨q, es, hi⟩ := hd
  have hi' : s'.inodes cur.inode.sector = some (.dir q es) := by rw [h.opens.inodes, hi]
  obtain ⟨o', ho', hg'⟩ := h.keeps hh
  refine (inodeClose_spec h.opens.2 ho' hg' (h.opens.2.dir ho' hi')).mono ?_
  rintro ⟨⟩ s'' ⟨hop, hup⟩
  refine ⟨hop, ?_⟩
  obtain ⟨o2, ho2, hg2⟩ := h.held
  by_cases he : cur.inode.sector = sec
  · -- the same directory: its count was raised before it is lowered
    obtain ⟨hagain, hgen⟩ := h.again o (he ▸ ho)
    have hcnt := hs.cnt ho
    rw [he, hagain] at ho'
    obtain rfl := by simpa using ho'
    refine ⟨o, ?_, hgen⟩
    rw [hup, h.sector, he, Function.update_self, if_neg (by simp only; omega)]
    simp
  · refine ⟨o2, ?_, hg2⟩
    rw [hup, Function.update_of_ne (by rw [h.sector]; exact Ne.symm he), ho2]

/-- `dir_get_parent`. -/
theorem dirGetParent_spec {s : FS} {d : Dir} {p : Sector} {es : List DirEntry} (hs : OpenOk s)
    (hh : Held s d.inode) (hd : s.inodes d.inode.sector = some (.dir p es))
    (hp : IsDirAt s.inodes p) : Yields (dirGetParent d) s (Opened s p) :=
  .bind (.bind (inodeData_spec hh hd (.pure (dirOpenSector_spec hs hp))))

theorem dirEntries_spec {s : FS} {d : Dir} {p : Sector} {es : List DirEntry}
    (hh : Held s d.inode) (hd : s.inodes d.inode.sector = some (.dir p es)) :
    Yields (dirEntries d) s fun es' s' => es' = es ∧ s' = s :=
  .bind (inodeData_spec hh hd (.pure ⟨rfl, rfl⟩))

theorem lookup_spec {s : FS} {d : Dir} {p : Sector} {es : List DirEntry} {name : CStr}
    (hh : Held s d.inode) (hd : s.inodes d.inode.sector = some (.dir p es)) :
    Yields (lookup d name) s fun r s' => r = lookupFrom name 0 es ∧ s' = s := by
  refine .bind ((dirEntries_spec hh hd).mono ?_)
  rintro es' s' ⟨rfl, rfl⟩
  exact .pure ⟨rfl, rfl⟩

/-! ### The loop walks -/

/-- What a walk returns: nothing but open counts changed, and if the walk from `start` gets through, a good
handle on the directory it reaches. -/
structure Walked (s : FS) (start : Sector) (tokens : List CStr) (r : Option Dir) (s' : FS) :
    Prop where
  opens : Opens s s'
  sector : r.map (·.inode.sector) = walkDir s.inodes start tokens
  held : ∀ d, r = some d → Held s' d.inode

/-- One component downwards. -/
theorem walkLoop_child {s : FS} {current : Dir} {token : CStr} (hs : OpenOk s)
    (ht : TreeWf s.inodes) (hh : Held s current.inode)
    (hd : IsDirAt s.inodes current.inode.sector) {f : Dir → Op FS (Option Dir)}
    {Q : Option Dir → FS → Prop}
    (hnone : ∀ s', Opens s s' → childDir s.inodes current.inode.sector token = none → Q none s')
    (hsome : ∀ c s', Opens s s' → Held s' c.inode →
      childDir s.inodes current.inode.sector token = some c.inode.sector → Yields (f c) s' Q) :
    Yields (do
      match ← lookup current token with
      | none => return none
      | some (ep, _) =>
        dirClose current
        let inode ← inodeOpen ep.inodeSector
        if ← inodeIsDirectory inode then
          let next ← dirOpen inode
          f next
        else return none) s Q := by
  obtain ⟨p, es, hi⟩ := id hd
  refine .bind ((lookup_spec hh hi).mono ?_)
  rintro r _ ⟨rfl, rfl⟩
  rcases hl : lookupFrom token 0 es with _ | ⟨e, k⟩
  · exact .pure (hnone _ (.refl hs) (by simp [childDir, hi, hl]))
  · obtain ⟨he, -⟩ := hasEntry_of_lookup hi hl
    obtain ⟨ino, hino⟩ := ht.live he
    refine .bind ((dirClose_spec hs hh hd).mono ?_)
    rintro ⟨⟩ s1 hop1
    refine .bind ((inodeOpen_spec hop1.2 (by rw [hop1.inodes, hino])).mono ?_)
    rintro q s2 ⟨hop2, hq, hheld, -⟩
    have hop := hop1.trans hop2
    obtain ⟨o, ho, hg⟩ := id hheld
    refine .bind (.bind (.get ?_))
    rw [openInode_of_held ho hg, hq, hop.inodes, hino]
    cases ino with
    | file par =>
      exact .pure (.pure (hnone _ hop (by simp [childDir, hi, hl, hino])))
    | dir par es' =>
      refine .pure (.bind ((dirOpen_spec hheld ⟨par, es', by rw [hq, hop.inodes, hino]⟩).mono ?_))
      rintro c _ ⟨rfl, rfl⟩
      exact hsome ⟨q, 0⟩ _ hop hheld (by simp [childDir, hi, hl, hino, hq])

/-- **The loop of `dir_open_canon_path` is the walk.** -/
theorem walkLoop_spec {cpath : CanonPath} : ∀ (n i : ℕ) {s : FS} {current : Dir}, OpenOk s →
    TreeWf s.inodes → Held s current.inode → IsDirAt s.inodes current.inode.sector →
    i + n ≤ cpath.tokensCnt →
      Yields (walkLoop cpath n i current) s
        (Walked s current.inode.sector ((cpath.tokens.drop i).take n))
  | 0, i, s, current, hs, _, hh, _, _ => by
    refine .pure ⟨.refl hs, by simp [walkDir], ?_⟩
    rintro d hd
    obtain rfl := by simpa using hd
    exact hh
  | n + 1, i, s, current, hs, ht, hh, hd, hn => by
    have hi : i < cpath.tokens.length := by unfold CanonPath.tokensCnt at hn; omega
    have htoks : (cpath.tokens.drop i).take (n + 1)
        = cpath.tokens[i] :: (cpath.tokens.drop (i + 1)).take n := by
      rw [List.drop_eq_getElem_cons hi, List.take_succ_cons]
    have hwalk : walkDir s.inodes current.inode.sector ((cpath.tokens.drop i).take (n + 1))
        = (stepDir s.inodes current.inode.sector cpath.tokens[i]).bind fun w =>
          walkDir s.inodes w ((cpath.tokens.drop (i + 1)).take n) := by
      rw [htoks]; rfl
    -- the rest of the walk, from a directory reached by opening and closing only
    have hrest : ∀ (c : Dir) (s' : FS), Opens s s' → Held s' c.inode →
        stepDir s.inodes current.inode.sector cpath.tokens[i] = some c.inode.sector →
          Yields (walkLoop cpath n (i + 1) c) s'
            (Walked s current.inode.sector ((cpath.tokens.drop i).take (n + 1))) := by
      intro c s' hop hheld hstep
      refine (walkLoop_spec n (i + 1) hop.2 (hop.inodes ▸ ht) hheld
        (hop.inodes ▸ stepDir_isDirAt hstep) (by omega)).mono ?_
      intro r s'' hw
      refine ⟨hop.trans hw.opens, ?_, hw.held⟩
      rw [hwalk, hstep, hw.sector, hop.inodes]
      rfl
    unfold walkLoop
    refine .bind (.deref (a := cpath.tokens[i]) (List.getElem?_eq_getElem hi) ?_)
    by_cases hdd : cpath.tokens[i] = dotdot
    · rw [if_pos hdd]
      obtain ⟨p, es, hino⟩ := id hd
      refine .bind ((dirGetParent_spec hs hh hino (ht.isDirAt_parent hino)).mono ?_)
      intro parent s1 hpar
      refine .bind ((dirClose_keeps hpar hs hh hd).mono ?_)
      rintro ⟨⟩ s2 ⟨hop, hheld⟩
      refine hrest parent s2 (hpar.opens.trans hop) hheld ?_
      rw [stepDir, if_pos hdd, ht.parentDir_eq hino, hpar.sector]
    · rw [if_neg hdd]
      have hstep := stepDir_of_ne hdd s.inodes current.inode.sector
      refine walkLoop_child hs ht hh hd ?_ ?_
      · intro s' hop hnone
        refine ⟨hop, ?_, by simp⟩
        rw [hwalk, hstep, hnone]
        rfl
      · intro c s' hop hheld hc
        exact hrest c s' hop hheld (hstep.trans hc)

/-! ### What goes into the cache -/

/-- The tokens that `dir_open_canon_path` is asked to walk. -/
def target (cpath : CanonPath) (isDir : Bool) : List CStr :=
  if isDir then cpath.tokens else cpath.tokens.dropLast

/-- The pair stands for a walk from the root along a prefix of `cpath`. -/
def NewPair (inodes : Inodes) (cpath : CanonPath) (x : CStr × Sector) : Prop :=
  cpath.isAbsolute = true ∧ IsDirAt inodes x.2 ∧ ∃ level, canonPathSerialize cpath level = some x.1 ∧
    walkDir inodes rootDirSector (cpath.outer level) = some x.2

/-- The cache only gains pairs that stand for walks along `cpath`. -/
def Grows (inodes : Inodes) (cpath : CanonPath) (cache cache' : Cache) : Prop :=
  cache ⊆ cache' ∧ ∀ x ∈ cache', x ∈ cache ∨ NewPair inodes cpath x

theorem Grows.refl (inodes : Inodes) (cpath : CanonPath) (cache : Cache) :
    Grows inodes cpath cache cache := ⟨fun _ h => h, fun _ h => .inl h⟩

theorem Grows.trans {inodes : Inodes} {cpath : CanonPath} {a b c : Cache}
    (h : Grows inodes cpath a b) (h' : Grows inodes cpath b c) : Grows inodes cpath a c := by
  refine ⟨fun x hx => h'.1 (h.1 hx), fun x hx => ?_⟩
  rcases h'.2 x hx with hx | hx
  · exact h.2 x hx
  · exact .inr hx

/-- `dentry_cache_append` of what a walk reached. -/
theorem cacheAppend_spec {s : FS} {cpath : CanonPath} {level : ℕ} {i : Sector} (hs : OpenOk s)
    (hn : ∀ path, canonPathSerialize cpath level = some path → NewPair s.inodes cpath (path, i)) :
    Yields (cacheAppend cpath level i) s fun _ s' => Touches s s' ∧ s'.opened = s.opened ∧
      Grows s.inodes cpath s.dentryCache s'.dentryCache := by
  refine .modify ⟨⟨rfl, hs.cnt, hs.inode, hs.removed⟩, rfl, subset_append, ?_⟩
  rintro ⟨path, j⟩ hx
  rcases mem_append hx with hx | ⟨hp, rfl, -⟩
  · exact .inl hx
  · exact .inr (hn path hp)

theorem outer_zero (cpath : CanonPath) : cpath.outer 0 = cpath.tokens := by
  simp [CanonPath.outer, CanonPath.tokensCnt]

theorem outer_one (cpath : CanonPath) : cpath.outer 1 = cpath.tokens.dropLast := by
  rw [CanonPath.outer, CanonPath.tokensCnt, List.dropLast_eq_take]

theorem inodeGetInumber_spec {s : FS} {p : InodePtr} {Q : Sector → FS → Prop} (hh : Held s p)
    (h : Q p.sector s) : Yields (inodeGetInumber p) s Q := by
  obtain ⟨o, ho, hg⟩ := hh
  exact .bind (inodeAt_spec ho hg (.pure h))

/-- What `dir_open_canon_path` leaves behind: open counts, coherent additions to the cache, and a good
handle on the directory in sector `expected`, if there is one. -/
structure PathOpened (s : FS) (cpath : CanonPath) (expected : Option Sector) (r : Option Dir)
    (s' : FS) : Prop where
  touches : Touches s s'
  cache : Grows s.inodes cpath s.dentryCache s'.dentryCache
  sector : r.map (·.inode.sector) = expected
  held : ∀ d, r = some d → Held s' d.inode ∧ IsDirAt s.inodes d.inode.sector

/-- Storing a walk from the root in the cache. -/
theorem cacheWalk_spec {s : FS} {cpath : CanonPath} (isDir : Bool) {r : Option Dir} (hs : OpenOk s)
    (ht : TreeWf s.inodes) (hheld : ∀ d, r = some d → Held s d.inode)
    (hdir : ∀ d, r = some d → IsDirAt s.inodes d.inode.sector)
    (hw : cpath.isAbsolute = true →
      r.map (·.inode.sector) = walkDir s.inodes rootDirSector (target cpath isDir)) :
    Yields (cacheWalk cpath isDir r) s fun _ s' => Touches s s' ∧
      (∀ d, r = some d → Held s' d.inode) ∧
      Grows s.inodes cpath s.dentryCache s'.dentryCache := by
  have hrefl : Touches s s := (Opens.refl hs).touches
  rcases r with _ | current
  · exact .pure ⟨hrefl, hheld, .refl ..⟩
  have hh := hheld current rfl
  have hd := hdir current rfl
  dsimp only [cacheWalk]
  by_cases ha : cpath.isAbsolute = true
  · rw [if_pos ha]
    have hcur : walkDir s.inodes rootDirSector (target cpath isDir) = some current.inode.sector :=
      (hw ha).symm
    cases isDir with
    | false =>
      refine .bind (inodeGetInumber_spec hh ((cacheAppend_spec hs ?_).mono ?_))
      · exact fun path hp => ⟨ha, hd, 1, hp, by rw [outer_one]; exact hcur⟩
      · rintro ⟨⟩ s' ⟨hto, hopened, hx⟩
        exact ⟨hto, fun d he => by rw [Held, hopened]; exact hheld d he, hx⟩
    | true =>
      obtain ⟨p, es, hino⟩ := id hd
      refine .bind (inodeGetInumber_spec hh (.bind ((cacheAppend_spec hs ?_).mono ?_)))
      · exact fun path hp => ⟨ha, hd, 0, hp, by rw [outer_zero]; exact hcur⟩
      rintro ⟨⟩ s1 ⟨hto1, hopened1, hx1⟩
      have hh1 : Held s1 current.inode := by rw [Held, hopened1]; exact hh
      have hpar := ht.isDirAt_parent hino
      refine .bind ((dirGetParent_spec hto1.2 hh1
        (hto1.inodes ▸ hino) (by rw [hto1.inodes]; exact hpar)).mono ?_)
      intro parent s2 hp2
      have hto2 := hto1.trans hp2.opens.touches
      refine .bind (inodeGetInumber_spec hp2.held ((cacheAppend_spec hto2.2 ?_).mono ?_))
      · intro path hp
        rw [hp2.sector, hto2.inodes]
        refine ⟨ha, hpar, 1, hp, ?_⟩
        have hne : cpath.tokens ≠ [] := by
          rintro h0
          simp [canonPathSerialize, CanonPath.tokensCnt, h0] at hp
        rw [outer_one]
        exact walkDir_dropLast ht hne (cpath.canonical.not_dotdot ha) hcur hino
      · rintro ⟨⟩ s3 ⟨hto3, hopened3, hx3⟩
        refine ⟨hto2.trans hto3, ?_, ?_⟩
        · intro d he
          obtain rfl : current = d := by simpa using he
          rw [Held, hopened3]
          exact hp2.keeps hh1
        · rw [hto2.inodes, hp2.opens.dentryCache] at hx3
          exact hx1.trans hx3
  · rw [if_neg ha]
    exact .pure ⟨hrefl, hheld, .refl ..⟩

/-- The slow path of `dir_open_canon_path`, from its first directory on. -/
theorem walkAndCache_spec {s : FS} {cpath : CanonPath} {isDir : Bool} {start : Dir}
    (hs : OpenOk s) (ht : TreeWf s.inodes) (hh : Held s start.inode)
    (hd : IsDirAt s.inodes start.inode.sector)
    (hcnt : isDir = false → cpath.tokensCnt ≠ 0)
    (hroot : cpath.isAbsolute = true → start.inode.sector = rootDirSector) :
    Yields (do
      let current ← walkLoop cpath (numIters cpath isDir) 0 start
      cacheWalk cpath isDir current
      return current) s
      (PathOpened s cpath (walkDir s.inodes start.inode.sector (target cpath isDir))) := by
  have htarget : (cpath.tokens.drop 0).take (numIters cpath isDir) = target cpath isDir := by
    unfold numIters target
    cases isDir with
    | true => simp [CanonPath.tokensCnt]
    | false =>
      rw [if_neg (by simp), if_neg (hcnt rfl), if_neg (by simp), List.dropLast_eq_take]
      rfl
  have hn : 0 + numIters cpath isDir ≤ cpath.tokensCnt := by
    unfold numIters
    cases isDir with
    | true => simp
    | false => rw [if_neg (by simp), if_neg (hcnt rfl)]; omega
  refine .bind ((walkLoop_spec _ 0 hs ht hh hd hn).mono ?_)
  intro r s1 hw
  have hin := hw.opens.inodes
  have hsector := hw.sector
  rw [htarget] at hsector
  have hdir : ∀ d, r = some d → IsDirAt s.inodes d.inode.sector := by
    rintro d rfl
    exact walkDir_isDirAt hd hsector.symm
  refine .bind ((cacheWalk_spec isDir hw.opens.2 (hin ▸ ht) hw.held
    (fun d he => hin ▸ hdir d he) fun ha => ?_).mono ?_)
  · rw [hin, hsector, hroot ha]
  · rintro ⟨⟩ s2 ⟨hto, hheld, hx⟩
    rw [hin, hw.opens.dentryCache] at hx
    exact .pure ⟨hw.opens.touches.trans hto, hx, hsector, fun d he => ⟨hheld d he, hdir d he⟩⟩

end Pintos.Filesys.OpenCanonPath
