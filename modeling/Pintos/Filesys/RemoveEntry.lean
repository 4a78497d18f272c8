import Pintos.Filesys.AddEntry

/-! # Removing a name

`dir_remove` forgets every cached path to the victim, erases the entry and marks the inode as removed. A
directory is removed only when nobody else has it open, so its last handle is closed right there and its
sector is free again; a file stays until its last close. -/

namespace Pintos.Filesys.RemoveEntry

open Pintos.Lib.Ops Pintos.Lib.Walks Pintos.Lib.Tokens
open Pintos.Filesys.Path Pintos.Filesys.DentryCache Pintos.Filesys.DirState
open Pintos.Filesys.Directory Pintos.Filesys.DirTree Pintos.Filesys.DirTreeUpdate
open Pintos.Filesys.OpenCanonPath Pintos.Filesys.CacheTransparency
open Pintos.Filesys.Preserve Pintos.Filesys.AddEntry

/-- What the check of `dir_remove` lets through: a file, or an empty directory that only the caller has
open. -/
structure Removable (s : FS) (q : InodePtr) : Prop where
  empty : ∀ {j e}, ¬HasEntry s.inodes q.sector j e
  once : IsDirAt s.inodes q.sector → ∀ o, s.opened q.sector = some o → o.openCnt ≤ 1

theorem removable_ensures {s : FS} {q : InodePtr} (hs : OpenOk s) (hh : Held s q) :
    Ensures (removable q) s fun b s' => Opens s s' ∧ Held s' q ∧ (b = true → Removable s' q) := by
  obtain ⟨o, ho, hg⟩ := id hh
  obtain ⟨ino, hi⟩ := hs.inode ho
  have hdir : Yields (inodeIsDirectory q) s fun b s' => b = ino.isDir ∧ s = s' := by
    refine .bind (.get ?_)
    rw [openInode_of_held ho hg, hi]
    exact .pure ⟨rfl, rfl⟩
  refine .bind (hdir.ensures.mono ?_)
  rintro _ _ ⟨rfl, rfl⟩
  cases ino with
  | file p =>
    refine .pure ⟨.refl hs, hh, fun _ => ⟨?_, ?_⟩⟩
    · rintro j e ⟨p', es, hd, -⟩
      rw [hi] at hd
      simp at hd
    · rintro ⟨p', es, hd⟩
      rw [hi] at hd
      simp at hd
  | dir p es =>
    refine .bind ((inodeReopen_spec hs ho hg).ensures.mono ?_)
    rintro _ s1 ⟨hop1, rfl, hh1, hopened1⟩
    refine .bind (dirOpen_ensures.mono ?_)
    rintro v _ ⟨rfl, rfl, -, -⟩
    have ho1 : s1.opened q.sector = some { o with openCnt := o.openCnt + 1 } := by
      rw [hopened1, Function.update_self]
    have hi1 : s1.inodes q.sector = some (.dir p es) := by rw [hop1.inodes, hi]
    refine .bind ((inodeGetInumber_spec (Q := fun b s' => b = q.sector ∧ s1 = s') hh1
      ⟨rfl, rfl⟩).ensures.mono ?_)
    rintro _ _ ⟨rfl, rfl⟩
    refine .bind ((dirEntries_spec hh1 hi1).ensures.mono ?_)
    rintro es' s1' ⟨rfl, rfl⟩
    refine .bind (.bind ((inodeAt_spec (Q := fun b s' => b = { o with openCnt := o.openCnt + 1 } ∧
      s1' = s') ho1 hg ⟨rfl, rfl⟩).ensures.mono ?_))
    rintro _ _ ⟨rfl, rfl⟩
    refine .pure (.bind ((inodeClose_spec hop1.2 ho1 hg (hop1.2.dir ho1 hi1)).ensures.mono ?_))
    rintro ⟨⟩ s2 ⟨hop2, hopened2⟩
    have hcnt := hs.cnt ho
    have ho2 : s2.opened q.sector = some o := by
      rw [hopened2, Function.update_self, if_neg (by simp only; omega)]
      simp
    refine .pure ⟨hop1.trans hop2, ⟨o, ho2, hg⟩, fun hb => ⟨?_, ?_⟩⟩
    · simp only [Bool.not_eq_true', Bool.or_eq_false_iff, lookupAny_false] at hb
      rintro j e ⟨p', es'', hd, he, hu⟩
      rw [hop2.inodes, hi1] at hd
      obtain ⟨-, rfl⟩ := by simpa using hd
      rw [hb.1.2 e (List.mem_of_getElem? he)] at hu
      simp at hu
    · rintro - o' ho'
      rw [ho2] at ho'
      obtain rfl := by simpa using ho'
      simp only [Bool.not_eq_true', Bool.or_eq_false_iff, decide_eq_false_iff_not] at hb
      omega

/-- The state after the entry `e` of `d` is erased and the cached paths to its inode are forgotten, with `o`
left of the inode and `oi` of the open inode. -/
structure Erased (s : FS) (d p : Sector) (es : List DirEntry) (k : ℕ) (e : DirEntry)
    (o : Option Inode) (oi : Option OpenInode) (s' : FS) : Prop where
  inodes : s'.inodes = erased s.inodes d p es k e o
  opened : s'.opened = Function.update s.opened e.inodeSector oi
  cache : s'.dentryCache = (dentryCacheInvalidate s.dentryCache e.inodeSector).1

/-- **Erasing an entry keeps the invariant**, if the inode is freed, or stays as an open removed file. -/
theorem Erased.inv {s s' : FS} {d p : Sector} {es : List DirEntry} {k : ℕ} {e : DirEntry}
    {o : Option Inode} {oi : Option OpenInode} (h : Erased s d p es k e o oi s') (hs : DirInv s)
    (hd : s.inodes d = some (.dir p es)) (hk : es[k]? = some e) (hu : e.inUse = true)
    (hempty : ∀ {j e'}, ¬HasEntry s.inodes e.inodeSector j e')
    (ho : o = none ∧ oi = none ∨ ∃ q, s.inodes e.inodeSector = some (.file q) ∧
      o = some (.file q) ∧ ∀ o', oi = some o' → 1 ≤ o'.openCnt) : DirInv s' := by
  have hsh : Shrinks s.inodes e.inodeSector s'.inodes := by
    rw [h.inodes]
    refine shrinks_erased hs.tree hd hk hu hempty ?_
    rcases ho with ⟨ho, -⟩ | ⟨q, hq, ho, -⟩
    · exact .inl ho
    · exact .inr ⟨q, hq, ho⟩
  have hother : ∀ {sec o'}, s'.opened sec = some o' → sec ≠ e.inodeSector →
      s.opened sec = some o' := by
    intro sec o' h' hne
    rwa [h.opened, Function.update_of_ne hne] at h'
  -- what is open in the victim's sector afterwards is the removed file
  have hvictim : ∀ {o'}, s'.opened e.inodeSector = some o' →
      1 ≤ o'.openCnt ∧ Unlinked s'.inodes e.inodeSector := by
    intro o' h'
    rw [h.opened, Function.update_self] at h'
    rcases ho with ⟨-, ho⟩ | ⟨q, hq, ho, hcnt⟩
    · rw [ho] at h'
      simp at h'
    · refine ⟨hcnt o' h', ⟨q, ?_⟩, fun x j e' he' => (hsh.entry.mp he').2⟩
      rw [h.inodes, erased, Function.update_self, ho]
  refine ⟨hsh.wf hs.tree, ⟨?_, ?_, ?_⟩, ⟨?_, ?_⟩⟩
  · intro sec o' h'
    by_cases hne : sec = e.inodeSector
    · exact (hvictim (hne ▸ h')).1
    · exact hs.opened.cnt (hother h' hne)
  · intro sec o' h'
    by_cases hne : sec = e.inodeSector
    · obtain ⟨-, ⟨q, hq⟩, -⟩ := hvictim (hne ▸ h')
      exact ⟨_, hne ▸ hq⟩
    · obtain ⟨ino, hi⟩ := hs.opened.inode (hother h' hne)
      cases ino with
      | file q => exact ⟨_, hsh.file hne hi⟩
      | dir q es' =>
        obtain ⟨es'', hi'⟩ := hsh.dir hne hi
        exact ⟨_, hi'⟩
  · intro sec o' h' hr
    by_cases hne : sec = e.inodeSector
    · subst hne
      exact (hvictim h').2
    · obtain ⟨⟨q, hq⟩, hl⟩ := hs.opened.removed (hother h' hne) hr
      exact ⟨⟨q, hsh.file hne hq⟩, fun x j e' he' => hl x j e' (hsh.entry.mp he').1⟩
  · intro path i hx
    rw [h.cache] at hx
    obtain ⟨hx, hne⟩ := mem_invalidate.mp hx
    obtain ⟨hdir, hw⟩ := hs.cache.coherent path i hx
    exact ⟨hsh.isDirAt hne hdir, hsh.walkDir hs.tree hne (hs.cache.no_dotdot _ hx) hw⟩
  · intro x hx
    rw [h.cache] at hx
    exact hs.cache.no_dotdot x (mem_invalidate.mp hx).1

/-- `dir_remove` after its checks; `m` is what follows. -/
theorem eraseAndClose_ensures {s : FS} (h : DirInv s) {dir : Dir} {p : Sector}
    {es : List DirEntry} {k : ℕ} {e : DirEntry} {q : InodePtr} (hh : Held s q)
    (hq : q.sector = e.inodeSector) (hd : s.inodes dir.inode.sector = some (.dir p es))
    (hk : es[k]? = some e) (hu : e.inUse = true) (hrem : Removable s q) {m : Op FS Bool}
    {Q : Bool → FS → Prop} (hm : ∀ s', DirInv s' → Ensures m s' Q) :
    Ensures (do
      let inumber ← inodeGetInumber q
      modify fun s => { s with dentryCache := (dentryCacheInvalidate s.dentryCache inumber).1 }
      let _ ← writeEntry dir k { e with inUse := false } true
      inodeRemove q
      inodeClose q
      m) s Q := by
  obtain ⟨o, ho, hg⟩ := id hh
  obtain ⟨ino, hi⟩ := h.opened.inode ho
  have hempty : ∀ {j e'}, ¬HasEntry s.inodes e.inodeSector j e' := hq ▸ hrem.empty
  have hne : dir.inode.sector ≠ q.sector := by
    intro he
    have hentry : HasEntry s.inodes e.inodeSector k e :=
      ⟨p, es, by rw [← hq, ← he]; exact hd, hk, hu⟩
    exact hempty hentry
  have hlt : k < es.length := (List.getElem?_eq_some_iff.mp hk).1
  have hcnt := h.opened.cnt ho
  refine .bind (.bind (inodeAt_ensures fun _ _ _ => .pure ?_))
  refine .bind (.modify (.bind (.bind (inodeData_ensures fun data _ hdata => ?_))))
  obtain rfl : data = .dir p es := by simpa [hd] using hdata.symm
  refine .ite (fun _ => .bind (.modify (.pure ?_))) fun hge => absurd hlt hge
  -- marking the inode as removed, and closing it
  refine .bind (.bind (inodeAt_ensures fun o1 ho1 _ => ?_))
  obtain rfl : o = o1 := by
    have : s.opened q.sector = some o1 := ho1
    simpa [ho] using this
  refine .modify (.bind (.bind (inodeAt_ensures fun o2 ho2 _ => ?_)))
  obtain rfl : o2 = { o with removed := true } := by
    have : Function.update s.opened q.sector (some { o with removed := true }) q.sector = some o2 :=
      ho2
    simpa using this.symm
  have hinv : ∀ {o' s'} (oi), Erased s dir.inode.sector p es k e o' oi s' →
      (o' = none ∧ oi = none ∨ ∃ r, s.inodes e.inodeSector = some (.file r) ∧
        o' = some (.file r) ∧ ∀ o'', oi = some o'' → 1 ≤ o''.openCnt) → Ensures m s' Q :=
    fun _ he ho' => hm _ (he.inv h hd hk hu hempty ho')
  refine .ite (fun h1 => ?_) fun h1 => ?_
  · refine .bind (.modify (.modify ?_))
    refine hinv none ⟨?_, ?_, ?_⟩ (.inl ⟨rfl, rfl⟩)
    · simp only [FS.setInode, FS.setOpened, erased, hq]
    · simp only [FS.setInode, FS.setOpened, Function.update_idem, hq]
    · simp only [FS.setInode, FS.setOpened, hq]
  · -- a directory has been closed for good by now
    have hfile : ∃ r, ino = .file r := by
      cases ino with
      | file r => exact ⟨r, rfl⟩
      | dir r es' =>
        have := hrem.once ⟨r, es', hi⟩ o ho
        simp only at h1
        omega
    obtain ⟨r, rfl⟩ := hfile
    rw [hq] at hi
    refine .modify (hinv (some { o with openCnt := o.openCnt - 1, removed := true }) ⟨?_, ?_, ?_⟩
      (.inr ⟨r, hi, rfl, ?_⟩))
    · simp only [FS.setInode, FS.setOpened, erased]
      refine (Function.update_eq_self_iff.mpr ?_).symm
      rw [Function.update_of_ne (by rw [← hq]; exact hne.symm), hi]
    · simp only [FS.setInode, FS.setOpened, Function.update_idem, hq]
    · simp only [FS.setInode, FS.setOpened, hq]
    · intro o'' ho''
      obtain rfl := by simpa using ho''
      simp only at h1 ⊢
      omega

/-- **`dir_remove` keeps the invariant.** -/
theorem dirRemove_ensures {s : FS} (h : DirInv s) (pid : Pid) (dir : Dir) (name : CStr) :
    Ensures (dirRemove pid dir name) s fun _ s' => DirInv s' := by
  refine .bind (.bind (.get (.bind (.assert fun _ => .set ?_))))
  have h0 : DirInv { s with dirLock := some pid } := h.of_eq rfl rfl rfl
  refine .bind (lookup_ensures fun p es _ hd => ?_)
  have hunlock : ∀ {t : FS} {b : Bool}, DirInv t →
      Ensures (do dirLockRelease pid; return b) t fun _ s' => DirInv s' :=
    fun ht => .bind (.bind (.get (.bind (.assert fun _ => .set (.pure (ht.of_eq rfl rfl rfl))))))
  rcases hl : lookupFrom name 0 es with _ | ⟨e, k⟩
  · exact hunlock h0
  · obtain ⟨-, hk, hu, -⟩ := lookupFrom_some hl
    refine .bind ((inodeOpen_ensures h0.opened e.inodeSector).mono ?_)
    rintro q s1 ⟨hop1, hh1, hq⟩
    refine .bind ((removable_ensures hop1.2 hh1).mono ?_)
    rintro b s2 ⟨hop2, hh2, hrem⟩
    have h2 : DirInv s2 := (h0.of_opens hop1).of_opens hop2
    have hd2 : s2.inodes dir.inode.sector = some (.dir p es) := by
      rw [hop2.inodes, hop1.inodes]
      exact hd
    cases b with
    | false =>
      refine .bind ((inodeClose_ensures h2 q).mono ?_)
      rintro ⟨⟩ s3 ⟨h3, -⟩
      exact hunlock h3
    | true =>
      exact eraseAndClose_ensures h2 hh2 hq hd2 (by simpa using hk) hu (hrem rfl)
        fun s' h' => hunlock h'

end Pintos.Filesys.RemoveEntry
