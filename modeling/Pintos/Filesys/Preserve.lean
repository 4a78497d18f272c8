import Pintos.Filesys.Calls
import Pintos.Filesys.CacheTransparency
import Pintos.Filesys.DirTreeUpdate

/-! # What every call keeps

`DirInv` is the invariant of the directory layer: the directories form a tree, the open inodes agree with the
device, and the dentry cache is coherent, with keys that have ".." at most in front. Opening, closing and
looking up keep it, whatever they return. -/

namespace Pintos.Filesys.Preserve

open Pintos.Lib.Ops Pintos.Lib.Walks Pintos.Lib.Tokens
open Pintos.Filesys.Path Pintos.Filesys.DentryCache Pintos.Filesys.DirState
open Pintos.Filesys.Directory Pintos.Filesys.DirTree Pintos.Filesys.DirTreeUpdate
open Pintos.Filesys.OpenCanonPath Pintos.Filesys.CacheTransparency Pintos.Filesys.Calls

/-- The dentry cache is coherent, and walks upwards at most in front of a key. -/
structure CacheOk (inodes : Inodes) (cache : Cache) : Prop where
  coherent : Coherent inodes cache
  no_dotdot : ∀ x ∈ cache, dotdot ∉ (tokenize slash x.1).tail

structure DirInv (s : FS) : Prop where
  tree : TreeWf s.inodes
  opened : OpenOk s
  cache : CacheOk s.inodes s.dentryCache

/-- The invariant reads the inodes, the open inodes and the cache only. -/
theorem DirInv.of_eq {s s' : FS} (h : DirInv s) (hi : s'.inodes = s.inodes) (ho : s'.opened = s.opened)
    (hc : s'.dentryCache = s.dentryCache) : DirInv s' where
  tree := hi ▸ h.tree
  opened := ⟨fun h' => h.opened.cnt (ho ▸ h'), fun h' => hi ▸ h.opened.inode (ho ▸ h'),
    fun h' => hi ▸ h.opened.removed (ho ▸ h')⟩
  cache := hi ▸ hc ▸ h.cache

theorem DirInv.of_opens {s s' : FS} (h : DirInv s) (ho : Opens s s') : DirInv s' where
  tree := ho.inodes ▸ h.tree
  opened := ho.2
  cache := ho.inodes ▸ ho.dentryCache ▸ h.cache

theorem tail_subset_of_outer {cpath : CanonPath} {level : ℕ} {t : CStr}
    (h : t ∈ (cpath.outer level).tail) : t ∈ cpath.tokens.tail := by
  unfold CanonPath.outer at h
  rcases hn : cpath.tokensCnt - level with _ | n <;> rw [hn] at h
  · simp at h
  · rcases ht : cpath.tokens with _ | ⟨u, us⟩ <;> rw [ht] at h
    · simp at h
    · exact List.mem_of_mem_take h

/-- Pairs of walks from the root may go into the cache. -/
theorem cacheOk_of_new {inodes : Inodes} {cache cache' : Cache} {cpath : CanonPath}
    (h : CacheOk inodes cache)
    (hnew : ∀ x ∈ cache', x ∈ cache ∨ NewPair inodes cpath x) : CacheOk inodes cache' where
  coherent path i hx := by
    rcases hnew _ hx with hx | ⟨-, hd, level, hs, hw⟩
    · exact h.coherent path i hx
    · exact ⟨hd, by rw [tokenize_serialize hs]; exact hw⟩
  no_dotdot x hx := by
    rcases hnew x hx with hx | ⟨-, -, level, hs, -⟩
    · exact h.no_dotdot x hx
    · rw [tokenize_serialize hs]
      exact fun hd => cpath.canonical.not_dotdot_tail (tail_subset_of_outer hd)

theorem DirInv.of_pathOpened {s s' : FS} {cpath : CanonPath} {expected : Option Sector}
    {r : Option Dir} (h : DirInv s) (hp : PathOpened s cpath expected r s') : DirInv s' where
  tree := hp.touches.inodes ▸ h.tree
  opened := hp.touches.2
  cache := hp.touches.inodes ▸ cacheOk_of_new h.cache hp.cache.2

/-! ### Handles that may dangle -/

/-- An operation that follows `p` first returns only if `p` does not dangle. -/
theorem ensures_inodeAt {α : Type} {s : FS} {p : InodePtr} {f : OpenInode → Op FS α}
    {Q : α → FS → Prop}
    (h : ∀ o, s.opened p.sector = some o → o.gen = p.gen → Ensures (inodeAt p >>= f) s Q) :
    Ensures (inodeAt p >>= f) s Q := by
  rcases ho : s.openInode p with _ | o
  · exact .bind (.bind (.get (.deref fun a ha => by simp [ho] at ha)))
  · obtain ⟨h1, h2⟩ := held_of_openInode ho
    exact h o h1 h2

theorem inodeAt_ensures {s : FS} {p : InodePtr} {Q : OpenInode → FS → Prop}
    (h : ∀ o, s.opened p.sector = some o → o.gen = p.gen → Q o s) : Ensures (inodeAt p) s Q :=
  .bind (.get (.deref fun o ho => by
    obtain ⟨h1, h2⟩ := held_of_openInode ho
    exact h o h1 h2))

theorem inodeOpen_ensures {s : FS} (hs : OpenOk s) (sec : Sector) :
    Ensures (inodeOpen sec) s fun p s' => Opens s s' ∧ Held s' p ∧ p.sector = sec := by
  have hspec : ∀ ino, s.inodes sec = some ino →
      Ensures (inodeOpen sec) s fun p s' => Opens s s' ∧ Held s' p ∧ p.sector = sec :=
    fun ino hi => ((inodeOpen_spec hs hi).mono fun _ _ h => ⟨h.1, h.2.2.1, h.2.1⟩).ensures
  rcases ho : s.opened sec with _ | o
  · rcases hi : s.inodes sec with _ | ino
    · refine .bind (.get ?_)
      rw [ho]
      exact .bind (.deref fun a ha => by simp [hi] at ha)
    · exact hspec ino hi
  · obtain ⟨ino, hi⟩ := hs.inode ho
    exact hspec ino hi

theorem dirOpen_ensures {s : FS} {p : InodePtr} : Ensures (dirOpen p) s fun d s' =>
    s = s' ∧ d = ⟨p, 0⟩ ∧ Held s p ∧ IsDirAt s.inodes p.sector := by
  refine .bind (.bind (.get ?_))
  rcases ho : s.openInode p with _ | o
  · exact .pure (.bind (.assert fun h => by simp at h))
  rcases hi : s.inodes p.sector with _ | (q | ⟨q, es⟩)
  · exact .pure (.bind (.assert fun h => by simp at h))
  · exact .pure (.bind (.assert fun h => by simp [Inode.isDir] at h))
  · obtain ⟨h1, h2⟩ := held_of_openInode ho
    exact .pure (.bind (.assert fun _ => .pure ⟨rfl, rfl, ⟨o, h1, h2⟩, q, es, hi⟩))

theorem dirReopen_ensures {s : FS} (hs : OpenOk s) (d : Dir) : Ensures (dirReopen d) s
    fun d' s' => Opens s s' ∧ Held s' d'.inode ∧ d'.inode = d.inode ∧
      IsDirAt s.inodes d.inode.sector := by
  refine .bind (ensures_inodeAt fun o ho hg => ((inodeReopen_spec hs ho hg).mono ?_).ensures)
  rintro q s1 ⟨hop, rfl, -, -⟩
  refine dirOpen_ensures.mono ?_
  rintro d' _ ⟨rfl, rfl, hh, hd⟩
  exact ⟨hop, hh, rfl, hop.inodes ▸ hd⟩

theorem dirOpenRoot_ensures {s : FS} (hs : OpenOk s) : Ensures dirOpenRoot s fun d s' =>
    Opens s s' ∧ Held s' d.inode ∧ d.inode.sector = rootDirSector ∧
      IsDirAt s.inodes rootDirSector := by
  refine .bind ((inodeOpen_ensures hs _).mono ?_)
  rintro p s1 ⟨hop, -, hsec⟩
  refine dirOpen_ensures.mono ?_
  rintro d' _ ⟨rfl, rfl, hh, hd⟩
  exact ⟨hop, hh, hsec, by rw [← hop.inodes, ← hsec]; exact hd⟩

/-- **Closing** keeps the invariant: what the last close of a removed file frees has no name. -/
theorem inodeClose_ensures {s : FS} (h : DirInv s) (p : InodePtr) :
    Ensures (inodeClose p) s fun _ s' => DirInv s' ∧ s'.dirLock = s.dirLock := by
  refine ensures_inodeAt fun o ho hg => ?_
  by_cases hr : o.removed = true
  · refine .bind (inodeAt_ensures fun o1 ho1 _ => ?_)
    obtain rfl : o = o1 := by simpa [ho] using ho1
    obtain ⟨⟨q, hfile⟩, hlinks⟩ := h.opened.removed ho hr
    refine .ite (fun h1 => ?_) fun h1 => ?_
    · rw [hr]
      refine .bind (.modify (.modify ⟨?_, rfl⟩))
      have hsh := shrinks_free h.tree hfile hlinks
      refine ⟨hsh.wf h.tree, ?_, ?_, ?_⟩
      · -- the inode is neither open nor on the device any more
        have hne : ∀ {sec o'}, Function.update s.opened p.sector none sec = some o' →
            sec ≠ p.sector ∧ s.opened sec = some o' := by
          intro sec o' h'
          by_cases he : sec = p.sector
          · subst he
            simp at h'
          · exact ⟨he, by rwa [Function.update_of_ne he] at h'⟩
        refine ⟨fun h' => h.opened.cnt (hne h').2, fun h' => ?_, fun h' hr' => ?_⟩
        · obtain ⟨he, ho'⟩ := hne h'
          obtain ⟨ino, hi⟩ := h.opened.inode ho'
          exact ⟨ino, by show Function.update _ _ _ _ = _; rw [Function.update_of_ne he]; exact hi⟩
        · obtain ⟨he, ho'⟩ := hne h'
          obtain ⟨⟨q', hf'⟩, hl'⟩ := h.opened.removed ho' hr'
          exact ⟨⟨q', hsh.file he hf'⟩, fun d k e he' => hl' d k e (hsh.entry.mp he').1⟩
      · intro path i hx
        obtain ⟨hd, hw⟩ := h.cache.coherent path i hx
        have hne : i ≠ p.sector := by
          rintro rfl
          obtain ⟨q', es, hd⟩ := hd
          rw [hfile] at hd
          simp at hd
        exact ⟨hsh.isDirAt hne hd, hsh.walkDir h.tree hne (h.cache.no_dotdot _ hx) hw⟩
      · exact h.cache.no_dotdot
    · refine .modify ⟨h.of_opens ⟨rfl, ?_⟩, rfl⟩
      refine h.opened.setOpened fun o' ho' => ?_
      obtain rfl := by simpa using ho'
      have := h.opened.cnt ho
      exact ⟨by simp only; omega, ⟨_, hfile⟩, fun _ => ⟨⟨q, hfile⟩, hlinks⟩⟩
  · refine ((inodeClose_spec h.opened ho hg (by simpa using hr)).mono ?_).ensures
    exact fun _ s' h' => ⟨h.of_opens h'.1, h'.1.dirLock⟩

end Pintos.Filesys.Preserve
