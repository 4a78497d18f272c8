import Pintos.Filesys.DirTree

/-! # Changing the directory tree

A new entry for a new inode, and an erased entry whose inode goes away: both keep the tree a tree, the first
keeps all walks, the second those that end elsewhere. -/

namespace Pintos.Filesys.DirTreeUpdate

open Pintos.Lib.Walks Pintos.Lib.Tokens
open Pintos.Filesys.Path Pintos.Filesys.DentryCache Pintos.Filesys.DirState
open Pintos.Filesys.Directory Pintos.Filesys.DirTree

/-- A step between directories needs only an entry, or a parent, in the other tree. -/
theorem stepDir_transfer {inodes inodes' : Inodes} (ht' : TreeWf inodes') {v w : Sector}
    {l : CStr} (hdir : IsDirAt inodes w → IsDirAt inodes' w)
    (hentry : ∀ k e, HasEntry inodes v k e → e.inodeSector = w → HasEntry inodes' v k e)
    (hparent : ∀ es, inodes v = some (.dir w es) → ∃ es', inodes' v = some (.dir w es'))
    (h : stepDir inodes v l = some w) : stepDir inodes' v l = some w := by
  unfold stepDir at h ⊢
  split_ifs at h ⊢ with hl
  · obtain ⟨⟨es, hv⟩, -⟩ := parentDir_some h
    obtain ⟨es', hv'⟩ := hparent es hv
    exact ht'.parentDir_eq hv'
  · obtain ⟨k, e, he, rfl, rfl, hw⟩ := childDir_some h
    exact childDir_of_hasEntry ht' (hentry k e he rfl) (hdir hw)

/-- Inodes with the same directories have the same walks. -/
theorem walkDir_of_dirs {inodes inodes' : Inodes} (ht' : TreeWf inodes')
    (h : ∀ d p es, inodes d = some (.dir p es) → inodes' d = some (.dir p es)) {d w : Sector}
    {tokens : List CStr} (hw : walkDir inodes d tokens = some w) :
    walkDir inodes' d tokens = some w := by
  refine walk_mono (fun v l w hs => stepDir_transfer ht' ?_ ?_ ?_ hs) d tokens hw
  · exact fun ⟨p, es, hd⟩ => ⟨p, es, h _ _ _ hd⟩
  · exact fun k e ⟨p, es, hd, he⟩ _ => ⟨p, es, h _ _ _ hd, he⟩
  · exact fun es hd => ⟨es, h _ _ _ hd⟩

/-! ### The slot for a new entry -/

/-- The slots of a directory after `e` is written at `k`, in place or at the end. -/
def slotWritten (es : List DirEntry) (k : ℕ) (e : DirEntry) : List DirEntry :=
  if k < es.length then es.set k e else es ++ [e]

theorem freeSlotFrom_spec : ∀ (ofs : ℕ) (es : List DirEntry), ofs ≤ freeSlotFrom ofs es ∧
    freeSlotFrom ofs es ≤ ofs + es.length ∧
    ∀ e, es[freeSlotFrom ofs es - ofs]? = some e → e.inUse = false
  | ofs, [] => by simp [freeSlotFrom]
  | ofs, e :: es => by
    unfold freeSlotFrom
    by_cases hu : e.inUse = true
    · rw [if_neg (not_not.mpr hu)]
      obtain ⟨h1, h2, h3⟩ := freeSlotFrom_spec (ofs + 1) es
      refine ⟨by omega, by simp only [List.length_cons]; omega, fun e' he => h3 e' ?_⟩
      rw [show freeSlotFrom (ofs + 1) es - ofs = freeSlotFrom (ofs + 1) es - (ofs + 1) + 1 by
        omega] at he
      simpa using he
    · rw [if_pos hu]
      simpa using hu

/-- A written slot changes no other slot. -/
theorem getElem?_slotWritten {es : List DirEntry} {k j : ℕ} {e : DirEntry} (hk : k ≤ es.length) :
    (slotWritten es k e)[j]? = if j = k then some e else es[j]? := by
  unfold slotWritten
  split_ifs with h1 h2 h2
  · subst h2
    simp [h1]
  · rw [List.getElem?_set_ne (Ne.symm h2)]
  · have : j = es.length := by omega
    simp [this]
  · rcases lt_or_ge j es.length with h | h
    · rw [List.getElem?_append_left h]
    · rw [List.getElem?_eq_none (by simp; omega), List.getElem?_eq_none h]

/-! ### A new entry -/

/-- What a new directory entry needs: a directory `d`, a slot that is free, a name that is not used, and an
inode in a free sector that is a file or an empty directory under `d`. -/
structure CanAdd (inodes : Inodes) (d p : Sector) (es : List DirEntry) (k : ℕ) (name : CStr)
    (i : Sector) (ino : Inode) : Prop where
  dir : inodes d = some (.dir p es)
  slot : k ≤ es.length
  free : ∀ e, es[k]? = some e → e.inUse = false
  name : lookupFrom name 0 es = none
  sector : inodes i = none
  empty : ∀ q es', ino = .dir q es' → q = d ∧ ∀ e ∈ es', e.inUse = false

/-- The inodes with the new one and its entry. -/
def added (inodes : Inodes) (d p : Sector) (es : List DirEntry) (k : ℕ) (name : CStr)
    (i : Sector) (ino : Inode) : Inodes :=
  Function.update (Function.update inodes i (some ino)) d
    (some (.dir p (slotWritten es k ⟨i, name, true⟩)))

section Add

variable {inodes : Inodes} {d p i : Sector} {es : List DirEntry} {k : ℕ} {name : CStr} {ino : Inode}

theorem CanAdd.ne (h : CanAdd inodes d p es k name i ino) : i ≠ d := by
  rintro rfl
  have := h.dir
  rw [h.sector] at this
  simp at this

theorem added_dir : added inodes d p es k name i ino d =
    some (.dir p (slotWritten es k ⟨i, name, true⟩)) := Function.update_self ..

theorem added_new (h : CanAdd inodes d p es k name i ino) :
    added inodes d p es k name i ino i = some ino := by
  rw [added, Function.update_of_ne h.ne, Function.update_self]

theorem added_other {x : Sector} (hd : x ≠ d) (hi : x ≠ i) :
    added inodes d p es k name i ino x = inodes x := by
  rw [added, Function.update_of_ne hd, Function.update_of_ne hi]

/-- Every old inode is still there, with the same parent; only `d` has other slots. -/
theorem added_old (h : CanAdd inodes d p es k name i ino) {x : Sector} {old : Inode}
    (hx : inodes x = some old) : x ≠ d ∧ added inodes d p es k name i ino x = some old ∨
      x = d ∧ old = .dir p es := by
  by_cases hd : x = d
  · subst hd
    exact .inr ⟨rfl, by simpa [h.dir] using hx.symm⟩
  · refine .inl ⟨hd, ?_⟩
    rw [added_other hd, hx]
    rintro rfl
    rw [h.sector] at hx
    simp at hx

/-- **The entries afterwards** are the old ones and the new one. -/
theorem hasEntry_added (h : CanAdd inodes d p es k name i ino) {x : Sector} {j : ℕ}
    {e : DirEntry} : HasEntry (added inodes d p es k name i ino) x j e ↔
      HasEntry inodes x j e ∨ x = d ∧ j = k ∧ e = ⟨i, name, true⟩ := by
  by_cases hd : x = d
  · subst hd
    have hslot := getElem?_slotWritten (j := j) (e := ⟨i, name, true⟩) h.slot
    constructor
    · rintro ⟨q, es', hx, he, hu⟩
      obtain ⟨rfl, rfl⟩ := by simpa [added_dir] using hx
      rw [hslot] at he
      split_ifs at he with hj
      · exact .inr ⟨rfl, hj, by simpa using he.symm⟩
      · exact .inl ⟨p, es, h.dir, he, hu⟩
    · rintro (⟨q, es', hx, he, hu⟩ | ⟨-, rfl, rfl⟩)
      · obtain ⟨rfl, rfl⟩ : p = q ∧ es = es' := by simpa [h.dir] using hx
        have hj : j ≠ k := by
          rintro rfl
          rw [h.free e he] at hu
          simp at hu
        exact ⟨p, _, added_dir, by rw [hslot, if_neg hj, he], hu⟩
      · exact ⟨p, _, added_dir, by rw [hslot, if_pos rfl], rfl⟩
  · by_cases hi : x = i
    · subst hi
      constructor
      · rintro ⟨q, es', hx, he, hu⟩
        rw [added_new h] at hx
        obtain ⟨-, hempty⟩ := h.empty q es' (by simpa using hx)
        rw [hempty e (List.mem_of_getElem? he)] at hu
        simp at hu
      · rintro (⟨q, es', hx, -⟩ | ⟨hd', -⟩)
        · rw [h.sector] at hx
          simp at hx
        · exact absurd hd' hd
    · have : HasEntry (added inodes d p es k name i ino) x j e ↔ HasEntry inodes x j e := by
        unfold HasEntry
        rw [added_other hd hi]
      rw [this]
      simp [hd]

theorem added_isDirAt (h : CanAdd inodes d p es k name i ino) {x : Sector}
    (hx : IsDirAt inodes x) : IsDirAt (added inodes d p es k name i ino) x := by
  obtain ⟨q, es', hx⟩ := hx
  rcases added_old h hx with ⟨-, h'⟩ | ⟨rfl, -⟩
  · exact ⟨q, es', h'⟩
  · exact ⟨p, _, added_dir⟩

/-- No old entry leads to the new inode. -/
theorem hasEntry_ne_new (ht : TreeWf inodes) (h : CanAdd inodes d p es k name i ino) {x : Sector}
    {j : ℕ} {e : DirEntry} (he : HasEntry inodes x j e) : e.inodeSector ≠ i := by
  rintro hi
  obtain ⟨o, ho⟩ := ht.live he
  rw [hi, h.sector] at ho
  simp at ho

/-- **Adding an entry keeps the tree.** -/
theorem added_wf (ht : TreeWf inodes) (h : CanAdd inodes d p es k name i ino) :
    TreeWf (added inodes d p es k name i ino) where
  root := by
    obtain ⟨es', hr⟩ := ht.root
    rcases added_old h hr with ⟨-, hr'⟩ | ⟨hd, he⟩
    · exact ⟨es', hr'⟩
    · obtain ⟨rfl, -⟩ : rootDirSector = p ∧ es' = es := by simpa using he
      exact ⟨_, by rw [hd]; exact added_dir⟩
  live he := by
    rcases (hasEntry_added h).mp he with he | ⟨-, -, rfl⟩
    · obtain ⟨o, ho⟩ := ht.live he
      rcases added_old h ho with ⟨-, h'⟩ | ⟨hd, -⟩
      · exact ⟨o, h'⟩
      · exact ⟨_, by rw [hd]; exact added_dir⟩
    · exact ⟨ino, added_new h⟩
  ne_root he := by
    rcases (hasEntry_added h).mp he with he | ⟨-, -, rfl⟩
    · exact ht.ne_root he
    · rintro hi
      obtain ⟨es', hr⟩ := ht.root
      have := h.sector
      rw [show i = rootDirSector from hi, hr] at this
      simp at this
  names he he' hn := by
    -- the name of the new entry is used nowhere else in `d`
    have hnew : ∀ {j e}, HasEntry inodes d j e → e.name ≠ name := by
      rintro j e ⟨q, es', hx, hj, hu⟩
      obtain ⟨rfl, rfl⟩ : p = q ∧ es = es' := by simpa [h.dir] using hx
      exact lookupFrom_none.mp h.name e (List.mem_of_getElem? hj) hu
    rcases (hasEntry_added h).mp he with h1 | ⟨rfl, rfl, rfl⟩ <;>
      rcases (hasEntry_added h).mp he' with h2 | ⟨hd', rfl, rfl⟩
    · exact ht.names h1 h2 hn
    · exact absurd hn (hnew (hd' ▸ h1))
    · exact absurd hn.symm (hnew h2)
    · rfl
  links he he' hs := by
    rcases (hasEntry_added h).mp he with h1 | ⟨rfl, rfl, rfl⟩ <;>
      rcases (hasEntry_added h).mp he' with h2 | ⟨rfl, rfl, rfl⟩
    · exact ht.links h1 h2 hs
    · exact absurd hs (hasEntry_ne_new ht h h1)
    · exact absurd hs.symm (hasEntry_ne_new ht h h2)
    · exact ⟨rfl, rfl⟩
  parent {x j e q es'} he hx := by
    rcases (hasEntry_added h).mp he with he | ⟨rfl, -, rfl⟩
    · obtain ⟨o, ho⟩ := ht.live he
      rcases added_old h ho with ⟨-, h'⟩ | ⟨hd, rfl⟩
      · rw [h'] at hx
        obtain rfl : o = .dir q es' := by simpa using hx
        exact ht.parent he ho
      · rw [hd, added_dir] at hx
        obtain ⟨rfl, -⟩ := by simpa using hx
        exact ht.parent he ho
    · rw [added_new h] at hx
      exact (h.empty q es' (by simpa using hx)).1
  linked {x q es'} hx hne := by
    by_cases hd : x = d
    · subst hd
      rw [added_dir] at hx
      obtain ⟨rfl, -⟩ := by simpa using hx
      obtain ⟨j, e, he, hs⟩ := ht.linked h.dir hne
      exact ⟨j, e, (hasEntry_added h).mpr (.inl he), hs⟩
    · by_cases hi : x = i
      · subst hi
        rw [added_new h] at hx
        obtain ⟨rfl, -⟩ := h.empty q es' (by simpa using hx)
        exact ⟨k, ⟨x, name, true⟩, (hasEntry_added h).mpr (.inr ⟨rfl, rfl, rfl⟩), rfl⟩
      · rw [added_other hd hi] at hx
        obtain ⟨j, e, he, hs⟩ := ht.linked hx hne
        exact ⟨j, e, (hasEntry_added h).mpr (.inl he), hs⟩

/-- Adding an entry keeps every walk. -/
theorem walkDir_added (ht : TreeWf inodes) (h : CanAdd inodes d p es k name i ino) {x w : Sector}
    {tokens : List CStr} (hw : walkDir inodes x tokens = some w) :
    walkDir (added inodes d p es k name i ino) x tokens = some w := by
  refine walk_mono (fun v l w hs => stepDir_transfer (added_wf ht h) (added_isDirAt h) ?_ ?_ hs)
    x tokens hw
  · exact fun j e he _ => (hasEntry_added h).mpr (.inl he)
  · intro es' hv
    rcases added_old h hv with ⟨-, h'⟩ | ⟨rfl, he⟩
    · exact ⟨es', h'⟩
    · obtain ⟨rfl, -⟩ := by simpa using he
      exact ⟨_, added_dir⟩

/-- The new entry of a new directory is walked to. -/
theorem walkDir_added_new (ht : TreeWf inodes) (h : CanAdd inodes d p es k name i ino)
    (hino : ino.isDir = true) (hn : name ≠ dotdot) {x : Sector} {tokens : List CStr}
    (hw : walkDir inodes x tokens = some d) :
    walkDir (added inodes d p es k name i ino) x (tokens ++ [name]) = some i := by
  have hnew : HasEntry (added inodes d p es k name i ino) d k ⟨i, name, true⟩ :=
    (hasEntry_added h).mpr (.inr ⟨rfl, rfl, rfl⟩)
  have hdir : IsDirAt (added inodes d p es k name i ino) i := by
    cases ino with
    | file q => simp [Inode.isDir] at hino
    | dir q es' => exact ⟨q, es', added_new h⟩
  have hw' : walk (stepDir (added inodes d p es k name i ino)) x tokens = some d :=
    walkDir_added ht h hw
  rw [walkDir, walk_snoc, hw']
  show stepDir _ d name = some i
  rw [stepDir_of_ne hn]
  exact childDir_of_hasEntry (added_wf ht h) hnew hdir

end Add

/-! ### An entry less -/

/-- The links to `c` are gone, and perhaps `c` itself; every other inode kept its kind and its parent. -/
structure Shrinks (inodes : Inodes) (c : Sector) (inodes' : Inodes) : Prop where
  ne_root : c ≠ rootDirSector
  empty : ∀ {j e}, ¬HasEntry inodes c j e
  entry : ∀ {x j e}, HasEntry inodes' x j e ↔ HasEntry inodes x j e ∧ e.inodeSector ≠ c
  file : ∀ {x q}, x ≠ c → inodes x = some (.file q) → inodes' x = some (.file q)
  dir : ∀ {x q es}, x ≠ c → inodes x = some (.dir q es) → ∃ es', inodes' x = some (.dir q es')
  back : ∀ {x q es}, inodes' x = some (.dir q es) → x ≠ c ∧ ∃ es', inodes x = some (.dir q es')

section Shrink

variable {inodes inodes' : Inodes} {c : Sector}

/-- **Losing an inode and its links keeps the tree.** -/
theorem Shrinks.wf (h : Shrinks inodes c inodes') (ht : TreeWf inodes) : TreeWf inodes' where
  root := by
    obtain ⟨es, hr⟩ := ht.root
    exact h.dir h.ne_root.symm hr
  live he := by
    obtain ⟨he, hc⟩ := h.entry.mp he
    obtain ⟨o, ho⟩ := ht.live he
    cases o with
    | file q => exact ⟨_, h.file hc ho⟩
    | dir q es =>
      obtain ⟨es', ho'⟩ := h.dir hc ho
      exact ⟨_, ho'⟩
  ne_root he := ht.ne_root (h.entry.mp he).1
  names he he' hn := ht.names (h.entry.mp he).1 (h.entry.mp he').1 hn
  links he he' hs := ht.links (h.entry.mp he).1 (h.entry.mp he').1 hs
  parent he hx := by
    obtain ⟨-, es', hx'⟩ := h.back hx
    exact ht.parent (h.entry.mp he).1 hx'
  linked hx hne := by
    obtain ⟨hc, es', hx'⟩ := h.back hx
    obtain ⟨j, e, he, rfl⟩ := ht.linked hx' hne
    exact ⟨j, e, h.entry.mpr ⟨he, hc⟩, rfl⟩

theorem Shrinks.isDirAt (h : Shrinks inodes c inodes') {x : Sector} (hc : x ≠ c)
    (hx : IsDirAt inodes x) : IsDirAt inodes' x := by
  obtain ⟨q, es, hx⟩ := hx
  obtain ⟨es', hx'⟩ := h.dir hc hx
  exact ⟨q, es', hx'⟩

/-- A walk from the root that does not end at `c` and has ".." at most in front keeps its end. -/
theorem Shrinks.walkDir (h : Shrinks inodes c inodes') (ht : TreeWf inodes) {w : Sector}
    {tokens : List CStr} (hw : w ≠ c) (hdd : dotdot ∉ tokens.tail)
    (hwalk : walkDir inodes rootDirSector tokens = some w) :
    walkDir inodes' rootDirSector tokens = some w := by
  refine walk_avoid (c := c) ?_ rootDirSector tokens h.ne_root.symm hw ?_ hwalk
  · intro v l u hv hu hs
    refine stepDir_transfer (h.wf ht) (h.isDirAt hu) ?_ (fun es hvd => h.dir hv hvd) hs
    exact fun k e he hs => h.entry.mpr ⟨he, by rwa [hs]⟩
  · intro l hl
    rw [stepDir_of_ne (by rintro rfl; exact hdd hl)]
    rcases hs : childDir inodes c l with _ | u
    · rfl
    · obtain ⟨k, e, he, -⟩ := childDir_some hs
      exact absurd he h.empty

/-- Freeing the sector of a file without links. -/
theorem shrinks_free (ht : TreeWf inodes) {q : Sector} (hc : inodes c = some (.file q))
    (hlinks : ∀ x j e, HasEntry inodes x j e → e.inodeSector ≠ c) :
    Shrinks inodes c (Function.update inodes c none) where
  ne_root := by
    rintro rfl
    obtain ⟨es, hr⟩ := ht.root
    rw [hc] at hr
    simp at hr
  empty {j e} he := by
    obtain ⟨q', es, hd, -⟩ := he
    rw [hc] at hd
    simp at hd
  entry {x j e} := by
    have hx : HasEntry (Function.update inodes c none) x j e ↔ HasEntry inodes x j e := by
      unfold HasEntry
      by_cases hxc : x = c
      · subst hxc
        simp [hc]
      · rw [Function.update_of_ne hxc]
    rw [hx]
    exact ⟨fun h => ⟨h, hlinks x j e h⟩, fun h => h.1⟩
  file hx h := by rw [Function.update_of_ne hx, h]
  dir hx h := ⟨_, by rw [Function.update_of_ne hx, h]⟩
  back {x q es} h := by
    have hx : x ≠ c := by
      rintro rfl
      simp at h
    exact ⟨hx, es, by rwa [Function.update_of_ne hx] at h⟩

/-- The inodes after the slot `k` of `d` is set to unused, with `o` left at the sector of its inode. -/
def erased (inodes : Inodes) (d p : Sector) (es : List DirEntry) (k : ℕ) (e : DirEntry)
    (o : Option Inode) : Inodes :=
  Function.update (Function.update inodes d (some (.dir p (es.set k { e with inUse := false }))))
    e.inodeSector o

/-- **Erasing an entry** of a file, or of an empty directory that is freed. -/
theorem shrinks_erased (ht : TreeWf inodes) {d p : Sector} {es : List DirEntry} {k : ℕ}
    {e : DirEntry} {o : Option Inode} (hd : inodes d = some (.dir p es)) (hk : es[k]? = some e)
    (hu : e.inUse = true) (hempty : ∀ {j e'}, ¬HasEntry inodes e.inodeSector j e')
    (ho : o = none ∨ ∃ q, inodes e.inodeSector = some (.file q) ∧ o = some (.file q)) :
    Shrinks inodes e.inodeSector (erased inodes d p es k e o) := by
  have he : HasEntry inodes d k e := ⟨p, es, hd, hk, hu⟩
  have hdc : d ≠ e.inodeSector := by
    intro h
    exact hempty (h ▸ he)
  have hlen : k < es.length := (List.getElem?_eq_some_iff.mp hk).1
  have hatd : erased inodes d p es k e o d =
      some (.dir p (es.set k { e with inUse := false })) := by
    rw [erased, Function.update_of_ne hdc, Function.update_self]
  have hother : ∀ {x}, x ≠ d → x ≠ e.inodeSector → erased inodes d p es k e o x = inodes x := by
    intro x hxd hxc
    rw [erased, Function.update_of_ne hxc, Function.update_of_ne hxd]
  have hatc : erased inodes d p es k e o e.inodeSector = o := Function.update_self ..
  have hnodir : ∀ q es', erased inodes d p es k e o e.inodeSector ≠ some (.dir q es') := by
    rw [hatc]
    rcases ho with rfl | ⟨q, -, rfl⟩ <;> simp
  refine ⟨ht.ne_root he, hempty, ?_, ?_, ?_, ?_⟩
  · intro x j e'
    by_cases hxd : x = d
    · subst hxd
      have hslot : (es.set k { e with inUse := false })[j]? =
          if j = k then some { e with inUse := false } else es[j]? := by
        rw [List.getElem?_set]
        by_cases hj : j = k
        · subst hj
          simp [hlen]
        · rw [if_neg (Ne.symm hj), if_neg hj]
      constructor
      · rintro ⟨q, es', hx, he', hu'⟩
        rw [hatd] at hx
        obtain ⟨rfl, rfl⟩ := by simpa using hx
        rw [hslot] at he'
        split_ifs at he' with hj
        · obtain rfl := by simpa using he'
          simp at hu'
        · have hold : HasEntry inodes x j e' := ⟨p, es, hd, he', hu'⟩
          exact ⟨hold, fun hs => hj (ht.links hold he hs).2⟩
      · rintro ⟨⟨q, es', hx, he', hu'⟩, hs⟩
        obtain ⟨rfl, rfl⟩ : p = q ∧ es = es' := by simpa [hd] using hx
        refine ⟨p, _, hatd, ?_, hu'⟩
        rw [hslot, if_neg, he']
        rintro rfl
        obtain rfl : e = e' := by simpa [hk] using he'
        exact hs rfl
    · by_cases hxc : x = e.inodeSector
      · subst hxc
        refine iff_of_false ?_ fun h => hempty h.1
        rintro ⟨q, es', hx, -⟩
        exact hnodir q es' hx
      · have hx : HasEntry (erased inodes d p es k e o) x j e' ↔ HasEntry inodes x j e' := by
          unfold HasEntry
          rw [hother hxd hxc]
        rw [hx]
        exact ⟨fun h => ⟨h, fun hs => hxd (ht.links h he hs).1⟩, fun h => h.1⟩
  · intro x q hxc hx
    rw [hother _ hxc, hx]
    rintro rfl
    rw [hd] at hx
    simp at hx
  · intro x q es' hxc hx
    by_cases hxd : x = d
    · subst hxd
      obtain ⟨rfl, rfl⟩ : p = q ∧ es = es' := by simpa [hd] using hx
      exact ⟨_, hatd⟩
    · exact ⟨es', by rw [hother hxd hxc, hx]⟩
  · intro x q es' hx
    have hxc : x ≠ e.inodeSector := by
      rintro rfl
      exact hnodir q es' hx
    refine ⟨hxc, ?_⟩
    by_cases hxd : x = d
    · subst hxd
      rw [hatd] at hx
      obtain ⟨rfl, -⟩ := by simpa using hx
      exact ⟨es, hd⟩
    · exact ⟨es', by rwa [hother hxd hxc] at hx⟩

end Shrink

end Pintos.Filesys.DirTreeUpdate
