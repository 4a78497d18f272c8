import Pintos.Lib.Walks
import Pintos.Filesys.Directory

/-! # The directory tree

What the directories on the device mean: a tree of directories with the root on top, in which a path is
walked component by component. `walkDir` is this walk, with ".." leading to the parent; it says nothing of
caches, handles or locks. `TreeWf` is what makes the inodes a tree: every name is used once, every inode is
linked once, and a directory's parent sector names the directory it is linked in. -/

namespace Pintos.Filesys.DirTree

open Pintos.Lib.Walks Pintos.Lib.Tokens
open Pintos.Filesys.Path Pintos.Filesys.DentryCache Pintos.Filesys.DirState
open Pintos.Filesys.Directory

/-- The inode in this sector is a directory. -/
def IsDirAt (inodes : Inodes) (d : Sector) : Prop := ∃ p es, inodes d = some (.dir p es)

/-- The subdirectory of `d` with this name. -/
def childDir (inodes : Inodes) (d : Sector) (name : CStr) : Option Sector :=
  match inodes d with
  | some (.dir _ es) =>
    match lookupFrom name 0 es with
    | some (e, _) =>
      match inodes e.inodeSector with
      | some (.dir _ _) => some e.inodeSector
      | _ => none
    | none => none
  | _ => none

/-- The parent of the directory `d`. -/
def parentDir (inodes : Inodes) (d : Sector) : Option Sector :=
  match inodes d with
  | some (.dir p _) =>
    match inodes p with
    | some (.dir _ _) => some p
    | _ => none
  | _ => none

/-- One component of a path. -/
def stepDir (inodes : Inodes) (d : Sector) (token : CStr) : Option Sector :=
  if token = dotdot then parentDir inodes d else childDir inodes d token

/-- The plain component-by-component walk. -/
def walkDir (inodes : Inodes) (d : Sector) (tokens : List CStr) : Option Sector :=
  walk (stepDir inodes) d tokens

/-- The directories form a tree under the root. -/
structure TreeWf (inodes : Inodes) : Prop where
  root : ∃ es, inodes rootDirSector = some (.dir rootDirSector es)
  live : ∀ {d k e}, HasEntry inodes d k e → ∃ ino, inodes e.inodeSector = some ino
  ne_root : ∀ {d k e}, HasEntry inodes d k e → e.inodeSector ≠ rootDirSector
  names : ∀ {d k e k' e'}, HasEntry inodes d k e → HasEntry inodes d k' e' →
    e.name = e'.name → k = k'
  links : ∀ {d k e d' k' e'}, HasEntry inodes d k e → HasEntry inodes d' k' e' →
    e.inodeSector = e'.inodeSector → d = d' ∧ k = k'
  parent : ∀ {d k e p es}, HasEntry inodes d k e → inodes e.inodeSector = some (.dir p es) → p = d
  linked : ∀ {d p es}, inodes d = some (.dir p es) → d ≠ rootDirSector →
    ∃ k e, HasEntry inodes p k e ∧ e.inodeSector = d

/-- Every cached pair is a directory and what walking its path from the root reaches. -/
def Coherent (inodes : Inodes) (cache : Cache) : Prop :=
  ∀ path i, (path, i) ∈ cache →
    IsDirAt inodes i ∧ walkDir inodes rootDirSector (tokenize slash path) = some i

/-! ### Looking up a name -/

theorem lookupFrom_some {path : CStr} : ∀ {ofs : ℕ} {es : List DirEntry} {e : DirEntry} {k : ℕ},
    lookupFrom path ofs es = some (e, k) →
      ofs ≤ k ∧ es[k - ofs]? = some e ∧ e.inUse = true ∧ e.name = path
  | _, [], e, k, h => by simp [lookupFrom] at h
  | ofs, e' :: es, e, k, h => by
    unfold lookupFrom at h
    split_ifs at h with hc
    · obtain ⟨rfl, rfl⟩ := by simpa using h
      exact ⟨le_rfl, by simp, hc.1, hc.2.symm⟩
    · obtain ⟨hk, he, hu⟩ := lookupFrom_some h
      refine ⟨by omega, ?_, hu⟩
      rw [show k - ofs = (k - (ofs + 1)) + 1 by omega]
      simpa using he

theorem lookupFrom_none {path : CStr} : ∀ {ofs : ℕ} {es : List DirEntry},
    lookupFrom path ofs es = none ↔ ∀ e ∈ es, e.inUse = true → e.name ≠ path
  | ofs, [] => by simp [lookupFrom]
  | ofs, e :: es => by
    unfold lookupFrom
    split_ifs with hc
    · simpa using fun h => absurd hc.2.symm (h hc.1)
    · rw [lookupFrom_none]
      simp only [List.mem_cons, forall_eq_or_imp]
      refine ⟨fun h => ⟨fun hu hn => hc ⟨hu, hn.symm⟩, h⟩, fun h => h.2⟩

theorem lookupAny_false {es : List DirEntry} : lookupAny es = false ↔ ∀ e ∈ es, e.inUse = false := by
  induction es with
  | nil => simp [lookupAny]
  | cons e es ih =>
    unfold lookupAny
    split_ifs with h <;> simp_all

theorem hasEntry_of_lookup {inodes : Inodes} {d p : Sector} {es : List DirEntry} {name : CStr}
    {e : DirEntry} {k : ℕ} (hd : inodes d = some (.dir p es))
    (h : lookupFrom name 0 es = some (e, k)) : HasEntry inodes d k e ∧ e.name = name := by
  obtain ⟨-, he, hu, hn⟩ := lookupFrom_some h
  exact ⟨⟨p, es, hd, by simpa using he, hu⟩, hn⟩

theorem isDirAt_of_hasEntry {inodes : Inodes} {d : Sector} {k : ℕ} {e : DirEntry}
    (h : HasEntry inodes d k e) : IsDirAt inodes d := by
  obtain ⟨p, es, hd, -⟩ := h
  exact ⟨p, es, hd⟩

/-- In a directory an entry is found under its name. -/
theorem lookup_of_hasEntry {inodes : Inodes} {d p : Sector} {es : List DirEntry} {e : DirEntry}
    {k : ℕ} (ht : TreeWf inodes) (hd : inodes d = some (.dir p es)) (h : HasEntry inodes d k e) :
    lookupFrom e.name 0 es = some (e, k) := by
  obtain ⟨q, es', hd', he, hu⟩ := id h
  obtain ⟨rfl, rfl⟩ : p = q ∧ es = es' := by simpa [hd] using hd'
  rcases hl : lookupFrom e.name 0 es with _ | ⟨e', k'⟩
  · exact absurd rfl (lookupFrom_none.mp hl e (List.mem_of_getElem? he) hu)
  · obtain ⟨h', hn⟩ := hasEntry_of_lookup hd hl
    obtain rfl := ht.names h' h hn
    obtain ⟨q, es', hd', he', -⟩ := h'
    obtain ⟨rfl, rfl⟩ : p = q ∧ es = es' := by simpa [hd] using hd'
    obtain rfl : e = e' := by simpa [he] using he'
    rfl

/-! ### Steps in the tree -/

theorem childDir_some {inodes : Inodes} {d c : Sector} {name : CStr}
    (h : childDir inodes d name = some c) :
    ∃ k e, HasEntry inodes d k e ∧ e.name = name ∧ e.inodeSector = c ∧ IsDirAt inodes c := by
  unfold childDir at h
  split at h
  · next p es hd =>
    split at h
    · next e k hl =>
      split at h
      · next q es' hc =>
        obtain rfl := by simpa using h
        obtain ⟨he, hn⟩ := hasEntry_of_lookup hd hl
        exact ⟨k, e, he, hn, rfl, q, es', hc⟩
      · simp at h
    · simp at h
  · simp at h

theorem childDir_of_hasEntry {inodes : Inodes} {d : Sector} {k : ℕ} {e : DirEntry}
    (ht : TreeWf inodes) (h : HasEntry inodes d k e) (hc : IsDirAt inodes e.inodeSector) :
    childDir inodes d e.name = some e.inodeSector := by
  obtain ⟨p, es, hd, -⟩ := id h
  obtain ⟨q, es', hc⟩ := hc
  simp [childDir, hd, lookup_of_hasEntry ht hd h, hc]

theorem parentDir_some {inodes : Inodes} {d p : Sector} (h : parentDir inodes d = some p) :
    (∃ es, inodes d = some (.dir p es)) ∧ IsDirAt inodes p := by
  unfold parentDir at h
  split at h
  · next q es hd =>
    split at h
    · next q' es' hp =>
      obtain rfl := by simpa using h
      exact ⟨⟨es, hd⟩, q', es', hp⟩
    · simp at h
  · simp at h

theorem stepDir_isDirAt {inodes : Inodes} {d c : Sector} {token : CStr}
    (h : stepDir inodes d token = some c) : IsDirAt inodes c := by
  unfold stepDir at h
  split_ifs at h
  · exact (parentDir_some h).2
  · obtain ⟨-, -, -, -, -, hc⟩ := childDir_some h
    exact hc

theorem stepDir_of_ne {token : CStr} (h : token ≠ dotdot) (inodes : Inodes) (d : Sector) :
    stepDir inodes d token = childDir inodes d token := if_neg h

/-- A walk through directories ends in a directory. -/
theorem walkDir_isDirAt {inodes : Inodes} {d c : Sector} {tokens : List CStr}
    (hd : IsDirAt inodes d) (h : walkDir inodes d tokens = some c) : IsDirAt inodes c :=
  walk_induct (P := IsDirAt inodes) (fun _ _ _ _ h => stepDir_isDirAt h) d tokens hd h

theorem TreeWf.isDirAt_root {inodes : Inodes} (ht : TreeWf inodes) :
    IsDirAt inodes rootDirSector := by
  obtain ⟨es, h⟩ := ht.root
  exact ⟨_, es, h⟩

/-- The parent of a directory is a directory. -/
theorem TreeWf.isDirAt_parent {inodes : Inodes} (ht : TreeWf inodes) {d p : Sector}
    {es : List DirEntry} (h : inodes d = some (.dir p es)) : IsDirAt inodes p := by
  by_cases hd : d = rootDirSector
  · obtain ⟨es', hr⟩ := ht.root
    subst hd
    obtain ⟨rfl, -⟩ : p = rootDirSector ∧ es = es' := by simpa [h] using hr
    exact ht.isDirAt_root
  · obtain ⟨k, e, he, -⟩ := ht.linked h hd
    exact isDirAt_of_hasEntry he

theorem TreeWf.parentDir_eq {inodes : Inodes} (ht : TreeWf inodes) {d p : Sector}
    {es : List DirEntry} (h : inodes d = some (.dir p es)) : parentDir inodes d = some p := by
  obtain ⟨q, es', hp⟩ := ht.isDirAt_parent h
  simp [parentDir, h, hp]

/-- The parent sector on the device, as a function. -/
def parentSector (inodes : Inodes) (d : Sector) : Sector :=
  match inodes d with
  | some ino => ino.parent
  | none => d

/-- **A tree**: subdirectories have one parent and are never the root. -/
theorem TreeWf.rooted {inodes : Inodes} (ht : TreeWf inodes) :
    Rooted (childDir inodes) rootDirSector (parentSector inodes) where
  parent_of h := by
    obtain ⟨k, e, he, -, rfl, p, es, hc⟩ := childDir_some h
    simp [parentSector, hc, Inode.parent, ht.parent he hc]
  ne_root h := by
    obtain ⟨k, e, he, -, rfl, -⟩ := childDir_some h
    exact ht.ne_root he

/-- Without ".." a path is walked downwards. -/
theorem walkDir_eq_childDir {inodes : Inodes} {d : Sector} {tokens : List CStr}
    (h : dotdot ∉ tokens) : walkDir inodes d tokens = walk (childDir inodes) d tokens :=
  walk_congr d tokens fun _ ht v => stepDir_of_ne (fun h' => h (h' ▸ ht)) inodes v

/-- The parent of what a walk without ".." reaches is reached without the last token. -/
theorem walkDir_dropLast {inodes : Inodes} (ht : TreeWf inodes) {d p : Sector} {es : List DirEntry}
    {tokens : List CStr} (hne : tokens ≠ []) (hdd : dotdot ∉ tokens)
    (h : walkDir inodes rootDirSector tokens = some d) (hd : inodes d = some (.dir p es)) :
    walkDir inodes rootDirSector tokens.dropLast = some p := by
  obtain ⟨ts, t, rfl⟩ : ∃ ts t, tokens = ts ++ [t] :=
    ⟨_, _, (List.dropLast_append_getLast hne).symm⟩
  rw [walkDir_eq_childDir hdd, walk_snoc] at h
  obtain ⟨q, hq, hc⟩ := Option.bind_eq_some_iff.mp h
  obtain ⟨k, e, he, -, rfl, -⟩ := childDir_some hc
  rw [List.dropLast_concat, walkDir_eq_childDir (fun h' => hdd (by simp [h'])), hq,
    ht.parent he hd]

/-- Walking on by one name never stays in the same directory. -/
theorem walkDir_ne_dropLast {inodes : Inodes} (ht : TreeWf inodes) {tokens : List CStr}
    (hne : tokens ≠ []) (hdd : dotdot ∉ tokens) {p : Sector}
    (h : walkDir inodes rootDirSector tokens.dropLast = some p) :
    walkDir inodes rootDirSector tokens ≠ some p := by
  obtain ⟨ts, t, rfl⟩ : ∃ ts t, tokens = ts ++ [t] :=
    ⟨_, _, (List.dropLast_append_getLast hne).symm⟩
  rw [List.dropLast_concat, walkDir_eq_childDir (fun h' => hdd (by simp [h']))] at h
  rw [walkDir_eq_childDir hdd]
  exact ht.rooted.walk_snoc_ne ts t h

end Pintos.Filesys.DirTree
