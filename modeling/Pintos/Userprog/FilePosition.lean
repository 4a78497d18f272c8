import Pintos.Filesys.DenyWrite
import Pintos.Userprog.Descriptors

/-! # The position of an open file (filesys/file.c under userprog/syscall.c)

The system calls on files with file.c written out below them: every `open` makes a `struct file` with a position
of its own, which `file_read` and `file_write` advance by the bytes they return and `file_seek` sets. What
inode.c does is a parameter, `InodeLayer`. -/

namespace Pintos.Userprog.FilePosition

open Pintos.Lib.Runs Pintos.Lib.Stopping
open Pintos.Filesys.Path (CStr)
open Pintos.Filesys.DenyWrite (File)
open Pintos.Userprog.UserMem Pintos.Userprog.Syscall Pintos.Userprog.UserPointers Pintos.Userprog.Descriptors

variable {ν κ α : Type}

/-! ### file.c -/

/-- The kernel below the system calls: every `struct file` by its address. -/
structure FileKernel (κ : Type) where
  files : ℕ → File
  /-- The address that the next `calloc` of a `struct file` returns. -/
  next : ℕ
  rest : κ

/-- What is found by a path. -/
inductive Found
  | inode (i : ℕ)
  | dir (d : ℕ)

/-- The kernel below file.c; `others` has what does not concern open files. -/
structure InodeLayer (ν κ : Type) where
  others : Services ν κ
  /-- `filesys_open` up to `file_open`, whose `calloc` is part of it; `none` if the call fails. -/
  lookup : CStr → Service ν κ (Option Found)
  inodeReadAt : (inode : ℕ) → (size : ℤ) → (offset : ℕ) → Service ν κ (List UInt8)
  inodeWriteAt : (inode : ℕ) → List UInt8 → (offset : ℕ) → Service ν κ ℕ
  inodeLength : κ → (inode : ℕ) → ℤ
  inodeReopen : (inode : ℕ) → Service ν κ Unit
  inodeAllowWrite : (inode : ℕ) → Service ν κ Unit
  inodeClose : (inode : ℕ) → Service ν κ Unit

/-- A service that leaves the open files alone. -/
def inRest (m : Service ν κ α) : Service ν (FileKernel κ) α := fun s =>
  match m (s.1, s.2.rest) with
  | .ok (a, vm, rest) => .ok (a, vm, { s.2 with rest := rest })
  | .error stop => .error stop

/-- A change of one `struct file`. -/
def setFile (f : ℕ) (file : File) : Service ν (FileKernel κ) Unit :=
  modify fun s => (s.1, { s.2 with files := Function.update s.2.files f file })

/-- `file_open`, which has its memory. -/
def fileOpen (inode : ℕ) : Service ν (FileKernel κ) ℕ := do
  let s ← get
  set (s.1, { s.2 with files := Function.update s.2.files s.2.next ⟨inode, 0, false⟩, next := s.2.next + 1 })
  return s.2.next

variable (L : InodeLayer ν κ)

def fileReopen (f : ℕ) : Service ν (FileKernel κ) ℕ := do
  let s ← get
  inRest (L.inodeReopen (s.2.files f).inode)
  fileOpen (s.2.files f).inode

def fileAllowWrite (f : ℕ) : Service ν (FileKernel κ) Unit := do
  let s ← get
  if (s.2.files f).denyWrite then do
    setFile f { s.2.files f with denyWrite := false }
    inRest (L.inodeAllowWrite (s.2.files f).inode)
  else return ()

def fileClose (f : ℕ) : Service ν (FileKernel κ) Unit := do
  fileAllowWrite L f
  let s ← get
  inRest (L.inodeClose (s.2.files f).inode)

/-- `file_read`, which has its size as an `off_t`. -/
def fileRead (f size : ℕ) : Service ν (FileKernel κ) (ℤ × List UInt8) := do
  let s ← get
  let bytes ← inRest (L.inodeReadAt (s.2.files f).inode (toInt size) (s.2.files f).pos)
  setFile f { s.2.files f with pos := (s.2.files f).pos + bytes.length }
  return (bytes.length, bytes)

def fileWrite (f : ℕ) (buffer : List UInt8) : Service ν (FileKernel κ) ℤ := do
  let s ← get
  let written ← inRest (L.inodeWriteAt (s.2.files f).inode buffer (s.2.files f).pos)
  setFile f { s.2.files f with pos := (s.2.files f).pos + written }
  return written

def fileSeek (f : ℕ) (newPos : ℤ) : Service ν (FileKernel κ) Unit := do
  let s ← get
  if newPos < 0 then throw .panic else setFile f { s.2.files f with pos := newPos.toNat }

def fileLength (f : ℕ) : Service ν (FileKernel κ) ℤ := do
  let s ← get
  return L.inodeLength s.2.rest (s.2.files f).inode

/-- `filesys_open`. -/
def filesysOpen (path : CStr) : Service ν (FileKernel κ) (Option Inner) := do
  match ← inRest (L.lookup path) with
  | none => return none
  | some (.dir d) => return some (.dir d)
  | some (.inode i) => do
    let f ← fileOpen i
    return some (.file f)

/-- `inode_get_inumber` of the inode of an open file or directory. -/
def inumber : Inner → Service ν (FileKernel κ) ℤ
  | .file f => do
    let s ← get
    inRest (L.others.inumber (.file (s.2.files f).inode))
  | inner => inRest (L.others.inumber inner)

/-- What the system calls find below them. -/
def fileServices : Services ν (FileKernel κ) where
  present := L.others.present
  vmHandleUserFault := L.others.vmHandleUserFault
  malloc size := inRest (L.others.malloc size)
  slots k := L.others.slots k.rest
  filesysOpen := filesysOpen L
  filesysCreate path initialSize isDir := inRest (L.others.filesysCreate path initialSize isDir)
  filesysRemove path := inRest (L.others.filesysRemove path)
  changeDir path := inRest (L.others.changeDir path)
  dirClose d := inRest (L.others.dirClose d)
  fileClose := fileClose L
  fileReopen := fileReopen L
  fileRead := fileRead L
  fileWrite := fileWrite L
  fileSeek := fileSeek
  fileLength := fileLength L
  inumber inner := inumber L inner
  inputGetc := inRest L.others.inputGetc
  putbuf bytes := inRest (L.others.putbuf bytes)
  processExecute cmdLine := inRest (L.others.processExecute cmdLine)
  processWait pid := inRest (L.others.processWait pid)
  threadYield := inRest L.others.threadYield
  sendSignal pid signum := inRest (L.others.sendSignal pid signum)
  setHandler signum handler := inRest (L.others.setHandler signum handler)
  mmapEntryAppend f upage := inRest (L.others.mmapEntryAppend f upage)
  mmapEntryRelease mid := inRest (L.others.mmapEntryRelease mid)

/-! ### What the services do to the open files -/

variable {L} {f size : ℕ} {vm vm' : ν} {k k' : FileKernel κ}

/-- Every open file is where it was. -/
def Kept (k k' : FileKernel κ) : Prop := (∀ f, (k'.files f).pos = (k.files f).pos) ∧ k'.next = k.next

/-- The file `f` is at `pos`, and every other open file is where it was. -/
def Moved (k : FileKernel κ) (f pos : ℕ) (k' : FileKernel κ) : Prop :=
  (k'.files f).pos = pos ∧ (∀ g ≠ f, (k'.files g).pos = (k.files g).pos) ∧ k'.next = k.next

theorem inRest_ok {m : Service ν κ α} {a : α} (h : inRest m (vm, k) = .ok (a, vm', k')) :
    k'.files = k.files ∧ k'.next = k.next := by
  unfold inRest at h
  split at h <;> cases h
  exact ⟨rfl, rfl⟩

theorem kept_inRest {m : Service ν κ α} {a : α} (h : inRest m (vm, k) = .ok (a, vm', k')) : Kept k k' := by
  obtain ⟨hfiles, hnext⟩ := inRest_ok h
  exact ⟨fun f => by rw [hfiles], hnext⟩

theorem service_bind {β : Type} {m : Service ν κ α} {g : α → Service ν κ β} {x : ν × κ} {b : β} {y : ν × κ}
    (h : (m >>= g) x = .ok (b, y)) : ∃ a z, m x = .ok (a, z) ∧ g a z = .ok (b, y) := by
  change (m x >>= fun r => g r.1 r.2) = _ at h
  rcases hm : m x with e | ⟨a, z⟩ <;> rw [hm] at h
  · cases h
  · exact ⟨a, z, rfl, h⟩

theorem moved_update {pos : ℕ} (hnext : k'.next = k.next)
    (hfiles : k'.files = Function.update k.files f { k.files f with pos := pos }) : Moved k f pos k' := by
  refine ⟨by rw [hfiles, Function.update_self], fun g hg => ?_, hnext⟩
  rw [hfiles, Function.update_of_ne hg]

theorem moved_fileRead {r : ℤ × List UInt8} (h : fileRead L f size (vm, k) = .ok (r, vm', k')) :
    ∃ n : ℕ, r.1 = n ∧ Moved k f ((k.files f).pos + n) k' := by
  obtain ⟨s, -, ⟨rfl⟩, h⟩ := service_bind h
  obtain ⟨bytes, ⟨vm₁, k₁⟩, h1, h⟩ := service_bind h
  obtain ⟨hfiles, hnext⟩ := inRest_ok h1
  cases h
  refine ⟨bytes.length, rfl, moved_update hnext ?_⟩
  rw [← hfiles]

theorem moved_fileWrite {buffer : List UInt8} {r : ℤ} (h : fileWrite L f buffer (vm, k) = .ok (r, vm', k')) :
    ∃ n : ℕ, r = n ∧ Moved k f ((k.files f).pos + n) k' := by
  obtain ⟨s, -, ⟨rfl⟩, h⟩ := service_bind h
  obtain ⟨written, ⟨vm₁, k₁⟩, h1, h⟩ := service_bind h
  obtain ⟨hfiles, hnext⟩ := inRest_ok h1
  cases h
  refine ⟨written, rfl, moved_update hnext ?_⟩
  rw [← hfiles]

theorem moved_fileSeek {newPos : ℤ} {u : Unit} (h : fileSeek f newPos (vm, k) = .ok (u, vm', k')) :
    Moved k f newPos.toNat k' := by
  obtain ⟨s, -, ⟨rfl⟩, h⟩ := service_bind h
  split_ifs at h
  · cases h
  · cases h
    refine moved_update ?_ ?_ <;> rfl

theorem kept_fileClose {u : Unit} (h : fileClose L f (vm, k) = .ok (u, vm', k')) : Kept k k' := by
  obtain ⟨u₁, ⟨vm₁, k₁⟩, h1, h⟩ := service_bind h
  obtain ⟨s, -, ⟨rfl⟩, h⟩ := service_bind h
  have hallow : Kept k k₁ := by
    obtain ⟨s, -, ⟨rfl⟩, h1⟩ := service_bind h1
    split_ifs at h1
    · obtain ⟨u₂, ⟨vm₂, k₂⟩, ⟨rfl⟩, h1⟩ := service_bind h1
      obtain ⟨hpos, hnext⟩ := kept_inRest h1
      refine ⟨fun g => ?_, hnext⟩
      rw [hpos]
      dsimp only
      rw [Function.update_apply]
      split_ifs with hg
      · rw [hg]
      · rfl
    · cases h1
      exact ⟨fun _ => rfl, rfl⟩
  obtain ⟨hpos, hnext⟩ := kept_inRest h
  exact ⟨fun g => (hpos g).trans (hallow.1 g), hnext.trans hallow.2⟩

/-- `filesys_open` leaves the open files alone, and the new one is at 0. -/
theorem filesysOpen_ok {path : CStr} {r : Option Inner} (h : filesysOpen L path (vm, k) = .ok (r, vm', k')) :
    ((∀ f, r ≠ some (.file f)) ∧ Kept k k') ∨ r = some (.file k.next) ∧ (k'.files k.next).pos = 0 ∧
      (∀ g ≠ k.next, (k'.files g).pos = (k.files g).pos) ∧ k'.next = k.next + 1 := by
  obtain ⟨found, ⟨vm₁, k₁⟩, h1, h⟩ := service_bind h
  obtain ⟨hfiles, hnext⟩ := inRest_ok h1
  rcases found with _ | i | d
  · cases h
    exact .inl ⟨by simp, kept_inRest h1⟩
  · obtain ⟨f, ⟨vm₂, k₂⟩, ⟨rfl⟩, h⟩ := service_bind h
    cases h
    refine .inr ⟨by rw [← hnext], ?_, fun g hg => ?_, by rw [← hnext]⟩
    · rw [← hnext]
      simp
    · rw [← hnext] at hg
      dsimp only
      rw [Function.update_of_ne hg, hfiles]
  · cases h
    exact .inl ⟨by simp, kept_inRest h1⟩

/-! ### The positions as the process sees them -/

/-- A call on a descriptor that returns `r` moves its position as its arguments and `r` say: the position is 0
after `open`, what `seek` has set, and ahead by what `read` and `write` return. -/
def advance (nr : SyscallNr) (arg : ℕ → ℕ) (r : Option ℤ) (position : ℤ → ℕ) : ℤ → ℕ :=
  match nr, r with
  | .open, some fd => Function.update position fd 0
  | .seek, some 0 => Function.update position (toInt (arg 0)) (toInt (arg 1)).toNat
  | .read, some n | .write, some n =>
    Function.update position (toInt (arg 0)) (position (toInt (arg 0)) + n.toNat)
  | _, _ => position

variable {s s' t : CallState ν (FileKernel κ)} {position : ℤ → ℕ} {fd : ℤ}

/-- Every open file has a `struct file` of its own, which is at the position of its descriptor. -/
structure Positions (s : CallState ν (FileKernel κ)) (position : ℤ → ℕ) : Prop where
  table : Table s.userFiles
  old : ∀ g ∈ s.userFiles, ∀ f, g.inner = .file f → f < s.kernel.next
  distinct : ∀ g ∈ s.userFiles, ∀ g' ∈ s.userFiles, ∀ f, g.inner = .file f → g'.inner = .file f → g = g'
  pos : ∀ g ∈ s.userFiles, ∀ f, g.inner = .file f → (s.kernel.files f).pos = position g.fd

/-- The descriptors are what they were, and every open file is where it was. -/
def SameFiles (s t : CallState ν (FileKernel κ)) : Prop := t.userFiles = s.userFiles ∧ Kept s.kernel t.kernel

theorem sameFiles_refl (s : CallState ν (FileKernel κ)) : SameFiles s s := ⟨rfl, fun _ => rfl, rfl⟩

theorem still_sameFiles (s : CallState ν (FileKernel κ)) : Still (SameFiles s) := fun _ _ _ h => h

theorem positions_of_same (h : Positions s position) (ht : SameFiles s t) : Positions t position where
  table := ht.1 ▸ h.table
  old g hg f hf := by
    rw [ht.2.2]
    exact h.old g (ht.1 ▸ hg) f hf
  distinct g hg g' hg' := h.distinct g (ht.1 ▸ hg) g' (ht.1 ▸ hg')
  pos g hg f hf := by
    rw [ht.2.1]
    exact h.pos g (ht.1 ▸ hg) f hf

theorem keeps_askRest (m : Service ν κ α) : Keeps (SameFiles s) (ask (inRest m)) := by
  refine .get_bind fun t ht => ?_
  rcases hm : inRest m (t.vm, t.kernel) with stop | ⟨a, vm, kernel⟩
  · exact .throw
  · obtain ⟨hpos, hnext⟩ := kept_inRest hm
    exact .bind (.set ⟨ht.1, fun f => (hpos f).trans (ht.2.1 f), hnext.trans ht.2.2⟩) fun _ => .pure

theorem keeps_storeBytes {S : Services ν (FileKernel κ)} : ∀ (bytes : List UInt8) (dst : ℕ),
    Keeps (SameFiles s) (storeBytes S dst bytes)
  | [], _ => .pure
  | byte :: bytes, dst => by
    refine .bind ?_ fun _ => keeps_storeBytes bytes _
    refine .bind (.modify fun t ht => ht) fun _ => ?_
    exact .bind (keeps_access (still_sameFiles s) dst true) fun _ => .modify fun t ht => ht

theorem keeps_copyToUser {S : Services ν (FileKernel κ)} (uaddr : ℕ) (bytes : List UInt8) :
    Keeps (SameFiles s) (copyToUser S uaddr bytes) := by
  have hexit : Keeps (SameFiles s) (faultRegionExit : Sys ν (FileKernel κ) Unit) :=
    keeps_faultRegionExit (still_sameFiles s)
  refine .bind (keeps_faultRegionEnter (still_sameFiles s)) fun _ => ?_
  refine .ite (fun _ => .bind hexit fun _ => .pure) fun _ => ?_
  refine .ite (fun _ => .bind hexit fun _ => .pure) fun _ => ?_
  exact .bind (.bind (keeps_assert _) fun _ => keeps_storeBytes _ _) fun _ => .bind hexit fun _ => .pure

/-! ### The calls -/

/-- The position of one open file changes. -/
theorem positions_of_moved {g : UserFile} {pos : ℕ} (h : Positions s position)
    (hg : userFileGet s.userFiles fd = some g) (hf : g.inner = .file f) (ht : t.userFiles = s.userFiles)
    (hmoved : Moved s.kernel f pos t.kernel) : Positions t (Function.update position fd pos) := by
  obtain ⟨hmem, hfd⟩ := (userFileGet_eq_some h.table.increasing).mp hg
  obtain ⟨hpos, hother, hnext⟩ := hmoved
  refine ⟨ht ▸ h.table, ?_, ?_, ?_⟩ <;> rw [ht]
  · rw [hnext]
    exact h.old
  · exact h.distinct
  · intro g' hg' f' hf'
    by_cases hff : f' = f
    · have hsame : g' = g := h.distinct g' hg' g hmem f (hff ▸ hf') hf
      rw [hff, hpos, hsame, hfd, Function.update_self]
    · have hne : g'.fd ≠ fd := fun he => by
        have hsame := h.table.increasing.unique hg' hmem (he.trans hfd.symm)
        rw [hsame, hf] at hf'
        exact hff (Inner.file.inj hf').symm
      rw [hother f' hff, Function.update_of_ne hne]
      exact h.pos g' hg' f' hf'

theorem Positions.pos_of_get {g : UserFile} (h : Positions s position)
    (hg : userFileGet s.userFiles fd = some g) (hf : g.inner = .file f) : (s.kernel.files f).pos = position fd := by
  obtain ⟨hmem, hfd⟩ := (userFileGet_eq_some h.table.increasing).mp hg
  rw [h.pos g hmem f hf, hfd]

/-- What a service that moves an open file ahead does to the process. -/
theorem ask_forward {g : UserFile} {m : Service ν (FileKernel κ) α} {R : α → ℕ → Prop}
    (hm : ∀ vm k a vm' k', m (vm, k) = .ok (a, vm', k') → ∃ n, R a n ∧ Moved k f ((k.files f).pos + n) k')
    (h : Positions s position) (hg : userFileGet s.userFiles fd = some g) (hf : g.inner = .file f) :
    Ends (ask m) s (fun a t => ∃ n, R a n ∧ Positions t (Function.update position fd (position fd + n)))
      fun _ => True := by
  refine .mono (ask_spec m) (fun a t ht => ?_) fun _ _ => trivial
  obtain ⟨vm, kernel, hok, rfl⟩ := ht
  obtain ⟨n, hR, hmoved⟩ := hm _ _ _ _ _ hok
  rw [h.pos_of_get hg hf] at hmoved
  exact ⟨n, hR, positions_of_moved h hg hf rfl hmoved⟩

/-- A descriptor of something else than a file has no position. -/
theorem positions_update {pos : ℕ} (h : Positions s position)
    (hno : ∀ g, userFileGet s.userFiles fd = some g → ∀ f, g.inner ≠ .file f) :
    Positions s (Function.update position fd pos) where
  table := h.table
  old := h.old
  distinct := h.distinct
  pos g hg f hf := by
    have hne : g.fd ≠ fd := fun he => hno g ((userFileGet_eq_some h.table.increasing).mpr ⟨hg, he⟩) f hf
    rw [Function.update_of_ne hne]
    exact h.pos g hg f hf

theorem advance_nothing (arg : ℕ → ℕ) {n : ℤ} (hn : n ≤ 0) :
    advance .read arg (some n) position = position ∧ advance .write arg (some n) position = position := by
  have h0 : n.toNat = 0 := Int.toNat_of_nonpos hn
  refine ⟨?_, ?_⟩ <;> simp [advance, h0]

variable {S : Services ν (FileKernel κ)}

theorem dispatch_read (h : Positions s position) (arg : ℕ → ℕ) :
    Ends (dispatch (fileServices L) arg (some .read)) s
      (fun r t => Positions t (advance .read arg r position)) fun _ => True := by
  change Ends (sysRead (fileServices L) (toInt (arg 0)) (arg 1) (arg 2)) s _ _
  have hfailed : ∀ n : ℤ, n ≤ 0 → ∀ t, SameFiles s t → Positions t (advance .read arg (some n) position) := by
    intro n hn t ht
    rw [(advance_nothing arg hn).1]
    exact positions_of_same h ht
  refine .ite (fun _ => .pure (hfailed 0 le_rfl s (sameFiles_refl s))) fun _ => ?_
  refine .bind ((keeps_askRest _ s (sameFiles_refl s)).mono (fun ok t ht => ?_) fun _ _ => trivial)
  refine .ite (fun _ => ?_) fun _ => .pure (hfailed _ (by omega) t ht)
  refine .bind (.get ?_)
  have htp := positions_of_same h ht
  rcases hg : userFileGet t.userFiles (toInt (arg 0)) with _ | g
  · exact .pure (hfailed _ (by omega) t ht)
  rcases hi : g.inner with _ | _ | f | d <;> simp only [hi]
  · have hloop : Keeps (SameFiles t) ((List.range (arg 2)).forM fun _ => do
        let _ ← ask (fileServices L).inputGetc : Sys ν (FileKernel κ) PUnit) :=
      .forM _ fun _ _ => .bind (keeps_askRest _) fun _ => .pure
    refine .bind ((hloop t (sameFiles_refl t)).mono (fun _ u hu => .pure ?_) fun _ _ => trivial)
    refine positions_update (positions_of_same htp hu) fun g' hg' f hf => ?_
    rw [hu.1, hg] at hg'
    obtain rfl := Option.some.inj hg'
    simp [hi] at hf
  · exact .pure (hfailed _ (by omega) t ht)
  · have hread := ask_forward (m := fileRead L f (arg 2)) (R := fun r (n : ℕ) => r.1 = n)
      (fun _ _ _ _ _ => moved_fileRead) htp hg hi
    refine .bind (hread.mono (fun r u hu => ?_) fun _ _ => trivial)
    obtain ⟨n, hn, hup⟩ := hu
    have hadv : advance .read arg (some r.1) position =
        Function.update position (toInt (arg 0)) (position (toInt (arg 0)) + n) := by
      simp [advance, hn]
    refine .ite (fun hneg => by omega) fun _ => ?_
    refine .bind ((keeps_copyToUser _ _ u (sameFiles_refl u)).mono (fun ok v hv => ?_) fun _ _ => trivial)
    refine .ite (fun _ => .pure ?_) fun _ => .throw trivial
    rw [hadv]
    exact positions_of_same hup hv
  · exact .pure (hfailed _ (by omega) t ht)

theorem dispatch_write (h : Positions s position) (arg : ℕ → ℕ) :
    Ends (dispatch (fileServices L) arg (some .write)) s
      (fun r t => Positions t (advance .write arg r position)) fun _ => True := by
  change Ends (sysWrite (fileServices L) (toInt (arg 0)) (arg 1) (arg 2)) s _ _
  have hfailed : ∀ n : ℤ, n ≤ 0 → ∀ t, SameFiles s t → Positions t (advance .write arg (some n) position) := by
    intro n hn t ht
    rw [(advance_nothing arg hn).2]
    exact positions_of_same h ht
  refine .ite (fun _ => .pure (hfailed 0 le_rfl s (sameFiles_refl s))) fun _ => ?_
  refine .bind ((keeps_askRest _ s (sameFiles_refl s)).mono (fun ok t ht => ?_) fun _ _ => trivial)
  refine .ite (fun _ => ?_) fun _ => .pure (hfailed _ (by omega) t ht)
  refine .bind ((keeps_copyFromUser (still_sameFiles s) _ _ t ht).mono (fun copy t ht => ?_) fun _ _ => trivial)
  rcases copy with _ | copy
  · exact .throw trivial
  refine .bind (.get ?_)
  have htp := positions_of_same h ht
  rcases hg : userFileGet t.userFiles (toInt (arg 0)) with _ | g
  · exact .pure htp
  rcases hi : g.inner with _ | _ | f | d <;> simp only [hi]
  · exact .pure (hfailed _ (by omega) t ht)
  · refine .bind ((keeps_askRest _ t (sameFiles_refl t)).mono (fun _ u hu => .pure ?_) fun _ _ => trivial)
    refine positions_update (positions_of_same htp hu) fun g' hg' f hf => ?_
    rw [hu.1, hg] at hg'
    obtain rfl := Option.some.inj hg'
    simp [hi] at hf
  · have hwrite := ask_forward (m := fileWrite L f copy) (R := fun r (n : ℕ) => r = n)
      (fun _ _ _ _ _ => moved_fileWrite) htp hg hi
    refine .bind (hwrite.mono (fun r u hu => ?_) fun _ _ => trivial)
    obtain ⟨n, hn, hup⟩ := hu
    have hadv : advance .write arg (some r) position =
        Function.update position (toInt (arg 0)) (position (toInt (arg 0)) + n) := by
      simp [advance, hn]
    refine .pure ?_
    rw [hadv]
    exact hup
  · exact .pure (hfailed _ (by omega) t ht)

theorem dispatch_seek (h : Positions s position) (arg : ℕ → ℕ) :
    Ends (dispatch (fileServices L) arg (some .seek)) s
      (fun r t => Positions t (advance .seek arg r position)) fun _ => True := by
  change Ends (sysSeek (fileServices L) (toInt (arg 0)) (arg 1)) s _ _
  refine .bind (.get ?_)
  rcases hg : userFileGet s.userFiles (toInt (arg 0)) with _ | g
  · exact .pure h
  rcases hi : g.inner with _ | _ | f | d <;> simp only [hi]
  · exact .pure h
  · exact .pure h
  · refine .bind (.bind ((ask_spec _).mono (fun _ t ht => .pure (.pure ?_)) fun _ _ => trivial))
    obtain ⟨vm, kernel, hok, rfl⟩ := ht
    exact positions_of_moved h hg hi rfl (moved_fileSeek hok)
  · exact .pure h

/-- `filesize`, and `tell`, which is answered in the same way. -/
theorem sysFilesize_spec (h : Positions s position) (fd : ℤ) : Ends (sysFilesize (fileServices L) fd) s
    (fun r t => Positions t position ∧ ∀ g f, userFileGet s.userFiles fd = some g → g.inner = .file f →
      r = some (L.inodeLength s.kernel.rest (s.kernel.files f).inode)) fun _ => True := by
  refine .bind (.get ?_)
  rcases hg : userFileGet s.userFiles fd with _ | g
  · exact .pure ⟨h, by simp⟩
  have hother : (∀ f, g.inner ≠ .file f) → Positions s position ∧ ∀ g' f, some g = some g' → g'.inner = .file f →
      some (-1) = some (L.inodeLength s.kernel.rest (s.kernel.files f).inode) :=
    fun hno => ⟨h, fun g' f hg' hf => absurd (Option.some.inj hg' ▸ hf) (hno f)⟩
  rcases hi : g.inner with _ | _ | f | d <;> simp only [hi]
  · exact .pure (hother (by simp [hi]))
  · exact .pure (hother (by simp [hi]))
  · refine .bind ((ask_spec _).mono (fun r t ht => .pure ?_) fun _ _ => trivial)
    obtain ⟨vm, kernel, hok, rfl⟩ := ht
    cases hok
    refine ⟨h, fun g' f' hg' hf' => ?_⟩
    obtain rfl := Option.some.inj hg'
    rw [Inner.file.inj (hi.symm.trans hf')]
  · exact .pure (hother (by simp [hi]))

theorem dispatch_close (h : Positions s position) (arg : ℕ → ℕ) :
    Ends (dispatch (fileServices L) arg (some .close)) s
      (fun r t => Positions t (advance .close arg r position)) fun _ => True := by
  change Ends (sysClose (fileServices L) (toInt (arg 0))) s _ _
  have hadv : ∀ r, advance .close arg r position = position := fun r => by cases r <;> rfl
  simp only [hadv]
  refine .bind (.get ?_)
  rcases hg : userFileGet s.userFiles (toInt (arg 0)) with _ | g
  · exact .pure h
  have hclosed : Closable g.inner → Ends
      (do
        set { s with userFiles := s.userFiles.eraseP (·.fd = toInt (arg 0)) }
        userFileRelease (fileServices L) g
        return none : Sys ν (FileKernel κ) (Option ℤ)) s (fun _ t => Positions t position) fun _ => True := by
    intro hc
    have herased : Positions { s with userFiles := s.userFiles.eraseP (·.fd = toInt (arg 0)) } position :=
      { table := table_eraseP h.table hg hc
        old := fun g hg => h.old g (List.mem_of_mem_eraseP hg)
        distinct := fun g hg g' hg' => h.distinct g (List.mem_of_mem_eraseP hg) g' (List.mem_of_mem_eraseP hg')
        pos := fun g hg => h.pos g (List.mem_of_mem_eraseP hg) }
    have hask : ∀ (m : Service ν (FileKernel κ) Unit) (t : CallState ν (FileKernel κ)), Positions t position →
        (∀ u vm' k', m (t.vm, t.kernel) = .ok (u, vm', k') → Kept t.kernel k') →
        Ends (ask m) t (fun _ t => Positions t position) fun _ => True := by
      refine fun m t ht hm => (ask_spec m).mono (fun u t' ht' => ?_) fun _ _ => trivial
      obtain ⟨vm, kernel, hok, rfl⟩ := ht'
      exact positions_of_same ht ⟨rfl, hm _ _ _ hok⟩
    refine .bind (.set (.bind (Ends.mono (P := fun _ t => Positions t position) (D := fun _ => True) ?_
      (fun _ t ht => .pure ht) fun _ _ => trivial)))
    unfold userFileRelease
    rcases g.inner with _ | _ | f | d
    · exact .pure herased
    · exact .pure herased
    · exact hask _ _ herased fun _ _ _ => kept_fileClose
    · exact hask _ _ herased fun _ _ _ => kept_inRest
  rcases hi : g.inner with _ | _ | f | d <;> simp only [hi] at hclosed ⊢
  · exact .pure h
  · exact .pure h
  · exact hclosed trivial
  · exact hclosed trivial

/-- A new descriptor is at 0. -/
theorem positions_append {inner : Inner} (h : Positions s position)
    (hnew : ∀ f, inner = .file f → f < s.kernel.next ∧ (s.kernel.files f).pos = 0 ∧
      ∀ g ∈ s.userFiles, g.inner ≠ .file f)
    (hfiles : t.userFiles = insertOrdered ⟨fdAllocate s.userFiles, inner⟩ s.userFiles)
    (hkept : Kept s.kernel t.kernel) : Positions t (Function.update position (fdAllocate s.userFiles) 0) := by
  have hfree := userFileGet_eq_none.mp (leastFree_fdAllocate h.table).2.1
  refine ⟨hfiles ▸ table_append h.table inner, ?_, ?_, ?_⟩ <;> rw [hfiles]
  · intro g hg f hf
    rw [hkept.2]
    rcases mem_insertOrdered.mp hg with rfl | hg
    · exact (hnew f hf).1
    · exact h.old g hg f hf
  · intro g hg g' hg' f hf hf'
    rcases mem_insertOrdered.mp hg with rfl | hg <;> rcases mem_insertOrdered.mp hg' with rfl | hg'
    · rfl
    · exact absurd hf' ((hnew f hf).2.2 g' hg')
    · exact absurd hf ((hnew f hf').2.2 g hg)
    · exact h.distinct g hg g' hg' f hf hf'
  · intro g hg f hf
    rw [hkept.1]
    rcases mem_insertOrdered.mp hg with rfl | hg
    · rw [Function.update_self]
      exact (hnew f hf).2.1
    · rw [Function.update_of_ne (hfree g hg)]
      exact h.pos g hg f hf

theorem dispatch_open (h : Positions s position) (arg : ℕ → ℕ) :
    Ends (dispatch (fileServices L) arg (some .open)) s
      (fun r t => Positions t (advance .open arg r position)) fun _ => True := by
  change Ends (sysOpen (fileServices L) (arg 0)) s _ _
  have hfailed : ∀ t : CallState ν (FileKernel κ), Positions t position →
      Positions t (advance .open arg (some (-1)) position) := by
    refine fun t ht => positions_update ht fun g hg => ?_
    obtain ⟨hmem, hfd⟩ := (userFileGet_eq_some ht.table.increasing).mp hg
    have := ht.table.nonneg g hmem
    omega
  refine .bind ((keeps_strdupUser (still_sameFiles s) (fun _ => keeps_askRest _) (arg 0) s (sameFiles_refl s)).mono
    (fun dup t ht => ?_) fun _ _ => trivial)
  have htp := positions_of_same h ht
  rcases dup with copy | _ | _
  · refine .bind (.bind ((ask_spec _).mono (fun found u hu => ?_) fun _ _ => trivial))
    obtain ⟨vm, kernel, hok, rfl⟩ := hu
    have hopened : Positions { t with vm := vm, kernel := kernel } position ∧
        ∀ inner, found = some inner → ∀ f, inner = .file f → f < kernel.next ∧ (kernel.files f).pos = 0 ∧
          ∀ g ∈ t.userFiles, g.inner ≠ .file f := by
      rcases filesysOpen_ok hok with ⟨hno, hkept⟩ | ⟨hr, hzero, hother, hnext⟩
      · exact ⟨positions_of_same htp ⟨rfl, hkept⟩, fun inner hin f hf => absurd (hf ▸ hin) (hno f)⟩
      · have hold : ∀ g ∈ t.userFiles, ∀ f, g.inner = .file f → f < t.kernel.next := htp.old
        refine ⟨⟨htp.table, fun g hg f hf => ?_, htp.distinct, fun g hg f hf => ?_⟩, fun inner hin f hf => ?_⟩
        · have := hold g hg f hf
          dsimp only
          omega
        · rw [← htp.pos g hg f hf]
          exact hother f (hold g hg f hf).ne
        · obtain rfl : t.kernel.next = f := by
            rw [hr, hf] at hin
            exact Inner.file.inj (Option.some.inj hin)
          exact ⟨by omega, hzero, fun g hg hfg => lt_irrefl _ (hold g hg _ hfg)⟩
    obtain ⟨hup, hnew⟩ := hopened
    rcases found with _ | inner
    · exact .pure (.pure (hfailed _ hup))
    · refine .bind (.bind ((keeps_askRest _ _ (sameFiles_refl _)).mono (fun ok v hv => ?_) fun _ _ => trivial))
      refine .ite (fun _ => .bind (.get (.bind (.set (.pure (.pure (.pure ?_))))))) fun _ =>
        .pure (.pure (.pure (hfailed v (positions_of_same hup hv))))
      have hv' := positions_of_same hup hv
      have hfresh : ∀ f, inner = .file f → f < v.kernel.next ∧ (v.kernel.files f).pos = 0 ∧
          ∀ g ∈ v.userFiles, g.inner ≠ .file f := fun f hf => by
        rw [hv.2.2, hv.2.1, hv.1]
        exact hnew inner rfl f hf
      exact positions_append hv' hfresh rfl ⟨fun _ => rfl, rfl⟩
  · exact .throw trivial
  · exact .pure (hfailed t htp)

/-! ### The handler -/

/-- The calls on files. -/
def fileNrs : List SyscallNr := [.open, .close, .read, .write, .seek, .tell, .filesize]

theorem dispatch_positions {nr : SyscallNr} (hnr : nr ∈ fileNrs) (h : Positions s position) (arg : ℕ → ℕ) :
    Ends (dispatch (fileServices L) arg (some nr)) s
      (fun r t => Positions t (advance nr arg r position)) fun _ => True := by
  have hsize : ∀ nr, (∀ r, advance nr arg r position = position) →
      Ends (sysFilesize (fileServices L) (toInt (arg 0))) s
        (fun r t => Positions t (advance nr arg r position)) fun _ => True := by
    intro nr hadv
    simp only [hadv]
    exact (sysFilesize_spec h _).mono (fun r t ht => ht.1) fun _ _ => trivial
  simp only [fileNrs, List.mem_cons, List.not_mem_nil, or_false] at hnr
  rcases hnr with rfl | rfl | rfl | rfl | rfl | rfl | rfl
  · exact dispatch_open h arg
  · exact dispatch_close h arg
  · exact dispatch_read h arg
  · exact dispatch_write h arg
  · exact dispatch_seek h arg
  · exact hsize .tell fun r => by cases r <;> rfl
  · exact hsize .filesize fun r => by cases r <;> rfl

/-- `syscall_handler` reads the words at `esp` and calls what they say. -/
theorem handler_ends {S : Services ν κ} {s : CallState ν κ} {esp : ℕ} {nr : Option SyscallNr}
    {Q : Option ℤ → CallState ν κ → Prop} (hnr : syscallNrs[argWord s esp 0]? = nr)
    (h : ∀ vm, Ends (dispatch S (fun i => argWord s esp (i + 1)) nr) { s with vm := vm, faultAllowed := false } Q
      fun _ => True) : Ends (syscallHandler S esp) s Q fun _ => True := by
  refine .ite (fun _ => .throw trivial) fun _ => ?_
  refine .bind (.modify (.bind (.bind (.ite (fun _ => .pure ?_) fun _ => .throw trivial))))
  refine (loadBytes_spec rfl).mono (fun bytes t ht => ?_) fun _ _ => trivial
  obtain ⟨vm, -, rfl, rfl⟩ := ht
  refine .bind (.modify ?_)
  subst hnr
  exact h vm

/-! ### Runs -/

/-- What the process itself, other processes and other calls may do between two of these calls. -/
def Between (s t : CallState ν (FileKernel κ)) : Prop :=
  t.userFiles = s.userFiles ∧ s.kernel.next ≤ t.kernel.next ∧
    ∀ g ∈ s.userFiles, ∀ f, g.inner = .file f → t.kernel.files f = s.kernel.files f

theorem positions_of_between (h : Positions s position) (ht : Between s t) : Positions t position := by
  obtain ⟨hfiles, hnext, hsame⟩ := ht
  refine ⟨hfiles ▸ h.table, ?_, ?_, ?_⟩ <;> rw [hfiles]
  · exact fun g hg f hf => (h.old g hg f hf).trans_le hnext
  · exact h.distinct
  · intro g hg f hf
    rw [hsame g hg f hf]
    exact h.pos g hg f hf

/-- A call on files that returns. -/
structure Trap where
  esp : ℕ
  nr : SyscallNr
  result : Option ℤ

/-- One call, with the position that every descriptor should be at. -/
def TrapStep (L : InodeLayer ν κ) (x : CallState ν (FileKernel κ) × (ℤ → ℕ)) (a : Trap)
    (x' : CallState ν (FileKernel κ) × (ℤ → ℕ)) : Prop :=
  ∃ t, Between x.1 t ∧ a.nr ∈ fileNrs ∧ syscallNrs[argWord t a.esp 0]? = some a.nr ∧
    outcome (syscallHandler (fileServices L) a.esp) t = (.ok a.result, x'.1) ∧
    x'.2 = advance a.nr (fun i => argWord t a.esp (i + 1)) a.result x.2

/-- A process that has just been started. -/
def Started (x : CallState ν (FileKernel κ) × (ℤ → ℕ)) : Prop := x.1.userFiles = initFiles

theorem positions_invariant (L : InodeLayer ν κ) : Invariant Started (TrapStep L) fun x => Positions x.1 x.2 where
  start := by
    intro x h
    unfold Started at h
    have hno : ∀ g ∈ x.1.userFiles, ∀ f, g.inner ≠ .file f := by
      rw [h]
      change ∀ g ∈ ([⟨0, .stdin⟩, ⟨1, .stdout⟩] : List UserFile), ∀ f, g.inner ≠ .file f
      simp
    exact ⟨h ▸ table_initFiles, fun g hg f hf => absurd hf (hno g hg f),
      fun g hg _ _ f hf => absurd hf (hno g hg f), fun g hg f hf => absurd hf (hno g hg f)⟩
  step := by
    intro x a x' h hstep
    obtain ⟨t, hbetween, hfile, hnr, ho, hx⟩ := hstep
    have ht := positions_of_between h hbetween
    have hends : Ends (syscallHandler (fileServices L) a.esp) t
        (fun r u => Positions u (advance a.nr (fun i => argWord t a.esp (i + 1)) r x.2)) fun _ => True := by
      refine handler_ends hnr fun vm => ?_
      have hvm : Positions { t with vm := vm, faultAllowed := false } x.2 := positions_of_same ht (sameFiles_refl t)
      exact dispatch_positions hfile hvm _
    rw [hx]
    exact hends.of_outcome ho

/-- **`tell`** in every run of calls on files: it answers with the position of the descriptor if and only if this
is the length of the file. -/
theorem tell_iff {x : CallState ν (FileKernel κ) × (ℤ → ℕ)} (h : Reachable Started (TrapStep L) x)
    (ht : Between x.1 t) {esp f : ℕ} {r : Option ℤ} (hnr : syscallNrs[argWord t esp 0]? = some .tell)
    (hf : userFileGet t.userFiles (toInt (argWord t esp 1)) = some ⟨toInt (argWord t esp 1), .file f⟩)
    (ho : outcome (syscallHandler (fileServices L) esp) t = (.ok r, s')) :
    r = some (x.2 (toInt (argWord t esp 1)) : ℤ) ↔
      L.inodeLength t.kernel.rest (t.kernel.files f).inode = x.2 (toInt (argWord t esp 1)) := by
  have hp := positions_of_between (h.of_invariant (positions_invariant L)) ht
  have hlen : r = some (L.inodeLength t.kernel.rest (t.kernel.files f).inode) := by
    have hends : Ends (syscallHandler (fileServices L) esp) t
        (fun r _ => r = some (L.inodeLength t.kernel.rest (t.kernel.files f).inode)) fun _ => True := by
      refine handler_ends hnr fun vm => ?_
      have hvm : Positions { t with vm := vm, faultAllowed := false } x.2 := positions_of_same hp (sameFiles_refl t)
      exact (sysFilesize_spec hvm _).mono (fun r u hu => hu.2 _ f hf rfl) fun _ _ => trivial
    exact hends.of_outcome ho
  rw [hlen, Option.some.injEq]

/-! ### A file of five bytes -/

/-- One file of five bytes, which `filesys_open` finds by every name. -/
def fiveBytes : InodeLayer Unit (List Filesys.DirState.DirEntry) where
  others := oneFile
  lookup _ := return some (.inode 1)
  inodeReadAt _ _ _ := return []
  inodeWriteAt _ _ _ := return 0
  inodeLength _ _ := 5
  inodeReopen _ := return ()
  inodeAllowWrite _ := return ()
  inodeClose _ := return ()

/-- A process that has just been started, with small words on its stack. -/
def callState (nr arg0 arg1 : UInt8) : CallState Unit (FileKernel (List Filesys.DirState.DirEntry)) where
  vm := ()
  kernel := ⟨fun _ => ⟨0, 0, false⟩, 0, []⟩
  mem addr := if addr = 0xbfffff00 then nr else if addr = 0xbfffff04 then arg0
    else if addr = 0xbfffff08 then arg1 else 0
  userFiles := initFiles
  dirs _ := ⟨⟨1, 0⟩, 0⟩
  faultAllowed := false
  stores := []

/-- The same words for a process in the state `s`. -/
def withWords (s : CallState Unit (FileKernel (List Filesys.DirState.DirEntry))) (nr arg0 arg1 : UInt8) :
    CallState Unit (FileKernel (List Filesys.DirState.DirEntry)) :=
  { s with mem := (callState nr arg0 arg1).mem }

/-- `open ("")`. -/
def afterOpen : CallState Unit (FileKernel (List Filesys.DirState.DirEntry)) :=
  left (syscallHandler (fileServices fiveBytes) 0xbfffff00) (callState 6 8 0)

/-- `seek (2, 5)` after it. -/
def afterSeek : CallState Unit (FileKernel (List Filesys.DirState.DirEntry)) :=
  left (syscallHandler (fileServices fiveBytes) 0xbfffff00) (withWords afterOpen 10 2 5)

theorem reachable_afterOpen : Reachable Started (TrapStep fiveBytes) (afterOpen, fun _ => 0) := by
  have ho : (outcome (syscallHandler (fileServices fiveBytes) 0xbfffff00) (callState 6 8 0)).1 = .ok (some 2) := by
    decide +kernel
  refine .step (a := ⟨0xbfffff00, .open, some 2⟩) (s := (callState 6 8 0, fun _ => 0)) (.start rfl)
    ⟨callState 6 8 0, ⟨rfl, le_rfl, fun _ _ _ _ => rfl⟩, by decide, by decide +kernel, Prod.ext ho rfl, ?_⟩
  funext fd
  simp [advance]

/-- What the calls do that is asked of `tell`: it answers with the position. -/
def TellLaw (L : InodeLayer ν κ) : Prop :=
  ∀ x, Reachable Started (TrapStep L) x → ∀ t, Between x.1 t → ∀ esp f r s',
    syscallNrs[argWord t esp 0]? = some .tell →
    userFileGet t.userFiles (toInt (argWord t esp 1)) = some ⟨toInt (argWord t esp 1), .file f⟩ →
    outcome (syscallHandler (fileServices L) esp) t = (.ok r, s') →
    r = some (x.2 (toInt (argWord t esp 1)) : ℤ)

/-- After `open` alone the answer is 5. -/
theorem not_tellLaw : ¬TellLaw fiveBytes := by
  intro h
  have ho : (outcome (syscallHandler (fileServices fiveBytes) 0xbfffff00) (withWords afterOpen 11 2 0)).1 =
      .ok (some 5) := by
    decide +kernel
  have harg : toInt (argWord (withWords afterOpen 11 2 0) 0xbfffff00 1) = 2 := by decide +kernel
  have hget : userFileGet (withWords afterOpen 11 2 0).userFiles 2 = some ⟨2, .file 0⟩ := by decide +kernel
  have hr := h _ reachable_afterOpen (withWords afterOpen 11 2 0) ⟨rfl, le_rfl, fun _ _ _ _ => rfl⟩
    0xbfffff00 0 _ _ (by decide +kernel) (by rw [harg]; exact hget) (Prod.ext ho rfl)
  revert hr
  decide

/-- After `seek` to the end the answer is right. -/
theorem tell_iff_end : ∃ x t r s', Reachable Started (TrapStep fiveBytes) x ∧ Between x.1 t ∧
    outcome (syscallHandler (fileServices fiveBytes) 0xbfffff00) t = (.ok r, s') ∧
    r = some (x.2 (toInt (argWord t 0xbfffff00 1)) : ℤ) := by
  have hseek : (outcome (syscallHandler (fileServices fiveBytes) 0xbfffff00) (withWords afterOpen 10 2 5)).1 =
      .ok (some 0) := by
    decide +kernel
  have harg : toInt (argWord (withWords afterOpen 10 2 5) 0xbfffff00 1) = 2 := by decide +kernel
  have harg' : toInt (argWord (withWords afterOpen 10 2 5) 0xbfffff00 2) = 5 := by decide +kernel
  have hreach : Reachable Started (TrapStep fiveBytes) (afterSeek, Function.update (fun _ => 0) 2 5) := by
    refine .step (a := ⟨0xbfffff00, .seek, some 0⟩) reachable_afterOpen ⟨withWords afterOpen 10 2 5,
      ⟨rfl, le_rfl, fun _ _ _ _ => rfl⟩, by decide, by decide +kernel, Prod.ext hseek rfl, ?_⟩
    simp only [advance, harg, harg']
    rfl
  have ho : (outcome (syscallHandler (fileServices fiveBytes) 0xbfffff00) (withWords afterSeek 11 2 0)).1 =
      .ok (some 5) := by
    decide +kernel
  have htell : toInt (argWord (withWords afterSeek 11 2 0) 0xbfffff00 1) = 2 := by decide +kernel
  have hget : userFileGet (withWords afterSeek 11 2 0).userFiles 2 = some ⟨2, .file 0⟩ := by decide +kernel
  have hiff := tell_iff hreach (t := withWords afterSeek 11 2 0) ⟨rfl, le_rfl, fun _ _ _ _ => rfl⟩
    (by decide +kernel) (by rw [htell]; exact hget) (Prod.ext ho rfl)
  refine ⟨_, withWords afterSeek 11 2 0, _, _, hreach, ⟨rfl, le_rfl, fun _ _ _ _ => rfl⟩, Prod.ext ho rfl,
    hiff.mpr ?_⟩
  rw [htell]
  rfl

end Pintos.Userprog.FilePosition
