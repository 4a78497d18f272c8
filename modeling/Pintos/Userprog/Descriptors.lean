import Pintos.Lib.Runs
import Pintos.Userprog.UserPointers

/-! # The descriptors of a process

`user_file_list` is a table from descriptors to open files: its entries are in the order of their descriptors,
and no descriptor occurs twice. On such a list the one pass of `fd_allocate` ends at the least descriptor that
is free, and `user_file_get` finds the one entry there is. Every `open` and every `close` keeps it so. -/

namespace Pintos.Userprog.Descriptors

open Pintos.Lib.Runs Pintos.Lib.Stopping
open Pintos.Filesys.Path (CStr)
open Pintos.Userprog.UserMem Pintos.Userprog.Syscall Pintos.Userprog.UserPointers

/-! ### Lists in the order of the descriptors -/

/-- The order of `user_file_less`, and no descriptor twice. -/
def Increasing (files : List UserFile) : Prop := files.Pairwise fun f g => f.fd < g.fd

variable {files : List UserFile} {f g : UserFile} {fd : ℤ}

theorem mem_insertOrdered : ∀ {files : List UserFile}, g ∈ insertOrdered f files ↔ g = f ∨ g ∈ files
  | [] => by simp [insertOrdered]
  | e :: es => by
    unfold insertOrdered
    split_ifs
    · simp
    · simp only [List.mem_cons, mem_insertOrdered]
      tauto

theorem increasing_insertOrdered : ∀ {files : List UserFile}, Increasing files → (∀ g ∈ files, g.fd ≠ f.fd) →
    Increasing (insertOrdered f files)
  | [], _, _ => List.pairwise_singleton ..
  | e :: es, h, hne => by
    obtain ⟨he, hes⟩ := List.pairwise_cons.mp h
    have hef : e.fd ≠ f.fd := hne e List.mem_cons_self
    unfold insertOrdered
    split_ifs with hlt
    · refine List.pairwise_cons.mpr ⟨fun g hg => ?_, h⟩
      rcases List.mem_cons.mp hg with rfl | hg
      · exact hlt
      · exact hlt.trans (he g hg)
    · refine List.pairwise_cons.mpr ⟨fun g hg => ?_, ?_⟩
      · rcases mem_insertOrdered.mp hg with rfl | hg
        · omega
        · exact he g hg
      · exact increasing_insertOrdered hes fun g hg => hne g (List.mem_cons_of_mem _ hg)

/-- A descriptor stands for one entry. -/
theorem Increasing.unique : ∀ {files : List UserFile}, Increasing files → f ∈ files → g ∈ files →
    f.fd = g.fd → f = g
  | e :: es, h, hf, hg, hfd => by
    obtain ⟨he, hes⟩ := List.pairwise_cons.mp h
    rcases List.mem_cons.mp hf with hfe | hfe <;> rcases List.mem_cons.mp hg with hge | hge
    · rw [hfe, hge]
    · have := he g hge
      rw [← hfe] at this
      omega
    · have := he f hfe
      rw [← hge] at this
      omega
    · exact Increasing.unique hes hfe hge hfd

theorem userFileGet_eq_some (h : Increasing files) : userFileGet files fd = some f ↔ f ∈ files ∧ f.fd = fd := by
  unfold userFileGet
  constructor
  · intro hf
    exact ⟨List.mem_of_find?_eq_some hf, by simpa using List.find?_some hf⟩
  · rintro ⟨hf, hfd⟩
    have hsome : (files.find? (·.fd = fd)).isSome := List.find?_isSome.mpr ⟨f, hf, by simpa using hfd⟩
    obtain ⟨g, hg⟩ := Option.isSome_iff_exists.mp hsome
    have hgfd : g.fd = fd := by simpa using List.find?_some hg
    rw [hg, h.unique (List.mem_of_find?_eq_some hg) hf (hgfd.trans hfd.symm)]

theorem userFileGet_eq_none : userFileGet files fd = none ↔ ∀ f ∈ files, f.fd ≠ fd := by
  unfold userFileGet
  simp [List.find?_eq_none]

/-- **The one pass of `fd_allocate`.** It stops at the first gap in the descriptors from `newFd` on. -/
theorem fdAllocateFrom_spec : ∀ {files : List UserFile} {newFd : ℤ}, Increasing files →
    (∀ f ∈ files, newFd ≤ f.fd) → newFd ≤ fdAllocateFrom newFd files ∧
      (∀ f ∈ files, f.fd ≠ fdAllocateFrom newFd files) ∧
      ∀ n, newFd ≤ n → n < fdAllocateFrom newFd files → ∃ f ∈ files, f.fd = n
  | [], newFd, _, _ => by
    unfold fdAllocateFrom
    exact ⟨le_rfl, by simp, fun n h1 h2 => by omega⟩
  | e :: es, newFd, h, hle => by
    obtain ⟨he, hes⟩ := List.pairwise_cons.mp h
    have hge : newFd ≤ e.fd := hle e List.mem_cons_self
    unfold fdAllocateFrom
    split_ifs with heq
    · have hle' : ∀ f ∈ es, newFd + 1 ≤ f.fd := fun f hf => by
        have := he f hf
        omega
      obtain ⟨ih1, ih2, ih3⟩ := fdAllocateFrom_spec hes hle'
      refine ⟨by omega, fun f hf => ?_, fun n h1 h2 => ?_⟩
      · rcases List.mem_cons.mp hf with rfl | hf
        · omega
        · exact ih2 f hf
      · rcases h1.eq_or_lt with rfl | h1
        · exact ⟨e, List.mem_cons_self, heq⟩
        · obtain ⟨f, hf, hfn⟩ := ih3 n h1 h2
          exact ⟨f, List.mem_cons_of_mem _ hf, hfn⟩
    · refine ⟨le_rfl, fun f hf => ?_, fun n h1 h2 => by omega⟩
      rcases List.mem_cons.mp hf with rfl | hf
      · exact heq
      · have := he f hf
        omega

/-- Only the entry of the descriptor is taken out. -/
theorem mem_eraseP (h : Increasing files) (hf : f ∈ files) (hfd : f.fd = fd) :
    g ∈ files.eraseP (·.fd = fd) ↔ g ∈ files ∧ g ≠ f := by
  obtain ⟨e, l₁, l₂, hl₁, he, hl, herase⟩ := List.exists_of_eraseP (p := (·.fd = fd)) hf (by simpa using hfd)
  have hefd : e.fd = fd := by simpa using he
  obtain rfl : e = f := h.unique (hl ▸ by simp) hf (hefd.trans hfd.symm)
  have hnot : e ∉ l₁ ++ l₂ := by
    rw [hl] at h
    intro hmem
    rcases List.mem_append.mp hmem with hmem | hmem
    · exact hl₁ e hmem he
    · exact lt_irrefl _ ((List.pairwise_cons.mp (List.pairwise_append.mp h).2.1).1 e hmem)
  rw [herase, hl]
  refine ⟨fun hg => ⟨by simp only [List.mem_append, List.mem_cons] at hg ⊢; tauto, ?_⟩, fun ⟨hg, hne⟩ => ?_⟩
  · rintro rfl
    exact hnot hg
  · simp only [List.mem_append, List.mem_cons] at hg ⊢
    tauto

/-! ### The table -/

/-- `user_file_list` of a process that has its `stdin` and `stdout`. -/
structure Table (files : List UserFile) : Prop where
  increasing : Increasing files
  nonneg : ∀ f ∈ files, 0 ≤ f.fd
  stdin : userFileGet files 0 = some ⟨0, .stdin⟩
  stdout : userFileGet files 1 = some ⟨1, .stdout⟩

/-- `init_stdin`, with memory for the entry. -/
def initStdin (files : List UserFile) : List UserFile := insertOrdered ⟨0, .stdin⟩ files

/-- `init_stdout`, with memory for the entry. -/
def initStdout (files : List UserFile) : List UserFile := insertOrdered ⟨1, .stdout⟩ files

/-- The list that `process_info_allocate` leaves. -/
def initFiles : List UserFile := initStdout (initStdin [])

theorem table_initFiles : Table initFiles where
  increasing := by
    change Increasing [⟨0, .stdin⟩, ⟨1, .stdout⟩]
    simp [Increasing]
  nonneg := by
    change ∀ f ∈ ([⟨0, .stdin⟩, ⟨1, .stdout⟩] : List UserFile), 0 ≤ f.fd
    simp
  stdin := rfl
  stdout := rfl

/-- The least descriptor from 2 on that is not in use. -/
def LeastFree (files : List UserFile) (fd : ℤ) : Prop :=
  2 ≤ fd ∧ userFileGet files fd = none ∧ ∀ n, 2 ≤ n → n < fd → userFileGet files n ≠ none

theorem Table.fds (h : Table files) : ⟨0, .stdin⟩ ∈ files ∧ ⟨1, .stdout⟩ ∈ files :=
  ⟨((userFileGet_eq_some h.increasing).mp h.stdin).1, ((userFileGet_eq_some h.increasing).mp h.stdout).1⟩

theorem leastFree_fdAllocate (h : Table files) : LeastFree files (fdAllocate files) := by
  obtain ⟨h1, h2, h3⟩ := fdAllocateFrom_spec h.increasing h.nonneg
  have hne0 : (0 : ℤ) ≠ fdAllocate files := h2 _ h.fds.1
  have hne1 : (1 : ℤ) ≠ fdAllocate files := h2 _ h.fds.2
  have hge : 0 ≤ fdAllocate files := h1
  refine ⟨by omega, userFileGet_eq_none.mpr h2, fun n hn hlt hnone => ?_⟩
  obtain ⟨f, hf, hfn⟩ := h3 n (by omega) hlt
  exact userFileGet_eq_none.mp hnone f hf hfn

/-- The entries of two tables are the same but for those of other descriptors than 0 and 1. -/
theorem Table.of_mem {files' : List UserFile} (h : Table files) (hinc : Increasing files')
    (hmem : ∀ g ∈ files', g ∈ files ∨ 2 ≤ g.fd) (hold : ∀ g ∈ files, g.fd < 2 → g ∈ files') : Table files' where
  increasing := hinc
  nonneg g hg := (hmem g hg).elim (h.nonneg g) fun h => by omega
  stdin := (userFileGet_eq_some hinc).mpr ⟨hold _ h.fds.1 (by simp), rfl⟩
  stdout := (userFileGet_eq_some hinc).mpr ⟨hold _ h.fds.2 (by simp), rfl⟩

theorem table_append (h : Table files) (inner : Inner) :
    Table (insertOrdered ⟨fdAllocate files, inner⟩ files) := by
  obtain ⟨hge, hnone, -⟩ := leastFree_fdAllocate h
  refine h.of_mem (increasing_insertOrdered h.increasing (userFileGet_eq_none.mp hnone)) (fun g hg => ?_)
    fun g hg _ => mem_insertOrdered.mpr (.inr hg)
  rcases mem_insertOrdered.mp hg with rfl | hg
  · exact .inr hge
  · exact .inl hg

/-- What `close` takes out of the list. -/
def Closable : Inner → Prop
  | .file _ | .dir _ => True
  | .stdin | .stdout => False

theorem table_eraseP (h : Table files) (hf : userFileGet files fd = some f) (hc : Closable f.inner) :
    Table (files.eraseP (·.fd = fd)) := by
  obtain ⟨hmem, hfd⟩ := (userFileGet_eq_some h.increasing).mp hf
  refine h.of_mem (h.increasing.sublist List.eraseP_sublist) (fun g hg => .inl (List.mem_of_mem_eraseP hg))
    fun g hg hlt => (mem_eraseP h.increasing hmem hfd).mpr ⟨hg, ?_⟩
  rintro rfl
  have hge := h.nonneg g hg
  obtain hg0 | hg1 : g.fd = 0 ∨ g.fd = 1 := by omega
  · rw [h.increasing.unique hg h.fds.1 hg0] at hc
    exact hc
  · rw [h.increasing.unique hg h.fds.2 hg1] at hc
    exact hc

/-! ### The calls -/

variable {ν κ α : Type} {S : Services ν κ} {s s' : CallState ν κ}

/-- The calls that change the list. -/
inductive FileCall
  | open (fileName : ℕ)
  | close (fd : ℤ)

def FileCall.run (S : Services ν κ) : FileCall → Sys ν κ (Option ℤ)
  | .open fileName => sysOpen S fileName
  | .close fd => sysClose S fd

/-- `filesys_open` returns `inner` for some path. -/
def Opened (S : Services ν κ) (inner : Inner) : Prop :=
  ∃ path vm kernel vm' kernel', S.filesysOpen path (vm, kernel) = .ok (some inner, vm', kernel')

/-- What a call that returns `r` makes of the list. -/
def Effect (S : Services ν κ) : FileCall → Option ℤ → (files files' : List UserFile) → Prop
  | .open _, r, files, files' => (r = some (-1) ∧ files' = files) ∨ ∃ fd inner, r = some fd ∧
      LeastFree files fd ∧ Opened S inner ∧ ∀ f, f ∈ files' ↔ f = ⟨fd, inner⟩ ∨ f ∈ files
  | .close fd, r, files, files' => (r = some (-1) ∧ files' = files ∧
      ∀ f, userFileGet files fd = some f → ¬Closable f.inner) ∨
    ∃ f, userFileGet files fd = some f ∧ Closable f.inner ∧ ∀ g, g ∈ files' ↔ g ∈ files ∧ g ≠ f

theorem ask_spec (m : Service ν κ α) : Ends (ask m) s
    (fun a t => ∃ vm kernel, m (s.vm, s.kernel) = .ok (a, vm, kernel) ∧ t = { s with vm := vm, kernel := kernel })
    fun t => t = s := by
  refine .bind (.get ?_)
  rcases hm : m (s.vm, s.kernel) with stop | ⟨a, vm, kernel⟩
  · exact .throw rfl
  · exact .bind (.set (.pure ⟨vm, kernel, rfl, rfl⟩))

theorem append_spec (inner : Inner) : Ends (append S inner) s
    (fun r t => r = none ∧ t.userFiles = s.userFiles ∨ r = some (fdAllocate s.userFiles) ∧
      t.userFiles = insertOrdered ⟨fdAllocate s.userFiles, inner⟩ s.userFiles) fun _ => True := by
  refine .bind ((ask_spec _).mono (fun ok t ht => ?_) fun _ _ => trivial)
  obtain ⟨vm, kernel, -, rfl⟩ := ht
  refine .ite (fun _ => ?_) fun _ => .pure (.inl ⟨rfl, rfl⟩)
  exact .bind (.get (.bind (.set (.pure (.inr ⟨rfl, rfl⟩)))))

theorem sysOpen_spec (h : Table s.userFiles) (fileName : ℕ) : Ends (sysOpen S fileName) s
    (fun r t => Table t.userFiles ∧ Effect S (.open fileName) r s.userFiles t.userFiles) fun _ => True := by
  have hcalm : Calm fun t : CallState ν κ => t.userFiles = s.userFiles :=
    fun t u ht _ hu _ _ => hu.trans ht
  refine .bind ((keeps_strdupUser hcalm.still (fun _ => keeps_ask hcalm _) fileName s rfl).mono (fun dup t ht => ?_)
    fun _ _ => trivial)
  have hfailed : Table t.userFiles ∧ Effect S (.open fileName) (some (-1)) s.userFiles t.userFiles :=
    ⟨ht ▸ h, .inl ⟨rfl, ht⟩⟩
  rcases dup with copy | _ | _
  · refine .bind (.bind ((ask_spec _).mono (fun found u hu => ?_) fun _ _ => trivial))
    obtain ⟨vm, kernel, hopen, rfl⟩ := hu
    rcases found with _ | inner
    · exact .pure (.pure hfailed)
    · refine .bind ((append_spec inner).mono (fun r u hu => ?_) fun _ _ => trivial)
      rw [show (({ t with vm := vm, kernel := kernel } : CallState ν κ)).userFiles = s.userFiles from ht] at hu
      rcases hu with ⟨rfl, hu⟩ | ⟨rfl, hu⟩
      · exact .pure (.pure ⟨hu ▸ h, .inl ⟨rfl, hu⟩⟩)
      · refine .pure (.pure ⟨hu ▸ table_append h inner, .inr ⟨_, inner, rfl, leastFree_fdAllocate h,
          ⟨copy, _, _, _, _, hopen⟩, fun f => ?_⟩⟩)
        rw [hu]
        exact mem_insertOrdered
  · exact .throw trivial
  · exact .pure hfailed

theorem release_spec (f : UserFile) : Ends (userFileRelease S f) s
    (fun _ t => t.userFiles = s.userFiles) fun _ => True := by
  have hask : ∀ m : Service ν κ Unit, Ends (ask m) s (fun _ t => t.userFiles = s.userFiles) fun _ => True := by
    refine fun m => (ask_spec m).mono (fun _ t ht => ?_) fun _ _ => trivial
    obtain ⟨vm, kernel, -, rfl⟩ := ht
    rfl
  unfold userFileRelease
  rcases f.inner with _ | _ | file | d
  · exact .pure rfl
  · exact .pure rfl
  · exact hask _
  · exact hask _

theorem sysClose_spec (h : Table s.userFiles) (fd : ℤ) : Ends (sysClose S fd) s
    (fun r t => Table t.userFiles ∧ Effect S (.close fd) r s.userFiles t.userFiles) fun _ => True := by
  refine .bind (.get ?_)
  rcases hf : userFileGet s.userFiles fd with _ | f
  · exact .pure ⟨h, .inl ⟨rfl, rfl, by simp [hf]⟩⟩
  have hkept : ¬Closable f.inner → Table s.userFiles ∧ Effect S (.close fd) (some (-1)) s.userFiles s.userFiles :=
    fun hc => ⟨h, .inl ⟨rfl, rfl, fun g hg => Option.some.inj (hf.symm.trans hg) ▸ hc⟩⟩
  have hclosed : Closable f.inner → Ends
      (do
        set { s with userFiles := s.userFiles.eraseP (·.fd = fd) }
        userFileRelease S f
        return none : Sys ν κ (Option ℤ)) s
      (fun r t => Table t.userFiles ∧ Effect S (.close fd) r s.userFiles t.userFiles) fun _ => True := by
    intro hc
    refine .bind (.set (.bind ((release_spec f).mono (fun _ t ht => .pure ?_) fun _ _ => trivial)))
    rw [ht]
    obtain ⟨hmem, hfd⟩ := (userFileGet_eq_some h.increasing).mp hf
    exact ⟨table_eraseP h hf hc, .inr ⟨f, hf, hc, fun g => mem_eraseP h.increasing hmem hfd⟩⟩
  rcases hi : f.inner with _ | _ | file | d <;> simp only [hi] at hkept hclosed ⊢
  · exact .pure (hkept (by simp [Closable]))
  · exact .pure (hkept (by simp [Closable]))
  · exact hclosed trivial
  · exact hclosed trivial

/-! ### Runs -/

/-- A call that returns. Before it anything may happen but another call of this kind. -/
def CallStep (S : Services ν κ) (s : CallState ν κ) (c : FileCall × Option ℤ) (s' : CallState ν κ) : Prop :=
  ∃ t : CallState ν κ, t.userFiles = s.userFiles ∧ outcome (c.1.run S) t = (.ok c.2, s')

theorem call_spec {c : FileCall × Option ℤ} (h : Table s.userFiles) (hstep : CallStep S s c s') :
    Table s'.userFiles ∧ Effect S c.1 c.2 s.userFiles s'.userFiles := by
  obtain ⟨t, ht, ho⟩ := hstep
  rw [← ht] at h ⊢
  rcases c with ⟨fileName | fd, r⟩
  · exact (sysOpen_spec h fileName).of_outcome ho
  · exact (sysClose_spec h fd).of_outcome ho

/-- **The descriptor table**, after every sequence of `open` and `close` of a process with its `stdin` and
`stdout`: the table is in order, and the next call does to it what it should. -/
theorem table_of_reachable (h : Reachable (fun s => s.userFiles = initFiles) (CallStep S) s) :
    Table s.userFiles ∧ ∀ c r s', CallStep S s (c, r) s' → Effect S c r s.userFiles s'.userFiles := by
  have htable : Table s.userFiles := h.of_invariant (I := fun s => Table s.userFiles)
    { start := fun h0 => h0 ▸ table_initFiles
      step := fun ht hstep => (call_spec ht hstep).1 }
  exact ⟨htable, fun c r s' hstep => (call_spec htable hstep).2⟩

/-- The kernel of `oneDirectory` with memory and one file. -/
def oneFile : Services Unit (List Filesys.DirState.DirEntry) :=
  { oneDirectory with
    malloc := fun _ => return true
    filesysOpen := fun _ => return some (.file 7) }

/-- A process that has just been started, with null bytes in its memory. -/
def started : CallState Unit (List Filesys.DirState.DirEntry) :=
  { readdirState with
    mem := fun _ => 0
    userFiles := initFiles }

/-- After one `open`. -/
theorem table_of_reachable_open : ∃ s, s.userFiles = [⟨0, .stdin⟩, ⟨1, .stdout⟩, ⟨2, .file 7⟩] ∧
    Table s.userFiles ∧ ∀ c r s', CallStep oneFile s (c, r) s' → Effect oneFile c r s.userFiles s'.userFiles := by
  have hopen : (outcome (sysOpen oneFile 0x8048000) started).1 = .ok (some 2) := by decide +kernel
  have hfiles : (left (sysOpen oneFile 0x8048000) started).userFiles =
      [⟨0, .stdin⟩, ⟨1, .stdout⟩, ⟨2, .file 7⟩] := by decide +kernel
  have hstep : CallStep oneFile started (.open 0x8048000, some 2) (left (sysOpen oneFile 0x8048000) started) :=
    ⟨started, rfl, Prod.ext hopen rfl⟩
  exact ⟨_, hfiles, table_of_reachable (.step (.start rfl) hstep)⟩

end Pintos.Userprog.Descriptors
