import Pintos.Userprog.Lifetimes

/-! # No stale vpages

When a page directory is destroyed, its process has no vpage left, so that `evict_page` never picks a page of
a dead process. `process_exit` sees to it for a process that has run. A `load` that fails after it registered
a vpage does not: its thread has no `process_info`, and the vpages outlive the page directory. -/

namespace Pintos.Userprog.StaleVpages

open Pintos.Lib.Runs Pintos.Vm.State Pintos.Vm.Vpage Pintos.Vm.Effect Pintos.Vm.Run
open Pintos.Userprog.Load Pintos.Userprog.Lifecycle Pintos.Userprog.Lifetimes

/-- What holds after a page directory was destroyed: no vpage of the process, and none in memory that refers
to the page directory or to a frame that went with it. -/
def NoStale (s : Sys) (a : LifeAction) (s' : Sys) : Prop :=
  ∀ p d, a = .destroy p → s.vm.pagedir p = some d →
    (∀ v ∈ s'.vm.map, v.pid ≠ p) ∧
    ∀ v ∈ s'.vm.map, ∀ i, v.backend = .inmem i →
      i.pagedir ≠ d ∧ ∀ u e, s.vm.pte d u = some e → i.paddr ≠ e.frame

/-- The vpage that `evict_page` would pick is of a process that lives, under its live page directory. -/
def EvictsLive (s : Sys) : Prop :=
  ∀ v i, s.vm.map.foldl lruStep none = some (v, i) →
    s.phase v.pid ≠ .unborn ∧ s.phase v.pid ≠ .dead ∧ s.vm.pagedir v.pid = some i.pagedir ∧
      (s.vm.pagedirs i.pagedir).isSome

variable {s s' : Sys}

/-! ### Destroying a page directory -/

theorem noStale_of_inOrder {a : LifeAction} (h : InOrder s) (hs : Sound s a)
    (hstep : LifeStep s a s') : NoStale s a s' := by
  rintro p d rfl hd
  obtain ⟨d', hd', hno, rfl⟩ := destroyPagedir_ensures h hs () s' hstep.2
  refine ⟨hno, fun v hv i hb => ⟨?_, fun u e he => ?_⟩⟩
  · rintro rfl
    exact hno v hv (h.owned.pdInj _ _ _ (h.owned.ownPd v hv i hb) hd)
  · rw [pte_eq_none h.owned hd hno u] at he
    cases he

theorem evictsLive_of_inOrder (h : InOrder s) : EvictsLive s := by
  intro v i hlru
  obtain ⟨hv, hb⟩ : v ∈ s.vm.map ∧ v.backend = .inmem i := by
    simpa using lruStep_foldl s.vm.map none hlru
  have hpd := h.owned.ownPd v hv i hb
  have hok := h.phases v.pid
  refine ⟨fun hun => ?_, fun hdead => ?_, hpd, h.owned.pdLive _ _ hpd⟩
  · rw [hun] at hok
    exact hok.2 v hv rfl
  · rw [hdead] at hok
    exact hok.2 v hv rfl

/-- **No stale vpages.** In every run in which no thread leaves a failed `load` with registered vpages, every
`pagedir_destroy` leaves no stale vpage, and `evict_page` only picks pages of processes that live. -/
theorem noStale_of_reachable (h : Reachable LifeInit (Guarded Sound LifeStep) s) :
    EvictsLive s ∧ ∀ a s', Sound s a → LifeStep s a s' → NoStale s a s' ∧ EvictsLive s' := by
  have hl : InOrder s := h.of_invariant inOrder_invariant
  refine ⟨evictsLive_of_inOrder hl, fun a s' hs hstep => ⟨noStale_of_inOrder hl hs hstep, ?_⟩⟩
  exact evictsLive_of_inOrder (inOrder_step hl hs hstep)

/-! ### Two runs -/

/-- An executable without segments: an ELF header that promises no program headers. -/
def emptyElf : FileData where
  length := 52
  bytes := fun k => ([0x7f, 0x45, 0x4c, 0x46, 1, 1, 1, 0, 0, 0, 0, 0, 0, 0, 0, 0, 2, 0, 3, 0, 1] ++
    List.replicate 21 0 ++ [32] : List UInt8).getD k 0

/-- A machine with two free user pages, one swap slot and the file above. -/
def booted : Sys where
  vm := {
    map := []
    pagedirs := fun _ => none
    pagedir := fun _ => none
    userPool := [false, false]
    mem := fun _ _ => 0
    swapMap := List.replicate 8 false
    swapBlock := fun _ _ => 0
    files := fun _ => emptyElf }
  phase := fun _ => .unborn
  lastPid := 1

theorem lifeInit_booted : LifeInit booted :=
  ⟨⟨rfl, fun _ => rfl, fun _ => rfl⟩, fun _ => rfl, rfl⟩

/-- Memory is there for everything. -/
def plenty : Env := ⟨false, true, true, 0⟩

/-- A process whose executable is found, in `load`. -/
def loadingSys (rest : List LoadStep) : Sys :=
  Sys.setPhase { booted with lastPid := 2, vm := createPagedir booted.vm 1 0 } 1 (.loading 0 rest)

theorem noStale_of_reachable_open_failed : ∃ s', LifeStep ((loadingSys [.fail]).setPhase 1 (.failed 0))
    (.destroy 1) s' ∧ NoStale ((loadingSys [.fail]).setPhase 1 (.failed 0)) (.destroy 1) s' := by
  have h1 : LifeStep booted (.start ['a'] none (some 0)) (loadingSys [.fail]) :=
    ⟨by simp, rfl⟩
  have h2 : LifeStep (loadingSys [.fail]) (.load 1 plenty none)
      ((loadingSys [.fail]).setPhase 1 (.failed 0)) := ⟨by simp, rfl⟩
  have hsound1 : Sound (loadingSys [.fail]) (.load 1 plenty none) := fun _ _ _ => .inl rfl
  have hsound2 : Sound ((loadingSys [.fail]).setPhase 1 (.failed 0)) (.destroy 1) := by
    intro n hn
    simpa [Sys.setPhase, eq_comm] using hn
  refine ⟨_, ⟨by simp, rfl⟩, ((noStale_of_reachable (.step (.step (a := .start ['a'] none (some 0))
    (.start lifeInit_booted) ⟨trivial, h1⟩) ⟨hsound1, h2⟩)).2 _ _ hsound2 ⟨by simp, rfl⟩).1⟩

/-- A command line with one argument more than `ARGC_LIMIT`. -/
def manyArgs : Pintos.Filesys.Path.CStr := 'a' :: List.replicate 100 ' '

theorem loadSteps_manyArgs : loadSteps 0 emptyElf manyArgs = [.setupStack, .fail] := by
  decide +kernel

theorem startProcess_manyArgs : startProcess manyArgs (some 0) (some 0) booted =
    some ((), loadingSys (loadSteps 0 emptyElf manyArgs)) := by
  have hlen : fileNameLen manyArgs + 1 < sizeofFileName := by decide +kernel
  simp only [startProcess, hlen, decide_true]
  rfl

/-- With more than `ARGC_LIMIT` arguments, `load` fails after it has set the stack up: the page directory is
destroyed and the vpage of the stack stays. -/
theorem not_noStale_of_reachable :
    ¬∀ s a s', Reachable LifeInit LifeStep s → LifeStep s a s' → NoStale s a s' := by
  intro hall
  have h1 : LifeStep booted (.start manyArgs (some 0) (some 0)) (loadingSys [.setupStack, .fail]) :=
    ⟨by simp, loadSteps_manyArgs ▸ startProcess_manyArgs⟩
  obtain ⟨s2, s3, s4, h2, h3, h4, hpd, hmap⟩ : ∃ s2 s3 s4,
      lifeAct (.load 1 plenty none) (loadingSys [.setupStack, .fail]) = some ((), s2) ∧
      lifeAct (.load 1 plenty none) s2 = some ((), s3) ∧ lifeAct (.destroy 1) s3 = some ((), s4) ∧
      s3.vm.pagedir 1 = some 0 ∧ s4.vm.map.map VpageInfo.pid = [1] :=
    ⟨_, _, _, rfl, rfl, rfl, rfl, rfl⟩
  have hreach : Reachable LifeInit LifeStep s3 :=
    .step (a := .load 1 plenty none) (.step (a := .load 1 plenty none)
      (.step (.start lifeInit_booted) h1) ⟨by simp, h2⟩) ⟨by simp, h3⟩
  have hno := (hall s3 (.destroy 1) s4 hreach ⟨by simp, h4⟩ 1 0 rfl hpd).1
  have hone : 1 ∈ s4.vm.map.map VpageInfo.pid := by simp [hmap]
  obtain ⟨v, hv, hpid⟩ := List.mem_map.mp hone
  exact hno v hv hpid

end Pintos.Userprog.StaleVpages
