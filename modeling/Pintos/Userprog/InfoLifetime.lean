import Pintos.Userprog.WaitProtocol

/-! # The lifetime of a `struct process_info`

No step reads a `struct process_info` that has been freed or frees it once more, and none is left once its
process and the parent are gone, as long as three steps are avoided: a switch to a process between the free of
its `struct process_info` and the next statement, a step of the loop of `process_info_release` from a child
that has freed itself, and one past a child that has looked at its parent already. -/

namespace Pintos.Userprog.InfoLifetime

open Pintos.Lib.Runs Pintos.Userprog.Processes Pintos.Userprog.ProcessInvariant
open Pintos.Userprog.ProcessFamily Pintos.Userprog.ReleaseLoop Pintos.Userprog.WaitProtocol

variable {T : Type*} {s s' : Sys T}

/-- The process has found that it has a parent, and exits as a child. -/
def pastCheck : Place T → ProcessStatus → Bool
  | .exitingChild, _ | .statusSet, _ | .detached, _ => true
  | .dead, status => status = .exited
  | _, _ => false

/-- The steps that the lifetimes depend on. -/
def Careful (s : Sys T) : ProcAction T → Prop
  | .activate t => s.place t ≠ .orphaned
  | .run t =>
    match s.place t with
    | .stepping _ c _ _ => s.Allocated c
    | .releasing _ (c :: _) _ => pastCheck (s.place c) (s.status c) = false
    | _ => True
  | _ => True

variable [DecidableEq T]

/-! ### No use after free -/

theorem allocated_of_processInfo (hs : Inv s) {t : T} (hp : s.processInfo t = true)
    (ht : s.place t ≠ .orphaned) : s.Allocated t := by
  have ho := hs.own t
  simp only [Own, view] at ho
  split at ho <;> grind [Runs, Fresh, Exited, Leaves, Sys.Allocated]

/-- A thread that is being started, and its creator. -/
theorem creator_waits (hs : Inv s) {t p : T} (hc : s.creator t = some p)
    (ht : ups (s.place t) (s.status t) = 0) : s.life p = .live ∧ ∃ v, s.value t = some v := by
  have he := execChild_of_down (hs.family.early hc ht)
  obtain ⟨v, hv, -⟩ := hs.family.value hc (.inr he)
  exact ⟨hs.live_of_child (.inl he), v, hv⟩

/-- The creator of a thread of which `process_execute` has learned. -/
theorem execDowned_allocated (hs : Inv s) {t u : T} {n : Bool} (ht : s.place t = .execDowned u n)
    (hc : s.childPi u = true) : s.Allocated u := by
  have hex : execChild (s.place t) = some u := by rw [ht]; rfl
  obtain ⟨hcu, hre⟩ := hs.acts.executing hex
  exact .inl (hs.family.parent hcu ((execDowned_child hs ht).mp hc) hre
    (hs.live_of_child (.inl hex))).2

/-- **Every statement of a thread that can go on is defined.** -/
theorem run_defined (hs : Inv s) (hl : Loop s) (hrec : Records s) {t : T} (hr : Runnable s t)
    (hok : Careful s (.run t)) (hp : s.lastPid ≠ intMax) : runThread s t ≠ none := by
  have ho := hs.own t
  simp only [Own, view] at ho
  cases ht : s.place t with
  | unborn | user | creating | loading | dead => simp [Runnable, ht] at hr
  | execDown u n =>
    obtain ⟨v, hv, -⟩ := hs.family.value (hs.acts.executing (t := t) (by rw [ht]; rfl)).1
      (.inr (by rw [ht]; rfl))
    simp [runThread, ht, semaDown, hv]
  | execDowned u n =>
    cases hc : s.childPi u with
    | true => simp [runThread, ht, hc, execDowned_allocated hs ht hc]
    | false =>
      obtain ⟨v, hv, -⟩ := hs.family.value (hs.acts.executing (t := t) (by rw [ht]; rfl)).1
        (.inr (by rw [ht]; rfl))
      simp only [ht] at ho
      cases n with
      | false => simp [runThread, ht, hc, semaFree, hv]
      | true =>
        have hi : s.life t = .live ∧ s.sema t = false := by grind [Runs]
        have := startRelease_of (s := s.setValue u none) (t := t) (o := t) (k := .execute) hi.1
          (by simp [hi.2])
        simp [runThread, ht, hc, semaFree, hv, this]
  | starting p =>
    simp only [ht] at ho
    obtain ⟨hlp, -⟩ := creator_waits hs ho.2.1 (by simp [ht, ups])
    have ha : s.Allocated p := .inl hlp
    simp [runThread, ht, ha, processInfoAllocate, hp]
  | failing =>
    simp only [ht, Fresh] at ho
    obtain ⟨p, hc⟩ := Option.ne_none_iff_exists'.mp ho.1.1
    obtain ⟨-, v, hv⟩ := creator_waits hs hc (by simp [ht, ups])
    have ha : s.Allocated t := .inl ho.2.1
    simp [runThread, ht, ha, semaUp, hv]
  | failed =>
    simp only [ht] at ho
    have := startRelease_of (s := { s with sema := Function.update s.sema t false }) (t := t)
      (o := t) (k := .failed) ho.2.1 (by simp)
    simp [runThread, ht, this]
  | loaded =>
    simp only [ht, Fresh] at ho
    obtain ⟨p, hc⟩ := Option.ne_none_iff_exists'.mp ho.1.1
    obtain ⟨hlp, -⟩ := creator_waits hs hc (by simp [ht, ups])
    have ha : s.Allocated t := .inl ho.2.2.1
    have hap : s.Allocated p := .inl hlp
    simp [runThread, ht, ho.2.1, hc, ha, hap]
  | linked =>
    simp only [ht] at ho
    obtain ⟨p, hc⟩ := Option.ne_none_iff_exists'.mp ho.1
    obtain ⟨-, v, hv⟩ := creator_waits hs hc (by simp [ht, ups])
    have ha : s.Allocated t := .inl ho.2.2.2.2.1
    simp [runThread, ht, ha, semaUp, hv]
  | waiting c =>
    obtain ⟨-, hlc, v, hv, -⟩ := hs.wait_child (t := t) (c := c) (by rw [ht]; rfl)
    have ha : s.Allocated c := .inl hlc
    simp [runThread, ht, ha, semaDown, hv]
  | waited c =>
    obtain ⟨-, v, s', -, hs', -⟩ := wait_ends hs hrec ht
    exact fun h => by simp [act, h] at hs'
  | releasing o rest k =>
    cases rest with
    | nil =>
      have hlo := (hs.acts.releases (t := t) (by rw [ht]; rfl)).1
      cases k <;> simp [runThread, ht, endRelease, hlo]
    | cons c rest =>
      have ha : s.Allocated c := .inl (hl.ahead (t := t) (by rw [ht]; rfl) (by simp [ht, restOf])).2
      simp [runThread, ht, ha]
  | stepping o c rest k =>
    simp only [Careful, ht] at hok
    simp [runThread, ht, hok]
  | exiting =>
    simp only [ht] at ho
    have ha : s.Allocated t := .inl ho.2.1
    cases hpp : s.parentPi t with
    | some p => simp [runThread, ht, ha, hpp]
    | none =>
      have := startRelease_of (s := s) (t := t) (o := t) (k := .orphan) ho.2.1 ?_
      · simp [runThread, ht, ha, hpp, this]
      · intro hsema
        obtain ⟨p, hc⟩ : ∃ p, s.creator t = some p := by
          refine Option.ne_none_iff_exists'.mp ?_
          grind [Runs]
        obtain ⟨v, hv, -⟩ := hs.family.value hc (.inl ⟨ho.2.1, by grind [Runs]⟩)
        simp [hv]
  | exitingChild =>
    simp only [ht] at ho
    have ha : s.Allocated t := .inl ho.1.2.1
    simp [runThread, ht, ha]
  | detached =>
    simp only [ht, Exited] at ho
    obtain ⟨p, hc⟩ := Option.ne_none_iff_exists'.mp ho.1.1
    obtain ⟨v, hv, -⟩ := hs.family.value hc (.inl ⟨ho.2.2.2.1, ho.1.2.1⟩)
    have ha : s.Allocated t := .inl ho.2.2.2.1
    simp [runThread, ht, ha, semaUp, hv]
  | statusSet | orphaned => simp [runThread, ht]

/-- **No step reads what has been freed**, and none frees it once more. -/
theorem act_defined (hs : Inv s) (hl : Loop s) (hrec : Records s) {a : ProcAction T}
    (he : Enabled s a) (hok : Careful s a) (hp : s.lastPid ≠ intMax) : act s a ≠ none := by
  cases a with
  | run t => exact run_defined hs hl hrec he hok hp
  | execute t =>
    cases hpi : s.processInfo t <;> simp [act, hpi, processInfoAllocate, hp]
  | create t u =>
    obtain ⟨⟨n, ht⟩, -⟩ := he
    simp [act, ht]
  | createFails t =>
    obtain ⟨n, ht⟩ := he
    have ho := hs.own t
    simp only [Own, view, ht] at ho
    cases n with
    | false => simp [act, ht]
    | true =>
      have hi : s.life t = .live ∧ s.sema t = false := by grind [Runs]
      have := startRelease_of (s := s) (t := t) (o := t) (k := .execute) hi.1 (by simp [hi.2])
      simp [act, ht, this]
  | wait t pid => simp [wait_eq hs he]
  | exit t code =>
    have ha := allocated_of_processInfo hs he.2 (by simp [he.1])
    simp [act, ha]
  | activate t =>
    have ha := fun hpi => allocated_of_processInfo hs hpi hok
    simpa [act] using ha
  | executeFails t | load t | loadFails t | threadExit t => simp [act]

/-- A switch to a thread that has freed its `struct process_info` reads it. -/
theorem activate_orphaned (hs : Inv s) {t : T} (ht : s.place t = .orphaned) :
    act s (.activate t) = none := by
  have ho := hs.own t
  simp only [Own, view, ht] at ho
  simp [act, ho, Sys.Allocated]

/-! ### No leak -/

/-- A process that exits as a child has its parent's `struct process_info` until it has been waited for. -/
def Parented (s : Sys T) : Prop :=
  ∀ p c, s.creator c = some p → s.onList c = true → s.reaped c = false →
    pastCheck (s.place c) (s.status c) = true → s.parentPi c = some p

omit [DecidableEq T] in
theorem parentPi_eq [DecidableEq T] (hs : Inv s) (hl : Loop s) {p q c : T} (hc : s.creator c = some p)
    (ho : s.onList c = true) (hr : s.reaped c = false) (hq : s.parentPi c = some q) : q = p := by
  by_cases hp : s.life p = .live
  · exact Option.some.inj (hq.symm.trans (hs.family.parent hc ho hr hp).1)
  · obtain h | ⟨t, k, ht, hm⟩ := hl.behind hc ho hr hp
    · simp [h] at hq
    · exact Option.some.inj (hq.symm.trans (hl.ahead ht hm).1)

theorem parented_step (hs : Inv s) (hl : Loop s) (hpa : Parented s) {a : ProcAction T}
    (hok : Careful s a) (h : Step s a s') : Parented s' := by
  intro p c hc hon hr hpast
  have hpc := hpa p c
  have ho := hs.own
  cases effect_of_step h with
  | activate => exact hpc hc hon hr hpast
  | @releaseChild t o d rest k ht =>
    have hd := hs.acts.rest (t := t) (c := d) (by rw [ht]; rfl) (by simp [ht, restOf])
    have hrun := run_of_release h (t := t) (by simp [ht, releaseOf]) (by simp [ht])
    subst hrun
    simp only [Careful, ht] at hok
    by_cases hct : c = t
    · simp [hct, pastCheck] at hpast
    · have hpast : pastCheck (s.place c) (s.status c) = true := by simpa [hct] using hpast
      have hcd : c ≠ d := fun h => by simp [← h, hpast] at hok
      simpa [hcd] using hpc hc hon hr hpast
  | @exitChild t q ht hq =>
    by_cases hct : c = t
    · subst hct
      exact (parentPi_eq hs hl hc hon hr hq) ▸ hq
    · exact hpc hc hon hr (by simpa [hct] using hpast)
  | @create t w n ht hw =>
    by_cases hct : c = t
    · simp [hct, pastCheck] at hpast
    · by_cases hcw : c = w
      · simp [hcw, hcw ▸ hct, pastCheck] at hpast
      · exact hpc (by simpa [hcw] using hc) hon hr (by simpa [hct, hcw] using hpast)
  | @execute t ht hp | @threadExit t ht hp | @load t ht | @loadFailed t ht
  | @executeFailed t ht | @createFailedOld t ht | @noChild t ht
  | @exit t code ht hp | @detach t ht | @notLoadedOld t w ht hc
  | @executed t w n ht hc | @failUp t v ht hv | @startUp t v ht hv | @exitUp t v ht hv
  | @wait t d ht hp hd | @execDown t w n v ht hv h0 | @waitDown t d v ht hv h0
  | @releaseNext t o d rest k ht | @createFailed t ht | @failed t ht | @exitOrphan t ht
  | @notLoaded t w ht | @releasedWait t o v ht | @releasedExecute t o ht
  | @releasedOrphan t o ht | @setStatus t ht  =>
    by_cases hct : c = t
    · subst hct
      simp [pastCheck] at hpast
      try exact hpc hc hon hr (by simp [ht, pastCheck])
    · exact hpc hc (by simpa [hct] using hon) hr (by simpa [hct] using hpast)
  | @releasedFailed t o ht | @clear t ht | @threadDies t ht hp =>
    by_cases hct : c = t
    · subst hct
      have hst : s.creator c = none ∨ s.status c = .running := by
        have ho := ho c
        simp only [Own, view, ht] at ho
        grind [Runs, Leaves, Fresh]
      have hc : s.creator c = some p := hc
      simp [pastCheck, hst.resolve_left (by simp [hc])] at hpast
    · exact hpc hc hon hr (by simpa [hct] using hpast)
  | @executeNew t ht | @start t q ht | @link t q ht =>
    by_cases hct : c = t
    · simp [hct, pastCheck] at hpast
    · simpa [hct] using hpc hc (by simpa [hct] using hon) hr (by simpa [hct] using hpast)
  | @waitDone t d ht =>
    by_cases hct : c = t
    · simp [hct, pastCheck] at hpast
    · have hcd : c ≠ d := fun h => by simp [h] at hr
      exact hpc hc hon (by simpa [hcd] using hr) (by simpa [hct] using hpast)

/-- **Nothing is left** of a process that has exited and whose parent's `struct process_info` is gone. -/
theorem freed_of_parent (hs : Inv s) (hl : Loop s) (hpa : Parented s) {p c : T}
    (hc : s.creator c = some p) (hd : s.place c = .dead) (hp : ¬ s.Allocated p) : ¬ s.Allocated c := by
  intro hac
  have ho := hs.own c
  simp only [Own, view, hd] at ho
  have hlc : s.life c = .live ∨ s.life c = .releasing := hac
  obtain ⟨-, ⟨hex, ⟨hli, hre, -⟩ | ⟨-, hre⟩⟩ | ⟨-, hli⟩⟩ := ho
  · -- the loop of the parent's release has passed the child, which has kept its parent
    have hpp := hpa p c hc hex.2.1 hre (by simp [hd, pastCheck, show s.status c = _ from hex.2.2.2])
    obtain h | ⟨t, k, ht, -⟩ := hl.behind hc hex.2.1 hre fun h => hp (.inl h)
    · simp [h] at hpp
    · exact hp (.inr (hs.acts.releases ht).1)
  · -- the parent is releasing the child
    obtain hli | hli := hlc
    · have := ((hs.own c).of_reaped hre).2.2
      simp [view, hli] at this
    · obtain ⟨t, k, ht⟩ := hl.released hli
      obtain ⟨-, h1, h2⟩ := hs.acts.releases ht
      by_cases hk : ∃ v, k = .wait v
      · obtain ⟨v, rfl⟩ := hk
        obtain rfl : p = t := Option.some.inj (hc.symm.trans (h2 v rfl).1)
        have hop := hs.own p
        simp only [Own, view] at hop
        have hlp : s.life p = .live := by
          cases hpl : s.place p <;> simp [hpl, releaseOf] at ht <;>
            simp only [hpl, ht] at hop <;> exact hop.2.1
        exact hp (.inl hlp)
      · obtain rfl := h1 fun v hv => hk ⟨v, hv⟩
        simp [hd, releaseOf] at ht
  · obtain h | ⟨h, -⟩ := hli
    · simp [h] at hlc
    · simp [hc] at h

/-- A process that exits as a child and has lost its parent. -/
def Leaked (s : Sys T) (c : T) : Prop :=
  s.creator c ≠ none ∧ s.onList c = true ∧ s.reaped c = false ∧
    pastCheck (s.place c) (s.status c) = true ∧ s.parentPi c = none

theorem leaked_allocated (hs : Inv s) {c : T} (h : Leaked s c) : s.Allocated c := by
  obtain ⟨hc, hon, hr, hp, -⟩ := h
  have ho := hs.own c
  simp only [Own, view] at ho
  cases hpl : s.place c <;> simp [hpl, pastCheck] at hp <;> simp only [hpl] at ho <;>
    grind [Runs, Exited, Leaves, Sys.Allocated]

theorem leaked_step (hs : Inv s) {c : T} (hlk : Leaked s c) (h : Effect s s') : Leaked s' c := by
  obtain ⟨hc, hon, hr, hp, hpp⟩ := hlk
  cases h with
  | activate => exact ⟨hc, hon, hr, hp, hpp⟩
  | @create t w n ht hw =>
    have hct : c ≠ t := fun h => by simp [h, ht, pastCheck] at hp
    have hcw : c ≠ w := fun h => by simp [h, hw, pastCheck] at hp
    exact ⟨by simpa [hcw] using hc, hon, hr, by simpa [hct, hcw] using hp, hpp⟩
  | @setStatus t ht | @detach t ht =>
    refine ⟨hc, hon, hr, ?_, hpp⟩
    by_cases hct : c = t
    · simp [hct, pastCheck]
    · simpa [hct] using hp
  | @exitUp t v ht =>
    refine ⟨hc, hon, hr, ?_, hpp⟩
    by_cases hct : c = t
    · have ho := hs.own t
      simp only [Own, view, ht, Exited] at ho
      simp [hct, pastCheck, ho]
    · simpa [hct] using hp
  | @waitDone t d ht =>
    have hct : c ≠ t := fun h => by simp [h, ht, pastCheck] at hp
    have hcd : c ≠ d := fun h => by
      have := (hs.wait_child (t := t) (c := d) (by rw [ht]; rfl)).1
      simp [← h, hpp] at this
    exact ⟨hc, hon, by simpa [hcd] using hr, by simpa [hct] using hp, hpp⟩
  | @releaseChild t o d rest k ht =>
    have hct : c ≠ t := fun h => by simp [h, ht, pastCheck] at hp
    refine ⟨hc, hon, hr, by simpa [hct] using hp, ?_⟩
    by_cases hcd : c = d <;> simp [hcd, hpp]
  | @execute t ht | @threadExit t ht | @load t ht | @loadFailed t ht | @executeFailed t ht
  | @createFailedOld t ht | @noChild t ht | @exit t code ht | @notLoadedOld t w ht | @clear t ht
  | @threadDies t ht | @executed t w n ht | @failUp t v ht | @startUp t v ht | @exitChild t p ht
  | @wait t d ht | @execDown t w n v ht | @waitDown t d v ht | @releaseNext t o d rest k ht
  | @createFailed t ht | @failed t ht | @exitOrphan t ht | @notLoaded t w ht
  | @releasedWait t o v ht | @releasedExecute t o ht | @releasedFailed t o ht
  | @releasedOrphan t o ht | @executeNew t ht | @start t q ht | @link t q ht =>
    have hct : c ≠ t := fun h => by simp [h, ht, pastCheck] at hp
    exact ⟨hc, by simpa [hct] using hon, hr, by simpa [hct] using hp, by simpa [hct] using hpp⟩

/-! ### Every run -/

theorem careful_reachable (h : Reachable Init (Guarded Careful Step) s) :
    (Whole s ∧ Records s) ∧ Parented s := by
  refine h.of_invariant (Invariant.guarded
    ⟨fun h => (wait_start h).1, fun ⟨hw, hr⟩ h =>
      ⟨whole.step hw h, records_step hw.1 hr (effect_of_step h)⟩⟩
    (fun h => ?_) fun ⟨hw, _⟩ hpa hok h => parented_step hw.1 hw.2 hpa hok h)
  intro p c hc
  simp [h.creator] at hc

/-- What is left stays for ever. -/
theorem leaked_forever (hw : Whole s) {c : T} (hlk : Leaked s c) {s'' : Sys T}
    (h : Reachable (fun x => x = s) Step s'') : s''.Allocated c := by
  have hI : Invariant (fun x => x = s) Step fun x : Sys T => Whole x ∧ Leaked x c :=
    ⟨fun h => h ▸ ⟨hw, hlk⟩, fun ⟨hw, hlk⟩ h =>
      ⟨whole.step hw h, leaked_step hw.1 hlk (effect_of_step h)⟩⟩
  obtain ⟨hw, hlk⟩ := h.of_invariant hI
  exact leaked_allocated hw.1 hlk

/-- A step that is not careful reads what has been freed, or leaves something allocated for ever. -/
theorem careful_needed (hw : Whole s) {a : ProcAction T} (he : Enabled s a) (hok : ¬ Careful s a) :
    act s a = none ∨ ∃ s' c, act s a = some s' ∧
      ∀ s'', Reachable (fun x => x = s') Step s'' → s''.Allocated c := by
  cases a with
  | activate t => exact .inl (activate_orphaned hw.1 (not_not.mp hok))
  | run t =>
    simp only [Careful] at hok
    split at hok
    · rename_i o c rest k ht
      exact .inl (by simp [act, runThread, ht, hok])
    · rename_i o c rest k ht
      right
      have hc := hw.1.acts.rest (t := t) (c := c) (by rw [ht]; rfl) (by simp [ht, restOf])
      have ha : s.Allocated c :=
        .inl (hw.2.ahead (t := t) (by rw [ht]; rfl) (by simp [ht, restOf])).2
      have hs' : act s (.run t) = some ({ s with
          parentPi := Function.update s.parentPi c none }.move t (.stepping o c rest k)) := by
        simp [act, runThread, ht, ha]
      refine ⟨_, c, hs', fun s'' h => leaked_forever (whole.step hw ⟨he, hs'⟩) ?_ h⟩
      have hct : c ≠ t := fun h => by simp [h, ht, pastCheck] at hok
      exact ⟨by simp [hc.1], hc.2.1, hc.2.2, by simpa [hct] using hok, by simp⟩
    · exact absurd trivial hok
  | _ => exact absurd trivial hok

/-- **The lifetimes.** In every run of careful steps: every careful step that is enabled is defined, unless the
pids have run out; whoever is about to free a `struct process_info` is its process or the parent that has
waited for it; and when a process and its parent have exited and the parent has been waited for, both are
freed. A step that is not careful reads freed memory or leaves a `struct process_info` for ever. -/
theorem process_info_runs :
    (∀ s : Sys T, Reachable Init (Guarded Careful Step) s →
      (∀ a, Enabled s a → Careful s a → s.lastPid ≠ intMax → act s a ≠ none) ∧
      (∀ t o k, s.place t = .releasing o [] k →
        s.life o = .releasing ∧ (o = t ∨ s.creator o = some t ∧ s.reaped o = true)) ∧
      ∀ p c, s.creator c = some p → s.place c = .dead → s.place p = .dead → s.reaped p = true →
        (∀ t k, releaseOf (s.place t) ≠ some (p, k)) → ¬ s.Allocated c ∧ ¬ s.Allocated p) ∧
    ∀ (s : Sys T) (a : ProcAction T), Reachable Init (Guarded Careful Step) s → Enabled s a →
      ¬ Careful s a → act s a = none ∨ ∃ s' c, act s a = some s' ∧
        ∀ s'', Reachable (fun x => x = s') Step s'' → s''.Allocated c := by
  refine ⟨fun s h => ?_, fun s a h he hok => careful_needed (careful_reachable h).1.1 he hok⟩
  obtain ⟨⟨⟨hs, hl⟩, hrec⟩, hpa⟩ := careful_reachable h
  refine ⟨fun a he hok hp => act_defined hs hl hrec he hok hp, fun t o k ht => ?_,
    fun p c hc hd hdp hre hrel => ?_⟩
  · obtain ⟨hlo, h1, h2⟩ := hs.acts.releases (t := t) (o := o) (k := k) (by rw [ht]; rfl)
    refine ⟨hlo, ?_⟩
    by_cases hk : ∃ v, k = .wait v
    · obtain ⟨v, rfl⟩ := hk
      exact .inr (h2 v rfl)
    · exact .inl (h1 fun v hv => hk ⟨v, hv⟩)
  · have hp : ¬ s.Allocated p := by
      have hlp := ((hs.own p).of_reaped hre).2.2
      simp only [view] at hlp
      rintro (h | h)
      · simp [h] at hlp
      · obtain ⟨t, k, ht⟩ := hl.released h
        exact hrel t k ht
    exact ⟨freed_of_parent hs hl hpa hc hd hp, hp⟩

/-! ### Runs -/

/-- A process exits without a wait for its child, which has exited before. -/
def zombie (main t u : T) : List (ProcAction T) :=
  exec main t ++ exec t u ++ exitWith u 0 ++ exitWith t 7 ++
  [.wait main 2, .run main, .run main, .run main, .run main, .run main]

/-- A process exits before its child, and is waited for; then the child exits, up to the free. -/
def orphan (main t u : T) : List (ProcAction T) :=
  exec main t ++ exec t u ++ exitWith t 7 ++
  [.wait main 2, .run main, .run main, .run main, .run main, .run main, .exit u 0, .run u, .run u]

/-- A switch to an orphan that exits reads what it has freed; and the `struct process_info` of a process that
nobody has waited for is left. -/
theorem lifetimes_fail :
    (¬ ∀ s : Sys (Fin 3), Reachable Init Step s → ∀ a, Enabled s a → s.lastPid ≠ intMax →
      act s a ≠ none) ∧
    ¬ ∀ s : Sys (Fin 3), Reachable Init Step s → ∀ p c, s.creator c = some p →
      s.place c = .dead → s.place p = .dead → s.reaped p = true →
      (∀ t k, releaseOf (s.place t) ≠ some (p, k)) → ¬ s.Allocated c ∧ ¬ s.Allocated p := by
  constructor
  · have h : ((orphan (0 : Fin 3) 1 2).foldlM next (initial 0)).map
        (fun s => (s.place 2, s.processInfo 2, s.life 2, s.lastPid)) =
        some (.orphaned, true, .freed, 4) := by
      decide +kernel
    obtain ⟨s, hs, h⟩ := Option.map_eq_some_iff.mp h
    simp only [Prod.mk.injEq] at h
    obtain ⟨hpl, hpi, hli, hpid⟩ := h
    intro hall
    have hr : Reachable Init Step s := .of_foldlM step_of_next _ (.start (init_initial 0)) hs
    refine hall s hr (.activate 2) ⟨by simp [hpl], by simp [hpl]⟩ (by simp [hpid, intMax]) ?_
    simp [act, hpi, Sys.Allocated, hli]
  · have h : ((zombie (0 : Fin 3) 1 2).foldlM next (initial 0)).map
        (fun s => ((s.creator 2, s.reaped 1, s.life 2), s.place 2, s.place 1, s.place 0)) =
        some ((some 1, true, .live), .dead, .dead, .user) := by
      decide +kernel
    obtain ⟨s, hs, h⟩ := Option.map_eq_some_iff.mp h
    simp only [Prod.mk.injEq] at h
    obtain ⟨⟨hc, hre, hli⟩, h2, h1, h0⟩ := h
    intro hall
    have hr : Reachable Init Step s := .of_foldlM step_of_next _ (.start (init_initial 0)) hs
    refine (hall s hr 1 2 hc h2 h1 hre fun t k ht => ?_).1 (.inl hli)
    fin_cases t
    · simp [h0, releaseOf] at ht
    · simp [h1, releaseOf] at ht
    · simp [h2, releaseOf] at ht

instance (s : Sys T) : (a : ProcAction T) → Decidable (Careful s a)
  | .activate t => inferInstanceAs (Decidable (s.place t ≠ .orphaned))
  | .run t =>
    match h : s.place t with
    | .stepping _ c _ _ => decidable_of_iff (s.Allocated c) (by simp [Careful, h])
    | .releasing _ (c :: _) _ =>
      decidable_of_iff (pastCheck (s.place c) (s.status c) = false) (by simp [Careful, h])
    | .releasing _ [] _ | .unborn | .user | .creating _ | .execDown _ _ | .execDowned _ _
    | .starting _ | .loading | .failing | .failed | .loaded | .linked | .waiting _ | .waited _
    | .exiting | .exitingChild | .statusSet | .detached | .orphaned | .dead =>
      isTrue (by simp [Careful, h])
  | .execute _ | .executeFails _ | .create _ _ | .createFails _ | .load _ | .loadFails _
  | .wait _ _ | .exit _ _ | .threadExit _ => isTrue trivial

/-- A process waits for its child and exits, and is waited for. -/
def waitedFor (main t u : T) : List (ProcAction T) :=
  exec main t ++ exec t u ++ exitWith u 0 ++ [.wait t 3, .run t, .run t, .run t] ++ exitWith t 7 ++
  [.wait main 2, .run main, .run main, .run main]

theorem process_info_runs_waitedFor : ∃ s : Sys (Fin 3), ¬ s.Allocated 2 ∧ ¬ s.Allocated 1 := by
  have h : ((waitedFor (0 : Fin 3) 1 2).foldlM
      (fun s a => if Careful s a then next s a else none) (initial 0)).map
      (fun s => (s.creator 2, s.place 2, s.place 1, s.place 0, s.reaped 1)) =
      some (some 1, .dead, .dead, .user, true) := by
    decide +kernel
  obtain ⟨s, hs, h⟩ := Option.map_eq_some_iff.mp h
  simp only [Prod.mk.injEq] at h
  obtain ⟨hc, h2, h1, h0, hre⟩ := h
  have hr : Reachable Init (Guarded Careful Step) s := by
    refine .of_foldlM (fun h => ?_) _ (.start (init_initial 0)) hs
    split at h
    · exact ⟨‹_›, step_of_next h⟩
    · cases h
  refine ⟨s, (process_info_runs.1 s hr).2.2 1 2 hc h2 h1 hre fun t k ht => ?_⟩
  fin_cases t
  · simp [h0, releaseOf] at ht
  · simp [h1, releaseOf] at ht
  · simp [h2, releaseOf] at ht

end Pintos.Userprog.InfoLifetime
