import Pintos.Userprog.ReleaseLoop

/-! # What `process_wait` returns

The exit code and the pid of a process stay what they are once the process has exited, and so a `process_wait`
returns what its child has stored. -/

namespace Pintos.Userprog.WaitProtocol

open Pintos.Lib.Runs Pintos.Userprog.Processes Pintos.Userprog.ProcessInvariant
open Pintos.Userprog.ProcessFamily Pintos.Userprog.ReleaseLoop

variable {T : Type*} {s s' : Sys T}

/-! ### Exit codes and pids -/

structure Records (s : Sys T) : Prop where
  code : ∀ {c}, Exited (view s c) → s.stored c = some (s.exitCode c)
  release : ∀ {t o v}, releaseOf (s.place t) = some (o, .wait v) → s.stored o = some v
  returned : ∀ {t c v}, s.returned = some (t, .exitCode c v) →
    s.creator c = some t ∧ s.stored c = some v ∧ s.reaped c = true
  pid : ∀ {c}, s.life c ≠ .unborn → s.pid c < s.lastPid
  unique : ∀ {c d}, s.life c ≠ .unborn → s.life d ≠ .unborn → s.pid c = s.pid d → c = d

variable [DecidableEq T]

theorem code_step (hs : Inv s) (hr : Records s) (h : Effect s s') {c : T}
    (hc : Exited (view s' c)) : s'.stored c = some (s'.exitCode c) := by
  have hcode := @(hr).code c
  cases h with
  | @exit t code ht | @executeNew t ht | @start t p ht | @failUp t v ht | @startUp t v ht
  | @link t p ht | @setStatus t ht =>
    have ho := hs.own t
    simp only [Own, view, ht] at ho
    by_cases hct : c = t
    · subst hct
      simp [Exited, view] at hc ⊢
      try grind [Runs, Fresh]
    · simp [Exited, view, hct] at hc hcode ⊢
      grind
  | @create t w n ht hw =>
    have how := hs.own w
    simp only [Own, view, hw] at how
    by_cases hcw : c = w
    · simp [Exited, view, hcw, how] at hc
    · exact hcode (by simpa [Exited, view, hcw] using hc)
  | _ => exact hcode hc

theorem release_step (hs : Inv s) (hr : Records s) (h : Effect s s') {u o : T} {v : ℤ}
    (hu : releaseOf (s'.place u) = some (o, .wait v)) : s'.stored o = some v := by
  have hrel := @(hr).release u o
  cases h with
  | activate => exact hrel hu
  | @execute t ht hp | @threadExit t ht hp | @threadDies t ht hp | @load t ht | @loadFailed t ht
  | @exitChild t p ht hp | @executeFailed t ht | @createFailedOld t ht | @noChild t ht
  | @exit t code ht hp | @detach t ht | @clear t ht | @notLoadedOld t w ht hc
  | @executed t w n ht hc | @failUp t v ht hv | @startUp t v ht hv | @exitUp t v ht hv
  | @wait t c ht hp hc | @execDown t w n v ht hv h0 | @waitDown t c v ht hv h0
  | @releaseNext t o c rest k ht | @releaseChild t o c rest k ht | @executeNew t ht
  | @start t p ht | @link t p ht | @createFailed t ht | @failed t ht | @exitOrphan t ht
  | @notLoaded t w ht | @releasedWait t o v ht | @releasedExecute t o ht | @releasedFailed t o ht
  | @releasedOrphan t o ht =>
    by_cases hut : u = t
    · subst hut
      simp [releaseOf, ht] at hu hrel ⊢
      try exact hrel hu.1 hu.2
    · exact hrel (by simpa [hut] using hu)
  | @create t w n ht hw =>
    by_cases hut : u = t
    · simp [hut, releaseOf] at hu
    · by_cases huw : u = w
      · simp [huw, huw ▸ hut, releaseOf] at hu
      · exact hrel (by simpa [hut, huw] using hu)
  | @setStatus t ht =>
    by_cases hut : u = t
    · simp [hut, releaseOf] at hu
    · have hu : releaseOf (s.place u) = some (o, .wait v) := by simpa [hut] using hu
      have hd := ((hs.own o).of_reaped ((hs.acts.releases hu).2.2 v rfl).2).1
      have hot : o ≠ t := fun h => by simp [view, h, ht] at hd
      simpa [hot] using hrel hu
  | @waitDone t c ht hl hst =>
    by_cases hut : u = t
    · subst hut
      simp [releaseOf] at hu
      obtain ⟨rfl, rfl⟩ := hu
      have hoc := hs.own c
      simp only [Own, view, hs.acts.waited ht] at hoc
      exact hr.code (by grind [Leaves, Exited, view])
    · exact hrel (by simpa [hut] using hu)

theorem returned_step (hs : Inv s) (hr : Records s) (h : Effect s s') {t c : T} {v : ℤ}
    (ht : s'.returned = some (t, .exitCode c v)) :
    s'.creator c = some t ∧ s'.stored c = some v ∧ s'.reaped c = true := by
  cases h with
  | @releasedWait t' o v' ht' hl =>
    simp at ht
    obtain ⟨rfl, rfl, rfl⟩ := ht
    have hto : releaseOf (s.place t') = some (o, .wait v') := by rw [ht']; rfl
    obtain ⟨hc, hre⟩ := (hs.acts.releases hto).2.2 v' rfl
    exact ⟨hc, hr.release hto, hre⟩
  | _ => simp at ht

/-- A step that allocates a `struct process_info`, and one that does not. -/
theorem pid_cases (h : Effect s s') :
    (∃ t, (∀ c, c ≠ t → s'.life c = s.life c) ∧ s'.pid = Function.update s.pid t s.lastPid ∧
      s'.lastPid = s.lastPid + 1) ∨
    s'.pid = s.pid ∧ s'.lastPid = s.lastPid ∧ ∀ c, s'.life c ≠ .unborn → s.life c ≠ .unborn := by
  cases h with
  | @executeNew t ht | @start t p ht => exact .inl ⟨t, fun c hc => by simp [hc], rfl, rfl⟩
  | @createFailed t ht hl | @failed t ht hl | @exitOrphan t ht hp hl | @notLoaded t w ht hc hl
  | @releasedWait _ t _ ht hl | @releasedExecute _ t ht hl | @releasedFailed _ t ht hl
  | @releasedOrphan _ t ht hl | @waitDone _ t ht hl hst =>
    refine .inr ⟨rfl, rfl, fun c hc => ?_⟩
    by_cases hct : c = t
    · simp [hct, hl]
    · simpa [hct] using hc
  | _ => exact .inr ⟨rfl, rfl, fun c hc => hc⟩

theorem pid_step (hr : Records s) (h : Effect s s') {c : T}
    (hc : s'.life c ≠ .unborn) : s'.pid c < s'.lastPid := by
  obtain ⟨t, hl, hp, hlp⟩ | ⟨hp, hlp, hl⟩ := pid_cases h
  · rw [hp, hlp]
    by_cases hct : c = t
    · simp [hct]
    · have := hr.pid (hl c hct ▸ hc)
      rw [Function.update_of_ne hct]
      omega
  · rw [hp, hlp]
    exact hr.pid (hl c hc)

theorem unique_step (hr : Records s) (h : Effect s s') {c d : T}
    (hc : s'.life c ≠ .unborn) (hd : s'.life d ≠ .unborn) (hcd : s'.pid c = s'.pid d) : c = d := by
  obtain ⟨t, hl, hp, -⟩ | ⟨hp, -, hl⟩ := pid_cases h
  · rw [hp] at hcd
    by_cases hct : c = t <;> by_cases hdt : d = t
    · rw [hct, hdt]
    · have := hr.pid (hl d hdt ▸ hd)
      simp only [hct, Function.update_self, Function.update_of_ne hdt] at hcd
      omega
    · have := hr.pid (hl c hct ▸ hc)
      simp only [hdt, Function.update_self, Function.update_of_ne hct] at hcd
      omega
    · rw [Function.update_of_ne hct, Function.update_of_ne hdt] at hcd
      exact hr.unique (hl c hct ▸ hc) (hl d hdt ▸ hd) hcd
  · rw [hp] at hcd
    exact hr.unique (hl c hc) (hl d hd) hcd

theorem records_start (h : Init s) : Records s where
  code hc := absurd (h.creator _) hc.1
  release {t o v} ht := by
    obtain ⟨main, hm⟩ := h.place
    by_cases htm : t = main <;> simp [hm, htm, releaseOf] at ht
  returned ht := by simp [h.returned] at ht
  pid hc := absurd (h.life _) hc
  unique hc := absurd (h.life _) hc

theorem records_step (hs : Inv s) (hr : Records s) (h : Effect s s') : Records s' where
  code := code_step hs hr h
  release := release_step hs hr h
  returned := returned_step hs hr h
  pid := pid_step hr h
  unique := unique_step hr h

/-! ### The steps of a wait -/

omit [DecidableEq T] in
theorem findChild_eq {pid : ℤ} : ∀ {cs : List T}, (∀ c ∈ cs, s.Allocated c) →
    findChild s pid cs = some (cs.find? fun c => s.pid c = pid)
  | [], _ => rfl
  | c :: cs, h => by
    rw [findChild, if_pos (h c List.mem_cons_self), List.find?_cons,
      findChild_eq fun d hd => h d (List.mem_cons_of_mem c hd)]
    by_cases hp : s.pid c = pid <;> simp [hp]

/-- The children of a thread in user mode that has a `struct process_info` have theirs. -/
theorem children_live (hs : Inv s) {t : T} (ht : s.place t = .user) (hp : s.processInfo t = true) :
    s.life t = .live ∧ ∀ c ∈ s.childrenPi t, s.life c = .live := by
  have hl : s.life t = .live := by
    have ho := hs.own t
    simp only [Own, view, ht] at ho
    grind [Runs]
  refine ⟨hl, fun c hc => ?_⟩
  obtain ⟨h1, h2, h3⟩ := hs.family.mem.mp hc
  exact (hs.family.parent h1 h2 h3 hl).2

/-- **A wait looks for a child** and goes on to wait for it, or returns in this step. -/
theorem wait_eq (hs : Inv s) {t : T} {pid : ℤ} (ht : s.place t = .user) :
    act s (.wait t pid) = some (((s.childrenPi t).find? fun c => s.pid c = pid).elim
      (s.return t .noChild) fun c => s.move t (.waiting c)) := by
  cases hp : s.processInfo t with
  | true =>
    obtain ⟨hl, hc⟩ := children_live hs ht hp
    have ha : s.Allocated t := .inl hl
    simp only [act, hp, ha, if_true, findChild_eq fun c h => .inl (hc c h), Option.map_some]
    cases (s.childrenPi t).find? fun c => s.pid c = pid <;> rfl
  | false =>
    have hc : s.childrenPi t = [] := by
      refine List.eq_nil_iff_forall_not_mem.mpr fun c hc => ?_
      obtain ⟨h1, h2, -⟩ := hs.family.mem.mp hc
      simp [no_children hs hp (by rw [ht]; rfl) (by simp [ht]) h1] at h2
    simp [act, hp, hc]

/-- **What a `process_wait` does**, from every place in it. -/
structure Protocol (s : Sys T) : Prop where
  /-- A child that has been loaded and has not been waited for. -/
  child : ∀ {t c}, s.place t = .user → s.creator c = some t → s.onList c = true →
    s.reaped c = false → act s (.wait t (s.pid c)) = some (s.move t (.waiting c))
  /-- A child that has been waited for. -/
  again : ∀ {t c}, s.place t = .user → s.reaped c = true →
    act s (.wait t (s.pid c)) = some (s.return t .noChild)
  /-- What is no child. -/
  noChild : ∀ {t pid}, s.place t = .user →
    (∀ c, s.creator c = some t → s.onList c = true → s.pid c ≠ pid) →
    act s (.wait t pid) = some (s.return t .noChild)
  /-- It waits until the child has exited, and no longer. -/
  waiting : ∀ {t c}, s.place t = .waiting c →
    (Runnable s t ↔ s.place c = .dead ∧ s.status c = .exited) ∧
    (Runnable s t → ∃ v, act s (.run t) = some ((s.setValue c (some v)).move t (.waited c)))
  /-- The assertion holds. -/
  waited : ∀ {t c}, s.place t = .waited c → s.status c = .exited ∧
    ∃ v s', s.stored c = some v ∧ act s (.run t) = some s' ∧ s'.reaped c = true ∧
      s'.place t = .releasing c (s.childrenPi c) (.wait v)
  /-- The loop of `process_info_release` ends. -/
  release : ∀ {t c d rest v}, s.place t = .releasing c (d :: rest) (.wait v) →
    ∃ s', act s (.run t) = some s' ∧ s'.place t = .stepping c d rest (.wait v)
  next : ∀ {t c d rest v}, s.place t = .stepping c d rest (.wait v) →
    ∃ s', act s (.run t) = some s' ∧ s'.place t = .releasing c rest (.wait v)
  returns : ∀ {t c v}, s.place t = .releasing c [] (.wait v) →
    ∃ s', act s (.run t) = some s' ∧ s'.returned = some (t, .exitCode c v)
  /-- What it returns is what the child has stored. -/
  returned : ∀ {t c v}, s.returned = some (t, .exitCode c v) → s.creator c = some t ∧
    s.stored c = some v ∧ s.status c = .exited ∧ s.reaped c = true

theorem wait_child (hs : Inv s) (hr : Records s) {t c : T} (ht : s.place t = .user)
    (hc : s.creator c = some t) (hl : s.onList c = true) (hre : s.reaped c = false) :
    act s (.wait t (s.pid c)) = some (s.move t (.waiting c)) := by
  have hm := hs.family.mem.mpr ⟨hc, hl, hre⟩
  have hp : s.processInfo t = true := by
    by_contra hp
    simp [no_children hs (by simpa using hp) (by rw [ht]; rfl) (by simp [ht]) hc] at hl
  obtain ⟨-, hlive⟩ := children_live hs ht hp
  have hf : (s.childrenPi t).find? (fun d => s.pid d = s.pid c) = some c := by
    obtain ⟨d, hd⟩ := Option.isSome_iff_exists.mp
      (List.find?_isSome.mpr ⟨c, hm, decide_eq_true rfl⟩ :
        ((s.childrenPi t).find? fun d => s.pid d = s.pid c).isSome)
    have hld := hlive d (List.mem_of_find?_eq_some hd)
    have hlc := hlive c hm
    have hdc : s.pid d = s.pid c := by simpa using List.find?_some hd
    rw [hd, hr.unique (by simp [hld]) (by simp [hlc]) hdc]
  rw [wait_eq hs ht, hf]
  rfl

theorem wait_other (hs : Inv s) {t : T} {pid : ℤ} (ht : s.place t = .user)
    (hc : ∀ c ∈ s.childrenPi t, s.pid c ≠ pid) : act s (.wait t pid) = some (s.return t .noChild) := by
  have hf : (s.childrenPi t).find? (fun c => s.pid c = pid) = none := by simpa using hc
  rw [wait_eq hs ht, hf]
  rfl

theorem wait_again (hs : Inv s) (hr : Records s) {t c : T} (ht : s.place t = .user)
    (hc : s.reaped c = true) : act s (.wait t (s.pid c)) = some (s.return t .noChild) := by
  refine wait_other hs ht fun d hd hpid => ?_
  obtain ⟨h1, h2, h3⟩ := hs.family.mem.mp hd
  have hp : s.processInfo t = true := by
    by_contra hp
    simp [no_children hs (by simpa using hp) (by rw [ht]; rfl) (by simp [ht]) h1] at h2
  have hld := (children_live hs ht hp).2 d hd
  have hlc : s.life c ≠ .unborn := by
    obtain h | h := ((hs.own c).of_reaped hc).2.2 <;> simp [view] at h <;> simp [h]
  obtain rfl := hr.unique (by simp [hld]) hlc hpid
  simp [hc] at h3

/-- A wait past its `sema_down` finds that the assertion holds. -/
theorem wait_ends (hs : Inv s) (hr : Records s) {t c : T} (ht : s.place t = .waited c) :
    s.status c = .exited ∧ ∃ v s', s.stored c = some v ∧ act s (.run t) = some s' ∧
      s'.reaped c = true ∧ s'.place t = .releasing c (s.childrenPi c) (.wait v) := by
  obtain ⟨-, hlc, v, hv, h⟩ := hs.wait_child (t := t) (c := c) (by rw [ht]; rfl)
  have hd := hs.acts.waited ht
  have hst : s.status c = .exited := by
    simp only [ht, downs, if_true] at h
    exact (ups_eq_two.mp (by rw [← h]; omega)).2
  have hoc := hs.own c
  simp only [Own, view, hd] at hoc
  have hex : Exited (view s c) := by grind [Leaves, Exited, view]
  have ha : s.Allocated c := .inl hlc
  have hct : c ≠ t := fun h => by simp [h, ht] at hd
  refine ⟨hst, s.exitCode c, { s with
      childrenPi := Function.update s.childrenPi t ((s.childrenPi t).erase c)
      reaped := Function.update s.reaped c true }.release t c (.wait (s.exitCode c)),
    hr.code hex, ?_, ?_, ?_⟩
  · simp only [act, runThread, ht, ha, hst, and_self, if_true]
    exact startRelease_of hlc fun _ => by simp [hv]
  · simp
  · simp [hct]

/-- The child whose `elem` a loop of `process_info_release` reads next, in the calls that `ks` is about. -/
def standsOn (ks : After → Bool) : Place T → Option T
  | .stepping _ c _ k => if ks k then some c else none
  | _ => none

/-- The calls of `process_wait`. -/
def isWait : After → Bool
  | .wait _ => true
  | _ => false

/-- What a thread frees with its next statement. -/
def frees : Place T → Option T
  | .releasing o [] _ => some o
  | _ => none

omit [DecidableEq T] in
theorem frees_eq {p : Place T} {o : T} (h : o ∈ frees p) : ∃ k, p = .releasing o [] k := by
  unfold frees at h
  split at h
  · cases h
    exact ⟨_, rfl⟩
  · cases h

omit [DecidableEq T] in
theorem standsOn_isWait {p : Place T} {c : T} (h : standsOn isWait p = some c) :
    ∃ o rest v, p = .stepping o c rest (.wait v) := by
  unfold standsOn at h
  split at h
  · rename_i k
    cases k <;> cases h
    exact ⟨_, _, _, rfl⟩
  · cases h

/-- No release ends while the loop of another one stands on what is released. -/
def Undisturbed (ks : After → Bool) (s : Sys T) : ProcAction T → Prop
  | .run t => ∀ o ∈ frees (s.place t), ∀ u, standsOn ks (s.place u) ≠ some o
  | _ => True

/-- The next child of a loop can be read. -/
def Steady (ks : After → Bool) (s : Sys T) : Prop :=
  ∀ t c, standsOn ks (s.place t) = some c → s.Allocated c

theorem protocol (hs : Inv s) (hl : Loop s) (hr : Records s) (hst : Steady isWait s) : Protocol s where
  child := wait_child hs hr
  again := wait_again hs hr
  noChild ht hc := wait_other hs ht fun c hm =>
    have ⟨h1, h2, _⟩ := hs.family.mem.mp hm
    hc c h1 h2
  waiting {t c} ht := by
    obtain ⟨-, hlc, -⟩ := hs.wait_child (t := t) (c := c) (by rw [ht]; rfl)
    obtain ⟨v, hv, h⟩ := hs.waiting_iff ht
    have ha : s.Allocated c := .inl hlc
    refine ⟨?_, fun _ => ⟨v - 1, ?_⟩⟩
    · simp [Runnable, ht, hv, ← h]
    · simp [act, runThread, ht, ha, semaDown, hv]
  waited := wait_ends hs hr
  release {t c d rest v} ht := by
    have ha : s.Allocated d := .inl (hl.ahead (t := t) (by rw [ht]; rfl) (by simp [ht, restOf])).2
    refine ⟨{ s with parentPi := Function.update s.parentPi d none }.move t
      (.stepping c d rest (.wait v)), ?_, by simp⟩
    simp [act, runThread, ht, ha]
  next {t c d rest v} ht := by
    have ha := hst t d (by rw [ht]; rfl)
    exact ⟨s.move t (.releasing c rest (.wait v)), by simp [act, runThread, ht, ha], by simp⟩
  returns {t c v} ht := by
    have hlc := (hs.acts.releases (t := t) (by rw [ht]; rfl)).1
    refine ⟨{ s with life := Function.update s.life c .freed }.return t (.exitCode c v), ?_, rfl⟩
    simp [act, runThread, ht, endRelease, hlc]
  returned {t c v} ht := by
    obtain ⟨h1, h2, h3⟩ := hr.returned ht
    exact ⟨h1, h2, ((hs.own c).of_reaped h3).2.1.2.2.2, h3⟩

/-! ### Every run -/

/-- How a thread comes to the next child. -/
theorem place_of_standsOn {ks : After → Bool} (h : Effect s s') {u c : T}
    (hu : standsOn ks (s'.place u) = some c) :
    standsOn ks (s.place u) = some c ∨ ∃ o rest k, s.place u = .releasing o (c :: rest) k := by
  cases h with
  | activate => exact .inl hu
  | @create t w n ht hw =>
    by_cases hut : u = t
    · simp [hut, standsOn] at hu
    · by_cases huw : u = w
      · simp [huw, huw ▸ hut, standsOn] at hu
      · exact .inl (by simpa [hut, huw] using hu)
  | @execute t ht hp | @threadExit t ht hp | @threadDies t ht hp | @load t ht | @loadFailed t ht
  | @exitChild t p ht hp | @executeFailed t ht | @createFailedOld t ht | @noChild t ht
  | @exit t code ht hp | @detach t ht | @clear t ht | @notLoadedOld t w ht hc
  | @executed t w n ht hc | @failUp t v ht hv | @startUp t v ht hv | @exitUp t v ht hv
  | @wait t c ht hp hc | @execDown t w n v ht hv h0 | @waitDown t c v ht hv h0
  | @releaseNext t o c rest k ht | @releaseChild t o c rest k ht | @executeNew t ht
  | @start t p ht | @link t p ht | @createFailed t ht | @failed t ht | @exitOrphan t ht
  | @notLoaded t w ht | @releasedWait t o v ht | @releasedExecute t o ht | @releasedFailed t o ht
  | @releasedOrphan t o ht | @setStatus t ht | @waitDone t c ht =>
    by_cases hut : u = t
    · subst hut
      simp [standsOn] at hu
      try exact .inr ⟨o, rest, k, hu.2 ▸ ht⟩
    · exact .inl (by simpa [hut] using hu)

theorem steady_step {ks : After → Bool} (hs : Inv s) (hl : Loop s) (hst : Steady ks s)
    {a : ProcAction T} (hok : Undisturbed ks s a) (h : Step s a s') : Steady ks s' := by
  intro u c hu
  have hu := place_of_standsOn (effect_of_step h) hu
  have hlive : ∀ {o rest k}, s.place u = .releasing o (c :: rest) k → s.life c = .live := fun hu =>
    (hl.ahead (t := u) (by rw [hu]; rfl) (by simp [hu, restOf])).2
  have hc : s.Allocated c := by
    obtain hu | ⟨o, rest, k, hu⟩ := hu
    · exact hst u c hu
    · exact .inl (hlive hu)
  obtain hc' | ⟨t, k', rfl, ht⟩ := free_of_step h hc
  · exact hc'
  · obtain hu | ⟨o, rest, k, hu⟩ := hu
    · exact absurd hu (hok c (by simp [ht, frees]) u)
    · have hlc' := (hs.acts.releases (t := t) (o := c) (by rw [ht]; rfl)).1
      simp [hlive hu] at hlc'

theorem wait_start (h : Init s) : (Whole s ∧ Records s) ∧ Steady isWait s := by
  refine ⟨⟨whole.start h, records_start h⟩, fun t c ht => ?_⟩
  obtain ⟨main, hm⟩ := h.place
  by_cases htm : t = main <;> simp [hm, htm, standsOn] at ht

theorem wait_reachable (h : Reachable Init (Guarded (Undisturbed isWait) Step) s) :
    (Whole s ∧ Records s) ∧ Steady isWait s :=
  h.of_invariant (Invariant.guarded
    ⟨fun h => (wait_start h).1, fun ⟨hw, hr⟩ h =>
      ⟨whole.step hw h, records_step hw.1 hr (effect_of_step h)⟩⟩
    (fun h => (wait_start h).2) fun ⟨hw, _⟩ hst hok h => steady_step hw.1 hw.2 hst hok h)

/-- A wait that stands on what is freed reads from it. -/
theorem undisturbed_of_protocol {a : ProcAction T} (h : Step s a s') (hp : Protocol s') :
    Undisturbed isWait s a := by
  cases a with
  | run t =>
    intro o ho u hu
    obtain ⟨k, ht⟩ := frees_eq ho
    obtain ⟨p, rest, v, hpu⟩ := standsOn_isWait hu
    have hut : u ≠ t := fun h => by simp [← h, hpu] at ht
    have hf : s'.life o = .freed := by
      have ha := h.2
      simp only [act, runThread, ht, endRelease] at ha
      split at ha
      · cases k <;> cases ha <;> simp
      · cases ha
    obtain ⟨s'', hs'', -⟩ := hp.next ((place_of_run h.2 hut).trans hpu)
    rw [← place_of_run h.2 hut] at hpu
    simp [act, runThread, hpu, Sys.Allocated, hf] at hs''
  | _ => trivial

/-- **`process_wait`, `process_execute` and `process_exit`.** In every run in which no process frees its
`struct process_info` while the loop of a `process_wait` stands on it, a `process_wait` keeps to the protocol;
and a step that does so leaves the protocol. -/
theorem process_wait_runs :
    (∀ s : Sys T, Reachable Init (Guarded (Undisturbed isWait) Step) s → Protocol s) ∧
    ∀ (s s' : Sys T) (a : ProcAction T), Reachable Init (Guarded (Undisturbed isWait) Step) s →
      Step s a s' → (Protocol s' ↔ Undisturbed isWait s a) := by
  have hp : ∀ s : Sys T, Reachable Init (Guarded (Undisturbed isWait) Step) s → Protocol s := by
    intro s h
    obtain ⟨⟨hw, hr⟩, hst⟩ := wait_reachable h
    exact protocol hw.1 hw.2 hr hst
  exact ⟨hp, fun s s' a h hs => ⟨undisturbed_of_protocol hs, fun hok => hp s' (h.step ⟨hok, hs⟩)⟩⟩

/-! ### Runs -/

instance [Fintype T] (ks : After → Bool) (s : Sys T) :
    (a : ProcAction T) → Decidable (Undisturbed ks s a)
  | .run t => inferInstanceAs (Decidable (∀ o ∈ frees (s.place t), _))
  | .execute _ | .executeFails _ | .create _ _ | .createFails _ | .load _ | .loadFails _
  | .wait _ _ | .exit _ _ | .threadExit _ | .activate _ => isTrue trivial

/-- The main thread waits for a process that has left a child, and the child exits meanwhile. -/
def orphanInLoop (main t u : T) : List (ProcAction T) :=
  exec main t ++ exec t u ++ exitWith t 7 ++ [.wait main 2, .run main, .run main, .run main] ++
  [.exit u 0, .run u, .run u]

/-- The main thread begins to wait for a process before it exits. -/
def waitThenExit (main t : T) : List (ProcAction T) :=
  exec main t ++ [.wait main 2] ++ exitWith t 7 ++ [.run main, .run main, .run main]

/-- The wait for the exited process goes on with what has been freed, and does not return. -/
theorem wait_uses_freed : ¬ ∀ s : Sys (Fin 3), Reachable Init Step s → Protocol s := by
  have h : ((orphanInLoop (0 : Fin 3) 1 2).foldlM next (initial 0)).map (fun s => (s.place 0, s.life 2)) =
      some (.stepping 1 2 [] (.wait 7), .freed) := by
    decide +kernel
  obtain ⟨s, hs, h⟩ := Option.map_eq_some_iff.mp h
  simp only [Prod.mk.injEq] at h
  intro hall
  have hr : Reachable Init Step s := .of_foldlM step_of_next _ (.start (init_initial 0)) hs
  obtain ⟨s', hs', -⟩ := (hall s hr).next h.1
  simp [act, runThread, h, Sys.Allocated] at hs'

/-- The main thread waits for a child that exits with 7, and the wait returns 7. -/
theorem process_wait_runs_exit :
    ∃ s : Sys (Fin 2), Protocol s ∧ s.returned = some (0, .exitCode 1 7) ∧ s.stored 1 = some 7 := by
  have h : ((waitThenExit (0 : Fin 2) 1).foldlM
      (fun s a => if Undisturbed isWait s a then next s a else none) (initial (0 : Fin 2))).map
      (fun s => s.returned) = some (some (0, .exitCode 1 7)) := by
    decide +kernel
  obtain ⟨s, hs, h⟩ := Option.map_eq_some_iff.mp h
  have hr : Reachable Init (Guarded (Undisturbed isWait) Step) s := by
    refine .of_foldlM (fun h => ?_) _ (.start (init_initial 0)) hs
    split at h
    · exact ⟨‹_›, step_of_next h⟩
    · cases h
  have hp := process_wait_runs.1 s hr
  exact ⟨s, hp, h, (hp.returned h).2.1⟩

end Pintos.Userprog.WaitProtocol
