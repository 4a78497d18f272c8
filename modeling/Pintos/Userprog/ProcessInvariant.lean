import Pintos.Userprog.Processes

/-! # What holds between processes

The invariant of the processes: where a thread is says what has become of its `struct process_info`, the list
of a process holds the children that have linked themselves and have not been waited for, and the value of a
child's semaphore is the number of its `sema_up`s less the number of its creator's `sema_down`s. -/

namespace Pintos.Userprog.ProcessInvariant

open Pintos.Lib.Runs Pintos.Userprog.Processes

variable {T : Type*}

/-! ### What a place says -/

/-- The process of the place is releasing `owner`, with this to follow. -/
def releaseOf : Place T → Option (T × After)
  | .releasing owner _ k | .stepping owner _ _ k => some (owner, k)
  | .unborn | .user | .creating _ | .execDown _ _ | .execDowned _ _ | .starting _ | .loading
  | .failing | .failed | .loaded | .linked | .waiting _ | .waited _ | .exiting | .exitingChild
  | .statusSet | .detached | .orphaned | .dead => none

/-- The children that a release has still to look at. -/
def restOf : Place T → List T
  | .releasing _ rest _ | .stepping _ _ rest _ => rest
  | .unborn | .user | .creating _ | .execDown _ _ | .execDowned _ _ | .starting _ | .loading
  | .failing | .failed | .loaded | .linked | .waiting _ | .waited _ | .exiting | .exitingChild
  | .statusSet | .detached | .orphaned | .dead => []

/-- The child that `process_execute` is about. -/
def execChild : Place T → Option T
  | .execDown u _ | .execDowned u _ => some u
  | .unborn | .user | .creating _ | .starting _ | .loading | .failing | .failed | .loaded | .linked
  | .waiting _ | .waited _ | .releasing _ _ _ | .stepping _ _ _ _ | .exiting | .exitingChild
  | .statusSet | .detached | .orphaned | .dead => none

/-- The child whose semaphore `process_execute` is about to put down. -/
def execDownChild : Place T → Option T
  | .execDown u _ => some u
  | .unborn | .user | .creating _ | .execDowned _ _ | .starting _ | .loading | .failing | .failed
  | .loaded | .linked | .waiting _ | .waited _ | .releasing _ _ _ | .stepping _ _ _ _ | .exiting
  | .exitingChild | .statusSet | .detached | .orphaned | .dead => none

/-- The child that `process_wait` is about. -/
def waitChild : Place T → Option T
  | .waiting c | .waited c => some c
  | .unborn | .user | .creating _ | .execDown _ _ | .execDowned _ _ | .starting _ | .loading
  | .failing | .failed | .loaded | .linked | .releasing _ _ _ | .stepping _ _ _ _ | .exiting
  | .exitingChild | .statusSet | .detached | .orphaned | .dead => none

/-- How often a created thread has put its semaphore up. -/
def ups : Place T → ProcessStatus → ℕ
  | .unborn, _ | .starting _, _ | .loading, _ | .failing, _ | .loaded, _ | .linked, _ => 0
  | .dead, status => if status = .exited then 2 else 1
  | .user, _ | .creating _, _ | .execDown _ _, _ | .execDowned _ _, _ | .failed, _ | .waiting _, _
  | .waited _, _ | .releasing _ _ _, _ | .stepping _ _ _ _, _ | .exiting, _ | .exitingChild, _
  | .statusSet, _ | .detached, _ | .orphaned, _ => 1

section

variable [DecidableEq T]

/-- How often its creator, there, has put it down. -/
def downs (u : T) : Place T → ℕ
  | .execDown c _ => if c = u then 0 else 1
  | .waited c => if c = u then 2 else 1
  | .unborn | .user | .creating _ | .execDowned _ _ | .starting _ | .loading | .failing | .failed
  | .loaded | .linked | .waiting _ | .releasing _ _ _ | .stepping _ _ _ _ | .exiting
  | .exitingChild | .statusSet | .detached | .orphaned | .dead => 1

end

/-! ### The invariant -/

/-- A thread and its own `struct process_info`. -/
structure View (T : Type*) where
  place : Place T
  creator : Option T
  life : Life
  processInfo : Bool
  sema : Bool
  status : ProcessStatus
  parentPi : Option T
  childPi : Bool
  onList : Bool
  reaped : Bool

def view (s : Sys T) (u : T) : View T where
  place := s.place u
  creator := s.creator u
  life := s.life u
  processInfo := s.processInfo u
  sema := s.sema u
  status := s.status u
  parentPi := s.parentPi u
  childPi := s.childPi u
  onList := s.onList u
  reaped := s.reaped u

/-- The thread runs with its `struct process_info`; the flag is that of `process_execute`. -/
def Runs (v : View T) (newPi : Bool) : Prop :=
  v.processInfo = (!newPi) ∧ v.life = .live ∧ v.status = .running ∧ v.reaped = false ∧
  (v.creator = none ∧ v.sema = false ∧ v.parentPi = none ∨
    v.creator ≠ none ∧ v.sema = true ∧ v.onList = true ∧ v.childPi = true ∧ newPi = false)

/-- The thread has been created and is not on its creator's list yet. -/
def Fresh (v : View T) : Prop :=
  v.creator ≠ none ∧ v.onList = false ∧ v.reaped = false ∧ v.processInfo = false

/-- The thread has set `PROCESS_EXITED`. -/
def Exited (v : View T) : Prop :=
  v.creator ≠ none ∧ v.onList = true ∧ v.childPi = true ∧ v.status = .exited

/-- The thread leaves by itself, without having set `PROCESS_EXITED`. -/
def Leaves (v : View T) : Prop :=
  v.reaped = false ∧ (v.creator ≠ none → v.status = .running ∧ (v.childPi = true ↔ v.onList = true))

/-- **What holds of one thread by itself**, by where it is. -/
def Own (v : View T) : Prop :=
  match v.place with
  | .unborn => v.creator = none ∧ v.onList = false ∧ v.reaped = false ∧ v.processInfo = false ∧
    v.life = .unborn
  | .starting p => Fresh v ∧ v.creator = some p ∧ v.life = .unborn
  | .loading | .loaded => Fresh v ∧ v.parentPi = v.creator ∧ v.life = .live ∧ v.sema = true ∧
    v.status = .running
  | .failing => Fresh v ∧ v.life = .live ∧ v.status = .running
  | .failed => Fresh v ∧ v.life = .live ∧ v.status = .running ∧ v.childPi = false
  | .linked => v.creator ≠ none ∧ v.onList = true ∧ v.reaped = false ∧ v.processInfo = true ∧
    v.life = .live ∧ v.sema = true ∧ v.status = .running
  | .user => Runs v false ∨ v.processInfo = false ∧ v.creator = none ∧ v.reaped = false ∧
    (v.life = .unborn ∨ v.life = .freed)
  | .creating n | .execDown _ n | .execDowned _ n => Runs v n
  | .waiting _ | .waited _ | .exiting => Runs v false
  | .releasing _ _ k | .stepping _ _ _ k =>
    match k with
    | .wait _ => Runs v false
    | .execute => v.creator = none ∧ v.processInfo = false ∧ v.reaped = false ∧ v.life = .releasing
    | .failed => Fresh v ∧ v.life = .releasing ∧ v.status = .running ∧ v.childPi = false
    | .orphan => Leaves v ∧ v.processInfo = true ∧ v.life = .releasing ∧
      (v.creator ≠ none → v.onList = true)
  | .exitingChild => Runs v false ∧ v.creator ≠ none
  | .statusSet => Exited v ∧ v.reaped = false ∧ v.processInfo = true ∧ v.life = .live ∧ v.sema = true
  | .detached => Exited v ∧ v.reaped = false ∧ v.processInfo = false ∧ v.life = .live ∧ v.sema = true
  | .orphaned => Leaves v ∧ v.processInfo = true ∧ v.life = .freed ∧ (v.creator ≠ none → v.onList = true)
  | .dead => v.processInfo = false ∧
    (Exited v ∧ (v.life = .live ∧ v.reaped = false ∧ v.sema = true ∨
      (v.life = .releasing ∨ v.life = .freed) ∧ v.reaped = true) ∨
    Leaves v ∧ (v.life = .freed ∨ v.creator = none ∧ v.life = .unborn))

/-- A thread and what it does to others. -/
structure Acts (s : Sys T) : Prop where
  born : ∀ {c p}, s.creator c = some p → s.place p ≠ .unborn
  executing : ∀ {t u}, execChild (s.place t) = some u → s.creator u = some t ∧ s.reaped u = false
  waiting : ∀ {t c}, waitChild (s.place t) = some c →
    s.creator c = some t ∧ s.onList c = true ∧ s.reaped c = false
  waited : ∀ {t c}, s.place t = .waited c → s.place c = .dead
  releases : ∀ {t o k}, releaseOf (s.place t) = some (o, k) → s.life o = .releasing ∧
    ((∀ v, k ≠ .wait v) → o = t) ∧ ∀ v, k = .wait v → s.creator o = some t ∧ s.reaped o = true
  rest : ∀ {t o k c}, releaseOf (s.place t) = some (o, k) → c ∈ restOf (s.place t) →
    s.creator c = some o ∧ s.onList c = true ∧ s.reaped c = false

variable [DecidableEq T]

/-- A process and its children. -/
structure Family (s : Sys T) : Prop where
  mem : ∀ {p c}, c ∈ s.childrenPi p ↔
    s.creator c = some p ∧ s.onList c = true ∧ s.reaped c = false
  nodup : ∀ p, (s.childrenPi p).Nodup
  withInfo : ∀ {t c}, s.creator c = some t → s.onList c = true → s.processInfo t = true ∨
    execChild (s.place t) = some c ∨ s.place t = .detached ∨ s.place t = .dead
  parent : ∀ {p c}, s.creator c = some p → s.onList c = true → s.reaped c = false →
    s.life p = .live → s.parentPi c = some p ∧ s.life c = .live
  early : ∀ {u p}, s.creator u = some p → ups (s.place u) (s.status u) = 0 →
    execDownChild (s.place p) = some u
  value : ∀ {u t}, s.creator u = some t →
    (s.life u = .live ∧ s.onList u = true) ∨ execChild (s.place t) = some u →
    ∃ v, s.value u = some v ∧ v + downs u (s.place t) = ups (s.place u) (s.status u)

structure Inv (s : Sys T) : Prop where
  own : ∀ u, Own (view s u)
  acts : Acts s
  family : Family s

variable {s s' : Sys T}

omit [DecidableEq T] in
/-- A step of one thread that changes no other one. -/
theorem own_move {t u : T} (ho : ∀ u, Own (view s u)) (hs : ∀ u, u ≠ t → view s' u = view s u)
    (ht : Own (view s t) → Own (view s' t)) : Own (view s' u) := by
  by_cases hu : u = t
  · subst hu
    exact ht (ho u)
  · rw [hs u hu]
    exact ho u

omit [DecidableEq T] in
/-- A step of one thread that changes another one. -/
theorem own_moves {t c u : T} (ho : ∀ u, Own (view s u))
    (hs : ∀ u, u ≠ t → u ≠ c → view s' u = view s u) (hc : c ≠ t → Own (view s c) → Own (view s' c))
    (ht : Own (view s t) → Own (view s' t)) : Own (view s' u) := by
  by_cases hu : u = t
  · subst hu
    exact ht (ho u)
  · by_cases huc : u = c
    · subst huc
      exact hc hu (ho u)
    · rw [hs u hu huc]
      exact ho u

omit [DecidableEq T] in
/-- A process that has been waited for is dead. -/
theorem Own.of_reaped {v : View T} (ho : Own v) (hr : v.reaped = true) :
    v.place = .dead ∧ Exited v ∧ (v.life = .releasing ∨ v.life = .freed) := by
  unfold Own at ho
  split at ho <;> grind [Runs, Fresh, Exited, Leaves]

theorem own_step (hs : Inv s) (h : Effect s s') (u : T) : Own (view s' u) := by
  obtain ⟨ho, ha, hf⟩ := hs
  cases h with
  | activate => exact ho u
  | @execute t ht hp | @threadExit t ht hp | @threadDies t ht hp | @load t ht | @loadFailed t ht
  | @wait t c ht hp hc | @releaseNext t o c rest k ht | @exitChild t p ht hp | @executeFailed t ht
  | @createFailedOld t ht | @noChild t ht | @executeNew t ht hp | @start t p ht
  | @execDown t w n v ht hv h0 | @waitDown t c v ht hv h0 | @executed t w n ht hc
  | @notLoadedOld t w ht hc | @failUp t v ht hv | @startUp t v ht hv | @exitUp t v ht hv
  | @link t p ht hp | @exit t code ht hp | @setStatus t ht | @detach t ht | @clear t ht
  | @createFailed t ht hl | @failed t ht hl | @exitOrphan t ht hp hl | @notLoaded t w ht hc hl =>
    refine own_move (t := t) ho (fun u hne => by simp [view, hne]) fun ho => ?_
    simp only [Own, view, ht, Sys.move, Sys.return, Sys.setValue, Sys.allocate, Sys.release,
      Function.update_self] at ho ⊢
    grind [Runs, Fresh, Exited, Leaves]
  | @create t w n ht hu =>
    refine own_moves (t := t) (c := w) ho (fun u hne hnw => by simp [view, hne, hnw])
      (fun hwt ho => ?_) fun ho => ?_
    · simp only [Own, view, hu, Sys.move, Function.update_self, Function.update_of_ne hwt] at ho ⊢
      grind [Fresh]
    · have hwt : t ≠ w := fun h => by simp [← h, ht] at hu
      simp only [Own, view, ht, Sys.move, Function.update_self, Function.update_of_ne hwt] at ho ⊢
      exact ho
  | @waitDone t c ht hl hs =>
    have hc := ha.waited ht
    refine own_moves (t := t) (c := c) ho (fun u hne hnc => by simp [view, hne, hnc])
      (fun hct ho => ?_) fun ho => ?_
    · simp only [Own, view, hc, hl, hs, Sys.release, Function.update_self,
        Function.update_of_ne hct] at ho ⊢
      grind [Exited, Leaves]
    · have hct : t ≠ c := fun h => by simp [← h, ht] at hc
      simp only [Own, view, ht, Sys.release, Function.update_self,
        Function.update_of_ne hct] at ho ⊢
      exact ho
  | @releaseChild t o c rest k ht =>
    obtain ⟨-, hc, -⟩ := ha.rest (t := t) (c := c) (by rw [ht]; rfl) (by simp [ht, restOf])
    refine own_moves (t := t) (c := c) ho (fun u hne hnc => by simp [view, hne, hnc])
      (fun hct ho => ?_) fun ho => ?_
    · simp only [Own, view, Sys.move, Function.update_self, Function.update_of_ne hct] at ho ⊢
      cases hp : s.place c <;> simp only [hp] at ho ⊢ <;> grind [Runs, Fresh, Leaves, Exited]
    · simp only [Own, view, ht, Sys.move, Function.update_self] at ho ⊢
      grind [Runs, Fresh, Leaves]
  | @releasedWait t o v ht hl =>
    obtain ⟨-, -, hw⟩ := ha.releases (t := t) (by rw [ht]; rfl)
    obtain ⟨hd, hex, -⟩ := (ho o).of_reaped (hw v rfl).2
    have hd : s.place o = .dead := hd
    refine own_moves (t := t) (c := o) ho (fun u hne hno => by simp [view, hne, hno])
      (fun hot ho => ?_) fun ho => ?_
    · simp only [Own, view, hd, Sys.return, Sys.move, Function.update_self,
        Function.update_of_ne hot] at ho ⊢
      grind [Leaves, Exited]
    · have hot : t ≠ o := fun h => by simp [← h, ht] at hd
      simp only [Own, view, ht, Sys.return, Sys.move, Function.update_self,
        Function.update_of_ne hot] at ho ⊢
      exact .inl ho
  | @releasedExecute t o ht hl | @releasedFailed t o ht hl | @releasedOrphan t o ht hl =>
    obtain ⟨-, ho', -⟩ := ha.releases (t := t) (by rw [ht]; rfl)
    obtain rfl := ho' (by simp)
    refine own_move (t := o) ho (fun u hne => by simp [view, hne]) fun ho => ?_
    simp only [Own, view, ht, Sys.return, Sys.move, Function.update_self] at ho ⊢
    grind [Fresh, Leaves]

/-- What the new place of a thread must promise. -/
structure Moves (s : Sys T) (t : T) (p : Place T) : Prop where
  born : p ≠ .unborn
  executing : ∀ {u}, execChild p = some u → s.creator u = some t ∧ s.reaped u = false
  waiting : ∀ {c}, waitChild p = some c →
    s.creator c = some t ∧ s.onList c = true ∧ s.reaped c = false
  waited : ∀ {c}, p = .waited c → s.place c = .dead
  releases : ∀ {o k}, releaseOf p = some (o, k) → s.life o = .releasing ∧
    ((∀ v, k ≠ .wait v) → o = t) ∧ ∀ v, k = .wait v → s.creator o = some t ∧ s.reaped o = true
  rest : ∀ {o k c}, releaseOf p = some (o, k) → c ∈ restOf p →
    s.creator c = some o ∧ s.onList c = true ∧ s.reaped c = false

/-- What may change around a thread that moves. -/
structure Around (s s' : Sys T) (t : T) : Prop where
  alive : s.place t ≠ .dead
  place : ∀ u, u ≠ t → s'.place u = s.place u ∨ s.place u = .unborn ∧ ∃ p, s'.place u = .starting p
  creator : ∀ c p, s'.creator c = some p → s.creator c = some p ∨ p = t
  created : ∀ c p, s.creator c = some p → s'.creator c = some p
  onList : ∀ c, s.onList c = true → s'.onList c = true
  reaped : ∀ c, s.reaped c = true → s'.reaped c = true
  executing : ∀ u c, u ≠ t → execChild (s.place u) = some c → s'.reaped c = s.reaped c
  waiting : ∀ u c, u ≠ t → waitChild (s.place u) = some c → s'.reaped c = s.reaped c
  releases : ∀ u o k, u ≠ t → releaseOf (s.place u) = some (o, k) → s'.life o = s.life o
  rest : ∀ u c, u ≠ t → c ∈ restOf (s.place u) → s'.reaped c = s.reaped c

omit [DecidableEq T] in
theorem Acts.around {t : T} (ha : Acts s) (hx : Around s s' t) (hm : Moves s' t (s'.place t)) :
    Acts s' := by
  have hpl : ∀ {u}, u ≠ t → s'.place u ≠ s.place u → ∃ p, s'.place u = .starting p :=
    fun {u} hu hne => (hx.place u hu).elim (absurd · hne) And.right
  constructor
  · intro c p hc
    by_cases hp : p = t
    · exact hp ▸ hm.born
    · have hb := ha.born ((hx.creator c p hc).resolve_right hp)
      obtain h | ⟨h, -⟩ := hx.place p hp
      · rwa [h]
      · exact absurd h hb
  · intro u c hc
    by_cases hu : u = t
    · subst u
      exact hm.executing hc
    · obtain h | ⟨-, p, h⟩ := hx.place u hu
      · rw [h] at hc
        obtain ⟨h1, h2⟩ := ha.executing hc
        exact ⟨hx.created _ _ h1, (hx.executing u c hu hc).trans h2⟩
      · simp [h, execChild] at hc
  · intro u c hc
    by_cases hu : u = t
    · subst u
      exact hm.waiting hc
    · obtain h | ⟨-, p, h⟩ := hx.place u hu
      · rw [h] at hc
        obtain ⟨h1, h2, h3⟩ := ha.waiting hc
        exact ⟨hx.created _ _ h1, hx.onList _ h2, (hx.waiting u c hu hc).trans h3⟩
      · simp [h, waitChild] at hc
  · intro u c hc
    by_cases hu : u = t
    · subst u
      exact hm.waited hc
    · obtain h | ⟨-, p, h⟩ := hx.place u hu
      · rw [h] at hc
        have hd := ha.waited hc
        have hct : c ≠ t := fun h => hx.alive (h ▸ hd)
        obtain h | ⟨h, -⟩ := hx.place c hct
        · rw [h, hd]
        · simp [hd] at h
      · simp [h] at hc
  · intro u o k hk
    by_cases hu : u = t
    · subst u
      exact hm.releases hk
    · obtain h | ⟨-, p, h⟩ := hx.place u hu
      · rw [h] at hk
        obtain ⟨h1, h2, h3⟩ := ha.releases hk
        exact ⟨(hx.releases u o k hu hk).trans h1, h2, fun v hv =>
          ⟨hx.created _ _ (h3 v hv).1, hx.reaped _ (h3 v hv).2⟩⟩
      · simp [h, releaseOf] at hk
  · intro u o k c hk hc
    by_cases hu : u = t
    · subst u
      exact hm.rest hk hc
    · obtain h | ⟨-, p, h⟩ := hx.place u hu
      · rw [h] at hk hc
        obtain ⟨h1, h2, h3⟩ := ha.rest hk hc
        exact ⟨hx.created _ _ h1, hx.onList _ h2, (hx.rest u c hu hc).trans h3⟩
      · simp [h, restOf] at hc

/-- A thread that does not deal with another one at its new place. -/
def Quiet (p : Place T) : Prop :=
  p ≠ .unborn ∧ execChild p = none ∧ waitChild p = none ∧ releaseOf p = none

omit [DecidableEq T] in
theorem Quiet.moves {p : Place T} (hp : Quiet p) (s : Sys T) (t : T) : Moves s t p := by
  obtain ⟨hb, he, hw, hr⟩ := hp
  refine ⟨hb, fun h => ?_, fun h => ?_, fun h => ?_, fun h => ?_, fun h => ?_⟩
  · simp [he] at h
  · simp [hw] at h
  · simp [h, waitChild] at hw
  · simp [hr] at h
  · simp [hr] at h

theorem Around.of_eq {t : T} {p : Place T} (ht : s.place t ≠ .dead)
    (hpl : s'.place = Function.update s.place t p) (hcr : s'.creator = s.creator)
    (hon : s'.onList = s.onList) (hre : s'.reaped = s.reaped) (hli : s'.life = s.life) :
    Around s s' t where
  alive := ht
  place u hu := .inl (by rw [hpl, Function.update_of_ne hu])
  creator c p h := .inl (by rwa [hcr] at h)
  created c p h := by rwa [hcr]
  onList c h := by rwa [hon]
  reaped c h := by rwa [hre]
  executing u c _ _ := by rw [hre]
  waiting u c _ _ := by rw [hre]
  releases u o k _ _ := by rw [hli]
  rest u c _ _ := by rw [hre]

theorem Acts.move {t : T} {p : Place T} (ha : Acts s) (ht : s.place t ≠ .dead)
    (hpl : s'.place = Function.update s.place t p) (hcr : s'.creator = s.creator)
    (hon : s'.onList = s.onList) (hre : s'.reaped = s.reaped) (hli : s'.life = s.life)
    (hm : Moves s' t p) : Acts s' := by
  refine ha.around (.of_eq ht hpl hcr hon hre hli) ?_
  rwa [hpl, Function.update_self]

omit [DecidableEq T] in
theorem ups_eq_two {p : Place T} {st : ProcessStatus} : 2 ≤ ups p st ↔ p = .dead ∧ st = .exited := by
  cases p <;> cases st <;> simp [ups]

/-- A thread that deals with a child has its own `struct process_info`. -/
theorem Inv.live_of_child (hs : Inv s) {t c : T}
    (ht : execChild (s.place t) = some c ∨ waitChild (s.place t) = some c) : s.life t = .live := by
  have ho := hs.own t
  simp only [Own, view] at ho
  cases hp : s.place t <;> simp only [hp, execChild, waitChild, reduceCtorEq, or_self] at ht ho <;>
    exact ho.2.1

/-- A thread in `process_wait`, and the child. -/
theorem Inv.wait_child (hs : Inv s) {t c : T} (ht : waitChild (s.place t) = some c) :
    s.parentPi c = some t ∧ s.life c = .live ∧
      ∃ v, s.value c = some v ∧ v + downs c (s.place t) = ups (s.place c) (s.status c) := by
  obtain ⟨hc, hl, hr⟩ := hs.acts.waiting ht
  obtain ⟨hp, hcl⟩ := hs.family.parent hc hl hr (hs.live_of_child (.inr ht))
  exact ⟨hp, hcl, hs.family.value hc (.inl ⟨hcl, hl⟩)⟩

/-- The semaphore on which a `process_wait` goes down is up exactly when the child has exited. -/
theorem Inv.waiting_iff (hs : Inv s) {t c : T} (ht : s.place t = .waiting c) :
    ∃ v, s.value c = some v ∧ (v ≠ 0 ↔ s.place c = .dead ∧ s.status c = .exited) := by
  obtain ⟨-, -, v, hv, h⟩ := hs.wait_child (t := t) (c := c) (by rw [ht]; rfl)
  refine ⟨v, hv, ?_⟩
  rw [← ups_eq_two, ← h, ht, downs]
  omega

omit [DecidableEq T] in
/-- A process in `process_info_release` releases what nobody else does. -/
theorem release_unique (hown : ∀ u, Own (view s u)) (ha : Acts s) {t u o : T} {k k' : After}
    (ht : releaseOf (s.place t) = some (o, k)) (hu : releaseOf (s.place u) = some (o, k')) :
    u = t := by
  have hw : ∀ {t k}, releaseOf (s.place t) = some (o, k) →
      o = t ∧ s.place o ≠ .dead ∨ s.creator o = some t ∧ s.place o = .dead := by
    intro t k h
    obtain ⟨-, h1, h2⟩ := ha.releases h
    by_cases hk : ∃ v, k = .wait v
    · obtain ⟨v, rfl⟩ := hk
      obtain ⟨hc, hr⟩ := h2 v rfl
      exact .inr ⟨hc, ((hown o).of_reaped hr).1⟩
    · obtain rfl := h1 fun v hv => hk ⟨v, hv⟩
      exact .inl ⟨rfl, fun hd => by simp [hd, releaseOf] at h⟩
  obtain ⟨rfl, hd⟩ | ⟨hc, hd⟩ := hw ht
  · obtain ⟨h, -⟩ | ⟨-, h⟩ := hw hu
    · exact h.symm
    · exact absurd h hd
  · obtain ⟨-, h⟩ | ⟨h, -⟩ := hw hu
    · exact absurd hd h
    · exact Option.some.inj (h.symm.trans hc)

omit [DecidableEq T] in
/-- Nobody waits for a process while its creator is released. -/
theorem rest_unwaited (hown : ∀ u, Own (view s u)) (ha : Acts s) {t c : T}
    (ht : s.place t = .waited c) (u : T) : c ∉ restOf (s.place u) := by
  intro hc
  obtain ⟨o, k, hk⟩ : ∃ o k, releaseOf (s.place u) = some (o, k) := by
    cases hp : s.place u <;> simp [hp, restOf, releaseOf] at hc ⊢
  obtain rfl : t = o := by
    have h1 := (ha.waiting (t := t) (c := c) (by rw [ht]; rfl)).1
    exact Option.some.inj (h1.symm.trans (ha.rest hk hc).1)
  -- its own place, and that of a process that has been waited for, are not `waited`
  obtain ⟨-, h1, h2⟩ := ha.releases hk
  by_cases hw : ∃ v, k = .wait v
  · obtain ⟨v, rfl⟩ := hw
    have hd := ((hown t).of_reaped (h2 v rfl).2).1
    simp [view, ht] at hd
  · obtain rfl := h1 fun v hv => hw ⟨v, hv⟩
    simp [ht, releaseOf] at hk

theorem acts_step (hs : Inv s) (h : Effect s s') : Acts s' := by
  have ho := hs.own
  have ha := hs.acts
  have hf := @(hs.family).mem
  have hrel : ∀ {u o k}, releaseOf (s.place u) = some (o, k) → s.life o = .releasing :=
    fun h => (ha.releases h).1
  cases h with
  | activate => exact ⟨ha.born, ha.executing, ha.waiting, ha.waited, ha.releases, ha.rest⟩
  | @execute t ht hp | @threadExit t ht hp | @threadDies t ht hp | @load t ht | @loadFailed t ht
  | @exitChild t p ht hp | @executeFailed t ht | @createFailedOld t ht | @noChild t ht
  | @exit t code ht hp | @setStatus t ht | @detach t ht | @clear t ht | @notLoadedOld t w ht hc
  | @executed t w n ht hc | @failUp t v ht hv | @startUp t v ht hv | @exitUp t v ht hv =>
    exact ha.move (by simp [ht]) rfl rfl rfl rfl rfl (Quiet.moves ⟨by simp, rfl, rfl, rfl⟩ _ t)
  | @wait t c ht hp hc =>
    refine ha.move (by simp [ht]) rfl rfl rfl rfl rfl ?_
    constructor <;> simp [waitChild, execChild, releaseOf, restOf]
    exact hf.mp hc
  | @execDown t w n v ht hv h0 =>
    have hw := ha.executing (t := t) (u := w) (by rw [ht]; rfl)
    refine ha.move (by simp [ht]) rfl rfl rfl rfl rfl ?_
    constructor <;> simp [hw, execChild, waitChild, releaseOf, restOf]
  | @waitDown t c v ht hv h0 =>
    obtain ⟨v', hv', hd⟩ := hs.waiting_iff ht
    obtain rfl := Option.some.inj (hv.symm.trans hv')
    have hd := (hd.mp h0).1
    have hct : c ≠ t := fun h => by simp [h, ht] at hd
    have hw := ha.waiting (t := t) (c := c) (by rw [ht]; rfl)
    refine ha.move (by simp [ht]) rfl rfl rfl rfl rfl ?_
    constructor <;> simp [hw, hd, hct, execChild, waitChild, releaseOf, restOf]
  | @releaseChild t o c rest k ht | @releaseNext t o c rest k ht =>
    have h5 := ha.releases (t := t) (by rw [ht]; rfl)
    have h6 := fun c' => ha.rest (t := t) (c := c') (by rw [ht]; rfl)
    rw [ht] at h6
    simp only [restOf, List.mem_cons] at h6
    refine ha.move (by simp [ht]) rfl rfl rfl rfl rfl ?_
    constructor <;> simp [execChild, waitChild, releaseOf, restOf] <;> grind
  | @link t p ht hp =>
    refine ha.around (t := t) ?_ ?_
    · constructor <;> simp +contextual [ht, Function.update_apply]
    · rw [Sys.move_place, Function.update_self]
      exact Quiet.moves ⟨by simp, rfl, rfl, rfl⟩ _ t
  | @executeNew t ht hp | @start t p ht =>
    have hl : s.life t ≠ .releasing := by
      have := ho t
      simp only [Own, view, ht] at this
      grind [Runs]
    refine ha.around (t := t) ?_ ?_
    · constructor <;> simp +contextual [ht, Function.update_apply]
      grind
    · rw [Sys.move_place, Function.update_self]
      exact Quiet.moves ⟨by simp, rfl, rfl, rfl⟩ _ t
  | @create t w n ht hu =>
    have hw := ho w
    simp only [Own, view, hu] at hw
    refine ha.around (t := t) ?_ ?_
    · constructor <;> simp +contextual [ht, Function.update_apply] <;> grind
    · constructor <;> simp [hw, execChild, waitChild, releaseOf, restOf]
  | @createFailed t ht hl | @failed t ht hl | @exitOrphan t ht hp hl | @notLoaded t w ht hc hl =>
    refine ha.around (t := t) ?_ ?_
    · constructor <;> simp +contextual [ht, Function.update_apply]
      grind
    · constructor <;> simp [execChild, waitChild, releaseOf, restOf]
      grind
  | @waitDone t c ht hl hs' =>
    have hw := ha.waiting (t := t) (c := c) (by rw [ht]; rfl)
    have hwu := fun {u} => ha.waiting (t := u) (c := c)
    have heu := fun {u} => ha.executing (t := u) (u := c)
    have hru := rest_unwaited ho ha ht
    have hd := ha.waited ht
    have hct : c ≠ t := fun h => by simp [h, ht] at hd
    refine ha.around (t := t) ?_ ?_
    · constructor <;> simp +contextual [ht, Function.update_apply] <;> grind
    · constructor <;> simp [hw, execChild, waitChild, releaseOf, restOf]
      grind
  | @releasedWait t o v ht hl | @releasedExecute t o ht hl | @releasedFailed t o ht hl
  | @releasedOrphan t o ht hl =>
    have hru := fun u k' => @release_unique _ _ ho ha t u o _ k' (by rw [ht]; rfl)
    refine ha.around (t := t) ?_ ?_
    · constructor <;> simp +contextual [ht, Function.update_apply]
      grind
    · simp only [Sys.return_place, Sys.move_place, Function.update_self]
      exact Quiet.moves ⟨by simp, rfl, rfl, rfl⟩ _ t

end Pintos.Userprog.ProcessInvariant
