import Pintos.Threads.MutualExclusion

/-! # What `cond_signal` wakes

`cond_wait` puts its element on the list of the condition before it blocks on the semaphore of the element.
The comparison of `cond_signal` reads the first waiter of that semaphore, which is not there while the thread
is still in between. -/

namespace Pintos.Threads.CondSignal

open Pintos.Lib.Runs Pintos.Threads.Monitor
open Pintos.Threads.Donation (listMax listMax_mem le_listMax)
open Pintos.Threads.Semaphore (Sema semaInit unsignedSize)

variable {T L C : Type*} {s s' : Sys T L C} {t u e : T} {l : L} {c : C}

/-- Where a thread is in `cond_wait`, as far as the condition is concerned. -/
inductive Stage (C : Type*)
  | out
  /-- On the way from `list_push_back` to `sema_down`. -/
  | entering (cond : C)
  | asleep (cond : C)
  | woken (cond : C)

def stageOf : Place L C → Stage C
  | .listed c | .released _ (some c) | .window c => .entering c
  | .asleep c => .asleep c
  | .woken c => .woken c
  | _ => .out

/-- The waiters of the semaphores of locks are blocked there. -/
structure Queued (s : Sys T L C) : Prop where
  place : ∀ {t l}, t ∈ (s.semaphore l).waiters → s.place t = .waiting l
  nodup : ∀ l, (s.semaphore l).waiters.Nodup

/-- The lists of the conditions and the private semaphores. -/
structure Listed (s : Sys T L C) : Prop where
  nodup : ∀ c, (s.waiters c).Nodup
  member : ∀ {t c}, t ∈ s.waiters c → stageOf (s.place t) = .entering c ∨ stageOf (s.place t) = .asleep c
  value : ∀ {t c}, t ∈ s.waiters c → (s.waiter t).value = 0
  entering : ∀ {t c}, stageOf (s.place t) = .entering c → t ∈ s.waiters c ∨ (s.waiter t).value ≠ 0
  asleep : ∀ {t c}, stageOf (s.place t) = .asleep c → t ∈ s.waiters c ∧ (s.waiter t).waiters = [t]
  awake : ∀ {t}, (∀ c, stageOf (s.place t) ≠ .asleep c) → (s.waiter t).waiters = []
  woken : ∀ {t c}, stageOf (s.place t) = .woken c → (s.waiter t).value ≠ 0

theorem stageOf_eq_asleep {p : Place L C} : stageOf p = .asleep c ↔ p = .asleep c := by
  cases p with
  | released l cond => cases cond <;> simp [stageOf]
  | _ => simp [stageOf]

/-- The private semaphore of a listed thread has a waiter if and only if the thread is asleep. -/
theorem Listed.waiters_ne_nil_iff (hs : Listed s) (ht : t ∈ s.waiters c) :
    (s.waiter t).waiters ≠ [] ↔ s.place t = .asleep c := by
  rw [← stageOf_eq_asleep]
  constructor
  · intro hne
    rcases hs.member ht with he | he
    · exact absurd (hs.awake fun c' hc => by simp [he] at hc) hne
    · exact he
  · intro he
    rw [(hs.asleep he).2]
    simp

/-- A step that touches no condition and leaves every thread in its stage. -/
theorem Listed.frame (hs : Listed s) (hw : s'.waiters = s.waiters) (hp : s'.waiter = s.waiter)
    (hst : ∀ t, stageOf (s'.place t) = stageOf (s.place t)) : Listed s' := by
  obtain ⟨h1, h2, h3, h4, h5, h6, h7⟩ := hs
  constructor <;> simpa only [hw, hp, hst]

variable [DecidableEq T]

theorem stage_move {p : Place L C} (hp : stageOf p = stageOf (s.place t)) (u : T) :
    stageOf ((s.move t p).place u) = stageOf (s.place u) := by
  rw [move_place]
  split
  · rename_i hut
    rw [hp, hut]
  · rfl

theorem Listed.move (hs : Listed s) {p : Place L C} (hp : stageOf p = stageOf (s.place t)) :
    Listed (s.move t p) :=
  hs.frame rfl rfl (stage_move hp)

variable [DecidableEq C]

theorem listed_condWait (hs : Listed s) (ht : s.place t = .idle) :
    Listed ({ s with
      waiter := Function.update s.waiter t (semaInit 0)
      waiters := Function.update s.waiters c (s.waiters c ++ [t]) }.move t (.listed c)) := by
  have hst : stageOf (s.place t) = .out := by rw [ht]; rfl
  obtain ⟨h1, h2, h3, h4, h5, h6, h7⟩ := hs
  constructor <;> grind [stageOf, semaInit, List.nodup_append]

omit [DecidableEq C] in
theorem listed_slept (hs : Listed s) (ht : s.place t = .window c ∨ s.place t = .woken c)
    (hv : (s.waiter t).value = 0) :
    Listed ({ s with
      waiter := Function.update s.waiter t
        { s.waiter t with waiters := (s.waiter t).waiters ++ [t] } }.move t (.asleep c)) := by
  have hst : stageOf (s.place t) = .entering c ∨ stageOf (s.place t) = .woken c := by
    rcases ht with ht | ht <;> simp [ht, stageOf]
  obtain ⟨h1, h2, h3, h4, h5, h6, h7⟩ := hs
  constructor <;> grind [stageOf]

omit [DecidableEq C] in
theorem listed_waited (hs : Listed s) {l : L} (ht : s.place t = .window c ∨ s.place t = .woken c)
    (hv : (s.waiter t).value ≠ 0) :
    Listed ({ s with
      waiter := Function.update s.waiter t
        { s.waiter t with value := (s.waiter t).value - 1 } }.move t (.downing l)) := by
  have hst : stageOf (s.place t) = .entering c ∨ stageOf (s.place t) = .woken c := by
    rcases ht with ht | ht <;> simp [ht, stageOf]
  obtain ⟨h1, h2, h3, h4, h5, h6, h7⟩ := hs
  constructor <;> grind [stageOf]

theorem listed_signalEarly (hs : Listed s) (he : e ∈ s.waiters c) (hm : (s.waiter e).waiters = []) :
    Listed (s.signalled c e []) := by
  obtain ⟨h1, h2, h3, h4, h5, h6, h7⟩ := hs
  unfold Sys.signalled
  constructor <;> grind [unsignedSize]

theorem listed_signalWaking (hs : Listed s) (he : e ∈ s.waiters c) (hm : u ∈ (s.waiter e).waiters) :
    u = e ∧ Listed ((s.signalled c e ((s.waiter e).waiters.erase u)).move u (.woken c)) := by
  have hue : u = e := by
    rcases hs.member he with hst | hst
    · rw [hs.awake fun c' hc => by simp [hst] at hc] at hm
      cases hm
    · rw [(hs.asleep hst).2] at hm
      exact List.mem_singleton.mp hm
  subst hue
  refine ⟨rfl, ?_⟩
  obtain ⟨h1, h2, h3, h4, h5, h6, h7⟩ := hs
  unfold Sys.signalled
  constructor <;> grind [stageOf, unsignedSize]

variable [DecidableEq L]

omit [DecidableEq T] [DecidableEq C] [DecidableEq L] in
theorem Queued.frame (hq : Queued s)
    (hw : ∀ l, (s'.semaphore l).waiters = (s.semaphore l).waiters)
    (hp : ∀ t l, s.place t = .waiting l → s'.place t = .waiting l) : Queued s' where
  place := by
    intro t l ht
    rw [hw] at ht
    exact hp t l (hq.place ht)
  nodup l := by
    rw [hw]
    exact hq.nodup l

omit [DecidableEq C] [DecidableEq L] in
theorem waiting_move {p : Place L C} (ht : ∀ l, s.place t ≠ .waiting l) (u : T) (l : L)
    (hu : s.place u = .waiting l) : (s.move t p).place u = .waiting l := by
  have hut : u ≠ t := by
    rintro rfl
    exact ht l hu
  rwa [move_place, if_neg hut]

omit [DecidableEq C] in
theorem queued_enter (hq : Queued s) (ht : ∀ l, s.place t ≠ .waiting l) (v : ℕ) :
    Queued (s.enter t l { s.semaphore l with value := v }) := by
  refine hq.frame (fun l' => ?_) (waiting_move ht)
  unfold Sys.enter
  grind

omit [DecidableEq C] in
theorem queued_blocked (hq : Queued s) (ht : s.place t = .downing l) :
    Queued ({ s with
      semaphore := Function.update s.semaphore l
        { s.semaphore l with waiters := (s.semaphore l).waiters ++ [t] } }.move t (.waiting l)) := by
  obtain ⟨h1, h2⟩ := hq
  constructor <;> grind [List.nodup_append]

omit [DecidableEq C] in
theorem queued_woke (hq : Queued s) {w : T} (hw : w ∈ (s.semaphore l).waiters) :
    Queued ((s.up t l ((s.semaphore l).waiters.erase w)).move w (.downing l)) := by
  obtain ⟨h1, h2⟩ := hq
  unfold Sys.up
  constructor <;> grind

theorem queued_step {lockOf : C → L} {a : MonitorAction T L C} (hq : Queued s)
    (hs : Listed s) (h : Step lockOf s a s') : Queued s' := by
  cases effect_of_step h with
  | acquire ht | setHolder ht | release ht | condWait ht | condRelease ht =>
    exact hq.frame (fun _ => rfl) (waiting_move (by simp [ht]))
  | slept ht | waited ht =>
    exact hq.frame (fun _ => rfl) (waiting_move (by rcases ht with ht | ht <;> simp [ht]))
  | blocked ht hv => exact queued_blocked hq ht
  | downed ht | tried ht => exact queued_enter hq (by simp [ht]) _
  | tryFailed | noWaiter => exact hq
  | @upped t l cond ht hw =>
    refine hq.frame (fun l' => ?_) (waiting_move (by simp [ht]))
    simp only [move_semaphore, Sys.up]
    grind
  | @woke t w l cond ht hw =>
    have hwp := hq.place hw
    have hwt : t ≠ w := by
      rintro rfl
      rw [ht] at hwp
      cases hwp
    refine (queued_woke hq hw).frame (fun _ => rfl) (waiting_move ?_)
    rw [move_place, if_neg hwt]
    show ∀ l', s.place t ≠ .waiting l'
    simp [ht]
  | signalEarly | setPriority => exact hq.frame (fun _ => rfl) fun _ _ h => h
  | @signalWaking t e es c junk w ht hh hw hm =>
    have hmem : listMax (elemPriority s junk) e es ∈ s.waiters c := by
      rw [hw]
      exact listMax_mem _ _ _
    obtain ⟨rfl, -⟩ := listed_signalWaking hs hmem hm
    refine hq.frame (fun _ => rfl) (waiting_move fun l hl => ?_)
    have := hs.member hmem
    rw [show s.place _ = .waiting l from hl] at this
    simp [stageOf] at this

theorem listed_step {lockOf : C → L} {a : MonitorAction T L C} (hq : Queued s) (hs : Listed s)
    (h : Step lockOf s a s') : Listed s' := by
  cases effect_of_step h with
  | acquire ht | blocked ht | downed ht | setHolder ht | tried ht | release ht | condRelease ht =>
    refine Listed.move ?_ (by simp [stageOf, ht])
    exact hs.frame rfl rfl fun _ => rfl
  | tryFailed | noWaiter => exact hs
  | @upped t l cond ht hw =>
    have hu : Listed (s.up t l []) := hs.frame rfl rfl fun _ => rfl
    refine hu.move ?_
    show stageOf (afterRelease cond) = stageOf (s.place t)
    rw [ht]
    cases cond <;> rfl
  | @woke t w l cond ht hw =>
    have hwp := hq.place hw
    have hwt : t ≠ w := by
      rintro rfl
      rw [ht] at hwp
      cases hwp
    have hu : Listed (s.up t l ((s.semaphore l).waiters.erase w)) := hs.frame rfl rfl fun _ => rfl
    refine (hu.move ?_).move ?_
    · show _ = stageOf (s.place w)
      rw [hwp]
      rfl
    · rw [move_place, if_neg hwt]
      show stageOf (afterRelease cond) = stageOf (s.place t)
      rw [ht]
      cases cond <;> rfl
  | condWait ht hh => exact listed_condWait hs ht
  | slept ht hv => exact listed_slept hs ht hv
  | waited ht hv hh => exact listed_waited hs ht hv
  | @signalEarly t e es c junk ht hh hw hm =>
    refine listed_signalEarly hs ?_ hm
    rw [hw]
    exact listMax_mem _ _ _
  | @signalWaking t e es c junk w ht hh hw hm =>
    refine (listed_signalWaking hs ?_ hm).2
    rw [hw]
    exact listMax_mem _ _ _
  | setPriority => exact hs.frame rfl rfl fun _ => rfl

theorem listed_invariant (lockOf : C → L) :
    Invariant Init (Step (T := T) lockOf) fun s => Queued s ∧ Listed s where
  start h := by
    obtain ⟨h1, h2, h3, h4, h5, h6⟩ := h
    refine ⟨?_, ?_⟩ <;> constructor <;> simp [h2, h3, h4, h5, semaInit, stageOf]
  step := fun ⟨hq, hs⟩ h => ⟨queued_step hq hs h, listed_step hq hs h⟩

/-! ### The call -/

/-- What a call of `cond_signal` that finds waiters should do: compare only elements whose semaphore has a
waiter (one element alone is not compared), and wake one thread, of the highest priority, and nobody else. -/
structure Signals (s : Sys T L C) (c : C) (s' : Sys T L C) : Prop where
  compared : 2 ≤ (s.waiters c).length → ∀ e ∈ s.waiters c, (s.waiter e).waiters ≠ []
  wakes : ∃ e ∈ s.waiters c, s'.waiters c = (s.waiters c).erase e ∧
    (s'.waiter e).value = 1 ∧ s'.place e ≠ .asleep c ∧
    (∀ u, u ≠ e → s'.waiter u = s.waiter u ∧ s'.place u = s.place u) ∧
    ∀ u ∈ s.waiters c, s.priority u ≤ s.priority e

omit [DecidableEq L] [DecidableEq C] [DecidableEq T] in
theorem elemPriority_of_asleep (hs : Listed s) (he : s.place e = .asleep c) (junk : T → ℤ) :
    elemPriority s junk e = s.priority e := by
  unfold elemPriority
  rw [(hs.asleep (stageOf_eq_asleep.mpr he)).2]
  rfl

omit [DecidableEq L] [DecidableEq C] [DecidableEq T] in
/-- The chosen element, if all that are compared are asleep. -/
theorem le_priority_chosen (hs : Listed s) {es : List T} (hw : s.waiters c = e :: es)
    (h : (s.waiters c).length ≤ 1 ∨ ∀ e ∈ s.waiters c, s.place e = .asleep c) (junk : T → ℤ) :
    ∀ u ∈ s.waiters c, s.priority u ≤ s.priority (listMax (elemPriority s junk) e es) := by
  intro u hu
  rcases h with h | h
  · have hes : es = [] := by
      rw [hw, List.length_cons] at h
      exact List.eq_nil_of_length_eq_zero (by omega)
    subst hes
    rw [hw] at hu
    rw [List.mem_singleton.mp hu]
    rfl
  · have hm := listMax_mem (elemPriority s junk) es e
    rw [← hw] at hm
    have hle := le_listMax (elemPriority s junk) es e u (hw ▸ hu)
    rwa [elemPriority_of_asleep hs (h u hu), elemPriority_of_asleep hs (h _ hm)] at hle

/-- **Signalling is well defined and priority-ordered** exactly if at most one thread waits on the condition,
or all that do are blocked already. -/
theorem signals_iff {lockOf : C → L} {junk : T → ℤ} (h : Reachable Init (Step lockOf) s)
    (hst : Step lockOf s (.condSignal t c junk) s') (hne : s.waiters c ≠ []) :
    Signals s c s' ↔
      ((s.waiters c).length ≤ 1 ∨ ∀ e ∈ s.waiters c, s.place e = .asleep c) := by
  obtain ⟨-, hs⟩ := h.of_invariant (listed_invariant lockOf)
  constructor
  · intro hsig
    by_cases hl : (s.waiters c).length ≤ 1
    · exact .inl hl
    · exact .inr fun e he =>
        (hs.waiters_ne_nil_iff he).mp (hsig.compared (by omega) e he)
  · intro hc
    refine ⟨fun hl e he => ?_, ?_⟩
    · rcases hc with hc | hc
      · omega
      · exact (hs.waiters_ne_nil_iff he).mpr (hc e he)
    cases effect_of_step hst with
    | noWaiter _ _ hw => exact absurd hw hne
    | @signalEarly t e es c junk ht hh hw hm =>
      have hmem : listMax (elemPriority s junk) e es ∈ s.waiters c := by
        rw [hw]
        exact listMax_mem _ _ _
      have hmax := le_priority_chosen hs hw hc junk
      have hv := hs.value hmem
      generalize listMax (elemPriority s junk) e es = m at hm hmem hmax hv
      have hp : s.place m ≠ .asleep c := fun hp => (hs.waiters_ne_nil_iff hmem).mpr hp hm
      unfold Sys.signalled
      exact ⟨m, hmem, by simp, by simp [hv, unsignedSize], hp, by grind, hmax⟩
    | @signalWaking t e es c junk w ht hh hw hm =>
      have hmem : listMax (elemPriority s junk) e es ∈ s.waiters c := by
        rw [hw]
        exact listMax_mem _ _ _
      have hmax := le_priority_chosen hs hw hc junk
      have hv := hs.value hmem
      obtain ⟨rfl, -⟩ := listed_signalWaking hs hmem hm
      generalize listMax (elemPriority s junk) e es = m at hm hmem hmax hv
      unfold Sys.signalled
      exact ⟨m, hmem, by simp, by simp [hv, unsignedSize], by simp, by grind, hmax⟩

/-- `lock_acquire` of a free lock. -/
def acquire (t : T) (l : L) : List (MonitorAction T L C) :=
  [.acquire t l, .semaDown t l, .setHolder t l]

/-- `cond_wait` up to the end of its `lock_release`. -/
def wait (t : T) (l : L) (c : C) : List (MonitorAction T L C) :=
  [.condWait t c, .condRelease t c, .semaUp t l]

/-- Two threads wait on a condition, the first of them still on its way to `sema_down`, and a third takes the
lock. -/
def overtaken (t u v : T) (l : L) (c : C) : List (MonitorAction T L C) :=
  acquire t l ++ wait t l c ++ acquire u l ++ wait u l c ++ [.waiterDown u c] ++ acquire v l

theorem signals_of_asleep : ∃ s s' : Sys (Fin 3) (Fin 1) (Fin 1),
    s.waiters 0 = [0, 1] ∧ Step (fun _ => 0) s (.condSignal 2 0 0) s' ∧ Signals s 0 s' := by
  have h : ((overtaken (0 : Fin 3) 1 2 (0 : Fin 1) (0 : Fin 1) ++ [MonitorAction.waiterDown 0 0]).foldlM
      (act fun _ => 0) (initial ![31, 33, 32])).map
      (fun s : Sys (Fin 3) (Fin 1) (Fin 1) => (s.waiters 0, s.place 0, s.place 1,
        (act (fun _ => 0) s (.condSignal 2 0 0)).isSome)) =
      some ([0, 1], .asleep 0, .asleep 0, true) := by decide +kernel
  obtain ⟨s, hs, h⟩ := Option.map_eq_some_iff.mp h
  simp only [Prod.mk.injEq] at h
  obtain ⟨hw, h0, h1, hsome⟩ := h
  obtain ⟨s', hst⟩ := Option.isSome_iff_exists.mp hsome
  have hr : Reachable Init (Step fun _ => 0) s := .of_foldlM id _ (.start (init_initial _)) hs
  refine ⟨s, s', hw, hst, (signals_iff hr hst (by simp [hw])).mpr (.inr ?_)⟩
  rw [hw]
  simp [h0, h1]

/-- The thread that has been overtaken has nobody on its semaphore yet. -/
theorem not_signals : ¬ ∀ (s s' : Sys (Fin 3) (Fin 1) (Fin 1)) (t : Fin 3) (junk : Fin 3 → ℤ),
    Reachable Init (Step fun _ => 0) s → Step (fun _ => 0) s (.condSignal t 0 junk) s' →
      s.waiters 0 ≠ [] → Signals s 0 s' := by
  intro hall
  have h : ((overtaken 0 1 2 0 0).foldlM (act fun _ => (0 : Fin 1)) (initial ![31, 33, 32])).map
      (fun s : Sys (Fin 3) (Fin 1) (Fin 1) => (s.waiters 0, (s.waiter 0).waiters,
        (act (fun _ => 0) s (.condSignal 2 0 0)).isSome)) = some ([0, 1], [], true) := by
    decide +kernel
  obtain ⟨s, hs, h⟩ := Option.map_eq_some_iff.mp h
  simp only [Prod.mk.injEq] at h
  obtain ⟨hw, h0, hsome⟩ := h
  obtain ⟨s', hst⟩ := Option.isSome_iff_exists.mp hsome
  have hr : Reachable Init (Step fun _ => 0) s := .of_foldlM id _ (.start (init_initial _)) hs
  have hsig := hall s s' 2 0 hr hst (by simp [hw])
  exact hsig.compared (by simp [hw]) 0 (by simp [hw]) h0

end Pintos.Threads.CondSignal
