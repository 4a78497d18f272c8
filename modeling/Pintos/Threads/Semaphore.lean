import Pintos.Threads.Donation

/-! # Semaphores

`sema_down`, `sema_try_down` and `sema_up` on one semaphore, called by any number of threads and by
interrupt handlers. One turn of the loop in `sema_down` is a step; a woken thread looks at the value again
whenever it gets to run. No unit is lost, and while threads wait there are at least as many woken threads on
the way to the value as it has units. The value is an `unsigned`, and units are counted modulo its size. -/

namespace Pintos.Threads.Semaphore

open Pintos.Lib.Runs Pintos.Threads.Donation

structure Sema (T : Type*) where
  value : ℕ
  waiters : List T

/-- One more than `UINT_MAX`. -/
def unsignedSize : ℕ := 2 ^ 32

section functions

variable {T : Type*}

def semaInit (value : ℕ) : Sema T := ⟨value, []⟩

/-- One turn of the loop in `sema_down`: true if the thread is done, false if it has to block. -/
def semaDown (s : Sema T) (current : T) : Bool × Sema T :=
  if s.value = 0 then (false, { s with waiters := s.waiters ++ [current] })
  else (true, { s with value := s.value - 1 })

def semaTryDown (s : Sema T) : Bool × Sema T :=
  if s.value > 0 then (true, { s with value := s.value - 1 }) else (false, s)

variable [DecidableEq T]

/-- The thread to be unblocked, if there is one. -/
def semaUp (priority : T → ℤ) (s : Sema T) : Option T × Sema T :=
  match s.waiters with
  | [] => (none, { s with value := (s.value + 1) % unsignedSize })
  | w :: ws =>
    (some (listMax priority w ws),
      { value := (s.value + 1) % unsignedSize, waiters := (w :: ws).erase (listMax priority w ws) })

/-- What `sema_up` does. -/
theorem semaUp_cases (priority : T → ℤ) (s : Sema T) :
    (s.waiters = [] ∧
      semaUp priority s = (none, { s with value := (s.value + 1) % unsignedSize })) ∨
    ∃ t ∈ s.waiters, semaUp priority s =
      (some t, { value := (s.value + 1) % unsignedSize, waiters := s.waiters.erase t }) := by
  unfold semaUp
  split <;> rename_i h
  · exact .inl ⟨h, rfl⟩
  · rename_i w ws
    right
    rw [h]
    exact ⟨_, listMax_mem priority ws w, rfl⟩

end functions

/-! ### The system -/

inductive Position
  | elsewhere
  /-- Blocked in `sema_down`. -/
  | waiting
  /-- Unblocked by `sema_up`, and about to look at the value again. -/
  | woken
  deriving DecidableEq

structure Sys (T : Type*) where
  sema : Sema T
  position : T → Position
  priority : T → ℤ
  /-- The calls of `sema_down` and `sema_try_down` that have taken a unit. -/
  downs : ℕ
  ups : ℕ

inductive SemaAction (T : Type*)
  | down (t : T)
  | tryDown
  | up
  /-- Donations and `thread_set_priority`. -/
  | setPriority (t : T) (p : ℤ)

variable {T : Type*} [DecidableEq T]

def Sys.move (s : Sys T) (t : T) (p : Position) : Sys T :=
  { s with position := Function.update s.position t p }

def act (s : Sys T) : SemaAction T → Option (Sys T)
  | .down t =>
    if s.position t = .waiting then none
    else
      let (done, sema) := semaDown s.sema t
      if done then some ({ s with sema := sema, downs := s.downs + 1 }.move t .elsewhere)
      else some ({ s with sema := sema }.move t .waiting)
  | .tryDown =>
    let (done, sema) := semaTryDown s.sema
    if done then some { s with sema := sema, downs := s.downs + 1 } else some { s with sema := sema }
  | .up =>
    let (next, sema) := semaUp s.priority s.sema
    match next with
    | none => some { s with sema := sema, ups := s.ups + 1 }
    | some t => some ({ s with sema := sema, ups := s.ups + 1 }.move t .woken)
  | .setPriority t p => some { s with priority := Function.update s.priority t p }

def Step (s : Sys T) (a : SemaAction T) (s' : Sys T) : Prop := act s a = some s'

/-- A semaphore of the given value, which nobody has used yet. -/
structure Init (value : ℕ) (s : Sys T) : Prop where
  sema : s.sema = semaInit value
  value : value < unsignedSize
  position : ∀ t, s.position t = .elsewhere
  downs : s.downs = 0
  ups : s.ups = 0

/-- The steps. -/
inductive Effect (s : Sys T) : Sys T → Prop
  | blocked {t} (ht : s.position t ≠ .waiting) (hv : s.sema.value = 0) :
      Effect s ({ s with sema := { s.sema with waiters := s.sema.waiters ++ [t] } }.move t .waiting)
  | downed {t} (ht : s.position t ≠ .waiting) (hv : s.sema.value ≠ 0) :
      Effect s ({ s with sema := { s.sema with value := s.sema.value - 1 },
                         downs := s.downs + 1 }.move t .elsewhere)
  | tried (hv : s.sema.value ≠ 0) :
      Effect s { s with sema := { s.sema with value := s.sema.value - 1 }, downs := s.downs + 1 }
  | upped (hw : s.sema.waiters = []) :
      Effect s { s with sema := { s.sema with value := (s.sema.value + 1) % unsignedSize },
                        ups := s.ups + 1 }
  | woken {t} (hw : t ∈ s.sema.waiters) :
      Effect s ({ s with sema := ⟨(s.sema.value + 1) % unsignedSize, s.sema.waiters.erase t⟩,
                         ups := s.ups + 1 }.move t .woken)
  | other {p : T → ℤ} : Effect s { s with priority := p }

theorem effect_of_step {s s' : Sys T} {a : SemaAction T} (h : Step s a s') : Effect s s' := by
  unfold Step at h
  cases a with
  | down t =>
    simp only [act] at h
    split at h
    · cases h
    · rename_i ht
      by_cases hv : s.sema.value = 0
      · simp only [semaDown, if_pos hv, Bool.false_eq_true, if_false, Option.some.injEq] at h
        rw [← h]
        exact .blocked ht hv
      · simp only [semaDown, if_neg hv, if_true, Option.some.injEq] at h
        rw [← h]
        exact .downed ht hv
  | tryDown =>
    simp only [act] at h
    by_cases hv : s.sema.value > 0
    · simp only [semaTryDown, if_pos hv, if_true, Option.some.injEq] at h
      rw [← h]
      exact .tried (by omega)
    · simp only [semaTryDown, if_neg hv, Bool.false_eq_true, if_false, Option.some.injEq] at h
      rw [← h]
      exact .other (p := s.priority)
  | up =>
    simp only [act] at h
    rcases semaUp_cases s.priority s.sema with ⟨hw, he⟩ | ⟨t, hw, he⟩
    · rw [he] at h
      cases h
      exact .upped hw
    · rw [he] at h
      cases h
      exact .woken hw
  | setPriority t p =>
    cases h
    exact .other

/-! ### The invariant -/

variable [Fintype T]

/-- The threads that have been woken and have not looked at the value since. -/
def wokenThreads (s : Sys T) : Finset T := Finset.univ.filter fun t => s.position t = .woken

omit [DecidableEq T] in
theorem mem_wokenThreads {s : Sys T} {t : T} : t ∈ wokenThreads s ↔ s.position t = .woken := by
  simp [wokenThreads]

theorem wokenThreads_move {s : Sys T} {t : T} {p : Position} (hp : p ≠ .woken) :
    wokenThreads (s.move t p) = (wokenThreads s).erase t := by
  ext u
  simp only [wokenThreads, Sys.move, Function.update_apply, Finset.mem_filter, Finset.mem_erase]
  grind

theorem wokenThreads_wake {s : Sys T} {t : T} :
    wokenThreads (s.move t .woken) = insert t (wokenThreads s) := by
  ext u
  simp only [wokenThreads, Sys.move, Function.update_apply, Finset.mem_filter, Finset.mem_insert]
  grind

/-- **No unit is lost and no wake-up is lost.** -/
structure Conserved (value : ℕ) (s : Sys T) : Prop where
  /-- Units are conserved, up to the wrapping of an `unsigned`. -/
  modEq : s.downs + s.sema.value ≡ value + s.ups [MOD unsignedSize]
  /-- Units are conserved while the difference fits an `unsigned`. -/
  exact : value + s.ups - s.downs < unsignedSize → s.downs + s.sema.value = value + s.ups
  wakeups : s.sema.waiters ≠ [] → s.sema.value ≤ (wokenThreads s).card

/-- The value together with the number of times it has wrapped. -/
structure Inv (value : ℕ) (s : Sys T) : Prop where
  count : ∃ k, s.downs + s.sema.value + unsignedSize * k = value + s.ups
  value : s.sema.value < unsignedSize
  waiting : ∀ t, t ∈ s.sema.waiters → s.position t = .waiting
  nodup : s.sema.waiters.Nodup
  wakeups : s.sema.waiters ≠ [] → s.sema.value ≤ (wokenThreads s).card

/-- The value after `sema_up`, and how often it has wrapped by then. -/
theorem value_up {v c k n : ℕ} (hv : v < unsignedSize) (hk : c + v + unsignedSize * k = n) :
    (v + 1) % unsignedSize ≤ v + 1 ∧ ∃ k, c + (v + 1) % unsignedSize + unsignedSize * k = n + 1 := by
  refine ⟨Nat.mod_le _ _, ?_⟩
  by_cases h : v + 1 = unsignedSize
  · refine ⟨k + 1, ?_⟩
    rw [h, Nat.mod_self, Nat.mul_add]
    omega
  · refine ⟨k, ?_⟩
    rw [Nat.mod_eq_of_lt (by omega)]
    omega

theorem inv_step {n : ℕ} {s s' : Sys T} {a : SemaAction T} (hs : Inv n s) (h : Step s a s') :
    Inv n s' := by
  obtain ⟨⟨k, hk⟩, hlt, hwait, hnd, hwake⟩ := hs
  cases effect_of_step h with
  | @blocked t ht hv =>
    have hnew : t ∉ s.sema.waiters := fun hm => ht (hwait t hm)
    refine ⟨⟨k, hk⟩, hlt, ?_, ?_, fun _ => ?_⟩
    · intro u hu
      simp only [Sys.move, Function.update_apply, List.mem_append, List.mem_singleton] at hu ⊢
      split
      · rfl
      · exact hwait u (hu.resolve_right ‹_›)
    · exact List.nodup_append.mpr ⟨hnd, List.nodup_singleton t, by simp; grind⟩
    · show s.sema.value ≤ _
      omega
  | @downed t ht hv =>
    have hnew : t ∉ s.sema.waiters := fun hm => ht (hwait t hm)
    refine ⟨⟨k, ?_⟩, ?_, ?_, hnd, fun hw => ?_⟩
    · show s.downs + 1 + (s.sema.value - 1) + unsignedSize * k = n + s.ups
      omega
    · show s.sema.value - 1 < unsignedSize
      omega
    · intro u hu
      have hut : u ≠ t := by
        rintro rfl
        exact hnew hu
      simp only [Sys.move, Function.update_of_ne hut]
      exact hwait u hu
    · have := hwake hw
      rw [wokenThreads_move (by simp)]
      show s.sema.value - 1 ≤ ((wokenThreads s).erase t).card
      have := Finset.pred_card_le_card_erase (s := wokenThreads s) (a := t)
      omega
  | tried hv =>
    refine ⟨⟨k, ?_⟩, ?_, hwait, hnd, fun hw => ?_⟩
    · show s.downs + 1 + (s.sema.value - 1) + unsignedSize * k = n + s.ups
      omega
    · show s.sema.value - 1 < unsignedSize
      omega
    · have := hwake hw
      show s.sema.value - 1 ≤ (wokenThreads s).card
      omega
  | upped hw =>
    obtain ⟨-, hcount⟩ := value_up hlt hk
    refine ⟨hcount, Nat.mod_lt _ (by decide), hwait, hnd, fun hne => absurd hw hne⟩
  | @woken t hw =>
    obtain ⟨hle, hcount⟩ := value_up hlt hk
    have hnw : t ∉ wokenThreads s := by
      rw [mem_wokenThreads, hwait t hw]
      simp
    refine ⟨hcount, Nat.mod_lt _ (by decide), ?_, hnd.erase t, fun _ => ?_⟩
    · intro u hu
      obtain ⟨hut, hu⟩ := hnd.mem_erase_iff.mp hu
      simp only [Sys.move, Function.update_of_ne hut]
      exact hwait u hu
    · have := hwake (List.ne_nil_of_mem hw)
      rw [wokenThreads_wake]
      show (s.sema.value + 1) % unsignedSize ≤ (insert t (wokenThreads s)).card
      rw [Finset.card_insert_of_notMem hnw]
      omega
  | other => exact ⟨⟨k, hk⟩, hlt, hwait, hnd, hwake⟩

theorem inv_invariant (n : ℕ) : Invariant (Init n) (Step (T := T)) (Inv n) where
  start h := by
    obtain ⟨h1, h2, h3, h4, h5⟩ := h
    refine ⟨⟨0, ?_⟩, ?_, ?_, ?_, ?_⟩ <;> simp [h1, h2, h4, h5, semaInit]
  step := inv_step

/-- **Conservation for semaphores.** -/
theorem conserved_of_reachable {n : ℕ} {s : Sys T} (h : Reachable (Init n) Step s) :
    Conserved n s := by
  obtain ⟨⟨k, hk⟩, hlt, -, -, hwake⟩ := h.of_invariant (inv_invariant n)
  refine ⟨?_, fun hfit => ?_, hwake⟩
  · have hmod : (s.downs + s.sema.value + unsignedSize * k) ≡ s.downs + s.sema.value
        [MOD unsignedSize] := by
      simp [Nat.ModEq]
    rw [hk] at hmod
    exact hmod.symm
  · have hk0 : k = 0 := by
      by_contra hne
      have : unsignedSize ≤ unsignedSize * k := Nat.le_mul_of_pos_right _ (by omega)
      omega
    rw [hk0] at hk
    omega

/-- Fresh threads and a semaphore of the given value. -/
def fresh (value : ℕ) : Sys T where
  sema := semaInit value
  position _ := .elsewhere
  priority _ := 31
  downs := 0
  ups := 0

omit [DecidableEq T] [Fintype T] in
theorem init_fresh {value : ℕ} (h : value < unsignedSize) : Init value (fresh value : Sys T) :=
  ⟨rfl, h, fun _ => rfl, rfl, rfl⟩

/-- The only thread waits for a unit and is woken. -/
theorem conserved_of_reachable_woken : ∃ s : Sys (Fin 1),
    s.position 0 = .woken ∧ s.sema.value = 1 ∧ Conserved 0 s := by
  have h : ([SemaAction.down 0, .up].foldlM act (fresh 0)).map
      (fun s : Sys (Fin 1) => (s.position 0, s.sema.value)) = some (.woken, 1) := by decide
  obtain ⟨s, hs, h⟩ := Option.map_eq_some_iff.mp h
  have hr : Reachable (Init 0) Step s := .of_foldlM id _ (.start (init_fresh (by decide))) hs
  exact ⟨s, by grind, by grind, conserved_of_reachable hr⟩

/-- A `sema_up` at `UINT_MAX` loses all units. -/
theorem not_conserved_of_reachable : ¬ ∀ (n : ℕ) (s : Sys (Fin 1)), Reachable (Init n) Step s →
    s.downs + s.sema.value = n + s.ups := by
  intro h
  have hr : ((act (fresh (2 ^ 32 - 1)) .up).map
      fun s : Sys (Fin 1) => (s.downs, s.sema.value, s.ups)) = some (0, 0, 1) := by decide
  obtain ⟨s, hs, hr⟩ := Option.map_eq_some_iff.mp hr
  have heq := h _ s (.step (.start (init_fresh (by decide))) hs)
  simp only [Prod.mk.injEq] at hr
  omega

end Pintos.Threads.Semaphore
