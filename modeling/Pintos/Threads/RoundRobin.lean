import Pintos.Threads.ListDiscipline
import Mathlib.Data.List.Rotate

/-! # Round robin among the threads of the highest priority

`thread_yield` appends the running thread to the ready list, and `list_max` returns the first of the threads of
the highest priority. So these threads stand in a line, in the order in which they came to wait: `schedule`
takes the first one, which is appended again when it gives up the processor, and the line is rotated. A clock
says how long a thread has been waiting. -/

namespace Pintos.Threads.RoundRobin

open Pintos.Lib.Runs Pintos.Threads.Scheduler
open Pintos.Threads.Donation (listMax)
open Pintos.Threads.ListDiscipline (Good switchTo schedule_cases switchTo_lists keeps_step good_invariant)

variable {T S : Type*}

/-! ### `list_max` takes the first one -/

/-- The first thread of priority `p` is the one that `list_max` returns if no thread is above `p`. -/
theorem head_eq_listMax {priority : T → ℤ} {p : ℤ} : ∀ (es : List T) (max : T),
    (∀ t ∈ max :: es, priority t ≤ p) → (max :: es).filter (priority · = p) ≠ [] →
    ((max :: es).filter (priority · = p)).head? = some (listMax priority max es)
  | [], max, _, hne => by
    have hmax : priority max = p := by
      by_contra h
      exact hne (by simp [h])
    simp [listMax, hmax]
  | e :: es, max, hle, hne => by
    have he : priority e ≤ p := hle e (by simp)
    have hm : priority max ≤ p := hle max (by simp)
    unfold listMax
    by_cases hlt : priority max < priority e
    · have hnot : priority max ≠ p := by omega
      have hskip : (max :: e :: es).filter (priority · = p) = (e :: es).filter (priority · = p) := by
        simp [List.filter_cons, hnot]
      rw [if_pos hlt, hskip]
      exact head_eq_listMax es e (fun t ht => hle t (List.mem_cons_of_mem _ ht)) (hskip ▸ hne)
    · rw [if_neg hlt]
      by_cases hp : priority max = p
      · have h := head_eq_listMax es max
          (fun t ht => hle t (by simp only [List.mem_cons] at ht ⊢; tauto)) (by simp [hp])
        rw [← h]
        simp [hp]
      · have hnot : priority e ≠ p := by omega
        have hskip : (max :: e :: es).filter (priority · = p) = (max :: es).filter (priority · = p) := by
          simp [hnot, hp]
        rw [hskip]
        exact head_eq_listMax es max
          (fun t ht => hle t (by simp only [List.mem_cons] at ht ⊢; tauto)) (hskip ▸ hne)

variable [DecidableEq T] {s s' : Sched T S} {p : ℤ}

/-! ### The line -/

/-- The ready list with the running thread behind it, as `thread_yield` leaves it to `schedule`. -/
def yielded (s : Sched T S) : List T :=
  if s.idleThread = some s.current then s.readyList else s.readyList ++ [s.current]

/-- The threads of priority `p` that are ready or run, in the order in which they came to wait. -/
def line (p : ℤ) (s : Sched T S) : List T := (yielded s).filter (s.priority · = p)

/-- There are such threads, and none is above them. -/
structure Highest (p : ℤ) (s : Sched T S) : Prop where
  le : ∀ t ∈ yielded s, s.priority t ≤ p
  some : line p s ≠ []

/-- What `thread_yield` does to the ready list. -/
theorem threadYield_lists (h : threadYield s = some s') :
    (nextThreadToRun { s with readyList := yielded s }).1 = some s'.current ∧
      s'.readyList = (yielded s).erase s'.current ∧ s'.priority = s.priority ∧ s'.idleThread = s.idleThread := by
  unfold threadYield schedule at h
  unfold yielded
  generalize (if s.idleThread = some s.current then s.readyList else s.readyList ++ [s.current]) = r at h ⊢
  unfold nextThreadToRun at h ⊢
  simp only [Sched.setStatus] at h
  cases r with
  | nil =>
    simp only at h ⊢
    split at h
    · cases h
    · rename_i hnext
      simp only [Prod.mk.injEq] at hnext
      obtain ⟨hnext, rfl⟩ := hnext
      split at h
      · cases h
      · split at h <;> cases h <;> unfold threadScheduleTail Sched.setStatus <;> dsimp only
        · split <;> exact ⟨hnext, rfl, rfl, rfl⟩
        · exact ⟨hnext, rfl, rfl, rfl⟩
  | cons e es =>
    simp only at h ⊢
    split at h
    · cases h
    · split at h <;> cases h <;> unfold threadScheduleTail Sched.setStatus <;> dsimp only
      · split <;> exact ⟨rfl, rfl, rfl, rfl⟩
      · exact ⟨rfl, rfl, rfl, rfl⟩

/-- **The choice of `schedule`** after `thread_yield`: the first thread of the line. -/
theorem head_line (hp : Highest p s) (h : threadYield s = some s') : (line p s).head? = some s'.current := by
  have hne : yielded s ≠ [] := fun h0 => hp.some (by simp [line, h0])
  obtain ⟨e, es, hes⟩ := List.exists_cons_of_ne_nil hne
  have hnext := (threadYield_lists h).1
  have hle := hp.le
  have hline := hp.some
  unfold line at hline ⊢
  rw [hes] at hle hline hnext ⊢
  exact (head_eq_listMax es e hle hline).trans hnext

/-- A thread that was ready is ready or runs. -/
theorem threadYield_mem (h : threadYield s = some s') : ∀ t ∈ yielded s, t ∈ s'.current :: s'.readyList := by
  intro t ht
  rw [(threadYield_lists h).2.1, List.mem_cons]
  by_cases hc : t = s'.current
  · exact .inl hc
  · exact .inr ((List.mem_erase_of_ne hc).mpr ht)

/-! ### One step -/

/-- The threads `new` have become ready, behind the others. -/
structure Woke (s s' : Sched T S) (new : List T) : Prop where
  ready : s'.readyList = s.readyList ++ new
  priority : s'.priority = s.priority
  current : s'.current = s.current
  idleThread : s'.idleThread = s.idleThread

omit [DecidableEq T] in
theorem Woke.refl (s : Sched T S) : Woke s s [] := ⟨(List.append_nil _).symm, rfl, rfl, rfl⟩

omit [DecidableEq T] in
theorem Woke.trans {s₁ : Sched T S} {new new' : List T} (h : Woke s s₁ new) (h' : Woke s₁ s' new') :
    Woke s s' (new ++ new') where
  ready := by rw [h'.ready, h.ready, List.append_assoc]
  priority := h'.priority.trans h.priority
  current := h'.current.trans h.current
  idleThread := h'.idleThread.trans h.idleThread

theorem woke_threadUnblock {t : T} (h : threadUnblock s t = some s') :
    Woke s s' [t] ∧ s'.threadTicks = s.threadTicks := by
  unfold threadUnblock at h
  split at h <;> cases h
  exact ⟨⟨rfl, rfl, rfl, rfl⟩, rfl⟩

theorem woke_wakeSleepers : ∀ (ts : List T) {s s' : Sched T S}, wakeSleepers s ts = some s' →
    (∃ new, Woke s s' new) ∧ s'.threadTicks = s.threadTicks
  | [], s, _, h => by
    cases h
    exact ⟨⟨[], .refl s⟩, rfl⟩
  | t :: ts, s, s', h => by
    unfold wakeSleepers at h
    split at h
    · cases h
      exact ⟨⟨[], .refl s⟩, rfl⟩
    · obtain ⟨s₁, h1, h2⟩ := Option.bind_eq_some_iff.mp h
      unfold threadExitSleep at h1
      split at h1
      · obtain ⟨hone, hticks⟩ := woke_threadUnblock h1
        have hone' : Woke s s₁ [t] := ⟨hone.ready, hone.priority, hone.current, hone.idleThread⟩
        obtain ⟨⟨new, hnew⟩, hticks'⟩ := woke_wakeSleepers ts h2
        exact ⟨⟨_, hone'.trans hnew⟩, hticks'.trans hticks⟩
      · cases h1

omit [DecidableEq T] in
/-- The new threads are neither the running one nor ready before. -/
theorem Woke.fresh {new : List T} (h : Woke s s' new) (hs : Good s') :
    ∀ t ∈ new, t ∉ s.readyList ∧ t ≠ s.current := by
  intro t ht
  have hnodup := hs.1.readyNodup
  have hcur := (hs.1.current_free hs.2).1
  rw [h.ready] at hnodup hcur
  rw [h.current] at hcur
  refine ⟨fun hr => (List.nodup_append.mp hnodup).2.2 t hr t ht rfl, ?_⟩
  rintro rfl
  exact hcur (List.mem_append_right _ ht)

/-- The line is the same if the new threads are below it. -/
theorem line_of_woke {new : List T} (h : Woke s s' new) (hnew : ∀ t ∈ new, s.priority t < p) :
    line p s' = line p s := by
  have hnone : new.filter (s.priority · = p) = [] :=
    List.filter_eq_nil_iff.mpr fun t ht => by simp [(hnew t ht).ne]
  unfold line yielded
  rw [h.ready, h.priority, h.current, h.idleThread]
  split_ifs <;> simp [List.filter_append, hnone]

variable [DecidableEq S] {a : SchedAction T S}

/-- The steps that end in `schedule`. -/
def reschedules (s : Sched T S) : SchedAction T S → Bool
  | .yield => true
  | .timer => timeSlice ≤ s.threadTicks + 1
  | _ => false

/-- The running thread yields, or there is an interrupt: by the timer, or by a device whose handler makes a
thread ready. -/
def OnlyYields : SchedAction T S → Prop
  | .yield | .timer | .unblock _ | .semaUp _ => True
  | _ => False

/-- What such a step does: some threads become ready, and `thread_yield` follows if the step ends in
`schedule`. -/
theorem onlyYields_cases (hs : Good s) (ha : OnlyYields a) (he : Enabled s a) (h : act s a = some s') :
    ∃ s₁ new, Woke s s₁ new ∧ Good s₁ ∧
      if reschedules s a then threadYield s₁ = some s' else s₁ = s' := by
  have hs' : Good s' := (keeps_step hs he).1 s' h
  cases a with
  | yield => exact ⟨s, [], .refl s, hs, h⟩
  | unblock t =>
    obtain ⟨s₁, h1, rfl⟩ := Option.map_eq_some_iff.mp h
    obtain ⟨hw, -⟩ := woke_threadUnblock h1
    refine ⟨_, [t], ?_, hs', rfl⟩
    exact ⟨hw.ready, hw.priority, hw.current, hw.idleThread⟩
  | semaUp σ =>
    change semaUpCall s σ = some s' at h
    unfold semaUpCall at h
    dsimp only at h
    split at h
    · cases h
      refine ⟨_, [], ?_, hs', rfl⟩
      exact ⟨(List.append_nil _).symm, rfl, rfl, rfl⟩
    · rename_i t _
      obtain ⟨hw, -⟩ := woke_threadUnblock h
      refine ⟨_, [t], ?_, hs', rfl⟩
      exact ⟨hw.ready, hw.priority, hw.current, hw.idleThread⟩
  | timer =>
    change timerInterrupt s = some s' at h
    unfold timerInterrupt at h
    obtain ⟨s₁, h1, h2⟩ := Option.bind_eq_some_iff.mp h
    obtain ⟨⟨new, hw⟩, hticks⟩ := woke_wakeSleepers _ h1
    obtain ⟨s₂, h3, hs₂, -⟩ := ListDiscipline.wakeSleepers_spec s.sleeperList _
      (ListDiscipline.good_ticks hs (s.ticks + 1) (s.threadTicks + 1)) hs.1.sleeperNodup
      fun u hu => (hs.1.sleeper.mp hu).1
    obtain rfl : s₁ = s₂ := Option.some.inj (h1.symm.trans h3)
    refine ⟨s₁, new, ⟨hw.ready, hw.priority, hw.current, hw.idleThread⟩, hs₂, ?_⟩
    rw [hticks] at h2
    unfold reschedules
    split_ifs at h2 ⊢ with hslice hslice' hslice'
    · exact h2
    · simp_all
    · simp_all
    · exact Option.some.inj h2
  | _ => exact ha.elim

/-- Such a step, after which no new thread of priority `p` or above is ready or runs. -/
def Passive (p : ℤ) (s : Sched T S) (a : SchedAction T S) : Prop :=
  OnlyYields a ∧ ∀ s', act s a = some s' → ∀ t ∈ s'.current :: s'.readyList,
    t ∉ s.readyList → t ≠ s.current → s.priority t < p

omit [DecidableEq S] in
/-- **`thread_yield` rotates the line** and leaves its first thread running. -/
theorem threadYield_line (hs : Good s) (hp : Highest p s) (h : threadYield s = some s') :
    Highest p s' ∧ line p s' = (line p s).rotate 1 ∧ (line p s).head? = some s'.current := by
  obtain ⟨-, hready, hprio, hidle⟩ := threadYield_lists h
  have hhead := head_line hp h
  generalize ht : s'.current = t at hready hhead ⊢
  obtain ⟨rest, hrest⟩ : ∃ rest, line p s = t :: rest := List.head?_eq_some_iff.mp hhead
  have hmem : t ∈ yielded s ∧ s.priority t = p := by
    have ht : t ∈ line p s := hrest ▸ List.mem_cons_self
    simpa [line] using ht
  have hlive : s.idleThread ≠ some t := by
    have ht := hmem.1
    unfold yielded at ht
    split_ifs at ht with hi
    · exact (hs.1.ready.mp ht).2
    · rcases List.mem_append.mp ht with ht | ht
      · exact (hs.1.ready.mp ht).2
      · rwa [List.mem_singleton.mp ht]
  have hy : yielded s' = (yielded s).erase t ++ [t] := by
    unfold yielded at hready ⊢
    rw [hidle, ht, if_neg hlive, hready]
  have hline : line p s' = rest ++ [t] := by
    have herase : ((yielded s).erase t).filter (s.priority · = p) = rest := by
      rw [← List.erase_filter]
      change (line p s).erase t = rest
      rw [hrest, List.erase_cons_head]
    unfold line
    rw [hy, hprio, List.filter_append, herase]
    simp [hmem.2]
  refine ⟨⟨fun u hu => ?_, by simp [hline]⟩, ?_, hhead⟩
  · rw [hy] at hu
    rw [hprio]
    rcases List.mem_append.mp hu with hu | hu
    · exact hp.le u (List.mem_of_mem_erase hu)
    · rw [List.mem_singleton.mp hu]
      exact hmem.2.le
  · rw [hline, hrest, List.rotate_cons_succ, List.rotate_zero]

/-- **One step** of the threads of priority `p`. -/
theorem step_line (hs : Good s) (hp : Highest p s) (ha : Passive p s a) (h : Step s a s') :
    Highest p s' ∧ if reschedules s a then
      line p s' = (line p s).rotate 1 ∧ (line p s).head? = some s'.current
    else line p s' = line p s ∧ s'.current = s.current := by
  obtain ⟨s₁, new, hw, hs₁, hstep⟩ := onlyYields_cases hs ha.1 h.1 h.2
  have hbelow : ∀ t ∈ new, s.priority t < p := by
    intro t ht
    obtain ⟨hnr, hnc⟩ := hw.fresh hs₁ t ht
    refine ha.2 s' h.2 t ?_ hnr hnc
    have ht₁ : t ∈ s₁.readyList := hw.ready ▸ List.mem_append_right _ ht
    split_ifs at hstep
    · refine threadYield_mem hstep t ?_
      unfold yielded
      split_ifs
      · exact ht₁
      · exact List.mem_append_left _ ht₁
    · subst hstep
      exact List.mem_cons_of_mem _ ht₁
  have hline : line p s₁ = line p s := line_of_woke hw hbelow
  have hp₁ : Highest p s₁ := by
    refine ⟨fun t ht => ?_, hline ▸ hp.some⟩
    have ht' : t ∈ yielded s ∨ t ∈ new := by
      unfold yielded at ht ⊢
      rw [hw.ready, hw.current, hw.idleThread] at ht
      split_ifs at ht ⊢ <;> simp only [List.mem_append] at ht ⊢ <;> tauto
    rw [hw.priority]
    exact ht'.elim (hp.le t) fun ht => (hbelow t ht).le
  split_ifs at hstep ⊢
  · rw [← hline]
    exact threadYield_line hs₁ hp₁ hstep
  · subst hstep
    exact ⟨hp₁, hline, hw.current⟩

/-! ### The clock -/

/-- The scheduler with a clock: `since t` is when `t` came to the ready list last. -/
structure Clocked (T S : Type*) where
  sched : Sched T S
  now : ℕ
  since : T → ℕ

/-- A step takes one unit of time. -/
def ClockedStep (c : Clocked T S) (a : SchedAction T S) (c' : Clocked T S) : Prop :=
  Step c.sched a c'.sched ∧ c'.now = c.now + 1 ∧ ∀ t, c'.since t =
    if t ∈ c'.sched.readyList ∧ t ∉ c.sched.readyList then c.now else c.since t

omit [DecidableEq T] [DecidableEq S] in
/-- The ready list is in the order of the clock. -/
def Stamped (c : Clocked T S) : Prop :=
  c.sched.readyList.Pairwise (fun t u => c.since t ≤ c.since u) ∧ ∀ t ∈ c.sched.readyList, c.since t < c.now

omit [DecidableEq S] in
theorem schedule_readyList (h : schedule s = some s') : s'.readyList = s.readyList.erase s'.current := by
  obtain ⟨next, rfl, -, -⟩ := schedule_cases h
  obtain ⟨hr, -, -, -, -, -, -, hc⟩ := switchTo_lists s next
  rw [hr, hc]

/-- Threads come to the end of the ready list, and one may be taken out. -/
theorem act_readyList (hs : Good s) (h : Step s a s') :
    ∃ new, (∀ t ∈ new, t ∉ s.readyList) ∧ s'.readyList.Sublist (s.readyList ++ new) := by
  by_cases ha : OnlyYields a
  · obtain ⟨s₁, new, hw, hs₁, hstep⟩ := onlyYields_cases hs ha h.1 h.2
    have hnew := fun t ht => (hw.fresh hs₁ t ht).1
    split_ifs at hstep
    · have hsub : s'.readyList.Sublist (yielded s₁) := by
        rw [(threadYield_lists hstep).2.1]
        exact List.erase_sublist
      unfold yielded at hsub
      split_ifs at hsub
      · exact ⟨new, hnew, hw.ready ▸ hsub⟩
      · refine ⟨new ++ [s.current], ?_, ?_⟩
        · intro t ht
          rcases List.mem_append.mp ht with ht | ht
          · exact hnew t ht
          · rw [List.mem_singleton.mp ht]
            exact (hs.1.current_free hs.2).1
        · rwa [hw.ready, hw.current, List.append_assoc] at hsub
    · subst hstep
      exact ⟨new, hnew, hw.ready ▸ .refl _⟩
  · refine ⟨[], by simp, ?_⟩
    rw [List.append_nil]
    obtain ⟨-, h⟩ := h
    cases a with
    | yield | timer | unblock | semaUp => exact absurd trivial ha
    | create | createIdle | idleStart | semaTryDown | setPriority =>
      cases h
      exact .refl _
    | block | idleBlock | exit => exact schedule_readyList h ▸ List.erase_sublist
    | semaDown σ =>
      change semaDownTurn s σ = some s' at h
      unfold semaDownTurn at h
      dsimp only at h
      split at h
      · cases h
        exact .refl _
      · exact schedule_readyList h ▸ List.erase_sublist
    | enterSleep n =>
      change threadEnterSleep s n = some s' at h
      unfold threadEnterSleep at h
      split at h
      · cases h
      · split at h
        · exact schedule_readyList h ▸ List.erase_sublist
        · cases h
          exact .refl _

variable {c c' : Clocked T S}

theorem stamped_step (hs : Good c.sched) (hw : Stamped c) (h : ClockedStep c a c') : Stamped c' := by
  obtain ⟨hstep, hnow, hsince⟩ := h
  obtain ⟨new, hnew, hsub⟩ := act_readyList hs hstep
  have hstamp : ∀ t ∈ c'.sched.readyList, c'.since t = if t ∈ c.sched.readyList then c.since t else c.now := by
    intro t ht
    rw [hsince]
    by_cases hr : t ∈ c.sched.readyList <;> simp [hr, ht]
  refine ⟨?_, fun t ht => ?_⟩
  · have hall : (c.sched.readyList ++ new).Pairwise fun t u =>
        (if t ∈ c.sched.readyList then c.since t else c.now) ≤
          if u ∈ c.sched.readyList then c.since u else c.now := by
      refine List.pairwise_append.mpr ⟨?_, ?_, fun t ht u hu => ?_⟩
      · exact hw.1.imp_of_mem fun ht hu hle => by rwa [if_pos ht, if_pos hu]
      · exact List.pairwise_of_forall_mem_list fun t ht u hu => by rw [if_neg (hnew t ht), if_neg (hnew u hu)]
      · rw [if_pos ht, if_neg (hnew u hu)]
        exact (hw.2 t ht).le
    exact (hall.sublist hsub).imp_of_mem fun ht hu hle => by rwa [hstamp _ ht, hstamp _ hu]
  · rw [hstamp t ht, hnow]
    split_ifs with hr
    · exact (hw.2 t hr).trans (Nat.lt_succ_self _)
    · exact Nat.lt_succ_self _

/-- In every run of the kernel the ready list is in the order of the clock. -/
theorem stamped_invariant :
    Invariant (fun c => Init c.sched) (ClockedStep (T := T) (S := S)) fun c => Good c.sched ∧ Stamped c where
  start h := by
    refine ⟨good_invariant.start h, ?_⟩
    unfold Stamped
    rw [h.readyList]
    exact ⟨.nil, by simp⟩
  step hc h := ⟨good_invariant.step hc.1 h.1, stamped_step hc.1 hc.2 h⟩

/-! ### Round robin -/

/-- The threads that `schedule` picks in a run. -/
def picks : Sched T S → List (SchedAction T S) → List T
  | _, [] => []
  | s, a :: as =>
    match act s a with
    | some s' => (if reschedules s a then [s'.current] else []) ++ picks s' as
    | none => []

/-- **Round robin** in a run from `c` to `c'`. -/
structure InTurn (p : ℤ) (c : Clocked T S) (as : List (SchedAction T S)) (c' : Clocked T S) : Prop where
  /-- The threads of the line run in the same cyclic order. -/
  order : ∀ k t, (picks c.sched as)[k]? = some t → (line p c.sched)[k % (line p c.sched).length]? = some t
  /-- Between two picks the thread picked last runs. -/
  running : c'.sched.current = (picks c.sched as).getLastD c.sched.current
  /-- The run goes on. -/
  next : ∀ a, Passive p c'.sched a → Enabled c'.sched a → ∃ c'', ClockedStep c' a c''
  /-- The next thread has waited longest. -/
  longest : ∀ a c'', Passive p c'.sched a → ClockedStep c' a c'' → reschedules c'.sched a →
    ∀ u ∈ c'.sched.readyList, c'.sched.priority u = p →
      c''.sched.current ∈ c'.sched.readyList ∧ c'.since c''.sched.current ≤ c'.since u

theorem run_order {as : List (SchedAction T S)} (hs : Good c.sched) (hp : Highest p c.sched)
    (h : Run (Guarded (fun c => Passive p c.sched) ClockedStep) c as c') :
    (∀ k t, (picks c.sched as)[k]? = some t → (line p c.sched)[k % (line p c.sched).length]? = some t) ∧
      c'.sched.current = (picks c.sched as).getLastD c.sched.current := by
  induction h with
  | nil => exact ⟨by simp [picks], rfl⟩
  | @cons c c₁ c' a as hstep hrun ih =>
    obtain ⟨hp₁, hline⟩ := step_line hs hp hstep.1 hstep.2.1
    obtain ⟨ih1, ih2⟩ := ih (good_invariant.step hs hstep.2.1) hp₁
    have hpicks : picks c.sched (a :: as) =
        (if reschedules c.sched a then [c₁.sched.current] else []) ++ picks c₁.sched as := by
      conv_lhs => unfold picks
      rw [hstep.2.1.2]
    rw [hpicks]
    split_ifs at hline ⊢
    · obtain ⟨hrot, hhead⟩ := hline
      have hlen : 0 < (line p c.sched).length := List.length_pos_iff.mpr hp.some
      refine ⟨fun k t hk => ?_, ?_⟩
      · cases k with
        | zero =>
          rw [Nat.zero_mod, ← List.head?_eq_getElem?, hhead]
          exact hk
        | succ k =>
          have hk' := ih1 k t hk
          rw [hrot, List.length_rotate, List.getElem?_rotate (Nat.mod_lt _ hlen), Nat.mod_add_mod] at hk'
          exact hk'
      · rw [ih2]
        cases picks c₁.sched as <;> rfl
    · obtain ⟨hsame, hcur⟩ := hline
      rw [hsame] at ih1
      rw [hcur] at ih2
      exact ⟨ih1, ih2⟩

omit [DecidableEq S] in
/-- The first thread of the line has waited longest. -/
theorem longest_of_head (hw : Stamped c) {t u : T} (hhead : (line p c.sched).head? = some t)
    (hu : u ∈ c.sched.readyList) (hup : c.sched.priority u = p) :
    t ∈ c.sched.readyList ∧ c.since t ≤ c.since u := by
  have hmem : u ∈ c.sched.readyList.filter (c.sched.priority · = p) := by simp [hu, hup]
  have hsorted := hw.1.filter (c.sched.priority · = p)
  have hline : ∃ rest, line p c.sched = c.sched.readyList.filter (c.sched.priority · = p) ++ rest := by
    unfold line yielded
    split_ifs
    · exact ⟨[], (List.append_nil _).symm⟩
    · exact ⟨_, List.filter_append ..⟩
  obtain ⟨rest, hrest⟩ := hline
  obtain ⟨v, vs, hvs⟩ := List.exists_cons_of_ne_nil (List.ne_nil_of_mem hmem)
  rw [hrest, hvs, List.cons_append, List.head?_cons, Option.some.injEq] at hhead
  subst hhead
  have hv : v ∈ c.sched.readyList.filter (c.sched.priority · = p) := hvs ▸ List.mem_cons_self
  refine ⟨(List.mem_filter.mp hv).1, ?_⟩
  rw [hvs] at hmem hsorted
  rcases List.mem_cons.mp hmem with rfl | hmem
  · exact le_rfl
  · exact List.rel_of_pairwise_cons hsorted hmem

/-- What holds before every step of a run. -/
structure Turning (p : ℤ) (c : Clocked T S) : Prop where
  good : Good c.sched
  stamped : Stamped c
  highest : Highest p c.sched
  idle : c.sched.idleThread ≠ none

theorem turning_step (hc : Turning p c) (ha : Passive p c.sched a) (h : ClockedStep c a c') : Turning p c' where
  good := good_invariant.step hc.good h.1
  stamped := stamped_step hc.good hc.stamped h
  highest := (step_line hc.good hc.highest ha h.1).1
  idle := by
    obtain ⟨s₁, new, hw, -, hstep⟩ := onlyYields_cases hc.good ha.1 h.1.1 h.1.2
    have hid : s₁.idleThread ≠ none := hw.idleThread ▸ hc.idle
    split_ifs at hstep
    · rwa [(threadYield_lists hstep).2.2.2]
    · rwa [← hstep]

theorem turning_run {as : List (SchedAction T S)} (hc : Turning p c)
    (h : Run (Guarded (fun c => Passive p c.sched) ClockedStep) c as c') : Turning p c' := by
  induction h with
  | nil => exact hc
  | cons hstep _ ih => exact ih (turning_step hc hstep.1 hstep.2)

theorem passive_yield (p : ℤ) (s : Sched T S) : Passive p s .yield := by
  refine ⟨trivial, fun s' h t ht hnr hnc => ?_⟩
  obtain ⟨hnext, hready, -, -⟩ := threadYield_lists h
  have hy : t ∉ yielded s := by
    unfold yielded
    split_ifs <;> simp [hnr, hnc]
  rcases List.mem_cons.mp ht with rfl | ht
  · rcases ListDiscipline.nextThreadToRun_cases { s with readyList := yielded s } with ⟨hnil, he⟩ | ⟨u, hu, -, he⟩
    · rw [he] at hnext
      have hidle : s.idleThread = some s.current := by
        by_contra hne
        dsimp only at hnil
        unfold yielded at hnil
        rw [if_neg hne] at hnil
        simp at hnil
      exact absurd (Option.some.inj (hnext.symm.trans hidle)) hnc
    · rw [he] at hnext
      exact absurd (Option.some.inj hnext ▸ hu) hy
  · exact absurd (List.mem_of_mem_erase (hready ▸ ht)) hy

/-- The threads can yield for ever. -/
theorem run_of_yields : ∀ (n : ℕ) {c : Clocked T S}, Turning p c →
    ∃ c', Run (Guarded (fun c => Passive p c.sched) ClockedStep) c (List.replicate n .yield) c'
  | 0, c, _ => ⟨c, .nil⟩
  | n + 1, c, hc => by
    obtain ⟨s', hs'⟩ := Option.isSome_iff_exists.mp ((ListDiscipline.keeps_yield hc.good).2 hc.idle)
    let c₁ : Clocked T S := ⟨s', c.now + 1,
      fun t => if t ∈ s'.readyList ∧ t ∉ c.sched.readyList then c.now else c.since t⟩
    have hstep : ClockedStep c .yield c₁ := ⟨⟨trivial, hs'⟩, rfl, fun _ => rfl⟩
    obtain ⟨c', hrun⟩ := run_of_yields n (turning_step hc (passive_yield p c.sched) hstep)
    exact ⟨c', .cons ⟨passive_yield p c.sched, hstep⟩ hrun⟩

/-- **Round robin**: among the threads of the highest priority, as long as these only yield or are preempted. -/
theorem inTurn_of_run {as : List (SchedAction T S)} (hs : Good c.sched) (hw : Stamped c)
    (hid : c.sched.idleThread ≠ none) (hp : Highest p c.sched)
    (h : Run (Guarded (fun c => Passive p c.sched) ClockedStep) c as c') : InTurn p c as c' := by
  obtain ⟨horder, hrunning⟩ := run_order hs hp h
  have hc' : Turning p c' := turning_run ⟨hs, hw, hp, hid⟩ h
  refine ⟨horder, hrunning, fun a _ he => ?_, fun a c'' ha hstep hre u hu hup => ?_⟩
  · obtain ⟨s'', hs''⟩ := Option.isSome_iff_exists.mp ((keeps_step hc'.good he).2 hc'.idle)
    exact ⟨⟨s'', c'.now + 1, fun t => if t ∈ s''.readyList ∧ t ∉ c'.sched.readyList then c'.now else c'.since t⟩,
      ⟨he, hs''⟩, rfl, fun _ => rfl⟩
  · have hline := (step_line hc'.good hc'.highest ha hstep.1).2
    rw [if_pos hre] at hline
    exact longest_of_head hc'.stamped hline.2 hu hup

/-- Three threads of priority 31 yield, and one of priority 10 is ready all the time. -/
theorem inTurn_of_run_three : ∃ c c' : Clocked (Fin 5) (Fin 2), c.sched.readyList = [2, 3, 4] ∧
    picks c.sched (List.replicate 4 .yield) = [2, 3, 0, 2] ∧ InTurn 31 c (List.replicate 4 .yield) c' := by
  have h : ((threadStart (1 : Fin 5) (0 : Fin 2) ++ [SchedAction.create 2 31, .unblock 2, .create 3 31,
      .unblock 3, .create 4 10, .unblock 4]).foldlM next (threadInit (0 : Fin 5))).map
      (fun s : Sched (Fin 5) (Fin 2) => (s.readyList, yielded s, (yielded s).map s.priority, s.idleThread,
        picks s (List.replicate 4 .yield))) =
      some ([2, 3, 4], [2, 3, 4, 0], [31, 31, 10, 31], some 1, [2, 3, 0, 2]) := by
    decide +kernel
  obtain ⟨s, hs, h⟩ := Option.map_eq_some_iff.mp h
  simp only [Prod.mk.injEq] at h
  obtain ⟨hready, hy, hprio, hidle, hpicks⟩ := h
  have hgood : Good s := (reachable_of_run hs).of_invariant good_invariant
  let c : Clocked (Fin 5) (Fin 2) := ⟨s, 5, fun t => t⟩
  have hw : Stamped c := by
    have hr : c.sched.readyList = [2, 3, 4] := hready
    unfold Stamped
    rw [hr]
    change List.Pairwise (fun t u : Fin 5 => t.val ≤ u.val) [2, 3, 4] ∧ ∀ t ∈ ([2, 3, 4] : List (Fin 5)), t.val < 5
    decide
  have hid : c.sched.idleThread ≠ none := by
    change s.idleThread ≠ none
    simp [hidle]
  have hp : Highest 31 c.sched := by
    change Highest 31 s
    simp only [hy, List.map_cons, List.map_nil, List.cons.injEq] at hprio
    refine ⟨fun t ht => ?_, ?_⟩
    · rw [hy] at ht
      fin_cases ht <;> omega
    · unfold line
      rw [hy]
      simp [hprio]
  obtain ⟨c', hrun⟩ := run_of_yields 4 ⟨hgood, hw, hp, hid⟩
  exact ⟨c, c', hready, hpicks, inTurn_of_run hgood hw hid hp hrun⟩

end Pintos.Threads.RoundRobin
