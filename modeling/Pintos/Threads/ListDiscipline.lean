import Pintos.Threads.Scheduler

/-! # Which thread is in which list

The ready list and the lists of waiters share one list element of a thread. The status of a thread says where
that element may be: this is what `Lists` states, for the moments when the status of the current thread has
changed and `schedule` has not chosen the next one as well as for all others. -/

namespace Pintos.Threads.ListDiscipline

open Pintos.Lib.Runs Pintos.Threads.Scheduler
open Pintos.Threads.Donation (listMax listMax_mem)
open Pintos.Threads.Semaphore (Sema semaInit semaDown semaTryDown semaUp semaUp_cases unsignedSize)

variable {T S : Type*} {s s' : Sched T S} {t : T} {σ : S}

structure Lists (s : Sched T S) : Prop where
  readyNodup : s.readyList.Nodup
  ready : ∀ {t}, t ∈ s.readyList ↔ s.status t = some .ready ∧ s.idleThread ≠ some t
  waitersNodup : ∀ σ, (s.semas σ).waiters.Nodup
  waiting : ∀ {t σ}, t ∈ (s.semas σ).waiters →
    s.status t = some .blocked ∧ s.isSleeping t = false ∧ t ∉ s.parked ∧ s.idleTid ≠ some t
  waitsOnce : ∀ {t σ σ'}, t ∈ (s.semas σ).waiters → t ∈ (s.semas σ').waiters → σ = σ'
  sleeperNodup : s.sleeperList.Nodup
  sleeper : ∀ {t}, t ∈ s.sleeperList ↔ s.isSleeping t = true ∧ s.status t = some .blocked
  sleeping : ∀ {t}, s.isSleeping t = true →
    s.status t = some .blocked ∧ t ∉ s.parked ∧ s.idleTid ≠ some t
  parkedNodup : s.parked.Nodup
  parked : ∀ {t}, t ∈ s.parked → s.status t = some .blocked ∧ s.idleThread ≠ some t
  idle : ∀ {t}, s.idleThread = some t → s.idleTid = some t
  idleLives : ∀ {t}, s.idleTid = some t → s.status t ≠ none ∧ s.status t ≠ some .dying

/-- One thread runs, the current one. -/
structure Runs (s : Sched T S) : Prop where
  current : s.status s.current = some .running
  only : ∀ {t}, s.status t = some .running → t = s.current

/-- The current thread has given up the processor. -/
def Idle (s : Sched T S) : Prop := ∀ t, s.status t ≠ some .running

variable [DecidableEq T]

section frame

variable (st : Status) (t' : T)

@[simp, grind =] theorem setStatus_status : (s.setStatus t st).status t' =
    if t' = t then some st else s.status t' := Function.update_apply ..

@[simp, grind =] theorem setStatus_readyList : (s.setStatus t st).readyList = s.readyList := rfl
@[simp, grind =] theorem setStatus_sleeperList :
    (s.setStatus t st).sleeperList = s.sleeperList := rfl
@[simp, grind =] theorem setStatus_semas : (s.setStatus t st).semas σ = s.semas σ := rfl
@[simp, grind =] theorem setStatus_parked : (s.setStatus t st).parked = s.parked := rfl
@[simp, grind =] theorem setStatus_idleThread : (s.setStatus t st).idleThread = s.idleThread := rfl
@[simp, grind =] theorem setStatus_idleTid : (s.setStatus t st).idleTid = s.idleTid := rfl
@[simp, grind =] theorem setStatus_current : (s.setStatus t st).current = s.current := rfl
@[simp, grind =] theorem setStatus_initialThread :
    (s.setStatus t st).initialThread = s.initialThread := rfl
@[simp, grind =] theorem setStatus_isSleeping :
    (s.setStatus t st).isSleeping t' = s.isSleeping t' := rfl

end frame

/-! ### The switch -/

/-- What `next_thread_to_run` returns. -/
theorem nextThreadToRun_cases (s : Sched T S) :
    (s.readyList = [] ∧ nextThreadToRun s = (s.idleThread, s)) ∨
    ∃ t ∈ s.readyList, (∀ u ∈ s.readyList, s.priority u ≤ s.priority t) ∧
      nextThreadToRun s = (some t, { s with readyList := s.readyList.erase t }) := by
  unfold nextThreadToRun
  split <;> rename_i h
  · exact .inl ⟨h, rfl⟩
  · rename_i e es
    right
    rw [h]
    exact ⟨_, listMax_mem s.priority es e, fun u hu => Donation.le_listMax _ _ _ _ hu, rfl⟩

/-- The thread `next` has taken over from the current thread, which is not running any more. -/
def switchTo (s : Sched T S) (next : T) : Sched T S :=
  threadScheduleTail { s with readyList := s.readyList.erase next } next
    (if s.current ≠ next then some s.current else none)

/-- **What `schedule` does**: it switches to a ready thread of the highest priority, or to the idle thread if
there is none. -/
theorem schedule_cases (h : schedule s = some s') : ∃ next, s' = switchTo s next ∧
    s.status next ≠ none ∧ ((s.readyList = [] ∧ s.idleThread = some next) ∨
      next ∈ s.readyList ∧ ∀ u ∈ s.readyList, s.priority u ≤ s.priority next) := by
  unfold schedule at h
  rcases nextThreadToRun_cases s with ⟨hr, he⟩ | ⟨t, ht, hmax, he⟩
  · rw [he] at h
    cases hi : s.idleThread with
    | none => simp [hi] at h
    | some t =>
      simp only [hi] at h
      split at h
      · cases h
      · rename_i hn
        have hs : { s with readyList := s.readyList.erase t } = s := by rw [hr]; cases s; simp_all
        refine ⟨t, ?_, fun hn' => hn (.inr hn'), .inl ⟨hr, rfl⟩⟩
        unfold switchTo
        rw [hs]
        split at h <;> simp_all
  · rw [he] at h
    simp only at h
    split at h
    · cases h
    · rename_i hn
      refine ⟨t, ?_, fun hn' => hn (.inr hn'), .inr ⟨ht, hmax⟩⟩
      unfold switchTo
      split at h <;> simp_all

section switchTo

variable (next : T)

@[grind =] theorem switchTo_status : (switchTo s next).status t =
    if t = next then some .running
    else if t = s.current ∧ s.status t = some .dying ∧ t ≠ s.initialThread then none
    else s.status t := by
  unfold switchTo threadScheduleTail
  by_cases hc : s.current = next
  · simp only [hc, ne_eq, not_true, if_false, setStatus_status]
    grind
  · simp only [hc, ne_eq, not_false_eq_true, if_true, setStatus_status, if_false,
      setStatus_initialThread]
    split
    · simp only [Function.update_apply, setStatus_status]
      grind
    · simp only [setStatus_status]
      grind

end switchTo

theorem switchTo_lists (s : Sched T S) (next : T) :
    (switchTo s next).readyList = s.readyList.erase next ∧
    (switchTo s next).semas = s.semas ∧ (switchTo s next).isSleeping = s.isSleeping ∧
    (switchTo s next).sleeperList = s.sleeperList ∧ (switchTo s next).parked = s.parked ∧
    (switchTo s next).idleThread = s.idleThread ∧ (switchTo s next).idleTid = s.idleTid ∧
    (switchTo s next).current = next := by
  unfold switchTo threadScheduleTail
  dsimp only
  split
  · split <;> exact ⟨rfl, rfl, rfl, rfl, rfl, rfl, rfl, rfl⟩
  · exact ⟨rfl, rfl, rfl, rfl, rfl, rfl, rfl, rfl⟩

omit [DecidableEq T] in
/-- The next thread is in no list but the ready list. -/
theorem Lists.next_free (hs : Lists s) {next : T}
    (h : (s.readyList = [] ∧ s.idleThread = some next) ∨ next ∈ s.readyList) :
    (∀ σ, next ∉ (s.semas σ).waiters) ∧ s.isSleeping next = false ∧ next ∉ s.parked := by
  have hst : (s.idleThread = some next ∧ s.idleTid = some next) ∨ s.status next = some .ready := by
    rcases h with ⟨-, h⟩ | h
    · exact .inl ⟨h, hs.idle h⟩
    · exact .inr (hs.ready.mp h).1
  refine ⟨fun σ hm => ?_, ?_, fun hm => ?_⟩
  · have := hs.waiting hm
    grind
  · by_contra hsl
    have := hs.sleeping (t := next) (by simpa using hsl)
    grind
  · have := hs.parked hm
    grind

theorem lists_switchTo (hs : Lists s) (hi : Idle s) {next : T}
    (h : (s.readyList = [] ∧ s.idleThread = some next) ∨ next ∈ s.readyList) :
    Lists (switchTo s next) ∧ Runs (switchTo s next) := by
  obtain ⟨e1, e2, e3, e4, e5, e6, e7, e8⟩ := switchTo_lists s next
  have hst := fun t => switchTo_status (s := s) (t := t) next
  obtain ⟨f1, f2, f3⟩ := hs.next_free h
  obtain ⟨h1, h2, h3, h4, h5, h6, h7, h8, h9, h10, h11, h12⟩ := hs
  unfold Idle at hi
  refine ⟨?_, ?_⟩
  · constructor <;> simp only [e1, e2, e3, e4, e5, e6, e7, hst]
    · exact h1.erase next
    · intro t
      rw [h1.mem_erase_iff]
      grind
    · exact h3
    · intro t σ ht
      have := h4 ht
      grind
    · exact h5
    · exact h6
    · grind
    · grind
    · exact h9
    · grind
    · exact h11
    · grind
  · constructor <;> grind

/-- **The switch** keeps the discipline and leaves one thread running. -/
theorem schedule_spec (hs : Lists s) (hi : Idle s) (h : schedule s = some s') :
    Lists s' ∧ Runs s' := by
  obtain ⟨next, rfl, -, hnext⟩ := schedule_cases h
  exact lists_switchTo hs hi (hnext.imp_right And.left)

/-- `schedule` finds a thread to switch to. -/
theorem schedule_isSome (hs : Lists s) (hi : Idle s)
    (hid : s.readyList = [] → s.idleThread ≠ none) : (schedule s).isSome := by
  have hc := hi s.current
  unfold schedule
  rcases nextThreadToRun_cases s with ⟨hr, he⟩ | ⟨t, ht, -, he⟩
  · obtain ⟨i, hi'⟩ := Option.ne_none_iff_exists'.mp (hid hr)
    have hlive := (hs.idleLives (hs.idle hi')).1
    rw [he, hi']
    simp only [hc, hlive, or_self, if_false]
    split <;> rfl
  · have hlive : s.status t ≠ none := by
      rw [(hs.ready.mp ht).1]
      simp
    rw [he]
    simp only [hc, hlive, or_self, if_false]
    split <;> rfl

/-! ### Giving up the processor -/

omit [DecidableEq T] in
/-- The running thread is in no list. -/
theorem Lists.current_free (hs : Lists s) (hr : Runs s) :
    s.current ∉ s.readyList ∧ (∀ σ, s.current ∉ (s.semas σ).waiters) ∧
      s.isSleeping s.current = false ∧ s.current ∉ s.parked ∧ s.current ∉ s.sleeperList := by
  have hc := hr.current
  refine ⟨fun hm => ?_, fun σ hm => ?_, ?_, fun hm => ?_, fun hm => ?_⟩
  · have := (hs.ready.mp hm).1
    grind
  · have := (hs.waiting hm).1
    grind
  · by_contra hsl
    have := (hs.sleeping (t := s.current) (by simpa using hsl)).1
    grind
  · have := (hs.parked hm).1
    grind
  · have := (hs.sleeper.mp hm).2
    grind

theorem Runs.idle (hr : Runs s) {st : Status} (hst : st ≠ .running) :
    Idle (s.setStatus s.current st) := by
  intro t ht
  rw [setStatus_status] at ht
  split at ht
  · exact hst (Option.some.inj ht)
  · exact ‹¬ _› (hr.only ht)

theorem lists_setBlocked (hs : Lists s) (hr : Runs s) : Lists (s.setStatus s.current .blocked) := by
  obtain ⟨f1, f2, f3, f4, f5⟩ := hs.current_free hr
  have hc := hr.current
  obtain ⟨h1, h2, h3, h4, h5, h6, h7, h8, h9, h10, h11, h12⟩ := hs
  constructor <;> grind

theorem lists_park (hs : Lists s) (hr : Runs s) (hid : s.idleTid ≠ some s.current) :
    Lists ({ s with parked := s.parked ++ [s.current] }.setStatus s.current .blocked) := by
  obtain ⟨f1, f2, f3, f4, f5⟩ := hs.current_free hr
  have hc := hr.current
  obtain ⟨h1, h2, h3, h4, h5, h6, h7, h8, h9, h10, h11, h12⟩ := hs
  constructor <;> grind [List.nodup_append]

theorem lists_exit (hs : Lists s) (hr : Runs s) (hid : s.idleTid ≠ some s.current) :
    Lists (s.setStatus s.current .dying) := by
  obtain ⟨f1, f2, f3, f4, f5⟩ := hs.current_free hr
  have hc := hr.current
  obtain ⟨h1, h2, h3, h4, h5, h6, h7, h8, h9, h10, h11, h12⟩ := hs
  constructor <;> grind

theorem lists_yield (hs : Lists s) (hr : Runs s) :
    Lists ({ s with readyList := if s.idleThread = some s.current then s.readyList
      else s.readyList ++ [s.current] }.setStatus s.current .ready) := by
  obtain ⟨f1, f2, f3, f4, f5⟩ := hs.current_free hr
  have hc := hr.current
  obtain ⟨h1, h2, h3, h4, h5, h6, h7, h8, h9, h10, h11, h12⟩ := hs
  constructor <;> grind [List.nodup_append]

omit [DecidableEq T] in
theorem mem_insertOrdered {w : T → ℤ} {t u : T} : ∀ {ts : List T},
    u ∈ insertOrdered w t ts ↔ u = t ∨ u ∈ ts
  | [] => by simp [insertOrdered]
  | e :: es => by
    unfold insertOrdered
    split
    · simp
    · rw [List.mem_cons, mem_insertOrdered, List.mem_cons]
      tauto

omit [DecidableEq T] in
theorem nodup_insertOrdered {w : T → ℤ} {t : T} : ∀ {ts : List T}, t ∉ ts → ts.Nodup →
    (insertOrdered w t ts).Nodup
  | [], _, _ => by simp [insertOrdered]
  | e :: es, ht, hn => by
    obtain ⟨he, hn'⟩ := List.nodup_cons.mp hn
    obtain ⟨hte, ht'⟩ := not_or.mp (mt List.mem_cons.mpr ht)
    unfold insertOrdered
    split
    · exact List.nodup_cons.mpr ⟨ht, hn⟩
    · refine List.nodup_cons.mpr ⟨fun hm => ?_, nodup_insertOrdered ht' hn'⟩
      rcases mem_insertOrdered.mp hm with rfl | hm
      · exact hte rfl
      · exact he hm

theorem lists_sleep (hs : Lists s) (hr : Runs s) (hid : s.idleTid ≠ some s.current) (w : T → ℤ) :
    Lists ({ s with
      isSleeping := Function.update s.isSleeping s.current true
      wakeupTime := w
      sleeperList := insertOrdered w s.current s.sleeperList }.setStatus s.current .blocked) := by
  obtain ⟨f1, f2, f3, f4, f5⟩ := hs.current_free hr
  have hc := hr.current
  have hn := nodup_insertOrdered (w := w) f5 hs.sleeperNodup
  have hm := fun u => @mem_insertOrdered T w s.current u s.sleeperList
  obtain ⟨h1, h2, h3, h4, h5, h6, h7, h8, h9, h10, h11, h12⟩ := hs
  constructor <;> grind

/-! ### Becoming ready -/

theorem lists_ready (hs : Lists s) (ht : s.status t = some .blocked)
    (hw : ∀ σ, t ∉ (s.semas σ).waiters) (hsl : s.isSleeping t = false)
    (hid : s.idleThread ≠ some t) :
    Lists ({ s with readyList := s.readyList ++ [t], parked := s.parked.erase t }.setStatus t
      .ready) := by
  obtain ⟨h1, h2, h3, h4, h5, h6, h7, h8, h9, h10, h11, h12⟩ := hs
  constructor <;> grind [List.nodup_append]

/-- The same of a thread that is not parked. -/
theorem lists_ready' (hs : Lists s) (ht : s.status t = some .blocked)
    (hw : ∀ σ, t ∉ (s.semas σ).waiters) (hsl : s.isSleeping t = false)
    (hid : s.idleThread ≠ some t) (hp : t ∉ s.parked) :
    Lists ({ s with readyList := s.readyList ++ [t] }.setStatus t .ready) := by
  have h := lists_ready hs ht hw hsl hid
  rwa [List.erase_of_not_mem hp] at h

/-- A thread that is ready now does not disturb the one that runs. -/
theorem Runs.unblock (hr : Runs s) (ht : s.status t = some .blocked) {p r : List T} :
    Runs ({ s with readyList := r, parked := p }.setStatus t .ready) := by
  obtain ⟨h1, h2⟩ := hr
  constructor <;> grind

/-- The state between two steps. -/
def Good (s : Sched T S) : Prop := Lists s ∧ Runs s

/-- The thread is off the list of the sleepers, and not yet ready. -/
theorem lists_woken (hs : Lists s) (ht : s.isSleeping t = true) (w : T → ℤ) :
    Lists { s with
      isSleeping := Function.update s.isSleeping t false
      wakeupTime := w
      sleeperList := s.sleeperList.erase t } := by
  obtain ⟨hb, hp, hid⟩ := hs.sleeping ht
  obtain ⟨h1, h2, h3, h4, h5, h6, h7, h8, h9, h10, h11, h12⟩ := hs
  constructor <;> grind

theorem exitSleep_spec (hs : Good s) (ht : s.isSleeping t = true) :
    ∃ s', threadExitSleep s t = some s' ∧ Good s' ∧ s'.idleThread = s.idleThread ∧
      s'.isSleeping = Function.update s.isSleeping t false := by
  obtain ⟨hl, hr⟩ := hs
  obtain ⟨hb, hp, hid⟩ := hl.sleeping ht
  have hw : ∀ σ, t ∉ (s.semas σ).waiters := fun σ hm => by
    rw [(hl.waiting hm).2.1] at ht
    cases ht
  have hl' := lists_ready' (lists_woken hl ht (Function.update s.wakeupTime t 0)) hb hw
    (by simp) (fun h => hid (hl.idle h)) hp
  unfold threadExitSleep threadUnblock
  rw [if_pos ht, if_pos hb]
  refine ⟨_, rfl, ⟨hl', ?_⟩, rfl, rfl⟩
  obtain ⟨h1, h2⟩ := hr
  constructor <;> grind

/-- The loop over the sleepers. -/
theorem wakeSleepers_spec : ∀ (ts : List T) (s : Sched T S), Good s → ts.Nodup →
    (∀ u ∈ ts, s.isSleeping u = true) →
    ∃ s', wakeSleepers s ts = some s' ∧ Good s' ∧ s'.idleThread = s.idleThread
  | [], s, hs, _, _ => ⟨s, rfl, hs, rfl⟩
  | t :: ts, s, hs, hn, hsl => by
    unfold wakeSleepers
    split
    · exact ⟨s, rfl, hs, rfl⟩
    obtain ⟨hnt, hn'⟩ := List.nodup_cons.mp hn
    obtain ⟨s₁, h1, hs1, hid1, hsl1⟩ := exitSleep_spec hs (hsl t List.mem_cons_self)
    have hsl' : ∀ u ∈ ts, s₁.isSleeping u = true := by
      intro u hu
      have hut : u ≠ t := by
        rintro rfl
        exact hnt hu
      rw [hsl1, Function.update_of_ne hut]
      exact hsl u (List.mem_cons_of_mem t hu)
    obtain ⟨s₂, h2, hs2, hid2⟩ := wakeSleepers_spec ts s₁ hs1 hn' hsl'
    exact ⟨s₂, by rw [h1]; exact h2, hs2, hid2.trans hid1⟩

/-! ### The calls -/

/-- What a step promises: the discipline, and that it does not fail once there is an idle thread. -/
def Keeps (s : Sched T S) (r : Option (Sched T S)) : Prop :=
  (∀ s', r = some s' → Good s') ∧ (s.idleThread ≠ none → r.isSome)

omit [DecidableEq T] in
theorem keeps_some (hs : Good s') : Keeps s (some s') :=
  ⟨fun _ h => Option.some.inj h ▸ hs, fun _ => rfl⟩

theorem keeps_schedule (hl : Lists s') (hi : Idle s') (hid : s'.idleThread = s.idleThread) :
    Keeps s (schedule s') :=
  ⟨fun _ h => schedule_spec hl hi h, fun h => schedule_isSome hl hi fun _ => by rwa [hid]⟩

theorem keeps_yield (hs : Good s) : Keeps s (threadYield s) :=
  keeps_schedule (lists_yield hs.1 hs.2) (hs.2.idle (by simp)) rfl

omit [DecidableEq T] in
theorem good_ticks (hs : Good s) (n : ℤ) (k : ℕ) : Good { s with ticks := n, threadTicks := k } := by
  obtain ⟨⟨h1, h2, h3, h4, h5, h6, h7, h8, h9, h10, h11, h12⟩, h13, h14⟩ := hs
  exact ⟨⟨h1, h2, h3, h4, h5, h6, h7, h8, h9, h10, h11, h12⟩, h13, h14⟩

theorem keeps_timer (hs : Good s) : Keeps s (timerInterrupt s) := by
  obtain ⟨s₁, h1, hs1, hid1⟩ := wakeSleepers_spec s.sleeperList _
    (good_ticks hs (s.ticks + 1) (s.threadTicks + 1)) hs.1.sleeperNodup
    fun u hu => (hs.1.sleeper.mp hu).1
  unfold timerInterrupt
  dsimp only
  rw [h1, Option.bind_some]
  split
  · obtain ⟨hk1, hk2⟩ := keeps_yield hs1
    exact ⟨hk1, fun h => hk2 (by rwa [hid1])⟩
  · exact keeps_some hs1

theorem keeps_unblock (hs : Good s) (ht : t ∈ s.parked) :
    Keeps s ((threadUnblock s t).map fun s => { s with parked := s.parked.erase t }) := by
  obtain ⟨hl, hr⟩ := hs
  obtain ⟨hb, hid⟩ := hl.parked ht
  have hw : ∀ σ, t ∉ (s.semas σ).waiters := fun σ hm => (hl.waiting hm).2.2.1 ht
  have hsl : s.isSleeping t = false := by
    by_contra h
    exact (hl.sleeping (t := t) (by simpa using h)).2.1 ht
  unfold threadUnblock
  rw [if_pos hb]
  exact keeps_some ⟨lists_ready hl hb hw hsl hid,
    hr.unblock hb (p := s.parked.erase t) (r := s.readyList ++ [t])⟩

theorem keeps_enterSleep (hs : Good s) (hid : s.idleTid ≠ some s.current) (n : ℤ) :
    Keeps s (threadEnterSleep s n) := by
  obtain ⟨-, -, hsl, -⟩ := hs.1.current_free hs.2
  unfold threadEnterSleep
  rw [hsl]
  simp only [Bool.false_eq_true, if_false]
  split
  · have hb : Status.blocked ≠ .running := by simp
    exact keeps_schedule (lists_sleep hs.1 hs.2 hid _) (hs.2.idle hb) rfl
  · exact keeps_some hs

variable [DecidableEq S]

theorem lists_wait (hs : Lists s) (hr : Runs s) (hid : s.idleTid ≠ some s.current) (σ : S) (v : ℕ) :
    Lists ({ s with
      semas := Function.update s.semas σ ⟨v, (s.semas σ).waiters ++ [s.current]⟩ }.setStatus
        s.current .blocked) := by
  obtain ⟨f1, f2, f3, f4, f5⟩ := hs.current_free hr
  have hc := hr.current
  have hf := f2 σ
  obtain ⟨h1, h2, h3, h4, h5, h6, h7, h8, h9, h10, h11, h12⟩ := hs
  constructor <;> grind [List.nodup_append]

/-- A semaphore changes its value, or loses a waiter. -/
theorem lists_semas (hs : Lists s) (σ : S) (sema : Sema T)
    (hw : ∀ t ∈ sema.waiters, t ∈ (s.semas σ).waiters) (hn : sema.waiters.Nodup) :
    Lists { s with semas := Function.update s.semas σ sema } := by
  obtain ⟨h1, h2, h3, h4, h5, h6, h7, h8, h9, h10, h11, h12⟩ := hs
  constructor <;> grind

theorem good_value (hs : Good s) (σ : S) (v : ℕ) :
    Good { s with semas := Function.update s.semas σ { s.semas σ with value := v } } := by
  obtain ⟨hl, h1, h2⟩ := hs
  exact ⟨lists_semas hl σ _ (fun _ h => h) (hl.waitersNodup σ), h1, h2⟩

theorem keeps_semaDown (hs : Good s) (hid : s.idleTid ≠ some s.current) (σ : S) :
    Keeps s (semaDownTurn s σ) := by
  unfold semaDownTurn
  by_cases hv : (s.semas σ).value = 0
  · simp only [semaDown, if_pos hv, Bool.false_eq_true, if_false]
    have hr : Runs { s with
        semas := Function.update s.semas σ ⟨0, (s.semas σ).waiters ++ [s.current]⟩ } :=
      ⟨hs.2.current, hs.2.only⟩
    rw [hv]
    exact keeps_schedule (lists_wait hs.1 hs.2 hid σ 0) (hr.idle (by simp)) rfl
  · simp only [semaDown, if_neg hv, if_true]
    exact keeps_some (good_value hs σ _)

theorem keeps_semaUp (hs : Good s) (σ : S) : Keeps s (semaUpCall s σ) := by
  unfold semaUpCall
  rcases semaUp_cases s.priority (s.semas σ) with ⟨hw, he⟩ | ⟨t, hw, he⟩
  · rw [he]
    exact keeps_some (good_value hs σ _)
  · rw [he]
    obtain ⟨hl, hr⟩ := hs
    obtain ⟨hb, hsl, hp, hid⟩ := hl.waiting hw
    have hn := hl.waitersNodup σ
    have hl' := lists_semas hl σ ⟨((s.semas σ).value + 1) % unsignedSize,
      (s.semas σ).waiters.erase t⟩ (fun _ h => List.mem_of_mem_erase h) (hn.erase t)
    have hw' : ∀ σ', t ∉ (Function.update s.semas σ ⟨((s.semas σ).value + 1) % unsignedSize,
        (s.semas σ).waiters.erase t⟩ σ').waiters := by
      intro σ' hm
      have hne := fun h : t ∈ (s.semas σ').waiters => hl.waitsOnce hw h
      have hself := hn.mem_erase_iff (a := t) (b := t)
      grind
    have hl'' := lists_ready' hl' hb hw' hsl (fun h => hid (hl.idle h)) hp
    unfold threadUnblock
    dsimp only
    rw [if_pos hb]
    refine keeps_some ⟨hl'', ?_⟩
    obtain ⟨h1, h2⟩ := hr
    constructor <;> grind

/-! ### All steps -/

omit [DecidableEq S] in
/-- A new thread, for the idle thread or not. -/
theorem good_create (hs : Good s) (ht : s.status t = none) (p : ℤ) {i : Option T}
    (hi : i = s.idleTid ∨ i = some t ∧ s.idleTid = none) :
    Good { initThread s t p with parked := s.parked ++ [t], idleTid := i } := by
  obtain ⟨⟨h1, h2, h3, h4, h5, h6, h7, h8, h9, h10, h11, h12⟩, h13, h14⟩ := hs
  have hnp : t ∉ s.parked := fun h => by simp [(h10 h).1] at ht
  have hns : t ∉ s.sleeperList := fun h => by simp [(h7.mp h).2] at ht
  unfold initThread
  refine ⟨?_, ?_⟩
  · constructor <;> grind [List.nodup_append]
  · constructor <;> grind

omit [DecidableEq S] [DecidableEq T] in
theorem good_idleStart (hs : Good s) (ht : s.idleTid = some s.current) (hn : s.idleThread = none) :
    Good { s with idleThread := some s.current } := by
  obtain ⟨⟨h1, h2, h3, h4, h5, h6, h7, h8, h9, h10, h11, h12⟩, h13, h14⟩ := hs
  refine ⟨?_, h13, h14⟩
  constructor <;> grind

theorem keeps_step {a : SchedAction T S} (hs : Good s) (he : Enabled s a) : Keeps s (act s a) := by
  cases a with
  | create t p => exact keeps_some (good_create hs he.1 p (.inl rfl))
  | createIdle t => exact keeps_some (good_create hs he.1 0 (.inr ⟨rfl, he.2⟩))
  | idleStart => exact keeps_some (good_idleStart hs he.1 he.2)
  | unblock t => exact keeps_unblock hs he
  | yield => exact keeps_yield hs
  | block =>
    have hr : Runs { s with parked := s.parked ++ [s.current] } := ⟨hs.2.current, hs.2.only⟩
    exact keeps_schedule (lists_park hs.1 hs.2 he) (hr.idle (by simp)) rfl
  | idleBlock => exact keeps_schedule (lists_setBlocked hs.1 hs.2) (hs.2.idle (by simp)) rfl
  | semaDown σ => exact keeps_semaDown hs he σ
  | semaTryDown σ =>
    refine keeps_some ?_
    unfold semaTryDownCall semaTryDown
    split
    · exact good_value hs σ _
    · exact good_value hs σ (s.semas σ).value
  | semaUp σ => exact keeps_semaUp hs σ
  | enterSleep n => exact keeps_enterSleep hs he n
  | timer => exact keeps_timer hs
  | exit => exact keeps_schedule (lists_exit hs.1 hs.2 he) (hs.2.idle (by simp)) rfl
  | setPriority t p =>
    obtain ⟨⟨h1, h2, h3, h4, h5, h6, h7, h8, h9, h10, h11, h12⟩, h13, h14⟩ := hs
    exact keeps_some ⟨⟨h1, h2, h3, h4, h5, h6, h7, h8, h9, h10, h11, h12⟩, h13, h14⟩

theorem good_invariant : Invariant Init (Step (T := T) (S := S)) Good where
  start h := by
    obtain ⟨h1, h2, h3, h4, h5, h6, h7, h8, h9⟩ := h
    refine ⟨?_, ?_⟩ <;> constructor <;> simp [h1, h2, h3, h4, h5, h6, h7, h8, h9]
  step hs h := (keeps_step hs h.1).1 _ h.2

/-! ### The discipline -/

/-- **The scheduler's list discipline**, and that none of its assertions fails. -/
structure Discipline (s : Sched T S) : Prop where
  readyNodup : s.readyList.Nodup
  ready : ∀ t, t ∈ s.readyList ↔ s.status t = some .ready ∧ s.idleThread ≠ some t
  running : ∃! t, s.status t = some .running
  unlisted : ∀ t, s.status t = some .running →
    t ∉ s.readyList ∧ t ∉ s.sleeperList ∧ ∀ σ, t ∉ (s.semas σ).waiters
  waitersNodup : ∀ σ, (s.semas σ).waiters.Nodup
  waiting : ∀ t σ, t ∈ (s.semas σ).waiters → s.status t = some .blocked ∧ t ∉ s.readyList
  waitsOnce : ∀ t σ σ', t ∈ (s.semas σ).waiters → t ∈ (s.semas σ').waiters → σ = σ'
  sleeperNodup : s.sleeperList.Nodup
  sleeping : ∀ t, s.isSleeping t = true → s.status t = some .blocked ∧ t ∈ s.sleeperList ∧
    t ∉ s.readyList ∧ ∀ σ, t ∉ (s.semas σ).waiters
  sleeper : ∀ t, t ∈ s.sleeperList → s.isSleeping t = true
  /-- Every call returns; in particular `schedule` finds a thread to switch to. -/
  next : ∀ a, Enabled s a → (act s a).isSome

/-- **Scheduler list discipline**, once `thread_start` has set the idle thread. -/
theorem discipline_of_reachable (h : Reachable Init Step s) (hid : s.idleThread ≠ none) :
    Discipline s := by
  obtain ⟨hl, hr⟩ := h.of_invariant good_invariant
  refine ⟨hl.readyNodup, fun _ => hl.ready, ⟨s.current, hr.current, fun _ => hr.only⟩, ?_,
    hl.waitersNodup, ?_, fun _ _ _ => hl.waitsOnce, hl.sleeperNodup, ?_, fun _ ht =>
    (hl.sleeper.mp ht).1, fun a he => (keeps_step ⟨hl, hr⟩ he).2 hid⟩
  · intro t ht
    obtain ⟨f1, f2, -, -, f5⟩ := hl.current_free hr
    rw [hr.only ht]
    exact ⟨f1, f5, f2⟩
  · intro t σ ht
    have hb := (hl.waiting ht).1
    refine ⟨hb, fun hm => ?_⟩
    rw [(hl.ready.mp hm).1] at hb
    cases hb
  · intro t ht
    have hb := (hl.sleeping ht).1
    refine ⟨hb, hl.sleeper.mpr ⟨ht, hb⟩, fun hm => ?_, fun σ hm => ?_⟩
    · rw [(hl.ready.mp hm).1] at hb
      cases hb
    · rw [(hl.waiting hm).2.1] at ht
      cases ht

/-- The initial thread has created another one and sleeps; the other waits for a semaphore, and the idle
thread runs. -/
theorem discipline_of_reachable_idle : ∃ s : Sched (Fin 3) (Fin 2),
    s.current = 1 ∧ s.sleeperList = [0] ∧ (s.semas 1).waiters = [2] ∧ Discipline s := by
  have h : ((threadStart (1 : Fin 3) (0 : Fin 2) ++ [SchedAction.create 2 31, .unblock 2, .yield,
      .semaDown 1, .enterSleep 10]).foldlM next (threadInit (0 : Fin 3))).map
      (fun s : Sched (Fin 3) (Fin 2) => (s.current, s.sleeperList, (s.semas 1).waiters,
        s.idleThread)) = some (1, [0], [2], some 1) := by
    decide +kernel
  obtain ⟨s, hs, h⟩ := Option.map_eq_some_iff.mp h
  simp only [Prod.mk.injEq] at h
  exact ⟨s, h.1, h.2.1, h.2.2.1, discipline_of_reachable (reachable_of_run hs) (by simp [h])⟩

end Pintos.Threads.ListDiscipline
