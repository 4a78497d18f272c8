import Mathlib.Data.List.TakeWhile
import Pintos.Threads.ListDiscipline

/-! # The alarm clock

What `thread_enter_sleep` and `thread_tick` do to the list of the sleepers. The loop of `thread_tick` stops at
the first thread whose time has not come, so that it wakes up all whose time has come because the list is
sorted; and it is sorted because `list_insert_ordered` keeps it so and nothing else touches it. -/

namespace Pintos.Threads.Alarm

open Pintos.Lib.Runs Pintos.Threads.Scheduler Pintos.Threads.ListDiscipline
open Pintos.Threads.Semaphore (semaDown semaUp_cases)

variable {T S : Type*} {s s' : Sched T S} {t u : T}

/-- The order that `list_insert_ordered` keeps. -/
def Sorted (w : T → ℤ) (ts : List T) : Prop := ts.Pairwise fun t u => w t ≤ w u

/-- The list is sorted, and the time of nobody in it has come. -/
structure Punctual (s : Sched T S) : Prop where
  sorted : Sorted s.wakeupTime s.sleeperList
  notDue : ∀ {t}, t ∈ s.sleeperList → s.ticks < s.wakeupTime t

/-- The state in which `thread_tick` finds the sleepers. -/
def tick (s : Sched T S) : Sched T S :=
  { s with ticks := s.ticks + 1, threadTicks := s.threadTicks + 1 }

/-- The threads that the loop of `thread_tick` reaches and wakes up. -/
def due (s : Sched T S) : List T := s.sleeperList.takeWhile fun t => s.wakeupTime t ≤ s.ticks

theorem mem_due (h : t ∈ due s) : s.wakeupTime t ≤ s.ticks := by
  unfold due at h
  have hd := List.mem_takeWhile_imp h
  exact of_decide_eq_true hd

/-- The sleepers of `s` are those of `s'`, with the same wake-up times. -/
structure SameSleepers (s s' : Sched T S) : Prop where
  sleeperList : s'.sleeperList = s.sleeperList
  ticks : s'.ticks = s.ticks
  wakeupTime : ∀ {t}, t ∈ s.sleeperList → s'.wakeupTime t = s.wakeupTime t

/-- The alarm clock has woken up the threads `ts`. -/
structure Woken (ts : List T) (s s' : Sched T S) : Prop where
  sleeperList : s.sleeperList = ts ++ s'.sleeperList
  ticks : s'.ticks = s.ticks
  wakeupTime : ∀ {t}, t ∉ ts → s'.wakeupTime t = s.wakeupTime t
  ready : ∀ {t}, t ∈ ts → t ∈ s'.readyList ∨ t = s'.current

theorem SameSleepers.punctual (hw : SameSleepers s s') (hs : Punctual s) : Punctual s' := by
  obtain ⟨hl, ht, hw⟩ := hw
  refine ⟨?_, fun {t} hm => ?_⟩
  · unfold Sorted
    rw [hl]
    refine hs.sorted.imp_of_mem fun ha hb hab => ?_
    rwa [hw ha, hw hb]
  · rw [hl] at hm
    rw [ht, hw hm]
    exact hs.notDue hm

/-! ### Going to sleep -/

theorem sorted_insertOrdered {w : T → ℤ} : ∀ {ts : List T}, Sorted w ts → Sorted w (insertOrdered w t ts)
  | [], _ => List.pairwise_singleton _ t
  | e :: es, h => by
    obtain ⟨he, hes⟩ := List.pairwise_cons.mp h
    unfold insertOrdered
    split
    · refine List.pairwise_cons.mpr ⟨fun u hu => ?_, h⟩
      rcases List.mem_cons.mp hu with rfl | hu
      · omega
      · have := he u hu
        omega
    · refine List.pairwise_cons.mpr ⟨fun u hu => ?_, sorted_insertOrdered hes⟩
      rcases mem_insertOrdered.mp hu with rfl | hu
      · omega
      · exact he u hu

/-- A list stays sorted when the time of a thread that is not in it changes. -/
theorem Sorted.congr {w w' : T → ℤ} {ts : List T} (h : Sorted w ts) (hw : ∀ t ∈ ts, w' t = w t) :
    Sorted w' ts := by
  refine List.Pairwise.imp_of_mem (fun ha hb hab => ?_) h
  rwa [hw _ ha, hw _ hb]

variable [DecidableEq T]

theorem schedule_sleepers (h : schedule s = some s') : s'.sleeperList = s.sleeperList ∧
    s'.ticks = s.ticks ∧ s'.wakeupTime = s.wakeupTime := by
  obtain ⟨next, rfl, -, -⟩ := schedule_cases h
  unfold switchTo threadScheduleTail
  dsimp only
  split
  · split <;> exact ⟨rfl, rfl, rfl⟩
  · exact ⟨rfl, rfl, rfl⟩

/-- What `thread_enter_sleep` does to the list. -/
theorem enterSleep_eq {n : ℤ} (h : threadEnterSleep s n = some s') :
    (n ≤ 0 ∧ s' = s) ∨ 0 < n ∧ s'.ticks = s.ticks ∧
      s'.wakeupTime = Function.update s.wakeupTime s.current (s.ticks + n) ∧
      s'.sleeperList = insertOrdered s'.wakeupTime s.current s.sleeperList := by
  unfold threadEnterSleep at h
  split at h
  · cases h
  split at h
  · obtain ⟨hl, ht, hw⟩ := schedule_sleepers h
    refine .inr ⟨by omega, ht, hw, ?_⟩
    rw [hl, hw]
    rfl
  · cases h
    exact .inl ⟨by omega, rfl⟩

/-- `list_insert_ordered` keeps the list sorted, and the new time lies ahead. -/
theorem punctual_enterSleep {n : ℤ} (hg : Good s) (hs : Punctual s) (h : threadEnterSleep s n = some s') :
    Punctual s' := by
  obtain ⟨-, rfl⟩ | ⟨hn, ht, hw, hl⟩ := enterSleep_eq h
  · exact hs
  have hfree : s.current ∉ s.sleeperList := (hg.1.current_free hg.2).2.2.2.2
  have hold : ∀ t ∈ s.sleeperList, s'.wakeupTime t = s.wakeupTime t := by
    intro t ht
    have hne : t ≠ s.current := fun h => hfree (h ▸ ht)
    rw [hw, Function.update_of_ne hne]
  constructor
  · rw [hl]
    exact sorted_insertOrdered (hs.sorted.congr hold)
  · intro t hm
    rw [hl] at hm
    rcases mem_insertOrdered.mp hm with rfl | hm
    · rw [ht, hw, Function.update_self]
      omega
    · rw [ht, hold t hm]
      exact hs.notDue hm

/-! ### The tick -/

theorem exitSleep_eq (h : threadExitSleep s t = some s') :
    s'.sleeperList = s.sleeperList.erase t ∧ s'.readyList = s.readyList ++ [t] ∧ s'.ticks = s.ticks ∧
      s'.wakeupTime = Function.update s.wakeupTime t 0 := by
  unfold threadExitSleep threadUnblock at h
  split at h
  · split at h
    · cases h
      exact ⟨rfl, rfl, rfl, rfl⟩
    · cases h
  · cases h

omit [DecidableEq T] in
theorem takeWhile_congr {p q : T → Bool} : ∀ {ts : List T}, (∀ t ∈ ts, p t = q t) →
    ts.takeWhile p = ts.takeWhile q
  | [], _ => rfl
  | t :: ts, h => by
    rw [List.takeWhile_cons, List.takeWhile_cons, h t List.mem_cons_self,
      takeWhile_congr fun u hu => h u (List.mem_cons_of_mem t hu)]

/-- The loop unblocks the threads that are due, one after the other, and no other. -/
theorem wakeSleepers_eq : ∀ (ts : List T) (s : Sched T S), ts.Nodup → wakeSleepers s ts =
    (ts.takeWhile fun t => s.wakeupTime t ≤ s.ticks).foldlM threadExitSleep s
  | [], s, _ => rfl
  | t :: ts, s, hn => by
    obtain ⟨ht, hn⟩ := List.nodup_cons.mp hn
    unfold wakeSleepers
    by_cases hd : s.wakeupTime t ≤ s.ticks
    · rw [if_neg (by omega), List.takeWhile_cons_of_pos (by simpa using hd), List.foldlM_cons]
      refine Option.bind_congr fun s₁ h1 => ?_
      obtain ⟨-, -, hticks, hw⟩ := exitSleep_eq h1
      have hsame : ∀ u ∈ ts, s₁.wakeupTime u = s.wakeupTime u := by
        intro u hu
        have hne : u ≠ t := fun h => ht (h ▸ hu)
        rw [hw, Function.update_of_ne hne]
      rw [wakeSleepers_eq ts s₁ hn, hticks]
      congr 1
      exact takeWhile_congr fun u hu => by rw [hsame u hu]
    · rw [if_pos (by omega), List.takeWhile_cons_of_neg (by simpa using hd)]
      rfl

/-- What the calls of `thread_exit_sleep` do together to the first threads of the list. -/
theorem foldlM_exitSleep : ∀ (ts rest : List T) {s s' : Sched T S}, s.sleeperList = ts ++ rest →
    ts.foldlM threadExitSleep s = some s' → s'.sleeperList = rest ∧
      s'.readyList = s.readyList ++ ts ∧ s'.ticks = s.ticks ∧
      ∀ t ∉ ts, s'.wakeupTime t = s.wakeupTime t
  | [], rest, s, s', hl, h => by
    cases h
    exact ⟨hl, (List.append_nil _).symm, rfl, fun _ _ => rfl⟩
  | t :: ts, rest, s, s', hl, h => by
    rw [List.foldlM_cons] at h
    obtain ⟨s₁, h1, h2⟩ := Option.bind_eq_some_iff.mp h
    obtain ⟨el, er, et, ew⟩ := exitSleep_eq h1
    have hl1 : s₁.sleeperList = ts ++ rest := by rw [el, hl, List.cons_append, List.erase_cons_head]
    obtain ⟨fl, fr, ft, fw⟩ := foldlM_exitSleep ts rest hl1 h2
    refine ⟨fl, ?_, ft.trans et, fun u hu => ?_⟩
    · rw [fr, er, List.append_assoc, List.singleton_append]
    · obtain ⟨hut, hu⟩ := not_or.mp (mt List.mem_cons.mpr hu)
      rw [fw u hu, ew, Function.update_of_ne hut]

theorem yield_ready (h : threadYield s = some s') (ht : t ∈ s.readyList) :
    t ∈ s'.readyList ∨ t = s'.current := by
  obtain ⟨next, rfl, -, -⟩ := schedule_cases h
  obtain ⟨hl, -, -, -, -, -, -, hc⟩ := switchTo_lists
    ({ s with readyList := if s.idleThread = some s.current then s.readyList
      else s.readyList ++ [s.current] }.setStatus s.current .ready) next
  by_cases hn : t = next
  · exact .inr (hn.trans hc.symm)
  · left
    rw [hl, setStatus_readyList, List.mem_erase_of_ne hn]
    split
    · exact ht
    · exact List.mem_append_left _ ht

/-- **The tick** wakes up the threads that are due. -/
theorem timer_woken (hg : Good s) (h : timerInterrupt s = some s') : Woken (due (tick s)) (tick s) s' := by
  unfold timerInterrupt at h
  obtain ⟨s₁, h1, h2⟩ := Option.bind_eq_some_iff.mp h
  have hn : (tick s).sleeperList.Nodup := hg.1.sleeperNodup
  have hw : wakeSleepers (tick s) (tick s).sleeperList = some s₁ := h1
  rw [wakeSleepers_eq _ _ hn] at hw
  obtain ⟨e1, e2, e3, e4⟩ := foldlM_exitSleep _ _ List.takeWhile_append_dropWhile.symm hw
  have hlist : (tick s).sleeperList = due (tick s) ++ s₁.sleeperList := by
    rw [e1]
    exact List.takeWhile_append_dropWhile.symm
  have hready : ∀ t ∈ due (tick s), t ∈ s₁.readyList := by
    intro t ht
    rw [e2]
    exact List.mem_append_right _ ht
  split at h2
  · obtain ⟨f1, f2, f3⟩ := schedule_sleepers h2
    refine ⟨?_, f2.trans e3, fun ht => ?_, fun ht => yield_ready h2 (hready _ ht)⟩
    · rw [f1]
      exact hlist
    · rw [f3]
      exact e4 _ ht
  · cases h2
    exact ⟨hlist, e3, e4 _, fun ht => .inl (hready _ ht)⟩

/-- The threads behind the ones that are due are not due, as the list is sorted. -/
theorem punctual_timer (hg : Good s) (hs : Punctual s) (h : timerInterrupt s = some s') : Punctual s' := by
  obtain ⟨hl, ht, hw, -⟩ := timer_woken hg h
  have hl' : s.sleeperList = due (tick s) ++ s'.sleeperList := hl
  have hn := hg.1.sleeperNodup
  rw [hl'] at hn
  have hdisj : ∀ t ∈ s'.sleeperList, t ∉ due (tick s) := fun t hm hd =>
    (List.nodup_append.mp hn).2.2 t hd t hm rfl
  have hsorted : Sorted s.wakeupTime s'.sleeperList := by
    have := hs.sorted
    rw [hl'] at this
    exact (List.pairwise_append.mp this).2.1
  refine ⟨hsorted.congr fun t hm => hw (hdisj t hm), fun {t} hm => ?_⟩
  rw [hw (hdisj t hm), ht]
  -- the first thread that is left has stopped the loop, and the others come after it
  have hdrop : s'.sleeperList =
      (tick s).sleeperList.dropWhile fun t => (tick s).wakeupTime t ≤ (tick s).ticks := by
    have := hl
    rw [← List.takeWhile_append_dropWhile (p := fun t => decide ((tick s).wakeupTime t ≤ (tick s).ticks))
      (l := (tick s).sleeperList)] at this
    exact (List.append_cancel_left this).symm
  cases hrest : s'.sleeperList with
  | nil => simp [hrest] at hm
  | cons e es =>
    have he : (tick s).ticks < (tick s).wakeupTime e := by
      have := List.head?_dropWhile_not (fun t => decide ((tick s).wakeupTime t ≤ (tick s).ticks))
        (tick s).sleeperList
      rw [← hdrop, hrest] at this
      simpa using this
    rw [hrest] at hm hsorted
    rcases List.mem_cons.mp hm with rfl | hm
    · exact he
    · exact lt_of_lt_of_le he ((List.pairwise_cons.mp hsorted).1 t hm)

/-! ### All steps -/

variable [DecidableEq S]

theorem sameSleepers_semaUp {σ : S} (h : semaUpCall s σ = some s') : SameSleepers s s' := by
  unfold semaUpCall at h
  rcases semaUp_cases s.priority (s.semas σ) with ⟨hw, he⟩ | ⟨t, hw, he⟩
  · rw [he] at h
    cases h
    exact ⟨rfl, rfl, fun _ => rfl⟩
  · rw [he] at h
    dsimp only at h
    unfold threadUnblock at h
    split at h
    · cases h
      exact ⟨rfl, rfl, fun _ => rfl⟩
    · cases h

omit [DecidableEq S] in
/-- A thread that is created is not in the list. -/
theorem sameSleepers_create (hg : Good s) (ht : s.status t = none) (p : ℤ) {ps : List T} {i : Option T} :
    SameSleepers s { initThread s t p with parked := ps, idleTid := i } := by
  refine ⟨rfl, rfl, fun {u} hu => ?_⟩
  have hut : u ≠ t := by
    rintro rfl
    simp [(hg.1.sleeper.mp hu).2] at ht
  exact Function.update_of_ne hut ..

/-- **What a step does to the sleepers.** -/
theorem sleepers_cases {a : SchedAction T S} (hg : Good s) (h : Step s a s') :
    SameSleepers s s' ∨ (∃ n, a = .enterSleep n ∧ threadEnterSleep s n = some s') ∨
      a = .timer ∧ timerInterrupt s = some s' := by
  obtain ⟨he, h⟩ := h
  have hsched : ∀ {s₁ : Sched T S}, schedule s₁ = some s' → s₁.sleeperList = s.sleeperList →
      s₁.ticks = s.ticks → s₁.wakeupTime = s.wakeupTime → SameSleepers s s' := by
    intro s₁ h h1 h2 h3
    obtain ⟨f1, f2, f3⟩ := schedule_sleepers h
    exact ⟨f1.trans h1, f2.trans h2, fun _ => by rw [f3, h3]⟩
  cases a with
  | create t p =>
    cases h
    exact .inl (sameSleepers_create hg he.1 p)
  | createIdle t =>
    cases h
    exact .inl (sameSleepers_create hg he.1 0)
  | idleStart | semaTryDown | setPriority =>
    cases h
    exact .inl ⟨rfl, rfl, fun _ => rfl⟩
  | unblock t =>
    obtain ⟨s₁, h1, rfl⟩ := Option.map_eq_some_iff.mp h
    unfold threadUnblock at h1
    split at h1
    · cases h1
      exact .inl ⟨rfl, rfl, fun _ => rfl⟩
    · cases h1
  | yield | block | idleBlock | exit => exact .inl (hsched h rfl rfl rfl)
  | semaDown σ =>
    change semaDownTurn s σ = some s' at h
    unfold semaDownTurn at h
    dsimp only at h
    split at h
    · cases h
      exact .inl ⟨rfl, rfl, fun _ => rfl⟩
    · exact .inl (hsched h rfl rfl rfl)
  | semaUp σ => exact .inl (sameSleepers_semaUp h)
  | enterSleep n => exact .inr (.inl ⟨n, rfl, h⟩)
  | timer => exact .inr (.inr ⟨rfl, h⟩)

theorem punctual_invariant :
    Invariant Init (Step (T := T) (S := S)) fun s => Good s ∧ Punctual s where
  start h := by
    refine ⟨good_invariant.start h, ?_⟩
    constructor <;> simp [h.sleeperList, Sorted]
  step := by
    rintro s a s' ⟨hg, hs⟩ h
    refine ⟨good_invariant.step hg h, ?_⟩
    rcases sleepers_cases hg h with h | ⟨n, -, h⟩ | ⟨-, h⟩
    · exact h.punctual hs
    · exact punctual_enterSleep hg hs h
    · exact punctual_timer hg hs h

/-! ### Sleeping and waking up -/

/-- The thread sleeps until the tick `w`. -/
structure Asleep (t : T) (w : ℤ) (s : Sched T S) : Prop where
  isSleeping : s.isSleeping t = true
  blocked : s.status t = some .blocked
  wakeupTime : s.wakeupTime t = w
  notDue : s.ticks < w

/-- The step is the tick `w`. It unblocks the thread, once. -/
structure WakesUp (t : T) (w : ℤ) (s : Sched T S) (a : SchedAction T S) (s' : Sched T S) : Prop where
  timer : a = .timer
  ticks : s'.ticks = w
  once : (due (tick s)).count t = 1
  isSleeping : s'.isSleeping t = false
  ready : t ∈ s'.readyList ∨ t = s'.current

omit [DecidableEq T] [DecidableEq S] in
theorem isSleeping_iff (hg : Good s) : s.isSleeping t = true ↔ t ∈ s.sleeperList :=
  ⟨fun h => hg.1.sleeper.mpr ⟨h, (hg.1.sleeping h).1⟩, fun h => (hg.1.sleeper.mp h).1⟩

omit [DecidableEq T] [DecidableEq S] in
theorem asleep_of_mem (hg : Good s) (hs : Punctual s) (h : t ∈ s.sleeperList) :
    Asleep t (s.wakeupTime t) s := by
  obtain ⟨h1, h2⟩ := hg.1.sleeper.mp h
  exact ⟨h1, h2, rfl, hs.notDue h⟩

/-- The sleepers after a tick. -/
theorem timer_isSleeping (hg : Good s) (hs : Punctual s) (h : Step s .timer s') :
    s'.isSleeping t = true ↔ s.isSleeping t = true ∧ s'.ticks < s.wakeupTime t := by
  obtain ⟨hg', hs'⟩ := punctual_invariant.step ⟨hg, hs⟩ h
  obtain ⟨hl, ht, hw, -⟩ := timer_woken hg h.2
  have hn : (due (tick s) ++ s'.sleeperList).Nodup := hl ▸ hg.1.sleeperNodup
  have hl : s.sleeperList = due (tick s) ++ s'.sleeperList := hl
  rw [isSleeping_iff hg, isSleeping_iff hg', hl, List.mem_append, ht]
  constructor
  · intro hm
    have hd : t ∉ due (tick s) := fun hd => (List.nodup_append.mp hn).2.2 t hd t hm rfl
    have hdue := hs'.notDue hm
    rw [hw hd, ht] at hdue
    exact ⟨.inr hm, hdue⟩
  · rintro ⟨hd | hm, hdue⟩
    · have hle : s.wakeupTime t ≤ (tick s).ticks := mem_due hd
      omega
    · exact hm

/-- A step leaves a sleeping thread asleep, or it is the tick that wakes it up. -/
theorem asleep_step {w : ℤ} {a : SchedAction T S} (hg : Good s) (hs : Punctual s) (ht : Asleep t w s)
    (hstep : Step s a s') : Asleep t w s' ∨ WakesUp t w s a s' := by
  obtain ⟨hg', hs'⟩ := punctual_invariant.step ⟨hg, hs⟩ hstep
  have hm := (isSleeping_iff hg).mp ht.isSleeping
  have hw := ht.wakeupTime
  rcases sleepers_cases hg hstep with h | ⟨n, -, h⟩ | ⟨rfl, h⟩
  · have hm' : t ∈ s'.sleeperList := by rwa [h.sleeperList]
    have hw' := h.wakeupTime hm
    exact .inl (hw ▸ hw' ▸ asleep_of_mem hg' hs' hm')
  · obtain ⟨-, rfl⟩ | ⟨-, -, hwt, hl⟩ := enterSleep_eq h
    · exact .inl ht
    · have hm' : t ∈ s'.sleeperList := by
        rw [hl]
        exact mem_insertOrdered.mpr (.inr hm)
      have hne : t ≠ s.current := fun he => (hg.1.current_free hg.2).2.2.2.2 (he ▸ hm)
      have hw' : s'.wakeupTime t = s.wakeupTime t := by rw [hwt, Function.update_of_ne hne]
      exact .inl (hw ▸ hw' ▸ asleep_of_mem hg' hs' hm')
  · have hsl := timer_isSleeping (t := t) hg hs hstep
    obtain ⟨hl, hticks, hwt, hready⟩ := timer_woken hg h
    have hn := hg.1.sleeperNodup
    have hnotDue := ht.notDue
    by_cases hd : t ∈ due (tick s)
    · have hle : s.wakeupTime t ≤ s.ticks + 1 := mem_due hd
      have hticks' : s'.ticks = s.ticks + 1 := hticks
      have hdn : (due (tick s)).Nodup := (List.takeWhile_sublist _).nodup hn
      refine .inr ⟨rfl, by omega, List.count_eq_one_of_mem hdn hd, ?_, hready hd⟩
      by_contra hc
      have := (hsl.mp (by simpa using hc)).2
      omega
    · have hm' : t ∈ s'.sleeperList := by
        have : t ∈ due (tick s) ++ s'.sleeperList := hl ▸ hm
        exact (List.mem_append.mp this).resolve_left hd
      have hw' : s'.wakeupTime t = s.wakeupTime t := hwt hd
      exact .inl (hw ▸ hw' ▸ asleep_of_mem hg' hs' hm')

omit [DecidableEq S] in
/-- The running thread that yields is among the threads to switch to. -/
theorem yield_isSome (hg : Good s) : (threadYield s).isSome := by
  refine schedule_isSome (lists_yield hg.1 hg.2) (hg.2.idle (by simp)) fun hr hid => ?_
  have hid' : s.idleThread = none := hid
  rw [setStatus_readyList, hid'] at hr
  simp at hr

omit [DecidableEq S] in
theorem timer_isSome (hg : Good s) : (timerInterrupt s).isSome := by
  have hg' : Good (tick s) := by
    obtain ⟨⟨h1, h2, h3, h4, h5, h6, h7, h8, h9, h10, h11, h12⟩, h13, h14⟩ := hg
    exact ⟨⟨h1, h2, h3, h4, h5, h6, h7, h8, h9, h10, h11, h12⟩, h13, h14⟩
  obtain ⟨s₁, h1, hg1, -⟩ := wakeSleepers_spec (tick s).sleeperList (tick s) hg' hg.1.sleeperNodup
    fun u hu => (hg.1.sleeper.mp hu).1
  have h1' : wakeSleepers { s with ticks := s.ticks + 1, threadTicks := s.threadTicks + 1 }
    s.sleeperList = some s₁ := h1
  unfold timerInterrupt
  dsimp only
  rw [h1', Option.bind_some]
  split
  · exact yield_isSome hg1
  · rfl

/-- **The alarm clock is correct**: the list of the sleepers is sorted by wake-up time; a thread that
`thread_enter_sleep` puts to sleep has its wake-up time ahead; a tick always returns, and leaves asleep the
threads whose time is later; and in every run a thread that sleeps until `w` does so up to the tick `w`,
which unblocks it once. -/
theorem alarm (h : Reachable Init Step s) :
    Sorted s.wakeupTime s.sleeperList ∧
    (∀ n s', 0 < n → Step s (.enterSleep n) s' → Asleep s.current (s.ticks + n) s') ∧
    (∃ s', Step s .timer s') ∧
    (∀ s' t, Step s .timer s' →
      (s'.isSleeping t = true ↔ s.isSleeping t = true ∧ s'.ticks < s.wakeupTime t)) ∧
    ∀ t, s.isSleeping t = true → Asleep t (s.wakeupTime t) s ∧
      ∀ as s', Run Step s as s' → Asleep t (s.wakeupTime t) s' ∨
        ∃ as₁ a as₂ s₁ s₂, as = as₁ ++ a :: as₂ ∧
          Run (Guarded (fun s' _ => Asleep t (s.wakeupTime t) s') Step) s as₁ s₁ ∧
          Asleep t (s.wakeupTime t) s₁ ∧ Step s₁ a s₂ ∧ WakesUp t (s.wakeupTime t) s₁ a s₂ ∧
          Run Step s₂ as₂ s' := by
  obtain ⟨hg, hs⟩ := h.of_invariant punctual_invariant
  refine ⟨hs.sorted, fun n s' hn hstep => ?_, ?_, fun s' t hstep => timer_isSleeping hg hs hstep,
    fun t ht => ?_⟩
  · obtain ⟨hg', hs'⟩ := punctual_invariant.step ⟨hg, hs⟩ hstep
    obtain ⟨hle, -⟩ | ⟨-, hticks, hw, hl⟩ := enterSleep_eq hstep.2
    · omega
    have hm : s.current ∈ s'.sleeperList := by
      rw [hl]
      exact mem_insertOrdered.mpr (.inl rfl)
    have hwt : s'.wakeupTime s.current = s.ticks + n := by rw [hw, Function.update_self]
    exact hwt ▸ asleep_of_mem hg' hs' hm
  · obtain ⟨s', hs'⟩ := Option.isSome_iff_exists.mp (timer_isSome hg)
    exact ⟨s', trivial, hs'⟩
  · have hasleep := asleep_of_mem hg hs ((isSleeping_iff hg).mp ht)
    refine ⟨hasleep, fun as s' hrun => ?_⟩
    exact hrun.first_exit (J := fun s => Good s ∧ Punctual s) punctual_invariant.step
      (fun hj hp => asleep_step hj.1 hj.2 hp) ⟨hg, hs⟩ hasleep

/-- Two threads sleep, the later one for the shorter time, and the idle thread runs. -/
theorem alarm_two_sleepers : ∃ s : Sched (Fin 3) (Fin 2),
    s.sleeperList = [2, 0] ∧ Asleep 0 10 s ∧ Asleep 2 3 s ∧ ∃ s', Step s .timer s' := by
  have h : ((threadStart (1 : Fin 3) (0 : Fin 2) ++ [SchedAction.create 2 31, .unblock 2,
      .enterSleep 10, .timer, .enterSleep 2]).foldlM next (threadInit (0 : Fin 3))).map
      (fun s : Sched (Fin 3) (Fin 2) => (s.sleeperList, (s.isSleeping 0, s.wakeupTime 0),
        (s.isSleeping 2, s.wakeupTime 2))) = some ([2, 0], (true, 10), (true, 3)) := by
    decide +kernel
  obtain ⟨s, hs, h⟩ := Option.map_eq_some_iff.mp h
  simp only [Prod.mk.injEq] at h
  obtain ⟨hl, ⟨h1, w1⟩, h2, w2⟩ := h
  obtain ⟨-, -, htimer, -, hall⟩ := alarm (reachable_of_run hs)
  exact ⟨s, hl, w1 ▸ (hall 0 h1).1, w2 ▸ (hall 2 h2).1, htimer⟩

end Pintos.Threads.Alarm
