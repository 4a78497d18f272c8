import Pintos.Threads.Donation

/-! # The donation graph

Who may be in which list, and whose pointers point where, in every state that the lock functions reach. The
semaphore of a lock is a binary one (`Locking`); the recipient pointers and the donor lists are the same
graph, whose edges are blocked or about to block on a lock of their recipient (`Graph`). -/

namespace Pintos.Threads.DonationGraph

open Pintos.Lib.Raising Pintos.Lib.Runs Pintos.Threads.Donation

variable {T L : Type*} [DecidableEq T] [DecidableEq L] {s s' : Kernel T L} {t d r : T} {l : L}

/-- The lock that a thread has taken down but not written itself into, or is about to give up. -/
def owning : Phase L → Option L
  | .downed l | .released l | .restored l => some l
  | _ => none

/-- **The lock discipline**: an owner at most, and none while the semaphore is up. -/
structure Locking (s : Kernel T L) : Prop where
  holder : ∀ {t l}, owning (s.phase t) = some l → s.holder l = none
  unique : ∀ {t t' l}, owning (s.phase t) = some l → owning (s.phase t') = some l → t = t'
  held : ∀ {t l}, s.holder l = some t → s.value l = 0
  owned : ∀ {t l}, owning (s.phase t) = some l → s.value l = 0
  value : ∀ l, s.value l ≤ 1
  waiters : ∀ {t l}, t ∈ s.waiters l ↔ s.phase t = .waiting l
  nodup : ∀ l, (s.waiters l).Nodup

/-- The lock of a donor: the donor is inside `lock_acquire` on it, and its recipient holds it or is inside
`lock_release` on it, about to strike the donor from its list. -/
structure Donates (s : Kernel T L) (d r : T) (l : L) : Prop where
  lock : s.lock d = some l
  phase : s.phase d = .downing l ∨ s.phase d = .waiting l
  holder : s.holder l = some r ∨ s.phase r = .released l ∧ s.holder l = none

structure Graph (s : Kernel T L) : Prop where
  mem : ∀ {d r}, d ∈ s.donorThreadsList r ↔ s.recipient d = some r
  nodup : ∀ r, (s.donorThreadsList r).Nodup
  donates : ∀ {d r}, s.recipient d = some r → ∃ l, Donates s d r l
  le : ∀ {d r}, s.recipient d = some r → s.priority d ≤ s.priority r

/-! ### What the steps keep of the lock discipline -/

omit [DecidableEq T] [DecidableEq L] in
theorem Locking.holder_eq_none (hs : Locking s) (hv : s.value l ≠ 0) : s.holder l = none := by
  cases h : s.holder l with
  | none => rfl
  | some t => exact absurd (hs.held h) hv

omit [DecidableEq T] [DecidableEq L] in
theorem Locking.not_owning (hs : Locking s) (hv : s.holder l = some t) :
    owning (s.phase r) ≠ some l := by
  intro h
  rw [hs.holder h] at hv
  cases hv

omit [DecidableEq T] [DecidableEq L] in
/-- The discipline does not read the priorities and the donations. -/
theorem Locking.congr (hs : Locking s) (hh : s'.holder = s.holder) (hv : s'.value = s.value)
    (hw : s'.waiters = s.waiters) (hp : s'.phase = s.phase) : Locking s' := by
  obtain ⟨h1, h2, h3, h4, h5, h6, h7⟩ := hs
  constructor <;> simpa only [hh, hv, hw, hp]

omit [DecidableEq L] in
/-- A thread moves to where it owns what it owned before, and it is not blocked before or after. -/
theorem locking_setPhase (hs : Locking s) {p : Phase L} (h0 : owning p = owning (s.phase t))
    (hw : ∀ l, p ≠ .waiting l) (hnw : ∀ l, s.phase t ≠ .waiting l) :
    Locking (s.setPhase t p) := by
  obtain ⟨h1, h2, h3, h4, h5, h6, h7⟩ := hs
  constructor <;> grind

theorem locking_block (hs : Locking s) (ht : s.phase t = .downing l) :
    Locking (s.block t l) := by
  have hnew : t ∉ s.waiters l := by
    rw [hs.waiters, ht]
    simp
  obtain ⟨h1, h2, h3, h4, h5, h6, h7⟩ := hs
  unfold Kernel.block
  constructor <;> grind [owning, List.nodup_append]

theorem locking_down (hs : Locking s) (hv : s.value l ≠ 0) (hnw : ∀ l, s.phase t ≠ .waiting l) :
    Locking (s.down t l) := by
  have hn := hs.holder_eq_none hv
  have hv1 : s.value l = 1 := by
    have := hs.value l
    omega
  obtain ⟨h1, h2, h3, h4, h5, h6, h7⟩ := hs
  unfold Kernel.down
  constructor <;> grind [owning]

theorem locking_setHolder (hs : Locking s) (ht : s.phase t = .downed l) :
    Locking ({ s with holder := Function.update s.holder l (some t) }.setPhase t .idle) := by
  obtain ⟨h1, h2, h3, h4, h5, h6, h7⟩ := hs
  constructor <;> grind [owning]

theorem locking_release (hs : Locking s) (ht : s.phase t = .idle) (hh : s.holder l = some t) :
    Locking ({ s with holder := Function.update s.holder l none }.setPhase t (.released l)) := by
  have hn := fun r => hs.not_owning (r := r) hh
  obtain ⟨h1, h2, h3, h4, h5, h6, h7⟩ := hs
  constructor <;> grind [owning]

theorem locking_up (hs : Locking s) (ht : s.phase t = .restored l) :
    Locking ((s.up l).setPhase t .idle) := by
  have hv0 : s.value l = 0 := hs.owned (t := t) (by simp [ht, owning])
  have hn : s.holder l = none := hs.holder (t := t) (by simp [ht, owning])
  obtain ⟨h1, h2, h3, h4, h5, h6, h7⟩ := hs
  unfold Kernel.up
  constructor <;> grind [owning]

theorem locking_wake (hs : Locking s) {w : T} (hw : w ∈ s.waiters l) : Locking (s.wake w l) := by
  have hmw := hs.waiters.mp hw
  obtain ⟨h1, h2, h3, h4, h5, h6, h7⟩ := hs
  unfold Kernel.wake
  constructor <;> grind [owning]

/-! ### What the steps keep of the graph -/

omit [DecidableEq T] [DecidableEq L] in
/-- A step that touches neither priorities nor donations has only the locks of the donors to care for. -/
theorem Graph.frame (hs : Graph s) (hp : s'.priority = s.priority) (hl : s'.recipient = s.recipient)
    (hd : s'.donorThreadsList = s.donorThreadsList)
    (h : ∀ {d r l}, s.recipient d = some r → Donates s d r l → Donates s' d r l) : Graph s' where
  mem := by
    rw [hl, hd]
    exact hs.mem
  nodup := by
    rw [hd]
    exact hs.nodup
  donates := by
    intro d r hdr
    rw [hl] at hdr
    obtain ⟨l, h1⟩ := hs.donates hdr
    exact ⟨l, h hdr h1⟩
  le := by
    rw [hp, hl]
    exact hs.le

omit [DecidableEq T] [DecidableEq L] in
/-- A thread outside `lock_acquire` is no donor. -/
theorem Graph.recipient_eq_none (hs : Graph s) (h1 : ∀ l, s.phase t ≠ .downing l)
    (h2 : ∀ l, s.phase t ≠ .waiting l) : s.recipient t = none := by
  cases h : s.recipient t with
  | none => rfl
  | some r =>
    obtain ⟨l, hd⟩ := hs.donates h
    exact (hd.phase.elim (h1 l) (h2 l)).elim

omit [DecidableEq L] in
/-- A thread that is no donor moves, and it was not about to strike donors. -/
theorem graph_setPhase (hs : Graph s) {p : Phase L} (ht : s.recipient t = none)
    (hr : ∀ l, s.phase t ≠ .released l) : Graph (s.setPhase t p) := by
  refine hs.frame rfl rfl rfl ?_
  rintro d r l hdr ⟨h1, h2, h3⟩
  constructor <;> grind

theorem graph_block (hs : Graph s) (ht : s.phase t = .downing l) : Graph (s.block t l) := by
  refine hs.frame rfl rfl rfl ?_
  rintro d r l' hdr ⟨h1, h2, h3⟩
  unfold Kernel.block
  constructor <;> grind

theorem graph_down (hs : Graph s) (hl : Locking s) (ht : s.phase t = .idle ∨ s.phase t = .downing l)
    (hv : s.value l ≠ 0) : Graph (s.down t l) := by
  have hn := hl.holder_eq_none hv
  have h0 : ∀ r, s.phase r ≠ .released l := fun r hr =>
    hv (hl.owned (t := r) (by simp [hr, owning]))
  refine hs.frame rfl rfl rfl ?_
  rintro d r l' hdr ⟨h1, h2, h3⟩
  unfold Kernel.down
  constructor <;> grind

theorem graph_setHolder (hs : Graph s) (hl : Locking s) (ht : s.phase t = .downed l) :
    Graph ({ s with holder := Function.update s.holder l (some t) }.setPhase t .idle) := by
  have hn := hl.holder (t := t) (l := l) (by simp [ht, owning])
  have h0 : ∀ r, s.phase r ≠ .released l := fun r hr => by
    have hrt : t = r := hl.unique (l := l) (by simp [ht, owning]) (by simp [hr, owning])
    subst hrt
    simp [ht] at hr
  have hrt := hs.recipient_eq_none (t := t) (by simp [ht]) (by simp [ht])
  refine hs.frame rfl rfl rfl ?_
  rintro d r l' hdr ⟨h1, h2, h3⟩
  constructor <;> grind

theorem graph_release (hs : Graph s) (ht : s.phase t = .idle) (hh : s.holder l = some t) :
    Graph ({ s with holder := Function.update s.holder l none }.setPhase t (.released l)) := by
  have hrt := hs.recipient_eq_none (t := t) (by simp [ht]) (by simp [ht])
  refine hs.frame rfl rfl rfl ?_
  rintro d r l' hdr ⟨h1, h2, h3⟩
  constructor <;> grind

theorem graph_up (hs : Graph s) (ht : s.phase t = .restored l) :
    Graph ((s.up l).setPhase t .idle) := by
  have hrt := hs.recipient_eq_none (t := t) (by simp [ht]) (by simp [ht])
  have hup : Graph (s.up l) := hs.frame rfl rfl rfl fun _ ⟨h1, h2, h3⟩ => ⟨h1, h2, h3⟩
  exact graph_setPhase hup hrt fun _ h => by simp [Kernel.up, ht] at h

theorem graph_wake (hs : Graph s) {w : T} (hw : s.phase w = .waiting l) : Graph (s.wake w l) := by
  refine hs.frame rfl rfl rfl ?_
  rintro d r l' hdr ⟨h1, h2, h3⟩
  unfold Kernel.wake
  constructor <;> grind

omit [DecidableEq L] in
theorem graph_setPriority (hs : Graph s) (ht : s.phase t = .idle) (p : ℤ) :
    Graph (threadSetPriority s t p) := by
  have hrt := hs.recipient_eq_none (t := t) (by simp [ht]) (by simp [ht])
  refine ⟨hs.mem, hs.nodup, ?_, ?_⟩
  · intro d r hdr
    obtain ⟨l, h1, h2, h3⟩ := hs.donates hdr
    exact ⟨l, h1, h2, h3⟩
  · intro d r hdr
    change s.recipient d = some r at hdr
    have hdt : d ≠ t := by
      rintro rfl
      rw [hrt] at hdr
      cases hdr
    have hset : ∀ x, (threadSetPriority s t p).priority x =
        if x = t then maxPriority s.priority p (s.donorThreadsList t) else s.priority x := fun x => by
      unfold threadSetPriority
      exact Function.update_apply ..
    rw [hset, hset, if_neg hdt]
    by_cases hrt' : r = t
    · subst hrt'
      rw [if_pos rfl, le_maxPriority_iff]
      exact .inr ⟨d, hs.mem.mpr hdr, le_rfl⟩
    · rw [if_neg hrt']
      exact hs.le hdr

theorem Graph.mem_donorsFor {d r : T} {l : L} (hs : Graph s) :
    d ∈ donorsFor s r l ↔ s.recipient d = some r ∧ s.lock d = some l := by
  unfold donorsFor
  rw [List.mem_filter, hs.mem]
  grind

theorem Graph.mem_otherDonors {d r : T} {l : L} (hs : Graph s) :
    d ∈ otherDonors s r l ↔ s.recipient d = some r ∧ s.lock d ≠ some l := by
  unfold otherDonors
  rw [List.mem_filter, hs.mem]
  grind

/-- The recipients after `thread_restore_priority`. -/
theorem Graph.recipient_restore {d r : T} (hs : Graph s) :
    (threadRestorePriority s t l).recipient d = some r ↔
      s.recipient d = some r ∧ ¬ (r = t ∧ s.lock d = some l) := by
  have hgone := hs.mem_donorsFor (d := d) (r := t) (l := l)
  unfold threadRestorePriority
  grind

theorem Graph.lock_restore {d r : T} (hs : Graph s)
    (h : (threadRestorePriority s t l).recipient d = some r) :
    (threadRestorePriority s t l).lock d = s.lock d := by
  have hgone := hs.mem_donorsFor (d := d) (r := t) (l := l)
  unfold threadRestorePriority at h ⊢
  grind

theorem restore_locks : (threadRestorePriority s t l).phase = s.phase ∧
    (threadRestorePriority s t l).holder = s.holder ∧
    (threadRestorePriority s t l).value = s.value ∧
    (threadRestorePriority s t l).waiters = s.waiters := by
  unfold threadRestorePriority
  split <;> exact ⟨rfl, rfl, rfl, rfl⟩

theorem Graph.restore (hs : Graph s) (ht : s.recipient t = none) :
    Graph (threadRestorePriority s t l) where
  mem := by
    intro d r
    rw [hs.recipient_restore]
    have hrest := hs.mem_otherDonors (d := d) (r := t) (l := l)
    have hgone := hs.mem_donorsFor (d := d) (r := t) (l := l)
    have hmem := hs.mem (d := d) (r := r)
    unfold threadRestorePriority
    split <;> grind
  nodup := by
    intro r
    unfold threadRestorePriority
    have hn : (otherDonors s t l).Nodup := (hs.nodup t).filter _
    have := hs.nodup r
    split <;> grind
  donates := by
    intro d r hdr
    obtain ⟨l', h1, h2, h3⟩ := hs.donates (hs.recipient_restore.mp hdr).1
    obtain ⟨hp, hh, -⟩ := restore_locks (s := s) (t := t) (l := l)
    refine ⟨l', ?_, ?_, ?_⟩
    · rw [hs.lock_restore hdr, h1]
    · rwa [hp]
    · rwa [hp, hh]
  le := by
    intro d r hdr
    obtain ⟨h1, h2⟩ := hs.recipient_restore.mp hdr
    have hle := hs.le h1
    have hrest := hs.mem_otherDonors (d := d) (r := t) (l := l)
    have hmax := fun hd : d ∈ otherDonors s t l =>
      (le_maxPriority_iff s.priority (otherDonors s t l) 0).mpr
        (.inr ⟨d, hd, le_rfl⟩)
    have hdt : d ≠ t := by
      rintro rfl
      rw [ht] at h1
      cases h1
    unfold threadRestorePriority
    split <;> grind

theorem graph_restore (hs : Graph s) (ht : s.phase t = .released l) :
    Graph ((threadRestorePriority s t l).setPhase t (.restored l)) := by
  have hrt := hs.recipient_eq_none (t := t) (by simp [ht]) (by simp [ht])
  obtain ⟨hp, hh, -⟩ := restore_locks (s := s) (t := t) (l := l)
  refine (hs.restore hrt (l := l)).frame rfl rfl rfl ?_
  rintro d r l' hdr ⟨h1, h2, h3⟩
  rw [hs.lock_restore hdr] at h1
  obtain ⟨hdr', hne⟩ := hs.recipient_restore.mp hdr
  rw [hp, hh] at h3
  rw [hp] at h2
  constructor <;> grind [hs.lock_restore hdr]

/-! ### The donation -/

variable [Fintype T]

omit [DecidableEq L] [Fintype T] in
theorem recordDonor_recipient {x y : T} : (recordDonor s t r l).recipient x = some y ↔
    (x = t ∧ r = y) ∨ (x ≠ t ∧ s.recipient x = some y) := by
  unfold recordDonor
  grind

omit [DecidableEq L] [Fintype T] in
theorem recordDonor_priority {x : T} : (recordDonor s t r l).priority x =
    if x = r then s.priority t else s.priority x := Function.update_apply ..

omit [DecidableEq L] in
theorem graph_donate (hs : Graph s) (ht : s.phase t = .donating l) (hh : s.holder l = some r)
    (hp : s.priority r ≤ s.priority t) (hrt : s.recipient t = none) :
    Graph ((propagate (recordDonor s t r l) r).setPhase t (.downing l)) where
  mem := by
    intro d r'
    show d ∈ (recordDonor s t r l).donorThreadsList r' ↔ (recordDonor s t r l).recipient d = some r'
    have hmem := fun r => hs.mem (d := d) (r := r)
    rw [recordDonor_recipient]
    unfold recordDonor
    grind
  nodup := by
    intro r'
    have hnew : t ∉ s.donorThreadsList r := by
      rw [hs.mem, hrt]
      simp
    have := hs.nodup
    show ((recordDonor s t r l).donorThreadsList r').Nodup
    unfold recordDonor
    grind [List.nodup_append]
  donates := by
    intro d r' hdr
    rcases (recordDonor_recipient (l := l)).mp hdr with ⟨rfl, rfl⟩ | ⟨hdt, hold⟩
    · exact ⟨l, by simp [propagate, recordDonor], by simp, .inl hh⟩
    · obtain ⟨l', h1, h2, h3⟩ := hs.donates hold
      refine ⟨l', ?_, ?_, ?_⟩ <;> simp [propagate, recordDonor] <;> grind
  le := by
    intro d r' hdr
    refine raiseAll_mono (recordDonor s t r l).recipient (recordDonor s t r l).priority r ?_ hdr
    intro x y hxy hxr
    have hle := hs.le (d := x) (r := y)
    have hxy := recordDonor_recipient.mp hxy
    unfold recordDonor
    grind

/-! ### All steps -/

theorem locking_step {a : LockAction T L} (hs : Locking s) (h : Step s a s') : Locking s' := by
  cases effect_of_step h with
  | free ht _ | taken ht _ _ | refused ht _ _ | exit ht _ =>
    exact locking_setPhase hs (by rw [ht]; rfl) (by simp) (by simp [ht])
  | @donated t r l ht _ _ _ =>
    have hd : Locking (propagate (recordDonor s t r l) r) := hs.congr rfl rfl rfl rfl
    have hph : (propagate (recordDonor s t r l) r).phase t = .donating l := ht
    exact locking_setPhase hd (by rw [hph]; rfl) (by simp) (by simp [hph])
  | blocked ht _ => exact locking_block hs ht
  | downed ht hv => exact locking_down hs hv (by simp [ht])
  | setHolder ht => exact locking_setHolder hs ht
  | tried ht hv => exact locking_down hs hv (by simp [ht])
  | tryFailed _ _ => exact hs
  | release ht hh => exact locking_release hs ht hh
  | @restore t l ht =>
    obtain ⟨hp, hh, hv, hw⟩ := restore_locks (s := s) (t := t) (l := l)
    exact locking_setPhase (hs.congr hh hv hw hp) (by rw [hp, ht]; rfl) (by simp) (by simp [hp, ht])
  | upped ht _ => exact locking_up hs ht
  | @woken t w l ht hw =>
    have hwt : w ≠ t := by
      rintro rfl
      simp [hs.waiters.mp hw] at ht
    refine locking_up (locking_wake hs hw) ?_
    simpa [Kernel.wake, hwt.symm] using ht
  | setPriority _ => exact hs.congr rfl rfl rfl rfl

theorem graph_step {a : LockAction T L} (hl : Locking s) (hs : Graph s) (h : Step s a s') :
    Graph s' := by
  cases effect_of_step h with
  | free ht _ | taken ht _ _ | refused ht _ _ | exit ht _ =>
    exact graph_setPhase hs (hs.recipient_eq_none (by simp [ht]) (by simp [ht])) (by simp [ht])
  | donated ht hh hp hr => exact graph_donate hs ht hh hp hr
  | blocked ht _ => exact graph_block hs ht
  | downed ht hv => exact graph_down hs hl (.inr ht) hv
  | setHolder ht => exact graph_setHolder hs hl ht
  | tried ht hv => exact graph_down hs hl (.inl ht) hv
  | tryFailed _ _ => exact hs
  | release ht hh => exact graph_release hs ht hh
  | restore ht => exact graph_restore hs ht
  | upped ht _ => exact graph_up hs ht
  | @woken t w l ht hw =>
    have hw := hl.waiters.mp hw
    have hwt : w ≠ t := by
      rintro rfl
      simp [hw] at ht
    refine graph_up (graph_wake hs hw) ?_
    simpa [Kernel.wake, hwt.symm] using ht
  | setPriority ht => exact graph_setPriority hs ht _

/-- **The invariant of the lock functions.** -/
theorem invariant : Invariant Init (Step (T := T) (L := L)) fun s => Locking s ∧ Graph s where
  start h := by
    obtain ⟨-, -, h1, h2, h3, h4, h5, h6, h7⟩ := h
    refine ⟨?_, ?_⟩ <;> constructor <;> simp [h2, h3, h4, h5, h6, h7, owning]
  step := fun ⟨hl, hs⟩ h => ⟨locking_step hl h, graph_step hl hs h⟩

/-! ### The donation graph is consistent -/

/-- The graph of one state, as its users see it. -/
structure Consistent (s : Kernel T L) : Prop where
  mem : ∀ d r, d ∈ s.donorThreadsList r ↔ s.recipient d = some r
  /-- A thread is once in one list. -/
  count : ∀ d r, (s.donorThreadsList r).count d ≤ 1
  unique : ∀ d r r', d ∈ s.donorThreadsList r → d ∈ s.donorThreadsList r' → r = r'
  donates : ∀ d r, s.recipient d = some r → ∃ l, Donates s d r l
  le : ∀ d r, s.recipient d = some r → s.priority d ≤ s.priority r
  /-- `ASSERT (donor->priority_donation_info.recipient == NULL)` holds. -/
  donate : ∀ t l r, s.phase t = .donating l → s.holder l = some r →
    (threadDonatePriority s t r l).isSome

/-- **Donation graph consistency.** -/
theorem consistentGraph_of_reachable (h : Reachable Init Step s) : Consistent s := by
  obtain ⟨-, hs⟩ := h.of_invariant invariant
  refine ⟨fun _ _ => hs.mem, ?_, ?_, fun _ _ => hs.donates, fun _ _ => hs.le, ?_⟩
  · intro d r
    exact List.nodup_iff_count_le_one.mp (hs.nodup r) d
  · intro d r r' h1 h2
    have h := (hs.mem.mp h1).symm.trans (hs.mem.mp h2)
    exact Option.some.inj h
  · intro t l r ht _
    have hrt := hs.recipient_eq_none (t := t) (by simp [ht]) (by simp [ht])
    unfold threadDonatePriority
    rw [if_pos hrt]
    split <;> rfl

/-- The thread `h` holds the lock and `w` waits for it. -/
def holdAndWait (h w : T) (l : L) : List (LockAction T L) := acquireFree h l ++ acquireTaken w l

theorem consistentGraph_of_reachable_donation :
    ∃ s : Kernel (Fin 2) (Fin 1), s.recipient 1 = some 0 ∧ s.priority 0 = 40 ∧ Consistent s := by
  have h : ((holdAndWait 0 1 0).foldlM next (initial ![31, 40])).map
      (fun s : Kernel (Fin 2) (Fin 1) => (s.recipient 1, s.priority 0)) = some (some 0, 40) := by decide +kernel
  obtain ⟨s, hs, h⟩ := Option.map_eq_some_iff.mp h
  refine ⟨s, by grind, by grind, consistentGraph_of_reachable (reachable_of_run ?_ hs)⟩
  decide

/-- The holder of a donor's lock need not be the recipient: `lock_release` clears the holder first. -/
theorem not_holder_of_reachable :
    ¬ ∀ s : Kernel (Fin 2) (Fin 1), Reachable Init Step s → ∀ d r, s.recipient d = some r →
      ∃ l, s.lock d = some l ∧ s.holder l = some r := by
  intro h
  have hr : ((holdAndWait 0 1 0 ++ [LockAction.release (0 : Fin 2) (0 : Fin 1)]).foldlM next (initial ![31, 40])).map
      (fun s : Kernel (Fin 2) (Fin 1) => (s.recipient 1, s.holder 0)) = some (some 0, none) := by decide +kernel
  obtain ⟨s, hs, hr⟩ := Option.map_eq_some_iff.mp hr
  obtain ⟨l, -, hl⟩ := h s (reachable_of_run (by decide) hs) 1 0 (by grind)
  have hl0 : l = 0 := Subsingleton.elim _ _
  subst hl0
  grind

end Pintos.Threads.DonationGraph
