import Pintos.Userprog.Lifecycle

/-! # What the phase of a process says about its vpages

Every step of one process leaves what the phases of the others say: its new vpages are its own, and page
directories stay where they are until they are destroyed. With that, in the runs that are `Sound`, a process
that reaches `pagedir_destroy` has no vpage. -/

namespace Pintos.Userprog.Lifetimes

open Pintos.Lib Pintos.Lib.Ops Pintos.Lib.Runs Pintos.Vm.State Pintos.Vm.Vpage Pintos.Vm.Effect
open Pintos.Vm.Invariant Pintos.Vm.Preserve Pintos.Vm.Run Pintos.Userprog.Load
open Pintos.Userprog.Lifecycle

/-- No thread exits from a `load` that registered a vpage and then failed, and `setup_stack` does not free an
address that it never set. -/
def Sound (s : Sys) : LifeAction → Prop
  | .destroy p => ∀ n, s.phase p = .failed n → n = 0
  | .load p env kpage =>
    ∀ n rest, s.phase p = .loading n (.setupStack :: rest) → env.malloc = true ∨ kpage = none
  | _ => True

/-- A process without vpages. -/
def NoVpage (vm : VM) (p : Pid) : Prop := ∀ v ∈ vm.map, v.pid ≠ p

/-- What the phase of a process says about its page directory and its vpages. -/
def PhaseOk (vm : VM) (p : Pid) : Phase → Prop
  | .unborn => vm.pagedir p = none ∧ NoVpage vm p
  | .loading n _ => (vm.pagedir p).isSome ∧ (n = 0 → NoVpage vm p)
  | .failed n => (vm.pagedir p).isSome ∧ (n = 0 → NoVpage vm p)
  | .running => (vm.pagedir p).isSome
  | .exiting => (vm.pagedir p).isSome ∧ NoVpage vm p
  | .dead => vm.pagedir p = none ∧ NoVpage vm p

/-- **The invariant.** -/
structure InOrder (s : Sys) : Prop where
  owned : Owned s.vm
  future : ∀ p, s.lastPid ≤ p → s.phase p = .unborn
  phases : ∀ p, PhaseOk s.vm p (s.phase p)

/-! ### What a step of one process does to the others -/

variable {vm vm' : VM} {a : Action} {r : Option UInt8} {p q : Pid} {k : Key}

/-- What a step of the process `p` may do: the tables stay in order, the page directories stay where they
are, and new vpages are of `p`. -/
structure Moves (p : Pid) (vm vm' : VM) : Prop where
  owned : Owned vm'
  pagedir : vm'.pagedir = vm.pagedir
  keys : ∀ k ∈ vm'.map.map VpageInfo.key, k ∈ vm.map.map VpageInfo.key ∨ k.pid = p

theorem moves_outcome (h : Owned vm) (ho : Outcome vm a r vm') (hp : ∀ k, Adds k a → k.pid = p)
    (ha : ¬TouchesPagedir a) : Moves p vm vm' where
  owned := owned_outcome h ho
  pagedir := pagedir_outcome ho ha
  keys _ hk := (keys_outcome ho hk).imp_right (hp _)

theorem noVpage_iff : NoVpage vm p ↔ ∀ k ∈ vm.map.map VpageInfo.key, k.pid ≠ p := by
  simp [NoVpage, VpageInfo.key]

theorem noVpage_moves (hm : Moves p vm vm') (hq : q ≠ p) (h : NoVpage vm q) : NoVpage vm' q := by
  refine noVpage_iff.mpr fun k hk => ?_
  rcases hm.keys k hk with hk | hk
  · exact noVpage_iff.mp h k hk
  · exact fun hkq => hq (hkq.symm.trans hk)

/-- A phase says nothing but whether there is a page directory and that there is no vpage. -/
theorem phaseOk_mono {ph : Phase} (hpd : (vm'.pagedir q).isSome = (vm.pagedir q).isSome)
    (hno : NoVpage vm q → NoVpage vm' q) (h : PhaseOk vm q ph) : PhaseOk vm' q ph := by
  have hnone : vm.pagedir q = none → vm'.pagedir q = none := by
    intro hq
    rw [hq] at hpd
    simpa using hpd
  cases ph with
  | unborn => exact ⟨hnone h.1, hno h.2⟩
  | loading n rest => exact ⟨hpd.trans h.1, fun hn => hno (h.2 hn)⟩
  | failed n => exact ⟨hpd.trans h.1, fun hn => hno (h.2 hn)⟩
  | running => exact hpd.trans h
  | exiting => exact ⟨hpd.trans h.1, hno h.2⟩
  | dead => exact ⟨hnone h.1, hno h.2⟩

/-! ### Every step keeps the invariant -/

variable {s s' : Sys} {ph : Phase}

/-- A step of `p` that ends in a phase of which the right things hold. -/
theorem inOrder_moves (h : InOrder s) (hm : Moves p s.vm vm') (hp : s.phase p ≠ .unborn)
    (hph : PhaseOk vm' p ph) : InOrder (Sys.setPhase { s with vm := vm' } p ph) where
  owned := hm.owned
  future q hq := by
    have hne : q ≠ p := by
      rintro rfl
      exact hp (h.future q hq)
    simpa [Sys.setPhase, hne] using h.future q hq
  phases q := by
    by_cases hq : q = p
    · subst hq
      simpa [Sys.setPhase] using hph
    · have hpd := congrFun hm.pagedir q
      have hq' := phaseOk_mono (by rw [hpd]) (noVpage_moves hm hq) (h.phases q)
      simpa [Sys.setPhase, hq] using hq'

theorem moves_refl (h : Owned vm) (p : Pid) : Moves p vm vm :=
  ⟨h, rfl, fun _ hk => .inl hk⟩

/-- A phase may change while virtual memory stays. -/
theorem inOrder_setPhase (h : InOrder s) (hp : s.phase p ≠ .unborn) (hph : PhaseOk s.vm p ph) :
    InOrder (s.setPhase p ph) :=
  inOrder_moves h (moves_refl h.owned p) hp hph

theorem onVM_ensures {α : Type} {m : Op VM α} {Q : α → Sys → Prop}
    (h : Ensures m s.vm fun a vm => Q a { s with vm := vm }) : Ensures (onVM m) s Q := by
  intro a s' hs
  simp only [onVM, Option.map_eq_some_iff] at hs
  obtain ⟨⟨b, vm⟩, hm, he⟩ := hs
  obtain ⟨rfl, rfl⟩ : b = a ∧ { s with vm := vm } = s' := by simpa using he
  exact h b vm hm

theorem inOrder_start {cmdLine : Pintos.Filesys.Path.CStr} {file : Option FileId} {d : Option PdId}
    (h : InOrder s) : Ensures (startProcess cmdLine file d) s fun _ s' => InOrder s' := by
  have hun : s.phase s.lastPid = .unborn := h.future _ le_rfl
  have hok : PhaseOk s.vm s.lastPid .unborn := hun ▸ h.phases s.lastPid
  have hfut : ∀ ph q, s.lastPid + 1 ≤ q → Function.update s.phase s.lastPid ph q = .unborn := by
    intro ph q hq
    rw [Function.update_of_ne (Nat.ne_of_gt hq)]
    exact h.future q (Nat.le_of_succ_le hq)
  refine .bind (.get (.bind (.set ?_)))
  cases d with
  | none =>
    refine .modify ⟨h.owned, hfut _, fun q => ?_⟩
    by_cases hq : q = s.lastPid
    · subst hq
      have hdead : PhaseOk s.vm s.lastPid .dead := hok
      simpa [Sys.setPhase] using hdead
    · simpa [Sys.setPhase, hq] using h.phases q
  | some d =>
    refine .bind (.assert fun hd => .bind (onVM_ensures (.modify (.bind (.assert fun _ => ?_)))))
    have hd' : s.vm.pagedirs d = none := by simpa using hd
    have howned := owned_createPagedir h.owned hok.1 hd'
    have hgood : ∀ rest, InOrder (Sys.setPhase { s with
        lastPid := s.lastPid + 1, vm := createPagedir s.vm s.lastPid d } s.lastPid
        (.loading 0 rest)) := by
      refine fun rest => ⟨howned, hfut _, fun q => ?_⟩
      by_cases hq : q = s.lastPid
      · subst hq
        have hnew : PhaseOk (createPagedir s.vm s.lastPid d) s.lastPid (.loading 0 rest) :=
          ⟨by simp [createPagedir], fun _ => hok.2⟩
        simpa [Sys.setPhase] using hnew
      · have hno : NoVpage s.vm q → NoVpage (createPagedir s.vm s.lastPid d) q := id
        have hold : PhaseOk (createPagedir s.vm s.lastPid d) q (s.phase q) :=
          phaseOk_mono (by simp [createPagedir, hq]) hno (h.phases q)
        simpa [Sys.setPhase, hq] using hold
    cases file with
    | none => exact .modify (hgood _)
    | some file => exact .modify (hgood _)

theorem inOrder_load {env : Env} {kpage : Option Frame} (h : InOrder s)
    (hs : ∀ n rest, s.phase p = .loading n (.setupStack :: rest) → env.malloc = true ∨ kpage = none) :
    Ensures (loadNext p env kpage) s fun _ s' => InOrder s' := by
  have hph := h.phases p
  refine .bind (.get ?_)
  split
  · rename_i n u i w rest hp
    rw [hp] at hph
    refine .bind (onVM_ensures (lazyAllocate_ensures ?_ fun hnew => ?_))
    · exact .modify (inOrder_setPhase h (by simp [hp]) ⟨hph.1, hph.2⟩)
    · have ho : Outcome s.vm (.lazyAllocate env u i p w) none (addVpage s.vm ⟨u, w, p, .lazy i⟩) :=
        .added hnew
      have hm : Moves p s.vm (addVpage s.vm ⟨u, w, p, .lazy i⟩) :=
        moves_outcome h.owned ho (fun k hk => congrArg Key.pid hk) id
      exact .modify (inOrder_moves h hm (by simp [hp]) ⟨hph.1, by simp⟩)
  · rename_i n rest hp
    rw [hp] at hph
    refine .bind (onVM_ensures (inmemAllocate_ensures.mono ?_))
    rintro r vm' (⟨hmalloc, rfl, rfl⟩ | ⟨hmalloc, f, rfl, hpl⟩)
    · obtain rfl : kpage = none := (hs n rest hp).resolve_left (by simp [hmalloc])
      refine .bind (onVM_ensures (.pure (.modify ?_)))
      exact inOrder_setPhase h (by simp [hp]) ⟨hph.1, hph.2⟩
    · have ho : Outcome s.vm (.inmemAllocate p env stackUpage true) none vm' := .placed hmalloc hpl
      have hm : Moves p s.vm vm' := moves_outcome h.owned ho (fun k hk => congrArg Key.pid hk) id
      refine .modify (inOrder_moves h hm (by simp [hp]) ⟨?_, by simp⟩)
      exact (congrArg Option.isSome (congrFun hm.pagedir p)).trans hph.1
  · rename_i n rest hp
    rw [hp] at hph
    exact .modify (inOrder_setPhase h (by simp [hp]) ⟨hph.1, hph.2⟩)
  · rename_i n hp
    rw [hp] at hph
    exact .modify (inOrder_setPhase h (by simp [hp]) hph.1)
  · exact .halt

/-- What a process does for itself concerns no other one, and in `load` adds nothing. -/
theorem own_spec (vm : VM) (h : Own p ph a = true) :
    Allowed vm a ∧ ¬TouchesPagedir a ∧ (∀ k, Adds k a → k.pid = p) ∧
      (ph = .running ∨ ∃ n rest, ph = .loading n rest ∧ ∀ k, ¬Adds k a) := by
  cases ph <;> cases a <;>
    simp_all [Own, Allowed, TouchesPagedir, Adds]

theorem inOrder_own (h : InOrder s) : Ensures (own p a) s fun _ s' => InOrder s' := by
  refine .bind (.get (.bind (.assert fun hown => .bind (onVM_ensures ?_))))
  obtain ⟨hall, ht, hadds, hph⟩ := own_spec s.vm hown
  refine (outcome_of_act h.owned hall).mono fun r vm' ho => .pure ?_
  have hm : Moves p s.vm vm' := moves_outcome h.owned ho hadds ht
  have hpd := congrArg Option.isSome (congrFun hm.pagedir p)
  have hok := h.phases p
  have hnew : PhaseOk vm' p (s.phase p) := by
    rcases hph with hrun | ⟨n, rest, hload, hno⟩
    · rw [hrun] at hok ⊢
      exact hpd.trans hok
    · refine phaseOk_mono hpd (fun hnone => noVpage_iff.mpr fun k hk => ?_) hok
      rcases keys_outcome ho hk with hk | hk
      · exact noVpage_iff.mp hnone k hk
      · exact absurd hk (hno _)
  have hborn : s.phase p ≠ .unborn := by
    rcases hph with hrun | ⟨n, rest, hload, -⟩ <;> simp [*]
  have hlast := inOrder_moves h hm hborn hnew
  rwa [Sys.setPhase, Function.update_eq_self] at hlast

theorem inOrder_exit (h : InOrder s) : Ensures (exitRunning p) s fun _ s' => InOrder s' := by
  refine .bind (.get (.bind (.assert fun hrun => .bind (onVM_ensures (releaseAll_steps.mono ?_)))))
  rintro _ vm' ⟨hrel, hno⟩
  have hrun' : s.phase p = .running := by simpa using hrun
  have ho : Outcome s.vm (.releaseAll p) none vm' := .releasedAll hrel hno
  have hm : Moves p s.vm vm' := moves_outcome h.owned ho (fun _ hq => hq.elim) id
  have hok : PhaseOk s.vm p .running := hrun' ▸ h.phases p
  have hpd := congrArg Option.isSome (congrFun hm.pagedir p)
  exact .modify (inOrder_moves h hm (by simp [hrun']) ⟨hpd.trans hok, hno⟩)

/-- A process that reaches `pagedir_destroy` soundly has no vpage. -/
theorem noVpage_of_destroying (h : InOrder s) (hs : ∀ n, s.phase p = .failed n → n = 0)
    (hd : (s.phase p).destroying = true) : NoVpage s.vm p := by
  have hok := h.phases p
  cases hp : s.phase p with
  | failed n =>
    rw [hp] at hok
    exact hok.2 (hs n hp)
  | exiting =>
    rw [hp] at hok
    exact hok.2
  | _ => simp [hp, Phase.destroying] at hd

theorem destroyPagedir_ensures (h : InOrder s) (hs : ∀ n, s.phase p = .failed n → n = 0) :
    Ensures (destroyPagedir p) s fun _ s' => ∃ d, s.vm.pagedir p = some d ∧ NoVpage s.vm p ∧
      s' = Sys.setPhase { s with vm := dropPagedir s.vm p d } p .dead := by
  refine .bind (.get (.bind (.assert fun hd => ?_)))
  have hno := noVpage_of_destroying h hs hd
  refine .bind (onVM_ensures ((exitPagedir_ensures h.owned hno).mono ?_))
  rintro _ vm' ⟨d, hd, rfl⟩
  exact .modify ⟨d, hd, hno, rfl⟩

theorem inOrder_destroy {d : PdId} (h : InOrder s) (hd : s.vm.pagedir p = some d)
    (hno : NoVpage s.vm p) :
    InOrder (Sys.setPhase { s with vm := dropPagedir s.vm p d } p .dead) where
  owned := owned_dropPagedir h.owned hd hno
  future q hq := by
    have hne : q ≠ p := by
      rintro rfl
      have hok := h.phases q
      rw [h.future q hq] at hok
      exact absurd hok.1 (by simp [hd])
    simpa [Sys.setPhase, hne] using h.future q hq
  phases q := by
    by_cases hq : q = p
    · subst hq
      have hdead : PhaseOk (dropPagedir s.vm q d) q .dead := ⟨by simp [dropPagedir], hno⟩
      simpa [Sys.setPhase] using hdead
    · have hkeep : NoVpage s.vm q → NoVpage (dropPagedir s.vm p d) q := id
      have hold : PhaseOk (dropPagedir s.vm p d) q (s.phase q) :=
        phaseOk_mono (by simp [dropPagedir, hq]) hkeep (h.phases q)
      simpa [Sys.setPhase, hq] using hold

theorem inOrder_rehash {m : List VpageInfo} (h : InOrder s) (hm : s.vm.map.Perm m) :
    InOrder { s with vm := { s.vm with map := m } } where
  owned := h.owned.perm hm
  future := h.future
  phases q := by
    have hno : NoVpage s.vm q → NoVpage { s.vm with map := m } q :=
      fun hno v hv => hno v (hm.mem_iff.mpr hv)
    have hpd : (VM.pagedir { s.vm with map := m } q).isSome = (s.vm.pagedir q).isSome := rfl
    exact phaseOk_mono hpd hno (h.phases q)

theorem inOrder_step {a : LifeAction} (h : InOrder s) (hs : Sound s a)
    (hstep : LifeStep s a s') : InOrder s' := by
  obtain ⟨hperm, hact⟩ := hstep
  cases a with
  | start cmdLine file d => exact inOrder_start h () s' hact
  | load p env kpage => exact inOrder_load h hs () s' hact
  | own p a => exact inOrder_own h () s' hact
  | exit p => exact inOrder_exit h () s' hact
  | destroy p =>
    obtain ⟨d, hd, hno, rfl⟩ := destroyPagedir_ensures h hs () s' hact
    exact inOrder_destroy h hd hno
  | rehash m =>
    have hrehash : Ensures (lifeAct (.rehash m)) s fun _ s' => InOrder s' :=
      .bind (onVM_ensures (.bind (.modify (.pure (.pure (inOrder_rehash h (hperm m rfl)))))))
    exact hrehash () s' hact

theorem inOrder_init (h : LifeInit s) : InOrder s where
  owned := owned_init h.1
  future p _ := h.2.1 p
  phases p := by
    rw [h.2.1 p]
    exact ⟨h.1.2.1 p, by simp [NoVpage, h.1.1]⟩

theorem inOrder_invariant : Invariant LifeInit (Guarded Sound LifeStep) InOrder where
  start := inOrder_init
  step := fun h ⟨hs, hstep⟩ => inOrder_step h hs hstep

end Pintos.Userprog.Lifetimes
