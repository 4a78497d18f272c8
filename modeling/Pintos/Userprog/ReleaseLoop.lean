import Pintos.Userprog.ProcessFamily

/-! # The loop of `process_info_release`

Whoever releases a `struct process_info` goes over the children on its list: a child ahead of it still has the
released one as its parent, and a child behind it has none. -/

namespace Pintos.Userprog.ReleaseLoop

open Pintos.Lib.Runs Pintos.Userprog.Processes Pintos.Userprog.ProcessInvariant
open Pintos.Userprog.ProcessFamily

variable {T : Type*} {s s' : Sys T}

structure Loop (s : Sys T) : Prop where
  nodup : ∀ t, (restOf (s.place t)).Nodup
  ahead : ∀ {t o k c}, releaseOf (s.place t) = some (o, k) → c ∈ restOf (s.place t) →
    s.parentPi c = some o ∧ s.life c = .live
  behind : ∀ {p c}, s.creator c = some p → s.onList c = true → s.reaped c = false →
    s.life p ≠ .live → s.parentPi c = none ∨
      ∃ t k, releaseOf (s.place t) = some (p, k) ∧ c ∈ restOf (s.place t)
  released : ∀ {o}, s.life o = .releasing → ∃ t k, releaseOf (s.place t) = some (o, k)

/-- A step that has nothing to do with a release. -/
structure Still (s s' : Sys T) : Prop where
  release : ∀ u, releaseOf (s'.place u) = releaseOf (s.place u)
  rest : ∀ u, restOf (s'.place u) = restOf (s.place u)
  ahead : ∀ c, (∃ u, c ∈ restOf (s.place u)) → s'.parentPi c = s.parentPi c ∧ s'.life c = s.life c
  behind : ∀ {p c}, s'.creator c = some p → s'.onList c = true → s'.reaped c = false →
    s'.life p ≠ .live →
    s.creator c = some p ∧ s.onList c = true ∧ s.reaped c = false ∧ s.life p ≠ .live ∧
      s'.parentPi c = s.parentPi c
  released : ∀ o, s'.life o = .releasing → s.life o = .releasing

theorem Loop.still (hl : Loop s) (h : Still s s') : Loop s' where
  nodup t := by
    rw [h.rest]
    exact hl.nodup t
  ahead {t o k c} ht hc := by
    rw [h.release] at ht
    rw [h.rest] at hc
    obtain ⟨hp, hli⟩ := h.ahead c ⟨t, hc⟩
    rw [hp, hli]
    exact hl.ahead ht hc
  behind {p c} hc ho hr hp := by
    obtain ⟨hc, ho, hr, hp, hpp⟩ := h.behind hc ho hr hp
    simp only [hpp, h.release, h.rest]
    exact hl.behind hc ho hr hp
  released {o} ho := by
    simp only [h.release]
    exact hl.released (h.released o ho)

variable [DecidableEq T]

/-- A step that moves a thread, outside of a release, and changes no `struct process_info`. -/
theorem Still.of_move {t : T} {q : Place T} (hpl : s'.place = Function.update s.place t q)
    (hq : releaseOf q = releaseOf (s.place t) ∧ restOf q = restOf (s.place t))
    (hcr : s'.creator = s.creator) (hol : s'.onList = s.onList) (hre : s'.reaped = s.reaped)
    (hli : s'.life = s.life) (hpp : s'.parentPi = s.parentPi) : Still s s' where
  release u := by
    by_cases hu : u = t <;> simp [hpl, hu, hq]
  rest u := by
    by_cases hu : u = t <;> simp [hpl, hu, hq]
  ahead c _ := by rw [hpp, hli]; exact ⟨rfl, rfl⟩
  behind h1 h2 h3 h4 := by
    rw [hcr] at h1
    rw [hol] at h2
    rw [hre] at h3
    rw [hli] at h4
    exact ⟨h1, h2, h3, h4, by rw [hpp]⟩
  released o h := by rwa [hli] at h

/-- The beginning of a release. -/
theorem Loop.begin (hs : Inv s) (hl : Loop s) {t o : T} {k : After} (ht : releaseOf (s.place t) = none)
    (ho : s.life o = .live) (hor : ∀ u, o ∉ restOf (s.place u)) (hoc : o ∉ s.childrenPi o)
    (hpl : s'.place = Function.update s.place t (.releasing o (s.childrenPi o) k))
    (hli : s'.life = Function.update s.life o .releasing) (hcr : s'.creator = s.creator)
    (hol : s'.onList = s.onList) (hre : ∀ c, s'.reaped c = false → s.reaped c = false)
    (hpp : s'.parentPi = s.parentPi) : Loop s' where
  nodup u := by
    by_cases hu : u = t
    · simp [hpl, hu, restOf, hs.family.nodup]
    · simpa [hpl, hu] using hl.nodup u
  ahead {u o' k' c} hr hc := by
    have hne : ∀ {c}, c ∈ restOf (s.place u) → c ≠ o := fun hc h => hor u (h ▸ hc)
    by_cases hu : u = t
    · subst hu
      simp only [hpl, Function.update_self, releaseOf, restOf, Option.some.injEq,
        Prod.mk.injEq] at hr hc
      obtain ⟨rfl, rfl⟩ := hr
      have hco : c ≠ o := fun h => hoc (h ▸ hc)
      obtain ⟨h1, h2, h3⟩ := hs.family.mem.mp hc
      simpa [hpp, hli, hco] using hs.family.parent h1 h2 h3 ho
    · rw [hpl, Function.update_of_ne hu] at hr hc
      simpa [hpp, hli, hne hc] using hl.ahead hr hc
  behind {p c} hc hon hr hp := by
    rw [hcr] at hc
    rw [hol] at hon
    by_cases hpo : p = o
    · subst hpo
      have hm := hs.family.mem.mpr ⟨hc, hon, hre c hr⟩
      exact .inr ⟨t, k, by simp [hpl, releaseOf], by simpa [hpl, restOf] using hm⟩
    · rw [hli, Function.update_of_ne hpo] at hp
      rw [hpp]
      obtain h | ⟨u, k', h1, h2⟩ := hl.behind hc hon (hre c hr) hp
      · exact .inl h
      right
      have hu : u ≠ t := fun h => by simp [h, ht] at h1
      exact ⟨u, k', by simpa [hpl, hu] using h1, by simpa [hpl, hu] using h2⟩
  released {o'} h := by
    by_cases hoo : o' = o
    · subst hoo
      exact ⟨t, k, by simp [hpl, releaseOf]⟩
    · rw [hli, Function.update_of_ne hoo] at h
      obtain ⟨u, k', hu⟩ := hl.released h
      have hut : u ≠ t := fun h => by simp [h, ht] at hu
      exact ⟨u, k', by simpa [hpl, hut] using hu⟩

/-- The end of a release. -/
theorem Loop.finish (hs : Inv s) (hl : Loop s) {t o : T} {k : After} {q : Place T}
    (ht : s.place t = .releasing o [] k) (hq : releaseOf q = none ∧ restOf q = [])
    (hpl : s'.place = Function.update s.place t q)
    (hli : s'.life = Function.update s.life o .freed) (hcr : s'.creator = s.creator)
    (hol : s'.onList = s.onList) (hre : s'.reaped = s.reaped) (hpp : s'.parentPi = s.parentPi) :
    Loop s' := by
  have hto : releaseOf (s.place t) = some (o, k) := by rw [ht]; rfl
  have hlo := (hs.acts.releases hto).1
  constructor
  · intro u
    by_cases hu : u = t
    · simp [hpl, hu, hq]
    · simpa [hpl, hu] using hl.nodup u
  · intro u o' k' c hr hc
    have hu : u ≠ t := fun h => by simp [hpl, h, hq] at hr
    rw [hpl, Function.update_of_ne hu] at hr hc
    have hco : c ≠ o := fun h => by simpa [h, hlo] using (hl.ahead hr hc).2
    simpa [hpp, hli, hco] using hl.ahead hr hc
  · intro p c hc hon hr hp
    rw [hcr] at hc
    rw [hol] at hon
    rw [hre] at hr
    by_cases hpo : p = o
    · subst hpo
      obtain h | ⟨u, k', h1, h2⟩ := hl.behind hc hon hr (by simp [hlo])
      · exact .inl (by rwa [hpp])
      · obtain rfl := release_unique hs.own hs.acts hto h1
        simp [ht, restOf] at h2
    · rw [hli, Function.update_of_ne hpo] at hp
      rw [hpp]
      obtain h | ⟨u, k', h1, h2⟩ := hl.behind hc hon hr hp
      · exact .inl h
      right
      have hu : u ≠ t := fun h => hpo (by simp [h, hto] at h1; exact h1.1.symm)
      exact ⟨u, k', by simpa [hpl, hu] using h1, by simpa [hpl, hu] using h2⟩
  · intro o' h
    have hoo : o' ≠ o := fun h' => by simp [hli, h'] at h
    rw [hli, Function.update_of_ne hoo] at h
    obtain ⟨u, k', hu⟩ := hl.released h
    have hut : u ≠ t := fun h => hoo (by simp [h, hto] at hu; exact hu.1.symm)
    exact ⟨u, k', by simpa [hpl, hut] using hu⟩

/-- A step of the loop, past a child. -/
theorem Loop.next (hs : Inv s) (hl : Loop s) {t o c : T} {rest : List T} {k : After}
    (ht : s.place t = .releasing o (c :: rest) k) : Loop ({ s with
      parentPi := Function.update s.parentPi c none }.move t (.stepping o c rest k)) := by
  have hto : releaseOf (s.place t) = some (o, k) := by rw [ht]; rfl
  have hco := hs.acts.rest hto (by rw [ht]; exact List.mem_cons_self)
  have hn := hl.nodup t
  simp only [ht, restOf, List.nodup_cons] at hn
  -- the other releases are not about the parent of this child
  have hu : ∀ {u o' k'}, releaseOf (s.place u) = some (o', k') → u ≠ t → c ∉ restOf (s.place u) := by
    intro u o' k' h hut hc
    obtain rfl : o = o' := Option.some.inj (hco.1.symm.trans (hs.acts.rest h hc).1)
    exact hut (release_unique hs.own hs.acts hto h)
  constructor
  · intro u
    by_cases hut : u = t
    · simp [hut, restOf, hn]
    · simpa [hut] using hl.nodup u
  · intro u o' k' d hr hd
    by_cases hut : u = t
    · subst hut
      simp only [Sys.move_place, Function.update_self, releaseOf, restOf, Option.some.injEq,
        Prod.mk.injEq] at hr hd
      obtain ⟨rfl, rfl⟩ := hr
      have hdc : d ≠ c := fun h => hn.1 (h ▸ hd)
      simpa [hdc] using hl.ahead hto (by simp [ht, restOf, hd])
    · simp only [Sys.move_place, Function.update_of_ne hut] at hr hd
      have hdc : d ≠ c := fun h => hu hr hut (h ▸ hd)
      simpa [hdc] using hl.ahead hr hd
  · intro p d hc hon hr hp
    by_cases hdc : d = c
    · simp [hdc]
    · obtain h | ⟨u, k', h1, h2⟩ := hl.behind hc hon hr hp
      · exact .inl (by simpa [hdc] using h)
      refine .inr ⟨u, k', ?_⟩
      by_cases hut : u = t
      · subst hut
        simp only [ht, releaseOf, restOf, List.mem_cons, hdc, false_or] at h1 h2
        exact ⟨by simpa [releaseOf] using h1, by simpa [restOf] using h2⟩
      · exact ⟨by simpa [hut] using h1, by simpa [hut] using h2⟩
  · intro o' h
    obtain ⟨u, k', h1⟩ := hl.released h
    by_cases hut : u = t
    · rw [hut, ht] at h1
      exact ⟨t, k', by simpa [releaseOf] using h1⟩
    · exact ⟨u, k', by simpa [hut] using h1⟩

theorem loop_step (hs : Inv s) (hl : Loop s) (h : Effect s s') : Loop s' := by
  have ho := hs.own
  have hrest : ∀ {u c}, c ∈ restOf (s.place u) →
      s.creator c ≠ none ∧ s.onList c = true ∧ s.reaped c = false ∧ s.parentPi c ≠ none := by
    intro u c hc
    obtain ⟨⟨o, k⟩, hr⟩ : ∃ r, releaseOf (s.place u) = some r := by
      cases hp : s.place u <;> simp [hp, restOf, releaseOf] at hc ⊢
    obtain ⟨h1, h2, h3⟩ := hs.acts.rest hr hc
    simp [h1, h2, h3, (hl.ahead hr hc).1]
  cases h with
  | activate => exact ⟨hl.nodup, hl.ahead, hl.behind, hl.released⟩
  | @execute t ht hp | @threadExit t ht hp | @threadDies t ht hp | @load t ht | @loadFailed t ht
  | @exitChild t p ht hp | @executeFailed t ht | @createFailedOld t ht | @noChild t ht
  | @exit t code ht hp | @setStatus t ht | @detach t ht | @clear t ht | @notLoadedOld t w ht hc
  | @executed t w n ht hc | @failUp t v ht hv | @startUp t v ht hv | @exitUp t v ht hv
  | @wait t c ht hp hc | @execDown t w n v ht hv h0 | @waitDown t c v ht hv h0
  | @releaseNext t o c rest k ht =>
    exact hl.still (.of_move (t := t) rfl (by rw [ht]; exact ⟨rfl, rfl⟩) rfl rfl rfl rfl rfl)
  | @executeNew t ht hp | @start t p ht =>
    have hi : s.creator t = none ∨ s.onList t = false := by
      have ho := ho t
      simp only [Own, view, ht] at ho
      grind [Fresh, Runs]
    refine hl.still ?_
    constructor
    · intro u
      by_cases hu : u = t <;> simp [hu, ht, releaseOf]
    · intro u
      by_cases hu : u = t <;> simp [hu, ht, restOf]
    · rintro c ⟨u, hc⟩
      have hct : c ≠ t := fun h => by grind
      simp [hct]
    · intro p' c hc hon hr hp'
      simp [Function.update_apply] at hc hon hr hp' ⊢
      grind
    · intro o h
      simp [Function.update_apply] at h
      grind
  | @create t w n ht hw =>
    have how := ho w
    simp only [Own, view, hw] at how
    have hwt : w ≠ t := fun h => by simp [h, ht] at hw
    refine hl.still ?_
    constructor
    · intro u
      by_cases hu : u = t <;> by_cases hw' : u = w <;> simp [hu, hw', hwt, ht, hw, releaseOf]
    · intro u
      by_cases hu : u = t <;> by_cases hw' : u = w <;> simp [hu, hw', hwt, ht, hw, restOf]
    · exact fun c _ => ⟨rfl, rfl⟩
    · intro p' c hc hon hr hp'
      simp [Function.update_apply] at hc hon hr hp' ⊢
      grind
    · exact fun o h => h
  | @link t q ht hq =>
    have hot := ho t
    simp only [Own, view, ht] at hot
    have hqt : s.creator t = some q := hot.2.1.symm.trans hq
    have hlq := hs.live_of_child (.inl (execChild_of_down (hs.family.early hqt (by simp [ht, ups]))))
    refine hl.still ?_
    constructor
    · intro u
      by_cases hu : u = t <;> simp [hu, ht, releaseOf]
    · intro u
      by_cases hu : u = t <;> simp [hu, ht, restOf]
    · exact fun c _ => ⟨rfl, rfl⟩
    · intro p' c hc hon hr hp'
      simp [Function.update_apply] at hc hon hr hp' ⊢
      grind
    · exact fun o h => h
  | @createFailed t ht hl' | @failed t ht hl' | @notLoaded t w ht hc hl' | @exitOrphan t ht hp hl'  =>
    have hi : s.creator t = none ∨ s.onList t = false ∨ s.parentPi t = none := by
      have ho := ho t
      simp only [Own, view, ht] at ho
      grind [Fresh, Runs]
    refine hl.begin hs (t := t) (by rw [ht]; rfl) hl' (fun u hu => ?_) (fun hu => ?_) rfl rfl rfl rfl
      (fun _ h => h) rfl
    · grind
    · grind [hs.family.mem, hs.family.parent]
  | @waitDone t c ht hl' hst =>
    obtain ⟨hc, -, -⟩ := hs.acts.waiting (t := t) (c := c) (by rw [ht]; rfl)
    have hd := hs.acts.waited ht
    have hct : c ≠ t := fun h => by simp [h, ht] at hd
    refine hl.begin hs (t := t) (k := .wait (s.exitCode c)) (by rw [ht]; rfl)
      hl' (rest_unwaited ho hs.acts ht) (fun hm => ?_) ?_ rfl rfl rfl (fun d hd => ?_) rfl
    · exact hct (Option.some.inj ((hs.family.mem.mp hm).1.symm.trans hc))
    · funext u
      simp [hct]
    · by_cases hdc : d = c
      · simp [hdc] at hd
      · simpa [hdc] using hd
  | @releaseChild t o c rest k ht => exact hl.next hs ht
  | @releasedWait t o v ht | @releasedExecute t o ht | @releasedFailed t o ht
  | @releasedOrphan t o ht =>
    exact hl.finish hs ht ⟨rfl, rfl⟩ rfl rfl rfl rfl rfl rfl

/-- What holds of all processes, and of those that are being released. -/
def Whole (s : Sys T) : Prop := Inv s ∧ Loop s

theorem whole : Invariant (σ := Sys T) Init Step Whole where
  start h := by
    obtain ⟨main, hm⟩ := h.place
    refine ⟨inv_start h, fun t => ?_, fun {t} => ?_, ?_, ?_⟩
    · by_cases ht : t = main <;> simp [hm, ht, restOf]
    · by_cases ht : t = main <;> simp [hm, ht, restOf]
    · simp [h.creator]
    · simp [h.life]
  step hs h := ⟨inv.step hs.1 h, loop_step hs.1 hs.2 (effect_of_step h)⟩

/-! ### Who frees a `struct process_info` -/

theorem place_of_startRelease {s₀ : Sys T} {t o u : T} {k : After}
    (h : startRelease s₀ t o k = some s') (hu : u ≠ t) (hs : s₀.place = s.place) :
    s'.place u = s.place u := by
  obtain ⟨-, rfl⟩ := startRelease_eq h
  simp [hu, hs]

/-- A thread moves only itself. -/
theorem place_of_run {t u : T} (h : runThread s t = some s') (hu : u ≠ t) :
    s'.place u = s.place u := by
  unfold runThread at h
  cases ht : s.place t with
  | execDowned c n =>
    simp only [ht] at h
    split at h
    · split at h <;> cases h
      simp [hu]
    · obtain ⟨s₁, h1, h⟩ := Option.bind_eq_some_iff.mp h
      obtain ⟨v, -, rfl⟩ := Option.map_eq_some_iff.mp h1
      split at h
      · exact place_of_startRelease h hu rfl
      · cases h
        simp [hu]
  | failed =>
    simp only [ht] at h
    exact place_of_startRelease h hu rfl
  | waited c =>
    simp only [ht] at h
    split at h
    · exact place_of_startRelease h hu rfl
    · cases h
  | releasing o rest k =>
    cases rest with
    | nil => grind [endRelease, Sys.move_place, Sys.return_place]
    | cons c rest => grind [Sys.move_place]
  | exiting =>
    grind [place_of_startRelease, Sys.move_place]
  | _ =>
    grind [Option.map_eq_some_iff, semaDown, semaUp, processInfoAllocate,
      Sys.move_place, Sys.setValue_place, Sys.allocate_place]

/-- A thread that releases goes on only by itself. -/
theorem run_of_release {a : ProcAction T} {t : T} (h : Step s a s')
    (ht : releaseOf (s.place t) ≠ none) (hne : s'.place t ≠ s.place t) : a = .run t := by
  obtain ⟨he, h⟩ := h
  cases a with
  | run u =>
    by_contra hut
    exact hne (place_of_run h fun htu => hut (by rw [htu]))
  | create u w =>
    obtain ⟨⟨n, hu⟩, hw⟩ := he
    have htu : t ≠ u := fun h => ht (by rw [h, hu]; rfl)
    have htw : t ≠ w := fun h => ht (by rw [h, hw]; rfl)
    simp only [act, hu, Option.some.injEq] at h
    exact absurd (by rw [← h]; simp [htu, htw]) hne
  | createFails u =>
    obtain ⟨n, hu⟩ := he
    have htu : t ≠ u := fun h => ht (by rw [h, hu]; rfl)
    simp only [act, hu] at h
    cases n with
    | true => exact absurd (place_of_startRelease h htu rfl) hne
    | false => exact absurd (by rw [← Option.some.inj h]; simp [htu]) hne
  | wait u pid =>
    have htu : t ≠ u := fun h => ht (by rw [h, he]; rfl)
    simp only [act] at h
    split at h
    · split at h
      · obtain ⟨d, -, rfl⟩ := Option.map_eq_some_iff.mp h
        exact absurd (by cases d <;> simp [htu]) hne
      · cases h
    · exact absurd (by rw [← Option.some.inj h]; simp [htu]) hne
  | execute u | executeFails u | load u | loadFails u | exit u code | threadExit u | activate u =>
    have htu : s.place u = .user ∨ s.place u = .loading → t ≠ u := fun hu h => ht (by
      rw [h]
      obtain hu | hu := hu <;> rw [hu] <;> rfl)
    simp only [act, Enabled] at h he
    grind [processInfoAllocate, Sys.move_place, Sys.return_place, Sys.allocate_place]

/-- A `struct process_info` is freed by the thread at the end of its release. -/
theorem free_of_step {a : ProcAction T} {c : T} (h : Step s a s') (hc : s.Allocated c) :
    s'.Allocated c ∨ ∃ t k, a = .run t ∧ s.place t = .releasing c [] k := by
  cases effect_of_step h with
  | @releasedWait t o v ht | @releasedExecute t o ht | @releasedFailed t o ht
  | @releasedOrphan t o ht =>
    by_cases hco : c = o
    · subst hco
      exact .inr ⟨t, _, run_of_release h (by simp [ht, releaseOf]) (by simp [ht]), ht⟩
    · exact .inl (by simpa [Sys.Allocated, hco] using hc)
  | @executeNew o ht | @start o p ht | @createFailed o ht | @failed o ht | @exitOrphan o ht
  | @notLoaded o w ht | @waitDone t o ht =>
    left
    by_cases hco : c = o
    · simp [Sys.Allocated, hco]
    · simpa [Sys.Allocated, hco] using hc
  | _ => exact .inl hc

end Pintos.Userprog.ReleaseLoop
