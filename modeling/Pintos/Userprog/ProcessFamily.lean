import Pintos.Userprog.ProcessInvariant

/-! # Processes and their children

The steps keep what holds between a process and its children: which of them its list holds, whose parent it
is, and what the semaphores of its children count. -/

namespace Pintos.Userprog.ProcessFamily

open Pintos.Lib.Runs Pintos.Userprog.Processes Pintos.Userprog.ProcessInvariant

variable {T : Type*} [DecidableEq T] {s s' : Sys T}

omit [DecidableEq T] in
/-- A thread that has put its semaphore up has told its creator whether it is on the list. -/
theorem handshake {v : View T} (ho : Own v) (hc : v.creator ≠ none)
    (hu : ups v.place v.status ≠ 0) : v.childPi = true ↔ v.onList = true := by
  unfold Own at ho
  split at ho <;> simp only [*, ups] at hu <;> grind [Runs, Fresh, Exited, Leaves]

theorem no_children (hs : Inv s) {t : T} (hp : s.processInfo t = false)
    (he : execChild (s.place t) = none) (hd : s.place t ≠ .detached ∧ s.place t ≠ .dead) {c : T}
    (hc : s.creator c = some t) : s.onList c = false := by
  cases hl : s.onList c with
  | false => rfl
  | true => simpa [hp, he, hd] using hs.family.withInfo hc hl

/-! ### The list -/

theorem mem_step (hs : Inv s) (h : Effect s s') {p c : T} :
    c ∈ s'.childrenPi p ↔ s'.creator c = some p ∧ s'.onList c = true ∧ s'.reaped c = false := by
  have hm := @(hs.family).mem
  cases h with
  | @executeNew t ht hp | @start t q ht =>
    have hi : s.processInfo t = false := by
      have ho := hs.own t
      simp only [Own, view, ht] at ho
      grind [Fresh]
    have hno := fun {c} => no_children hs (c := c) hi (by rw [ht]; rfl) (by simp [ht])
    by_cases hpt : p = t <;> simp [hpt] <;> grind
  | @create t w n ht hu =>
    have ho := hs.own w
    simp only [Own, view, hu] at ho
    by_cases hcw : c = w <;> simp [hcw] <;> grind
  | @link t q ht hq =>
    have ho := hs.own t
    simp only [Own, view, ht, Fresh] at ho
    have hqt : s.creator t = some q := ho.2.1.symm.trans hq
    by_cases hct : c = t <;> by_cases hpq : p = q <;> simp [hct, hpq] <;> grind
  | @waitDone t d ht hl hst =>
    obtain ⟨hd, -⟩ := hs.acts.waiting (t := t) (c := d) (by rw [ht]; rfl)
    have hn := hs.family.nodup t
    by_cases hpt : p = t <;> by_cases hcd : c = d <;> simp [hpt, hcd, hn.mem_erase_iff] <;> grind
  | _ => exact hm

theorem nodup_step (hs : Inv s) (h : Effect s s') (p : T) : (s'.childrenPi p).Nodup := by
  have hn := hs.family.nodup
  cases h with
  | @executeNew t ht hp | @start t q ht => by_cases hpt : p = t <;> simp [hpt, hn]
  | @link t q ht hq =>
    have ho := hs.own t
    simp only [Own, view, ht, Fresh] at ho
    have ht' : t ∉ s.childrenPi q := fun h => by grind [hs.family.mem.mp h]
    by_cases hpq : p = q
    · simp [hpq, List.nodup_append, hn]
      grind
    · simp [hpq, hn]
  | @waitDone t d ht hl hst => by_cases hpt : p = t <;> simp [hpt, hn, List.Nodup.erase]
  | _ => exact hn p

/-! ### The `struct process_info` -/

/-- The creator, at the place, has its `struct process_info` or is about to. -/
def Knows (s : Sys T) (t c : T) : Prop :=
  s.processInfo t = true ∨ execChild (s.place t) = some c ∨ s.place t = .detached ∨
    s.place t = .dead

theorem withInfo_move (hs : Inv s) {t p c : T} (hc : s.creator c = some p) (hl : s.onList c = true)
    (hpl : ∀ u, u ≠ t → s'.place u = s.place u ∨ s.place u = .unborn)
    (hpi : ∀ u, u ≠ t → s'.processInfo u = s.processInfo u)
    (ht : s.creator c = some t → Knows s t c → Knows s' t c) : Knows s' p c := by
  have hk := hs.family.withInfo hc hl
  by_cases hp : p = t
  · subst hp
    exact ht hc hk
  · obtain h | h := hpl p hp
    · rwa [Knows, hpi p hp, h]
    · exact absurd h (hs.acts.born hc)

omit [DecidableEq T] in
theorem execChild_of_down {p : Place T} {u : T} (h : execDownChild p = some u) :
    execChild p = some u := by
  cases p <;> simp [execDownChild, execChild] at h ⊢
  exact h

/-- A creator past its `sema_down` finds what the child has told it. -/
theorem execDowned_child (hs : Inv s) {t u : T} {n : Bool} (ht : s.place t = .execDowned u n) :
    s.childPi u = true ↔ s.onList u = true := by
  have hc := (hs.acts.executing (t := t) (u := u) (by rw [ht]; rfl)).1
  obtain ⟨v, -, hv⟩ := hs.family.value hc (.inr (by rw [ht]; rfl))
  refine handshake (hs.own u) (by simp [view, hc]) ?_
  simp only [view]
  simp only [ht, downs] at hv
  omega

theorem withInfo_step (hs : Inv s) (h : Effect s s') {p c : T} (hc : s'.creator c = some p)
    (hl : s'.onList c = true) : Knows s' p c := by
  have ho := hs.own
  cases h with
  | activate => exact hs.family.withInfo hc hl
  | @execute t ht | @threadExit t ht | @threadDies t ht | @load t ht | @loadFailed t ht
  | @exitChild t p ht | @executeFailed t ht | @createFailedOld t ht | @noChild t ht
  | @exit t code ht | @setStatus t ht | @detach t ht | @clear t ht | @executed t w n ht
  | @failUp t v ht | @startUp t v ht | @exitUp t v ht | @wait t c ht | @execDown t w n v ht
  | @waitDown t c v ht | @releaseChild t o c rest k ht | @releaseNext t o c rest k ht
  | @executeNew t ht | @start t p ht | @createFailed t ht | @failed t ht | @exitOrphan t ht
  | @waitDone t d ht | @releasedWait t o v ht | @releasedExecute t o ht | @releasedFailed t o ht
  | @releasedOrphan t o ht =>
    refine withInfo_move hs (t := t) hc hl (fun u hu => .inl (by simp [hu])) (fun u hu => by simp [hu])
      fun hc hk => ?_
    simp [Knows, ht, execChild] at hk ⊢
    try grind
  | @notLoaded t w ht hf | @notLoadedOld t w ht hf =>
    have hw := execDowned_child hs ht
    replace hl : s.onList c = true := hl
    refine withInfo_move hs (t := t) hc hl (fun u hu => .inl (by simp [hu])) (fun u _ => rfl)
      fun hc hk => ?_
    simp [Knows, ht, execChild] at hk ⊢
    grind
  | @create t w n ht hu =>
    have how := ho w
    simp only [Own, view, hu] at how
    have hcw : c ≠ w := fun h => by simp_all
    rw [Sys.move_creator, Sys.move_creator] at hc
    refine withInfo_move hs (t := t) (by simpa [hcw] using hc) hl (fun u hu' => ?_) (fun u _ => rfl)
      fun hc hk => ?_
    · by_cases huw : u = w <;> simp [hu', huw, hu]
    · have hp : s.processInfo t = true := by simpa [Knows, ht, execChild] using hk
      simp [Knows, hp]
  | @link t q ht hq =>
    by_cases hct : c = t
    · subst hct
      have he := hs.family.early hc (by simp [ht, ups])
      have hp : p ≠ c := fun h => by simp [h, ht, execDownChild] at he
      simp [Knows, hp, execChild_of_down he]
    · refine withInfo_move hs (t := t) hc (by simpa [hct] using hl) (fun u hu => .inl (by simp [hu]))
        (fun u hu => by simp [hu]) fun hc hk => ?_
      simp [Knows]

theorem parent_step (hs : Inv s) (h : Effect s s') {p c : T} (hc : s'.creator c = some p)
    (hl : s'.onList c = true) (hr : s'.reaped c = false) (hp : s'.life p = .live) :
    s'.parentPi c = some p ∧ s'.life c = .live := by
  have hf := @(hs.family).parent p c
  have ho := hs.own
  cases h with
  | @executeNew t ht hp' | @start t q ht =>
    have hi : s.processInfo t = false ∧ (s.creator t = none ∨ s.onList t = false) := by
      have ho := ho t
      simp only [Own, view, ht] at ho
      grind [Fresh, Runs]
    have hno := no_children hs hi.1 (c := c) (by rw [ht]; rfl) (by simp [ht])
    simp [Function.update_apply] at hc hl hr hp ⊢
    grind
  | @createFailed t ht hl' | @failed t ht hl' | @notLoaded t w ht hc' hl' =>
    have hi : s.creator t = none ∨ s.onList t = false := by
      have ho := ho t
      simp only [Own, view, ht] at ho
      grind [Fresh, Runs]
    simp [Function.update_apply] at hc hl hr hp ⊢
    grind
  | @exitOrphan t ht hp' hl' =>
    simp [Function.update_apply] at hc hl hr hp ⊢
    grind
  | @create t w n ht hu =>
    have how := ho w
    simp only [Own, view, hu] at how
    simp [Function.update_apply] at hc hl hr hp ⊢
    grind
  | @link t q ht hq =>
    have hot := ho t
    simp only [Own, view, ht] at hot
    simp [Function.update_apply] at hc hl hr hp ⊢
    grind
  | @waitDone t d ht hl' hst =>
    simp [Function.update_apply] at hc hl hr hp ⊢
    grind
  | @releaseChild t o d rest k ht =>
    have hd := hs.acts.rest (t := t) (c := d) (by rw [ht]; rfl) (by simp [ht, restOf])
    have hlo := (hs.acts.releases (t := t) (by rw [ht]; rfl)).1
    simp [Function.update_apply] at hc hl hr hp ⊢
    grind
  | @releasedWait t o v ht hl' | @releasedExecute t o ht hl' | @releasedFailed t o ht hl'
  | @releasedOrphan t o ht hl' =>
    simp [Function.update_apply] at hc hl hr hp ⊢
    grind
  | _ => exact hf hc hl hr hp

/-! ### The semaphore -/

theorem early_move (hs : Inv s) {t u p : T} {q : Place T} (hc : s.creator u = some p)
    (hpl : s'.place = Function.update s.place t q) (hst : ∀ u, u ≠ t → s'.status u = s.status u)
    (hd : ∀ u, execDownChild (s.place t) = some u → ups (s.place u) (s.status u) ≠ 0)
    (hq : ups q (s'.status t) ≠ 0 ∨ ups (s.place t) (s.status t) = 0)
    (hu : ups (s'.place u) (s'.status u) = 0) : execDownChild (s'.place p) = some u := by
  have he : ups (s.place u) (s.status u) = 0 := by
    by_cases hut : u = t
    · subst hut
      rw [hpl, Function.update_self] at hu
      exact hq.resolve_left (absurd hu)
    · rwa [hpl, Function.update_of_ne hut, hst u hut] at hu
  have hep := hs.family.early hc he
  have hpt : p ≠ t := fun h => hd u (h ▸ hep) he
  rwa [hpl, Function.update_of_ne hpt]

theorem early_step (hs : Inv s) (h : Effect s s') {u p : T} (hc : s'.creator u = some p)
    (hu : ups (s'.place u) (s'.status u) = 0) : execDownChild (s'.place p) = some u := by
  cases h with
  | activate => exact hs.family.early hc hu
  | @create t w n ht hw =>
    have hwt : w ≠ t := fun h => by simp [h, ht] at hw
    by_cases huw : u = w
    · obtain rfl : t = p := by simpa [huw] using hc
      simp [huw, execDownChild]
    · have hc : s.creator u = some p := by simpa [huw] using hc
      have hut : u ≠ t := fun h => by simp [h, ups] at hu
      have he := hs.family.early hc (by simpa [huw, hut] using hu)
      have hpt : p ≠ t := fun h => by simp [h, ht, execDownChild] at he
      have hpw : p ≠ w := fun h => by simp [h, hw, execDownChild] at he
      simpa [hpt, hpw] using he
  | @execDown t w n v ht hv h0 =>
    obtain ⟨v', hv', hd⟩ := hs.family.value (hs.acts.executing (t := t) (by rw [ht]; rfl)).1
      (.inr (by rw [ht]; rfl))
    obtain rfl := Option.some.inj (hv.symm.trans hv')
    refine early_move hs (t := t) hc rfl (fun u _ => rfl) (fun u' hu' => ?_) (.inl (by simp [ups])) hu
    obtain rfl : w = u' := by simpa [ht, execDownChild] using hu'
    simp only [ht, downs, if_true] at hd
    omega
  | @execute t ht | @threadExit t ht | @threadDies t ht | @load t ht | @loadFailed t ht
  | @exitChild t p ht | @executeFailed t ht | @createFailedOld t ht | @noChild t ht
  | @exit t code ht | @setStatus t ht | @detach t ht | @clear t ht | @executed t w n ht
  | @failUp t v ht | @startUp t v ht | @exitUp t v ht | @wait t c ht
  | @waitDown t c v ht | @releaseChild t o c rest k ht | @releaseNext t o c rest k ht
  | @executeNew t ht | @start t p ht | @createFailed t ht | @failed t ht | @exitOrphan t ht
  | @waitDone t d ht | @releasedWait t o v ht | @releasedExecute t o ht | @releasedFailed t o ht
  | @releasedOrphan t o ht | @notLoaded t w ht hf | @notLoadedOld t w ht hf | @link t q ht hq =>
    refine early_move hs (t := t) hc rfl (fun u hu => by simp [hu]) (by simp [ht, execDownChild])
      ?_ hu
    simp [ht, ups]
    try split <;> simp

/-- The semaphore that a thread shares with its creator, there, counts what the two have done. -/
def Counts (s : Sys T) (u t : T) : Prop :=
  ∃ v, s.value u = some v ∧ v + downs u (s.place t) = ups (s.place u) (s.status u)

/-- The creator of a thread may still put down the semaphore that they share. -/
def Shared (s : Sys T) (u t : T) : Prop :=
  (s.life u = .live ∧ s.onList u = true) ∨ execChild (s.place t) = some u

theorem value_move (hs : Inv s) {t u p : T} {q : Place T} (hc : s.creator u = some p)
    (hpl : s'.place = Function.update s.place t q) (hva : s'.value u = s.value u)
    (hst : ∀ u, u ≠ t → s'.status u = s.status u)
    (hd : s.creator u = some t → downs u q = downs u (s.place t))
    (hq : u = t → ups q (s'.status t) = ups (s.place t) (s.status t))
    (hu : Shared s u p) : Counts s' u p := by
  obtain ⟨v, hv, h⟩ := hs.family.value hc hu
  refine ⟨v, by rw [hva, hv], ?_⟩
  have hdp : downs u (s'.place p) = downs u (s.place p) := by
    rw [hpl, Function.update_apply]
    split
    · subst p
      exact hd hc
    · rfl
  have huu : ups (s'.place u) (s'.status u) = ups (s.place u) (s.status u) := by
    by_cases hut : u = t
    · subst hut
      rw [hpl, Function.update_self]
      exact hq rfl
    · rw [hpl, Function.update_of_ne hut, hst u hut]
  rw [hdp, huu, h]

theorem shared_move {t u p : T} {q : Place T} (hu : Shared s' u p)
    (hpl : s'.place = Function.update s.place t q)
    (hli : s'.life u = .live ∧ s'.onList u = true → s.life u = .live ∧ s.onList u = true)
    (he : execChild q = none ∨ execChild q = execChild (s.place t)) : Shared s u p := by
  obtain h | h := hu
  · exact .inl (hli h)
  · refine .inr ?_
    rw [hpl, Function.update_apply] at h
    split at h
    · subst p
      obtain he | he := he
      · simp [he] at h
      · rwa [← he]
    · exact h

theorem value_step (hs : Inv s) (h : Effect s s') {u p : T} (hc : s'.creator u = some p)
    (hu : Shared s' u p) : Counts s' u p := by
  have ho := hs.own
  cases h with
  | activate => exact hs.family.value hc hu
  | @execute t ht | @threadExit t ht | @load t ht | @loadFailed t ht | @exitChild t p ht
  | @executeFailed t ht | @createFailedOld t ht | @noChild t ht | @exit t code ht | @setStatus t ht
  | @detach t ht | @executed t w n ht | @wait t c ht | @releaseChild t o c rest k ht
  | @releaseNext t o c rest k ht =>
    exact value_move hs (t := t) hc rfl rfl (fun u hu => by simp [hu]) (by simp [ht, downs])
      (by simp [ht, ups]) (shared_move (t := t) hu rfl (fun h => h) (by simp [execChild]))
  | @threadDies t ht hp | @clear t ht | @releasedFailed t o ht =>
    have hst : s.creator t = none ∨ s.status t = .running := by
      have ho := ho t
      simp only [Own, view, ht] at ho
      grind [Runs, Leaves, Fresh]
    refine value_move hs (t := t) hc rfl rfl (fun _ _ => rfl) (by simp [ht, downs])
      (fun h => ?_) (shared_move (t := t) hu rfl (fun h => ?_) (by simp [execChild]))
    · have hct : s.creator t = some p := h ▸ hc
      simp [ht, ups, hst.resolve_left (by simp [hct])]
    · simp [Function.update_apply] at h ⊢
      grind
  | @executeNew t ht hp | @start t p ht | @failed t ht hl =>
    have hi : s.creator t = none ∨ s.onList t = false := by
      have ho := ho t
      simp only [Own, view, ht] at ho
      grind [Fresh, Runs]
    refine value_move hs (t := t) hc rfl (by simp) (fun u hu => by simp [hu]) (by simp [ht, downs])
      (by simp [ht, ups]) (shared_move (t := t) hu rfl (fun h => ?_) (by simp [execChild]))
    simp [Function.update_apply] at h hc ⊢
    grind
  | @releasedWait t o v ht | @releasedExecute t o ht | @releasedOrphan t o ht =>
    refine value_move hs (t := t) hc rfl rfl (fun _ _ => rfl) (by simp [ht, downs])
      (by simp [ht, ups]) (shared_move (t := t) hu rfl (fun h => ?_) (by simp [execChild]))
    simp [Function.update_apply] at h ⊢
    grind
  | @createFailed t ht hl =>
    have hi : s.creator t = none := by
      have ho := ho t
      simp only [Own, view, ht] at ho
      grind [Runs]
    have hut : u ≠ t := fun h => by simp [h, hi] at hc
    refine value_move hs (t := t) hc rfl ?_ (fun _ _ => rfl) (by simp [ht, downs]) (by simp [ht, ups])
      (shared_move (t := t) hu rfl (fun h => ?_) (by simp [execChild]))
    · simp only [Sys.release_value]
      split <;> simp [hut]
    · simpa [hut] using h
  | @exitOrphan t ht hp hl =>
    have hut : u ≠ t := by
      rintro rfl
      have hc : s.creator u = some p := hc
      obtain ⟨h, -⟩ | h := hu
      · simp at h
      -- the creator still runs with its `struct process_info`, so the thread is not an orphan
      have hpu : p ≠ u := fun h' => by simp [h', execChild] at h
      have hou := ho u
      simp only [Sys.release_place, Function.update_of_ne hpu] at h
      have hlp := hs.live_of_child (.inl h)
      simp only [Own, view, ht] at hou
      grind [Runs, hs.family.parent]
    refine value_move hs (t := t) hc rfl ?_ (fun _ _ => rfl) (by simp [ht, downs]) (by simp [ht, ups])
      (shared_move (t := t) hu rfl (fun h => ?_) (by simp [execChild]))
    · simp only [Sys.release_value]
      split <;> simp [hut]
    · simpa [hut] using h
  | @notLoaded t w ht hw hl =>
    have hi : s.creator t = none ∧ s.sema t = false := by
      have ho := ho t
      simp only [Own, view, ht] at ho
      grind [Runs]
    have hut : u ≠ t := by
      rintro rfl
      exact absurd (hi.1.symm.trans hc) (by simp)
    have hsh := shared_move (t := t) hu rfl (fun h => by simpa [hut] using h) (by simp [execChild])
    have huw : u ≠ w := by
      rintro rfl
      obtain ⟨-, h⟩ | h := hu
      · exact absurd ((execDowned_child hs ht).mpr h) (by simp [hw])
      · by_cases hpt : p = t
        · simp [hpt, execChild] at h
        · exact hpt (Option.some.inj (hc.symm.trans ((hs.acts.executing (by rw [ht]; rfl)).1)))
    refine value_move hs (t := t) hc rfl ?_ (fun _ _ => rfl) (by simp [ht, downs]) (by simp [ht, ups]) hsh
    simp [hi, huw]
  | @notLoadedOld t w ht hw =>
    have huw : u ≠ w := by
      rintro rfl
      obtain ⟨-, h⟩ | h := hu
      · exact absurd ((execDowned_child hs ht).mpr h) (by simp [hw])
      · by_cases hpt : p = t
        · simp [hpt, execChild] at h
        · exact hpt (Option.some.inj (hc.symm.trans ((hs.acts.executing (by rw [ht]; rfl)).1)))
    exact value_move hs (t := t) hc rfl (by simp [huw]) (fun _ _ => rfl) (by simp [ht, downs])
      (by simp [ht, ups]) (shared_move (t := t) hu rfl (fun h => h) (by simp [execChild]))
  | @failUp t v ht hv | @startUp t v ht hv =>
    by_cases hut : u = t
    · subst hut
      have he := hs.family.early hc (by simp [ht, ups])
      obtain ⟨v', hv', h⟩ := hs.family.value hc (.inr (execChild_of_down he))
      obtain rfl := Option.some.inj (hv.symm.trans hv')
      have hpu : p ≠ u := fun h' => by simp [h', ht, execDownChild] at he
      refine ⟨v + 1, Function.update_self .., ?_⟩
      simp [hpu, ups]
      simp [ht, ups] at h
      omega
    · exact value_move hs (t := t) hc rfl (Function.update_of_ne hut ..) (fun _ _ => rfl)
        (by simp [ht, downs]) (absurd · hut)
        (shared_move (t := t) hu rfl (fun h => h) (by simp [execChild]))
  | @exitUp t v ht hv =>
    by_cases hut : u = t
    · subst hut
      have hou := ho u
      simp only [Own, view, ht, Exited] at hou
      obtain ⟨v', hv', h⟩ := hs.family.value hc (.inl ⟨hou.2.2.2.1, hou.1.2.1⟩)
      obtain rfl := Option.some.inj (hv.symm.trans hv')
      have hd : downs u (Function.update s.place u .dead p) = downs u (s.place p) := by
        by_cases hpu : p = u <;> simp [hpu, ht, downs]
      have hst : s.status u = .exited := hou.1.2.2.2
      refine ⟨v + 1, Function.update_self .., ?_⟩
      show v + 1 + downs u (Function.update s.place u .dead p) = ups (Function.update s.place u .dead u) _
      rw [hd, Function.update_self]
      simp [ht, hst, ups] at h ⊢
      omega
    · exact value_move hs (t := t) hc rfl (Function.update_of_ne hut ..) (fun _ _ => rfl)
        (by simp [ht, downs]) (absurd · hut)
        (shared_move (t := t) hu rfl (fun h => h) (by simp [execChild]))
  | @link t q ht hq =>
    have hsh : Shared s u p := by
      by_cases hut : u = t
      · subst hut
        exact .inr (execChild_of_down (hs.family.early hc (by simp [ht, ups])))
      · exact shared_move (t := t) hu rfl (fun h => by simpa [hut] using h) (by simp [execChild])
    exact value_move hs (t := t) hc rfl rfl (fun _ _ => rfl) (by simp [ht, downs]) (by simp [ht, ups]) hsh
  | @execDown t w n v ht hv h0 | @waitDown t w v ht hv h0 =>
    have hsh : Shared s u p := by
      refine shared_move (t := t) hu rfl (fun h => h) ?_
      simp [ht, execChild]
    by_cases huw : u = w
    · subst huw
      obtain ⟨v', hv', h⟩ := hs.family.value hc hsh
      obtain rfl := Option.some.inj (hv.symm.trans hv')
      obtain rfl : t = p := by
        have hct : s.creator u = some t := by
          first
            | exact (hs.acts.executing (t := t) (by rw [ht]; rfl)).1
            | exact (hs.acts.waiting (t := t) (by rw [ht]; rfl)).1
        exact Option.some.inj (hct.symm.trans hc)
      refine ⟨v - 1, Function.update_self .., ?_⟩
      by_cases hut : u = t
      · subst hut
        simp [ht, downs, ups] at h ⊢
        omega
      · simp [ht, downs, hut] at h ⊢
        omega
    · exact value_move hs (t := t) hc rfl (Function.update_of_ne huw ..) (fun _ _ => rfl)
        (by simp [ht, downs, Ne.symm huw]) (by simp [ht, ups]) hsh
  | @waitDone t w ht hl hst =>
    have hct := (hs.acts.waiting (t := t) (c := w) (by rw [ht]; rfl)).1
    have huw : u ≠ w := by
      rintro rfl
      obtain rfl : t = p := Option.some.inj (hct.symm.trans hc)
      simp [Shared, execChild] at hu
    refine value_move hs (t := t) hc rfl ?_ (fun _ _ => rfl) (by simp [ht, downs, huw.symm])
      (by simp [ht, ups]) (shared_move (t := t) hu rfl (fun h => ?_) (by simp [execChild]))
    · simp only [Sys.release_value]
      split <;> simp [huw]
    · simpa [huw] using h
  | @create t w n ht hw =>
    have hwt : w ≠ t := fun h => by simp [h, ht] at hw
    by_cases huw : u = w
    · subst huw
      obtain rfl : t = p := by simpa using hc
      exact ⟨0, by simp, by simp [hwt, downs, ups]⟩
    · have hc : s.creator u = some p := by simpa [huw] using hc
      have hpw : p ≠ w := fun h => hs.acts.born hc (h ▸ hw)
      have hsh : Shared s u p := by
        obtain h | h := hu
        · exact .inl h
        · by_cases hpt : p = t
          · simp [hpt, execChild, Ne.symm huw] at h
          · exact .inr (by simpa [hpt, hpw] using h)
      obtain ⟨v, hv, h⟩ := hs.family.value hc hsh
      refine ⟨v, by simpa [huw] using hv, ?_⟩
      have hd : downs u (if p = t then .execDown w n else s.place p) = downs u (s.place p) := by
        split
        · simp [*, downs, Ne.symm huw]
        · rfl
      have hq : ups (if u = t then .execDown w n else s.place u) (s.status u) =
          ups (s.place u) (s.status u) := by
        split
        · simp [*, ups]
        · rfl
      simpa [Function.update_apply, hpw, huw, hd, hq] using h

/-! ### Every run -/

theorem inv_start (h : Init s) : Inv s where
  own u := by
    obtain ⟨main, hm⟩ := h.place
    by_cases hu : u = main <;>
      simp [Own, view, hm, hu, h.creator, h.reaped, h.onList, h.processInfo, h.life]
  acts := by
    obtain ⟨main, hm⟩ := h.place
    constructor
    · intro c p hc
      simp [h.creator] at hc
    all_goals
      intro t
      by_cases hu : t = main <;> simp [hm, hu, execChild, waitChild, releaseOf]
  family :=
    { mem := by simp [h.childrenPi, h.creator]
      nodup := by simp [h.childrenPi]
      withInfo := by simp [h.creator]
      parent := by simp [h.creator]
      early := by simp [h.creator]
      value := by simp [h.creator] }

/-- **The invariant of the processes.** -/
theorem inv : Invariant (σ := Sys T) Init Step Inv where
  start := inv_start
  step hs h :=
    have he := effect_of_step h
    { own := own_step hs he
      acts := acts_step hs he
      family :=
        { mem := mem_step hs he
          nodup := nodup_step hs he
          withInfo := withInfo_step hs he
          parent := parent_step hs he
          early := early_step hs he
          value := value_step hs he } }

end Pintos.Userprog.ProcessFamily
