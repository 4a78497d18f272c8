import Pintos.Vm.Content

/-! # Paging is invisible

To a process its memory is flat: a load returns what was last stored to the byte, or what the page held when
it was allocated. The history of a run lists what processes did to their pages; the content of every vpage is
what the history says, whatever was faulted in and evicted in between. -/

namespace Pintos.Vm.Invisible

open Pintos.Lib Pintos.Lib.Ops Pintos.Lib.Runs
open Pintos.Vm.State Pintos.Vm.Vpage Pintos.Vm.Effect Pintos.Vm.Invariant Pintos.Vm.Preserve
open Pintos.Vm.Run Pintos.Vm.Content

/-! ### Histories -/

/-- What is seen of a step. -/
inductive Event
  /-- A vpage is allocated, with its initial content. -/
  | begin (k : Key) (p : Page)
  | store (k : Key) (j : Fin pgSize) (byte : UInt8)
  | load (k : Key) (j : Fin pgSize) (byte : UInt8)

/-- The byte of a page that a history, newest event first, ends with. -/
def lastValue (k : Key) (j : Fin pgSize) : List Event → Option UInt8
  | [] => none
  | .begin k' p :: tr => if k' = k then some (p j) else lastValue k j tr
  | .store k' j' byte :: tr => if k' = k ∧ j' = j then some byte else lastValue k j tr
  | .load _ _ _ :: tr => lastValue k j tr

/-- **Flat memory**: every load returned the last value of its byte. -/
def Flat : List Event → Prop
  | [] => True
  | .load k j byte :: tr => lastValue k j tr = some byte ∧ Flat tr
  | _ :: tr => Flat tr

/-- The event of an allocation, if it succeeded. -/
def began (s s' : VM) (k : Key) : List Event :=
  match contentAt s k, contentAt s' k with
  | none, some p => [.begin k p]
  | _, _ => []

/-- The events of a step that returns `r`. -/
def events (s : VM) (a : Action) (r : Option UInt8) (s' : VM) : List Event :=
  match a, r with
  | .lazyAllocate _ u _ p _, _ => began s s' ⟨p, u⟩
  | .inmemAllocate p _ u _, _ => began s s' ⟨p, u⟩
  | .store p u j byte, _ => [.store ⟨p, u⟩ j byte]
  | .load p u j, some byte => [.load ⟨p, u⟩ j byte]
  | _, _ => []

/-- A state with the history that led to it. -/
structure Traced where
  vm : VM
  history : List Event

def TracedInit (x : Traced) : Prop := Init x.vm ∧ x.history = []

/-- The transition relation, which records what is seen. -/
def TracedStep (x : Traced) (a : Action) (x' : Traced) : Prop :=
  Allowed x.vm a ∧ ∃ r, act a x.vm = some (r, x'.vm) ∧
    x'.history = events x.vm a r x'.vm ++ x.history

/-- Files are not written while a vpage is lazy for them, and a fault reads the full length. -/
def Quiet (x : Traced) : Action → Prop
  | .fault p _ u =>
    ∀ v i, x.vm.find ⟨p, u⟩ = some v → v.backend = .lazy i → FullRead x.vm i
  | .fileWrite file _ => ∀ v ∈ x.vm.map, ∀ i, v.backend = .lazy i → i.file ≠ some file
  | _ => True

/-! ### What a step does to a content -/

/-- The step stores to the page `k`. -/
def Stores (k : Key) : Action → Prop
  | .store p u _ _ => k = ⟨p, u⟩
  | _ => False

/-- What may happen to the page `k` in a step: nothing, it is released, or it gets a byte stored. -/
inductive PageStep (k : Key) (p : Page) : Action → Option Page → Prop
  | same {a : Action} (ha : ¬Stores k a) : PageStep k p a (some p)
  | released {a : Action} (ha : Releases a) : PageStep k p a none
  | stored {j : Fin pgSize} {byte : UInt8} :
      PageStep k p (.store k.pid k.uaddr j byte) (some (Function.update p j byte))

variable {s s' : VM} {a : Action} {r : Option UInt8} {k : Key} {p : Page} {x x' : Traced}

theorem contentAt_releasedAll {pid : Pid} (h : Owned s)
    (hrel : Relation.ReflTransGen (ReleaseOne pid) s s') :
    contentAt s' k = none ∨ contentAt s' k = contentAt s k := by
  have hboth : Owned s' ∧ (contentAt s' k = none ∨ contentAt s' k = contentAt s k) := by
    induction hrel with
    | refl => exact ⟨h, .inr rfl⟩
    | tail _ hone ih =>
      obtain ⟨v, hv, -, rfl⟩ := hone
      refine ⟨owned_releaseVpage ih.1 hv, ?_⟩
      rw [contentAt_releaseVpage ih.1 hv]
      split_ifs
      · exact .inl rfl
      · exact ih.2
  exact hboth.2

theorem not_stores_of_mayFail (ha : MayFail a) : ¬Stores k a := by
  cases a <;> first | exact id | exact ha.elim

theorem not_stores_of_releases (ha : Releases a) : ¬Stores k a := by
  cases a <;> first | exact id | exact ha.elim

/-- **What a step does to a page that is there.** -/
theorem pageStep_outcome (h : Owned s) (hq : Quiet ⟨s, []⟩ a) (ho : Outcome s a r s')
    (hp : contentAt s k = some p) : PageStep k p a (contentAt s' k) := by
  have hsome : s.find k ≠ none := by
    intro hnone
    rw [contentAt_eq_none.mpr hnone] at hp
    cases hp
  cases ho with
  | same ha => exact hp ▸ .same (not_stores_of_mayFail ha)
  | @created pid d =>
    have hc : contentAt (createPagedir s pid d) k = contentAt s k :=
      contentAt_congr rfl fun _ _ => rfl
    exact hc ▸ hp ▸ .same id
  | @added env u i pid w hnew =>
    have hne : VpageInfo.key ⟨u, w, pid, .lazy i⟩ ≠ k := fun he => hsome (he ▸ hnew)
    have hfind := find_addVpage s ⟨u, w, pid, .lazy i⟩ k
    rw [if_neg hne] at hfind
    rw [contentAt_congr hfind fun _ _ => rfl]
    exact hp ▸ .same id
  | @placed pid env u w f s' hmalloc hpl =>
    have hne : k ≠ ⟨pid, u⟩ := fun he => hsome (he ▸ find_placed hpl)
    rw [contentAt_placed h hpl hne]
    exact hp ▸ .same id
  | pagedIn hin =>
    rw [contentAt_pagedIn h hq hin]
    exact hp ▸ .same id
  | allowed hv hb =>
    rw [contentAt_withWritable h.keyed (Table.mem_of_find hv)]
    exact hp ▸ .same id
  | @remapped env u pid w v i e hv hb he =>
    have hc : contentAt (mapPage (unmapPage (s.replace (v.withWritable w)) i.pagedir u) i.pagedir u
        ⟨e.frame, w⟩) k = contentAt (s.replace (v.withWritable w)) k :=
      contentAt_congr rfl fun _ _ => rfl
    rw [hc, contentAt_withWritable h.keyed (Table.mem_of_find hv)]
    exact hp ▸ .same id
  | released ha hv =>
    rw [contentAt_releaseVpage h hv]
    split_ifs
    · exact .released ha
    · exact hp ▸ .same (not_stores_of_releases ha)
  | releasedAll hrel hno =>
    rcases contentAt_releasedAll (k := k) h hrel with hc | hc
    · exact hc ▸ .released trivial
    · exact hc ▸ hp ▸ .same id
  | @dropped pid d hd hno =>
    have hc : contentAt (dropPagedir s pid d) k = contentAt s k := contentAt_congr rfl fun _ _ => rfl
    exact hc ▸ hp ▸ .same id
  | loaded => exact hp ▸ .same id
  | @stored pid u j byte d e hd he hw =>
    rw [contentAt_store h hd he]
    split_ifs with hk
    · subst hk
      obtain rfl : s.mem e.frame = p := by simpa [contentAt_of_pte h hd he] using hp
      exact .stored
    · exact hp ▸ .same hk
  | @wrote file data =>
    have hc : contentAt { s with files := Function.update s.files file data } k = contentAt s k := by
      refine contentAt_congr rfl fun v hv => ?_
      cases hb : v.backend with
      | inmem i => rw [content_inmem hb, content_inmem hb]
      | swapped i => rw [content_swapped hb, content_swapped hb]
      | lazy i =>
        have hne := hq v (Table.mem_of_find hv) i hb
        rw [content_lazy hb, content_lazy hb]
        funext j
        cases hf : i.file with
        | none => simp [lazyPage, hf]
        | some g =>
          have hg : g ≠ file := by
            rintro rfl
            exact hne hf
          simp [lazyPage, hf, hg]
    exact hc ▸ hp ▸ .same id
  | rehashed hm =>
    have hc : contentAt { s with map := _ } k = contentAt s k :=
      contentAt_congr (h.keyed.find_perm hm k) fun _ _ => rfl
    exact hc ▸ hp ▸ .same id

/-- Content comes into being only where a step allocates, and then the history begins it. -/
theorem began_outcome (ho : Outcome s a r s') (hnone : contentAt s k = none)
    (hp : contentAt s' k = some p) : events s a r s' = [.begin k p] := by
  have hold : k ∉ s.map.map VpageInfo.key := by
    simpa using Table.find_eq_none.mp (contentAt_eq_none.mp hnone)
  have hnew : k ∈ s'.map.map VpageInfo.key := by
    obtain ⟨v, hv, -⟩ := Option.map_eq_some_iff.mp hp
    exact List.mem_map.mpr ⟨v, Table.mem_of_find hv, Table.key_of_find hv⟩
  have hbegan : began s s' k = [.begin k p] := by rw [began, hnone, hp]
  have hadds : Adds k a := (keys_outcome ho hnew).resolve_left hold
  cases a <;> first | exact hadds.elim | exact hadds ▸ hbegan

/-! ### The history of a run -/

variable {j : Fin pgSize} {tr : List Event}

/-- A page that is there is not begun. -/
theorem lastValue_began (hp : contentAt s k = some p) (k' : Key) :
    lastValue k j (began s s' k' ++ tr) = lastValue k j tr := by
  unfold began
  split
  · have hne : k' ≠ k := by
      rintro rfl
      simp_all
    simp [lastValue, hne]
  · rfl

theorem lastValue_events (hp : contentAt s k = some p) (ha : ¬Stores k a) :
    lastValue k j (events s a r s' ++ tr) = lastValue k j tr := by
  cases a with
  | lazyAllocate => exact lastValue_began hp _
  | inmemAllocate => exact lastValue_began hp _
  | store pid u j' byte =>
    have hne : (⟨pid, u⟩ : Key) ≠ k := fun he => ha he.symm
    simp [events, lastValue, hne]
  | load => cases r <;> rfl
  | _ => rfl

/-- The history follows the content of a page that is there. -/
theorem last_of_pageStep (hp : contentAt s k = some p) (hlast : ∀ j, lastValue k j tr = some (p j))
    {o : Option Page} (hstep : PageStep k p a o) :
    ∀ p', o = some p' → ∀ j, lastValue k j (events s a r s' ++ tr) = some (p' j) := by
  intro p' ho j
  cases hstep with
  | same ha =>
    obtain rfl : p = p' := by simpa using ho
    rw [lastValue_events hp ha, hlast]
  | released => cases ho
  | @stored j' byte =>
    obtain rfl : Function.update p j' byte = p' := by simpa using ho
    by_cases hj : j' = j
    · subst hj
      simp [events, lastValue]
    · have hj' : j ≠ j' := fun he => hj he.symm
      simp [events, lastValue, hj, hj', hlast]

/-- **The invariant**: contents are what the history says, and every load in it was right. -/
structure Agrees (x : Traced) : Prop where
  owned : Owned x.vm
  last : ∀ k p, contentAt x.vm k = some p → ∀ j, lastValue k j x.history = some (p j)
  flat : Flat x.history

theorem flat_events (hx : Agrees x) (ho : Outcome x.vm a r s') :
    Flat (events x.vm a r s' ++ x.history) := by
  have hbegan : ∀ k, Flat (began x.vm s' k ++ x.history) := by
    intro k
    unfold began
    split
    · exact hx.flat
    · exact hx.flat
  cases ho with
  | @loaded pid u j d e hd he =>
    exact ⟨hx.last _ _ (contentAt_of_pte hx.owned hd he) j, hx.flat⟩
  | stored => exact hx.flat
  | added => exact hbegan _
  | placed => exact hbegan _
  | @same a ha => cases a <;> first | exact hbegan _ | exact hx.flat
  | @released a v ha hv => cases a <;> first | exact hx.flat | exact ha.elim
  | _ => exact hx.flat

theorem agrees_step (hx : Agrees x) (hq : Quiet x a) (hstep : TracedStep x a x') : Agrees x' := by
  obtain ⟨hallow, r, hact, hhist⟩ := hstep
  have ho : Outcome x.vm a r x'.vm := outcome_of_act hx.owned hallow _ _ hact
  refine ⟨owned_outcome hx.owned ho, fun k p' hp' => ?_, hhist ▸ flat_events hx ho⟩
  rw [hhist]
  cases hp : contentAt x.vm k with
  | none =>
    rw [began_outcome ho hp hp']
    exact fun j => if_pos rfl
  | some p =>
    exact last_of_pageStep hp (hx.last k p hp) (pageStep_outcome hx.owned hq ho hp) p' hp'

theorem agrees_invariant : Invariant TracedInit (Guarded Quiet TracedStep) Agrees where
  start h := by
    obtain ⟨hinit, hnil⟩ := h
    refine ⟨owned_init hinit, fun k p hp => ?_, hnil ▸ trivial⟩
    simp [contentAt, VM.find, Table.find, hinit.1] at hp
  step := fun hx ⟨hq, hstep⟩ => agrees_step hx hq hstep

/-- **Paging is invisible.** In every run in which files are not written while a vpage is lazy for them and
faults read the full length, every load returned the last value of its byte, every page holds the last values
of its bytes, and no step changes the content of a page but a store to it. -/
theorem paging_invisible (h : Reachable TracedInit (Guarded Quiet TracedStep) x) :
    Flat x.history ∧
      (∀ k p, contentAt x.vm k = some p → ∀ j, lastValue k j x.history = some (p j)) ∧
      ∀ a x', Quiet x a → TracedStep x a x' → ∀ k p, contentAt x.vm k = some p →
        PageStep k p a (contentAt x'.vm k) := by
  have hx : Agrees x := h.of_invariant agrees_invariant
  refine ⟨hx.flat, hx.last, fun a x' hq hstep k p hp => ?_⟩
  obtain ⟨hallow, r, hact, -⟩ := hstep
  exact pageStep_outcome hx.owned hq (outcome_of_act hx.owned hallow _ _ hact) hp

/-! ### A run -/

/-- The step that `a` takes, as a function. -/
def tracedAct (a : Action) (x : Traced) : Option Traced :=
  (act a x.vm).map fun o => ⟨o.2, events x.vm a o.1 o.2 ++ x.history⟩

theorem tracedStep_of_act (ha : Allowed x.vm a) (h : tracedAct a x = some x') : TracedStep x a x' := by
  obtain ⟨⟨r, s'⟩, hact, rfl⟩ := Option.map_eq_some_iff.mp h
  exact ⟨ha, r, hact, rfl⟩

/-- A machine with one free user page and two swap slots. -/
def machine : VM where
  map := []
  pagedirs := fun _ => none
  pagedir := fun _ => none
  userPool := [false]
  mem := fun _ _ => 0xff
  swapMap := List.replicate 16 false
  swapBlock := fun _ _ => 0
  files := fun _ => ⟨0, fun _ => 0⟩

/-- The first byte of a page. -/
def byte0 : Fin pgSize := ⟨0, by decide⟩

/-- Memory is there for everything but user pages. -/
def plenty : Env := ⟨false, true, true, 0⟩

/-- The process 1 faults its page 5 in and stores 7. Its stack page then takes the only frame, page 5 comes
back in exchange for the stack page, and a load returns 7. -/
theorem paging_invisible_evicted : ∃ x : Traced, x.history.length = 4 ∧ Flat x.history ∧
    lastValue ⟨1, 5⟩ byte0 x.history = some 7 := by
  obtain ⟨x1, x2, x3, x4, x5, x6, x7, h1, h2, h3, h4, h5, h6, h7, hlazy, hswapped, hlen, hlast⟩ :
      ∃ x1 x2 x3 x4 x5 x6 x7 : Traced, tracedAct (.create 1 0) ⟨machine, []⟩ = some x1 ∧
      tracedAct (.lazyAllocate plenty 5 ⟨none, 0, 0⟩ 1 true) x1 = some x2 ∧
      tracedAct (.fault 1 plenty 5) x2 = some x3 ∧ tracedAct (.store 1 5 byte0 7) x3 = some x4 ∧
      tracedAct (.inmemAllocate 1 plenty 0xbffff true) x4 = some x5 ∧
      tracedAct (.fault 1 plenty 5) x5 = some x6 ∧ tracedAct (.load 1 5 byte0) x6 = some x7 ∧
      x2.vm.find ⟨1, 5⟩ = some ⟨5, true, 1, .lazy ⟨none, 0, 0⟩⟩ ∧
      x5.vm.find ⟨1, 5⟩ = some ⟨5, true, 1, .swapped ⟨0⟩⟩ ∧
      x7.history.length = 4 ∧ lastValue ⟨1, 5⟩ byte0 x7.history = some 7 :=
    ⟨_, _, _, _, _, _, _, rfl, rfl, rfl, rfl, rfl, rfl, rfl, rfl, rfl, rfl, rfl⟩
  have hq2 : Quiet x2 (.fault 1 plenty 5) := by
    intro v i hv hb file hf
    obtain rfl : VpageInfo.mk 5 true 1 (.lazy ⟨none, 0, 0⟩) = v := by simpa [hlazy] using hv
    obtain rfl : (⟨none, 0, 0⟩ : InfoLazy) = i := by simpa using hb
    cases hf
  have hq5 : Quiet x5 (.fault 1 plenty 5) := by
    intro v i hv hb
    obtain rfl : VpageInfo.mk 5 true 1 (.swapped ⟨0⟩) = v := by simpa [hswapped] using hv
    cases hb
  have g1 : Guarded Quiet TracedStep ⟨machine, []⟩ (.create 1 0) x1 :=
    ⟨trivial, tracedStep_of_act ⟨rfl, rfl⟩ h1⟩
  have g2 : Guarded Quiet TracedStep x1 (.lazyAllocate plenty 5 ⟨none, 0, 0⟩ 1 true) x2 :=
    ⟨trivial, tracedStep_of_act trivial h2⟩
  have g3 : Guarded Quiet TracedStep x2 (.fault 1 plenty 5) x3 :=
    ⟨hq2, tracedStep_of_act trivial h3⟩
  have g4 : Guarded Quiet TracedStep x3 (.store 1 5 byte0 7) x4 :=
    ⟨trivial, tracedStep_of_act trivial h4⟩
  have g5 : Guarded Quiet TracedStep x4 (.inmemAllocate 1 plenty 0xbffff true) x5 :=
    ⟨trivial, tracedStep_of_act trivial h5⟩
  have g6 : Guarded Quiet TracedStep x5 (.fault 1 plenty 5) x6 :=
    ⟨hq5, tracedStep_of_act trivial h6⟩
  have g7 : Guarded Quiet TracedStep x6 (.load 1 5 byte0) x7 :=
    ⟨trivial, tracedStep_of_act trivial h7⟩
  have hinit : TracedInit ⟨machine, []⟩ := ⟨⟨rfl, fun _ => rfl, fun _ => rfl⟩, rfl⟩
  have hreach : Reachable TracedInit (Guarded Quiet TracedStep) x7 :=
    .step (.step (.step (.step (.step (.step (.step (.start hinit) g1) g2) g3) g4) g5) g6) g7
  exact ⟨x7, hlen, (paging_invisible hreach).1, hlast⟩

end Pintos.Vm.Invisible
