import Pintos.Userprog.MappedAccess
import Pintos.Userprog.MmapAtomic

/-! # What the pages of a mapping are

A page of a mapping is lazy as `mmap` has registered it until it comes in, and then shows what was read and stored. No
other step makes a page lazy, and none but a store changes what it shows. -/

namespace Pintos.Userprog.MappedPages

open Pintos.Lib Pintos.Lib.Ops Pintos.Lib.Runs Pintos.Vm.State Pintos.Vm.Swap Pintos.Vm.Vpage Pintos.Vm.Effect
open Pintos.Vm.Invariant Pintos.Vm.Run Pintos.Vm.Preserve Pintos.Vm.Content Pintos.Vm.Totality Pintos.Vm.Permission
open Pintos.Userprog.Mmap Pintos.Userprog.MmapInvariant Pintos.Userprog.MmapRelease Pintos.Userprog.MmapAtomic
open Pintos.Userprog.StackGrowth Pintos.Userprog.MappedAccess

/-! ### The shape of a page -/

/-- The page is lazy as `i` says. -/
def LazyIs (vm : VM) (k : Key) (i : InfoLazy) : Prop := ∃ v, vm.find k = some v ∧ v.backend = .lazy i

/-- **The shape of a page**: how it may be lazy, and what it may show. What is read into it, and what it is to show
before, has the shape. -/
structure Shape where
  lazy : InfoLazy → Prop
  page : Page → Prop
  read : ∀ {vm i}, lazy i → ∀ old, page (readPage vm i old)
  unread : ∀ {vm i}, lazy i → page (lazyPage vm i)

/-- The page is registered, and has the shape. -/
structure PageAs (vm : VM) (k : Key) (S : Shape) : Prop where
  shows : ∃ page, contentAt vm k = some page ∧ S.page page
  lazy : ∀ i, LazyIs vm k i → S.lazy i

variable {vm vm' vm₁ : VM} {m m' : Maps} {st : List Key} {p q : Pid} {env : Env} {envs : ℕ → Env} {me : MmapEntry}
  {u : ℕ} {k : Key} {S : Shape} {i : InfoLazy} {v w : VpageInfo} {f : Frame} {a : Action} {r : Option UInt8}

theorem PageAs.find_ne_none (h : PageAs vm k S) : vm.find k ≠ none := by
  obtain ⟨page, hpage, -⟩ := h.shows
  intro hnone
  rw [contentAt_eq_none.mpr hnone] at hpage
  cases hpage

/-- The content stays and no page becomes lazy. -/
theorem PageAs.congr (h : PageAs vm k S) (hc : contentAt vm' k = contentAt vm k)
    (hl : ∀ i, LazyIs vm' k i → LazyIs vm k i) : PageAs vm' k S :=
  ⟨hc ▸ h.shows, fun i hi => h.lazy i (hl i hi)⟩

theorem lazyIs_congr (hfind : vm'.find k = vm.find k) : ∀ i, LazyIs vm' k i → LazyIs vm k i := by
  rintro i ⟨v, hv, hb⟩
  exact ⟨v, hfind ▸ hv, hb⟩

/-- What is replaced is lazy no more, or as it was. -/
theorem lazyIs_replace (hs : Table.Keyed VpageInfo.key vm.map) (hv : v ∈ vm.map) (hk : w.key = v.key)
    (hw : ∀ i, w.backend = .lazy i → v.backend = .lazy i) : ∀ i, LazyIs (vm.replace w) k i → LazyIs vm k i := by
  rintro i ⟨x, hx, hb⟩
  rw [find_replace hs hv hk] at hx
  split_ifs at hx with hkey
  · obtain rfl := Option.some.inj hx
    exact ⟨v, hkey ▸ hs.find_mem hv, hw i hb⟩
  · exact ⟨x, hx, hb⟩

theorem lazyIs_got (hs : Table.Keyed VpageInfo.key vm.map) (hgot : Got vm f vm₁) :
    ∀ i, LazyIs vm₁ k i → LazyIs vm k i := by
  cases hgot with
  | take => exact lazyIs_congr rfl
  | @evict v i n hv hb => exact lazyIs_replace (w := v.withBackend (.swapped ⟨n⟩)) hs hv rfl (by simp)

theorem lazyIs_entered (hs : Table.Keyed VpageInfo.key vm.map) (hv : v ∈ vm.map) (hin : Entered p env vm v f vm') :
    ∀ i, LazyIs vm' k i → LazyIs vm k i := by
  cases hin with
  | @mapped d => exact lazyIs_replace (w := v.withBackend (.inmem ⟨f, d, env.now⟩)) hs hv rfl (by simp)
  | @unmapped d => exact lazyIs_replace (w := v.withBackend (.inmem ⟨f, d, env.now⟩)) hs hv rfl (by simp)

/-- **A page that comes in** has the shape: it is what was read, or as it was. -/
theorem pageAs_pagedIn (h : Owned vm) (hin : PagedIn p env vm u vm') (ht : PageAs vm k S) : PageAs vm' k S := by
  cases hin with
  | @lazy v i f s₁ _ hv hb hgot hin =>
    have h1 : Owned s₁ := owned_got h hgot
    have hmem := got_mem_map hgot h.keyed (Table.mem_of_find hv) (by simp [hb])
    have hc : contentAt vm' k = if k = v.key then some (readPage s₁ i (s₁.mem f)) else contentAt vm k := by
      rw [contentAt_entered (s := fillFrame s₁ f (readPage s₁ i (s₁.mem f))) h1.keyed hmem hin,
        contentAt_fillFrame (loose_got h hgot).free, ← contentAt_got h hgot, mem_fillFrame_self]
    have hfill : Table.Keyed VpageInfo.key (fillFrame s₁ f (readPage s₁ i (s₁.mem f))).map := h1.keyed
    have hl : ∀ i', LazyIs vm' k i' → LazyIs vm k i' := fun i' hi' => lazyIs_got h.keyed hgot i'
      (lazyIs_entered hfill hmem hin i' hi')
    by_cases hk : k = v.key
    · have hkey : v.key = ⟨p, u⟩ := Table.key_of_find hv
      have hlazy := ht.lazy i ⟨v, hk ▸ hkey ▸ hv, hb⟩
      rw [if_pos hk] at hc
      exact ⟨⟨_, hc, S.read hlazy _⟩, fun i' hi' => ht.lazy i' (hl i' hi')⟩
    · rw [if_neg hk] at hc
      exact ht.congr hc hl
  | @swapped v i f s₁ _ hv hb hgot hin =>
    have h1 : Owned s₁ := owned_got h hgot
    have hmem := got_mem_map hgot h.keyed (Table.mem_of_find hv) (by simp [hb])
    have hpaged : PagedIn p env vm u vm' := .swapped hv hb hgot hin
    refine ht.congr (contentAt_pagedIn h (fun v' i' hv' hb' => ?_) hpaged) fun i' hi' => ?_
    · obtain rfl : v = v' := Option.some.inj (hv.symm.trans hv')
      rw [hb] at hb'
      cases hb'
    · have hfill : Table.Keyed VpageInfo.key (fillFrame (setSlot s₁ i.swapIndex false) f
          (slotPage s₁.swapBlock i.swapIndex)).map := h1.keyed
      exact lazyIs_got h.keyed hgot i' (lazyIs_entered hfill hmem hin i' hi')

theorem pageAs_addVpage (ht : PageAs vm k S) (hne : v.key ≠ k) : PageAs (addVpage vm v) k S := by
  have hfind := find_addVpage vm v k
  rw [if_neg hne] at hfind
  exact ht.congr (contentAt_congr hfind fun _ _ => rfl) (lazyIs_congr hfind)

theorem pageAs_withWritable {wr : Bool} (hs : Table.Keyed VpageInfo.key vm.map) (hv : v ∈ vm.map)
    (ht : PageAs vm k S) : PageAs (vm.replace (v.withWritable wr)) k S :=
  ht.congr (contentAt_withWritable hs hv) (lazyIs_replace (w := v.withWritable wr) hs hv rfl fun _ h => h)

theorem pageAs_releaseVpage (h : Owned vm) (hv : v ∈ vm.map) (hne : k ≠ v.key) (ht : PageAs vm k S) :
    PageAs (releaseVpage vm v) k S := by
  have hc := contentAt_releaseVpage (k := k) h hv
  have hfind := find_releaseVpage (k := k) (v := v) h.keyed
  rw [if_neg hne] at hc hfind
  exact ht.congr hc (lazyIs_congr hfind)

/-- Files may change. -/
theorem pageAs_files {files : FileId → FileData} (ht : PageAs vm k S) : PageAs { vm with files := files } k S := by
  obtain ⟨page, hpage, hshape⟩ := ht.shows
  obtain ⟨v, hv, rfl⟩ := Option.map_eq_some_iff.mp hpage
  have hv' : VM.find { vm with files := files } k = some v := hv
  refine ⟨⟨_, contentAt_of_find hv', ?_⟩, ht.lazy⟩
  cases hb : v.backend with
  | inmem i => rw [content_inmem hb] at hshape ⊢; exact hshape
  | swapped i => rw [content_swapped hb] at hshape ⊢; exact hshape
  | lazy i =>
    rw [content_lazy hb]
    exact S.unread (ht.lazy i ⟨v, hv, hb⟩)

/-! ### The calls -/

theorem pageAs_withStack {start : Upage} {new : List Upage} (hnew : NewPages vm p start new) (ht : PageAs vm k S) :
    PageAs (withStack vm p new) k S := by
  obtain ⟨v, hv⟩ := Option.ne_none_iff_exists'.mp ht.find_ne_none
  have hfind : (withStack vm p new).find k = vm.find k := (keepsAll_withStack hnew k v hv).trans hv.symm
  exact ht.congr (contentAt_congr hfind fun _ _ => rfl) (lazyIs_congr hfind)

theorem handleStack_pageAs {esp uaddr : ℕ} (ht : PageAs vm k S) :
    Ensures (handleStack p envs esp uaddr) vm fun _ vm' => PageAs vm' k S := by
  refine (handleStack_yields vm p envs esp uaddr).ensures.mono fun _ vm' h => ?_
  obtain ⟨new, hnew, rfl⟩ := h
  exact pageAs_withStack hnew ht

theorem handleUserFault_pageAs (h : Owned vm) (ht : PageAs vm k S) :
    Ensures (handleUserFault p env u) vm fun _ vm' => PageAs vm' k S := by
  refine handleUserFault_ensures.mono fun r vm' hr => ?_
  rcases hr with ⟨-, rfl⟩ | ⟨-, hin⟩
  · exact ht
  · exact pageAs_pagedIn h hin ht

theorem setWritable_pageAs (hs : Table.Keyed VpageInfo.key vm.map) (ht : PageAs vm k S) :
    Ensures (setWritable env u p true) vm fun _ vm' => PageAs vm' k S := by
  have hreplace : ∀ v, vm.find ⟨p, u⟩ = some v → PageAs (vm.replace (v.withWritable true)) k S :=
    fun v hv => pageAs_withWritable hs (Table.mem_of_find hv) ht
  refine setWritable_ensures ht (fun v hv _ => hreplace v hv) fun v i e hv _ _ => ?_
  exact (hreplace v hv).congr (contentAt_congr rfl fun _ _ => rfl) (lazyIs_congr rfl)

theorem vmHandleUserFault_pageAs {esp uaddr : ℕ} {write : Bool} (h : MapInv m st) (ht : PageAs m.vm k S) :
    Ensures (vmHandleUserFault p env envs esp uaddr write) m fun _ m' => PageAs m'.vm k S := by
  have hstack : Ensures (onVm (handleStack p envs esp uaddr)) m fun _ m' => PageAs m'.vm k S :=
    .zoom (handleStack_pageAs ht)
  refine .bind (((onVm_keeps h (handleStack_keeps h.sound)).and hstack).mono fun _ m₁ h₁ =>
    .ite (fun _ => ?_) fun _ =>
    .pure h₁.2)
  have hdirty : Ensures (handleMmapDirty p env uaddr write) m₁ fun _ m' => PageAs m'.vm k S := by
    refine .bind (.get ?_)
    split
    · exact .bind (.modify (.zoom (setWritable_pageAs h₁.1.sound.owned.keyed h₁.2)))
    · exact .pure h₁.2
  refine .bind (((handleMmapDirty_inv h₁.1).and hdirty).mono fun _ m₂ h₂ => .ite (fun _ => .pure h₂.2) fun _ => ?_)
  exact .zoom (handleUserFault_pageAs h₂.1.sound.owned h₂.2)

theorem readUser_pageAs (h : Sound vm) (ht : PageAs vm k S) :
    Ensures (readUser p env u) vm fun _ vm' => PageAs vm' k S := by
  refine .bind (.get (.bind (.deref fun d _ => ?_)))
  split
  · exact .pure ht
  · refine .bind (.deref fun v _ => ?_)
    split
    · exact .bind ((handleUserFault_pageAs h.owned ht).mono fun _ _ h =>
        .bind (.get (.bind (.deref fun _ _ => .pure h))))
    · exact .halt

theorem writeBack_pageAs (h : Sound m.vm) (ht : PageAs m.vm k S) :
    Ensures (writeBack p envs me) m fun _ m' => PageAs m'.vm k S := by
  refine .bind (.get (.ite (fun _ => .zoom ?_) fun _ => .pure ht))
  have hloop : Ensures (fileWriteMapped p envs me) m.vm fun _ vm' => Sound vm' ∧ PageAs vm' k S := by
    refine .forM (I := fun vm => Sound vm ∧ PageAs vm k S) _ ⟨h, ht⟩ fun i _ vm hvm => ?_
    refine .bind (((readUser_keeps hvm.1).and (readUser_pageAs hvm.1 hvm.2)).mono fun page vm' hr => .modify ?_)
    exact ⟨(keeps_files hr.1 (length_le_update (le_max_left _ _))).sound, pageAs_files hr.2⟩
  exact hloop.mono fun _ _ h => h.2

/-- Other pages are released. -/
theorem releasePages_pageAs {n : ℕ} (h : Sound vm) (ht : PageAs vm k S) (hne : ∀ i < n, k ≠ ⟨p, pageAt u i⟩) :
    Ensures (releasePages p u n) vm fun _ vm' => PageAs vm' k S := by
  refine (Ensures.forM_range (I := fun _ vm => Sound vm ∧ PageAs vm k S) ⟨h, ht⟩ fun i hi vm hvm => ?_).mono
    fun _ _ h => h.2
  have hleft : Left vm (fun _ => False) vm := ⟨hvm.1, by simp, rfl⟩
  have hrelease : Ensures (findAndRelease (pageAt u i) p) vm fun _ vm' => PageAs vm' k S := by
    refine findAndRelease_ensures hvm.2 fun v hv => ?_
    have hkey : v.key = ⟨p, pageAt u i⟩ := Table.key_of_find hv
    exact pageAs_releaseVpage hvm.1.owned (Table.mem_of_find hv) (hkey ▸ hne i hi) hvm.2
  exact ((findAndRelease_left hleft fun _ => Iff.rfl).and hrelease).mono fun _ _ h => ⟨h.1.sound, h.2⟩

theorem mmapEntryRelease_pageAs (h : MapInv m st) (ht : PageAs m.vm k S)
    (hne : ∀ i < me.pageCnt, k ≠ ⟨p, pageAt me.uaddr i⟩) :
    Ensures (mmapEntryRelease p envs me) m fun _ m' => PageAs m'.vm k S := by
  refine .bind (.zoom ((checkPages_ensures me.pageCnt 0).mono fun _ vm hvm => .bind ?_))
  obtain rfl := hvm
  refine ((writeBack_keeps h.sound).and (writeBack_pageAs h.sound ht)).mono fun _ m₁ h₁ => .bind (.zoom ?_)
  exact (releasePages_pageAs h₁.1.1.sound h₁.2 hne).mono fun _ _ h => .modify h

theorem pageAs_releasedAll (h : Owned vm) (hrel : Relation.ReflTransGen (ReleaseOne p) vm vm') (hp : k.pid ≠ p)
    (ht : PageAs vm k S) : PageAs vm' k S := by
  have hboth : Owned vm' ∧ PageAs vm' k S := by
    induction hrel with
    | refl => exact ⟨h, ht⟩
    | tail _ hone ih =>
      obtain ⟨v, hv, hpid, rfl⟩ := hone
      refine ⟨owned_releaseVpage ih.1 hv, pageAs_releaseVpage ih.1 hv ?_ ih.2⟩
      rintro rfl
      exact hp hpid
  exact hboth.2

/-- **The other steps**: a store to the page is to leave it in the shape. -/
theorem pageAs_outcome (h : Owned vm) (ho : Outcome vm a r vm') (hrel : ¬Releases a)
    (hstore : ∀ j byte page, a = .store k.pid k.uaddr j byte → S.page page → S.page (Function.update page j byte))
    (ht : PageAs vm k S) : PageAs vm' k S := by
  cases ho with
  | same => exact ht
  | created => exact ht.congr (contentAt_congr rfl fun _ _ => rfl) (lazyIs_congr rfl)
  | @added env u i pid w hnew => exact pageAs_addVpage ht fun he => ht.find_ne_none (he ▸ hnew)
  | @placed pid env u w f _ hmalloc hpl =>
    have hne : k ≠ ⟨pid, u⟩ := fun he => ht.find_ne_none (he ▸ find_placed hpl)
    refine ht.congr (contentAt_placed h hpl hne) ?_
    have hadd : ∀ s₁ b, Got vm f s₁ → ∀ i, LazyIs (addVpage s₁ ⟨u, w, pid, b⟩) k i → LazyIs vm k i := by
      intro s₁ b hgot i hi
      have hfind := find_addVpage s₁ ⟨u, w, pid, b⟩ k
      rw [if_neg fun he => hne he.symm] at hfind
      exact lazyIs_got h.keyed hgot i (lazyIs_congr hfind i hi)
    cases hpl with
    | mapped hgot => exact hadd _ _ hgot
    | unmapped hgot => exact hadd _ _ hgot
  | pagedIn hin => exact pageAs_pagedIn h hin ht
  | allowed hv hb => exact pageAs_withWritable h.keyed (Table.mem_of_find hv) ht
  | remapped hv hb he =>
    exact (pageAs_withWritable h.keyed (Table.mem_of_find hv) ht).congr (contentAt_congr rfl fun _ _ => rfl)
      (lazyIs_congr rfl)
  | released ha => exact absurd ha hrel
  | releasedAll => exact absurd trivial hrel
  | dropped => exact ht.congr (contentAt_congr rfl fun _ _ => rfl) (lazyIs_congr rfl)
  | loaded => exact ht
  | @stored pid u j byte d e hd he hw =>
    have hc := contentAt_store (p := Function.update (vm.mem e.frame) j byte) (k := k) h hd he
    by_cases hk : k = ⟨pid, u⟩
    · subst hk
      rw [if_pos rfl] at hc
      obtain ⟨page, hpage, hshape⟩ := ht.shows
      rw [contentAt_of_pte h hd he, Option.some_inj] at hpage
      exact ⟨⟨_, hc, hstore j byte _ rfl (hpage ▸ hshape)⟩, ht.lazy⟩
    · rw [if_neg hk] at hc
      exact ht.congr hc (lazyIs_congr rfl)
  | wrote => exact pageAs_files ht
  | rehashed hm =>
    have hfind : VM.find { vm with map := _ } k = vm.find k := h.keyed.find_perm hm k
    exact ht.congr (contentAt_congr hfind fun _ _ => rfl) (lazyIs_congr hfind)

theorem actVm_pageAs (h : Sound m.vm) (ho : Other m a) (hal : Allowed m.vm a) (hmapped : m.entries k.pid ≠ [])
    (hstore : ∀ j byte page, a = .store k.pid k.uaddr j byte → S.page page → S.page (Function.update page j byte))
    (ht : PageAs m.vm k S) :
    Ensures (actVm a) m.vm fun _ vm' => PageAs vm' k S := by
  by_cases hall : ∃ p, a = .releaseAll p
  · obtain ⟨p, rfl⟩ := hall
    refine .bind (.bind (releaseAll_steps.mono fun _ vm' hrel => .pure (.pure ?_)))
    refine pageAs_releasedAll h.owned hrel.1 ?_ ht
    rintro rfl
    exact hmapped ho
  · have hrel : ¬Releases a := by
      cases a with
      | release | findAndRelease => exact fun _ => ho
      | releaseAll p => exact absurd ⟨p, rfl⟩ hall
      | _ => exact id
    exact .bind ((outcome_of_act h.owned hal).mono fun r vm' hout =>
      .pure (pageAs_outcome h.owned hout hrel hstore ht))

/-! ### Mapping a file -/

theorem find_withPages {file : FileId} {upage : Upage} {length n l : ℕ} (hfree : FreeRange vm p upage n)
    (hl : l < n) :
    (withPages vm p file upage length n).find ⟨p, pageAt upage l⟩ = some (mappedPage p file upage length l) := by
  have hfront : (mappedPages p file upage length 0 n).find? (fun v => v.key = ⟨p, pageAt upage l⟩) =
      some (mappedPage p file upage length l) := by
    cases hf : (mappedPages p file upage length 0 n).find? fun v => v.key = ⟨p, pageAt upage l⟩ with
    | none =>
      have hmem : mappedPage p file upage length l ∈ mappedPages p file upage length 0 n :=
        mem_mappedPages.mpr ⟨l, Nat.zero_le l, by omega, rfl⟩
      exact absurd (decide_eq_true rfl) (List.find?_eq_none.mp hf _ hmem)
    | some v =>
      obtain ⟨l', -, hl', rfl⟩ := mem_mappedPages.mp (List.mem_of_find?_eq_some hf)
      have hsome := List.find?_some hf
      have hkey : (mappedPage p file upage length l').key = ⟨p, pageAt upage l⟩ := of_decide_eq_true hsome
      have hpage : pageAt upage l' = pageAt upage l := congrArg Key.uaddr hkey
      rcases Nat.lt_trichotomy l l' with hlt | rfl | hlt
      · exact absurd hpage.symm (hfree.apart l' (by omega) l hlt)
      · rfl
      · exact absurd hpage (hfree.apart l hl l' hlt)
  show ((mappedPages p file upage length 0 n ++ vm.map).find? fun v => v.key = ⟨p, pageAt upage l⟩) = _
  rw [List.find?_append, hfront]
  rfl

/-- How `mmap` registers the page `l` of a mapping. -/
def mappedInfo (me : MmapEntry) (l : ℕ) : InfoLazy :=
  ⟨some me.file, l * pgSize, ⟨min (me.length - l * pgSize) pgSize, by omega⟩⟩

/-- **The pages of a new mapping.** -/
theorem pageAs_mappedPage {n l : ℕ} (hfree : FreeRange vm p me.uaddr n) (hl : l < n)
    (hS : S.lazy (mappedInfo me l)) :
    PageAs (withPages vm p me.file me.uaddr me.length n) ⟨p, pageAt me.uaddr l⟩ S := by
  have hfind : (withPages vm p me.file me.uaddr me.length n).find ⟨p, pageAt me.uaddr l⟩ =
      some (mappedPage p me.file me.uaddr me.length l) := find_withPages hfree hl
  have hb : (mappedPage p me.file me.uaddr me.length l).backend = .lazy (mappedInfo me l) := rfl
  refine ⟨⟨_, contentAt_of_find hfind, ?_⟩, ?_⟩
  · rw [content_lazy hb]
    exact S.unread hS
  · rintro i ⟨v, hv, hvb⟩
    obtain rfl := Option.some.inj (hfind.symm.trans hv)
    obtain rfl := Backend.lazy.inj (hb.symm.trans hvb)
    exact hS

/-- The pages that are there stay as they are. -/
theorem pageAs_withPages {file : FileId} {upage : Upage} {length n : ℕ} (hfree : FreeRange vm p upage n)
    (ht : PageAs vm k S) : PageAs (withPages vm p file upage length n) k S := by
  have hfind : (withPages vm p file upage length n).find k = vm.find k := by
    have hfront : (mappedPages p file upage length 0 n).find? (fun v => v.key = k) = none := by
      rw [List.find?_eq_none]
      intro v hv hkey
      obtain ⟨l, -, hl, rfl⟩ := mem_mappedPages.mp hv
      obtain rfl := of_decide_eq_true hkey
      exact ht.find_ne_none (hfree.absent l (by omega))
    show ((mappedPages p file upage length 0 n ++ vm.map).find? fun v => v.key = k) = _
    rw [List.find?_append, hfront]
    rfl
  exact ht.congr (contentAt_congr hfind fun _ _ => rfl) (lazyIs_congr hfind)

/-! ### The list of mappings -/

theorem onVm_entries {α : Type} {op : Op VM α} : Ensures (onVm op) m fun _ m' => m'.entries = m.entries :=
  .zoom fun _ _ _ => rfl

/-- Every mapping is as it was, or has become dirty. -/
def OnlyDirty (m m' : Maps) : Prop :=
  ∀ q, ∀ me' ∈ m'.entries q, me' ∈ m.entries q ∨ ∃ me ∈ m.entries q, me' = { me with dirty := true }

theorem OnlyDirty.of_eq (h : m'.entries = m.entries) : OnlyDirty m m' := fun _ _ hme' => .inl (h ▸ hme')

theorem onlyDirty_markDirty (hme : me ∈ m.entries p) : OnlyDirty m (m.markDirty p me) := by
  intro q me' hme'
  rw [Maps.markDirty, entries_setEntries] at hme'
  split_ifs at hme' with hq
  · subst hq
    obtain ⟨l₁, l₂, hl, hr⟩ := replace_eq_append (b := { me with dirty := true }) hme
    rw [hr] at hme'
    rw [hl]
    rcases List.mem_append.mp hme' with h | h
    · exact .inl (List.mem_append_left _ h)
    · rcases List.mem_cons.mp h with rfl | h
      · exact .inr ⟨me, List.mem_append_right _ List.mem_cons_self, rfl⟩
      · exact .inl (List.mem_append_right _ (List.mem_cons_of_mem _ h))
  · exact .inl hme'

theorem handleMmapDirty_onlyDirty {uaddr : ℕ} {write : Bool} :
    Ensures (handleMmapDirty p env uaddr write) m fun _ m' => OnlyDirty m m' := by
  refine .bind (.get ?_)
  split
  · rename_i me hget
    have hme : me ∈ m.entries p := by
      split_ifs at hget
      exact List.mem_of_find?_eq_some hget
    have hmarked := onlyDirty_markDirty hme
    exact .bind (.modify (onVm_entries.mono fun _ m' he q me' hme' => hmarked q me' (he ▸ hme')))
  · exact .pure (.of_eq rfl)

theorem fault_onlyDirty {esp uaddr : ℕ} {write : Bool} :
    Ensures (vmHandleUserFault p env envs esp uaddr write) m fun _ m' => OnlyDirty m m' := by
  refine .bind (onVm_entries.mono fun _ m₁ h₁ => .ite (fun _ => .bind ?_) fun _ => .pure (.of_eq h₁))
  refine handleMmapDirty_onlyDirty.mono fun _ m₂ h₂ => ?_
  have hdirty : OnlyDirty m m₂ := fun q me' hme' => h₁ ▸ h₂ q me' hme'
  exact .ite (fun _ => .pure hdirty) fun _ => onVm_entries.mono fun _ m' he q me' hme' => hdirty q me' (he ▸ hme')

/-- A mapping that is released is there no more; the others stay. -/
theorem release_entries : Ensures (mmapEntryRelease p envs me) m fun _ m' =>
    m'.entries = Function.update m.entries p ((m.entries p).erase me) := by
  have hwrite : ∀ {m₁ : Maps}, Ensures (writeBack p envs me) m₁ fun _ m' => m'.entries = m₁.entries :=
    .bind (.get (.ite (fun _ => onVm_entries) fun _ => .pure rfl))
  refine .bind (onVm_entries.mono fun _ m₁ h₁ => .bind (hwrite.mono fun _ m₂ h₂ => .bind ?_))
  refine onVm_entries.mono fun _ m₃ h₃ => .modify ?_
  have hentries : m₃.entries = m.entries := h₃.trans (h₂.trans h₁)
  show Function.update m₃.entries p ((m₃.entries p).erase me) = _
  rw [hentries]

/-! ### All pages of all mappings -/

/-- A shape for each page of each mapping, whether the mapping is dirty or not. The pages of a new mapping have it. -/
structure Shapes where
  shape : Pid → MmapEntry → ℕ → Shape
  dirty : ∀ p me l, shape p { me with dirty := true } l = shape p me l
  fresh : ∀ p me l, (shape p me l).lazy (mappedInfo me l)

/-- **Every page of a mapping has its shape.** -/
def Holds (m : Maps) (T : Shapes) : Prop :=
  ∀ p, ∀ me ∈ m.entries p, ∀ l < me.pageCnt, PageAs m.vm ⟨p, pageAt me.uaddr l⟩ (T.shape p me l)

variable {T : Shapes}

/-- **A mapping that goes** takes its own pages only. -/
theorem release_holds (h : MapInv m st) (hme : me ∈ m.entries p) (ht : Holds m T) :
    Ensures (mmapEntryRelease p envs me) m fun _ m' => Holds m' T := by
  intro r m' hr q a ha l hl
  rw [release_entries r m' hr, Function.update_apply] at ha
  have hold : a ∈ m.entries q := by
    split_ifs at ha with hq
    · subst hq
      exact List.mem_of_mem_erase ha
    · exact ha
  refine mmapEntryRelease_pageAs h (ht q a hold l hl) (fun i hi hkey => ?_) r m' hr
  obtain ⟨rfl, hpage⟩ := Key.mk.inj hkey
  rw [if_pos rfl] at ha
  exact h.disjoint_of_erase hme ha (mem_pagesOf.mpr ⟨i, hi, rfl⟩) (mem_pagesOf.mpr ⟨l, hl, hpage⟩)

/-- What a call of mmap does. -/
theorem sysMmap_cases {menv : MmapEnv} {file : Option FileId} {data : ℕ} : Ensures (sysMmap p menv file data) m
    fun _ m' => (∃ f upage, MappedAll m p f upage m') ∨ MappedNone m m' := by
  cases file with
  | none => exact .ite (fun _ => .pure (.inr ⟨rfl, rfl⟩)) fun _ => .pure (.inr ⟨rfl, rfl⟩)
  | some f =>
    by_cases hre : menv.reopen = true
    · refine (sysMmap_atomic m p menv f data hre).ensures.mono fun r m' hr => ?_
      rcases hr with ⟨-, hall⟩ | ⟨-, hnone⟩
      · exact .inl ⟨f, _, hall⟩
      · exact .inr hnone
    · have happend : Ensures (mmapEntryAppend p menv f (data / pgSize)) m fun _ m' => MappedNone m m' :=
        .ite (fun _ => .bind (.assert fun h => absurd h hre)) fun _ => .pure ⟨rfl, rfl⟩
      refine .ite (fun _ => .pure (.inr ⟨rfl, rfl⟩)) fun _ => .ite (fun _ => .pure (.inr ⟨rfl, rfl⟩)) fun _ => ?_
      exact .bind (happend.mono fun _ _ h => .pure (.inr h))

/-- The new mapping, and those before it. -/
theorem holds_mappedAll {file : FileId} {upage : Upage} (h : MappedAll m p file upage m')
    (ht : Holds m T) : Holds m' T := by
  intro q a ha l hl
  rw [h.entries, Function.update_apply] at ha
  rw [h.vm]
  have hold : a ∈ m.entries q → PageAs (withPages m.vm p file upage (newEntry m p file upage).length
      (newEntry m p file upage).pageCnt) ⟨q, pageAt a.uaddr l⟩ (T.shape q a l) :=
    fun ha => pageAs_withPages h.free (ht q a ha l hl)
  split_ifs at ha with hq
  · subst hq
    rcases List.mem_append.mp ha with ha | ha
    · exact hold ha
    · obtain rfl := List.mem_singleton.mp ha
      have hlazy : (T.shape q (newEntry m q file upage) l).lazy (mappedInfo (newEntry m q file upage) l) :=
        T.fresh q _ l
      exact pageAs_mappedPage h.free hl hlazy
  · exact hold ha

/-- **One step** that leaves the pages in their shapes that it stores to. -/
theorem mapAct_holds {a : MapAction} (h : MapInv m st) (hvm : ∀ b, a = .vm b → Other m b ∧ Allowed m.vm b)
    (hstore : ∀ p, ∀ me ∈ m.entries p, ∀ l < me.pageCnt, ∀ j byte page,
      a = .vm (.store p (pageAt me.uaddr l) j byte) → (T.shape p me l).page page →
        (T.shape p me l).page (Function.update page j byte)) (ht : Holds m T) :
    Ensures (mapAct a) m fun _ m' => Holds m' T := by
  cases a with
  | vm a =>
    obtain ⟨ho, hal⟩ := hvm a rfl
    refine onVm_ensures fun r vm' hr => ?_
    intro q me hme l hl
    have hmapped : m.entries q ≠ [] := List.ne_nil_of_mem hme
    have hstore' := fun j byte page ha => hstore q me hme l hl j byte page (congrArg MapAction.vm ha)
    exact actVm_pageAs h.sound ho hal hmapped hstore' (ht q me hme l hl) r vm' hr
  | mmap p env file data =>
    refine .bind (sysMmap_cases.mono fun _ m' hm => .pure ?_)
    rcases hm with ⟨f, upage, hall⟩ | ⟨hsame, hentries⟩
    · exact holds_mappedAll hall ht
    · intro q me hme l hl
      rw [hsame]
      exact ht q me (hentries ▸ hme) l hl
  | munmap p envs mid =>
    exact .bind (.get (.bind (.deref fun me hme => release_holds h (List.mem_of_find?_eq_some hme) ht)))
  | exit p envs =>
    refine .bind (.get ?_)
    split
    · exact .pure ht
    · rename_i me l hl
      exact release_holds h (hl ▸ List.mem_cons_self) ht
  | fault p env envs esp uaddr write =>
    refine .bind fun r m' hr => .pure fun q me' hme' l hl => ?_
    rcases fault_onlyDirty r m' hr q me' hme' with hme | ⟨me, hme, rfl⟩
    · exact vmHandleUserFault_pageAs h (ht q me' hme l hl) r m' hr
    · rw [T.dirty]
      exact vmHandleUserFault_pageAs h (ht q me hme l hl) r m' hr
  | deny file b => exact .modify ht

/-! ### How a page is lazy -/

/-- A page that is lazy is so as `mmap` has registered it. -/
def asMapped : Shapes where
  shape _ me l := ⟨fun i => i = mappedInfo me l, fun _ => True, fun _ _ => trivial, fun _ => trivial⟩
  dirty _ _ _ := rfl
  fresh _ _ _ := rfl

/-- **In every run**, the lazy pages of a mapping are those of its file. -/
theorem asMapped_invariant : Invariant MapInit MapStep fun x =>
    MapInv x.maps x.stored ∧ Holds x.maps asMapped := by
  constructor
  · intro x h
    refine ⟨mapInv_init h, fun p me hme => ?_⟩
    rw [h.2.1] at hme
    cases hme
  · rintro x a x' ⟨hinv, ht⟩ hstep
    refine ⟨mapInv_step hinv hstep, ?_⟩
    exact mapAct_holds hinv hstep.1 (fun _ _ _ _ _ _ _ _ _ _ => trivial) ht _ _ hstep.2.1

end Pintos.Userprog.MappedPages
