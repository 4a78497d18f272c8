import Pintos.Userprog.MmapRelease
import Pintos.Userprog.StackGrowth
import Pintos.Vm.PageIn

/-! # Access to a mapped page

What a process can load and store through a mapping. An access that faults is repeated until it goes through or the
process is killed. -/

namespace Pintos.Userprog.MappedAccess

open Pintos.Lib Pintos.Lib.Ops Pintos.Kernel.Bitmap Pintos.Vm.State Pintos.Vm.Swap Pintos.Vm.Vpage Pintos.Vm.Effect
open Pintos.Vm.Invariant Pintos.Vm.Preserve Pintos.Vm.Content Pintos.Vm.Totality Pintos.Vm.Permission
open Pintos.Vm.PageIn (freshFrame pallocGetPage_fresh)
open Pintos.Userprog.Mmap Pintos.Userprog.MmapInvariant Pintos.Userprog.MmapRelease Pintos.Userprog.StackGrowth

/-! ### The access -/

/-- The processor finds the page present, and writable for a store. -/
def reaches (vm : VM) (p : Pid) (u : Upage) (write : Bool) : Bool :=
  match (vm.pagedir p).bind fun d => vm.pte d u with
  | some e => !write || e.writable
  | none => false

/-- What the faults of a process find, one after the other, and its stack pointer. -/
structure Faults where
  env : ℕ → Env
  stack : ℕ → ℕ → Env
  esp : ℕ

/-- An access to the byte at `uaddr`, after `i` faults. -/
def access (p : Pid) (fs : Faults) (uaddr : ℕ) (write : Bool) : (left i : ℕ) → Op Maps UserFaultType
  | 0, _ => halt
  | left + 1, i => do
    let s ← get
    if reaches s.vm p (uaddr / pgSize) write then return .cont
    else
      match ← vmHandleUserFault p (fs.env i) (fs.stack i) fs.esp uaddr write with
      | .kill => return .kill
      | .cont => access p fs uaddr write left (i + 1)

variable {vm vm' vm₁ : VM} {m m' : Maps} {st : List Key} {p : Pid} {env : Env} {envs : ℕ → Env} {me : MmapEntry}
  {u uaddr esp : ℕ} {v : VpageInfo} {d : PdId} {f : Frame} {write : Bool} {start left cur : ℕ} {new : List Upage}

/-! ### A page comes in -/

/-- A frame is free, or a page can go to swap. -/
def FrameThere (env : Env) (vm : VM) : Prop :=
  (freshFrame env vm).isSome = true ∨ (∃ v ∈ vm.map, ∃ i, v.backend = .inmem i) ∧
    ∃ n, n + pageSectors ≤ vm.swapMap.length ∧ Group vm.swapMap n pageSectors false

/-- **The page can come in**: it is a user page of a process that runs, there is memory for its page table, and for
the page if it is not in memory. -/
structure Ready (p : Pid) (u : Upage) (env : Env) (vm : VM) : Prop where
  below : u < physBase
  dir : (vm.pagedir p).isSome = true
  mapped : Mapped vm
  table : env.table = true
  frame : ∀ v, vm.find ⟨p, u⟩ = some v → (∀ i, v.backend ≠ .inmem i) → FrameThere env vm

theorem getFrame_there (h : Sound vm) (hm : Mapped vm) (hf : FrameThere env vm) :
    Yields (getFrame env) vm (Got vm) := by
  rcases hf with hfresh | ⟨hvictim, hslot⟩
  · have hret : Returns (getFrame env) vm := by
      refine .bind ((pallocGetPage_returns.and_ensures pallocGetPage_fresh).mono fun r s' hr => ?_)
      obtain ⟨g, hg⟩ := Option.isSome_iff_exists.mp hfresh
      rw [hr.2, hg]
      exact .pure trivial
    exact (hret.and_ensures getFrame_ensures).mono fun _ _ h => h.2
  · exact getFrame_yields h.owned h.user ⟨hm, hvictim, hslot⟩

theorem setInmem_returns (hu : v.uaddr < physBase) (hd : vm.pagedir p = some d) (hlive : (vm.pagedirs d).isSome)
    (hnone : vm.pte d v.uaddr = none) : Returns (setInmem p env v f) vm := by
  have hset : ∀ s : VM, s.pagedirs = vm.pagedirs → Returns (pagedirSetPage d v.uaddr f v.writable env.table) s := by
    intro s hpd
    refine pagedirSetPage_returns hu (hpd ▸ hlive) ?_
    rw [VM.pte, hpd]
    exact hnone
  refine .bind (.get (.bind (.deref hd (.bind (.set (.bind ?_))))))
  refine (hset _ ?_).mono fun _ _ _ => .pure trivial
  rfl

/-- **A page that is not in memory comes in.** -/
theorem handleUserFault_comesIn (h : Sound vm) (hr : Ready p u env vm) (hv : vm.find ⟨p, u⟩ = some v)
    (hb : ∀ i, v.backend ≠ .inmem i) :
    Yields (handleUserFault p env u) vm fun r vm' => r = .cont ∧ PagedIn p env vm u vm' := by
  obtain ⟨hmem, hk⟩ := h.owned.keyed.find_eq_some.mp hv
  obtain rfl : v.uaddr = u := congrArg Key.uaddr hk
  obtain ⟨d, hd⟩ := Option.isSome_iff_exists.mp hr.dir
  have hframe := getFrame_there h hr.mapped (hr.frame v hv hb)
  -- whatever is put into the frame
  have hset : ∀ f s₁, Got vm f s₁ → ∀ s₂ : VM, s₂.pagedirs = s₁.pagedirs → s₂.pagedir = s₁.pagedir →
      Returns (setInmem p env v f) s₂ := by
    intro f s₁ hgot s₂ h1 h2
    have howned := owned_got h.owned hgot
    have hd₁ : s₁.pagedir p = some d := (got_pagedir hgot).symm ▸ hd
    have hmem₁ : v ∈ s₁.map := got_mem_map hgot h.owned.keyed hmem hb
    have hnone : s₁.pte d v.uaddr = none :=
      pte_eq_none_of_find howned hd₁ (howned.keyed.find_eq_some.mpr ⟨hmem₁, hk⟩) hb
    refine setInmem_returns hr.below (h2 ▸ hd₁) (h1 ▸ howned.pdLive _ _ hd₁) ?_
    rw [VM.pte, h1]
    exact hnone
  have hret : Yields (handleUserFault p env v.uaddr) vm fun r _ => r = .cont := by
    refine .bind (.get ?_)
    rw [hv]
    dsimp only
    cases hback : v.backend with
    | inmem i => exact absurd hback (hb i)
    | lazy i =>
      refine .bind (.bind (hframe.mono fun f s₁ hgot => ?_))
      dsimp only
      cases i.file with
      | none =>
        refine .bind (.bind (.get (.set ?_)))
        refine (hset f s₁ hgot _ ?_ ?_).mono fun _ _ _ => .pure rfl <;> rfl
      | some file =>
        refine .bind (.bind (.get (.set (.bind (.bind (.get (.set ?_)))))))
        refine (hset f s₁ hgot _ ?_ ?_).mono fun _ _ _ => .pure rfl <;> rfl
    | swapped i =>
      refine .bind (.bind (hframe.mono fun f s₁ hgot => .bind ?_))
      have hmem₁ : v ∈ s₁.map := got_mem_map hgot h.owned.keyed hmem hb
      have hlen := slot_lt (owned_got h.owned hgot) hmem₁ hback
      have hin : Ensures (swapIn i.swapIndex f) s₁ fun _ s₂ =>
          s₂.pagedirs = s₁.pagedirs ∧ s₂.pagedir = s₁.pagedir := swapIn_ensures fun _ => ⟨rfl, rfl⟩
      refine ((swapIn_returns hlen).and_ensures hin).mono fun _ s₂ h₂ => ?_
      exact (hset f s₁ hgot s₂ h₂.2.1 h₂.2.2).mono fun _ _ _ => .pure rfl
  refine (hret.and_ensures handleUserFault_ensures).mono fun r vm' hr' => ?_
  obtain ⟨rfl, ⟨hkill, -⟩ | ⟨-, hin⟩⟩ := hr'
  · cases hkill
  · exact ⟨rfl, hin⟩

/-- The page is in memory with the permission `w`, and the tables say so. -/
structure Present (p : Pid) (u : Upage) (w : Bool) (vm : VM) : Prop where
  sound : Sound vm
  mapped : Mapped vm
  dir : (vm.pagedir p).isSome = true
  inmem : ∃ v i, vm.find ⟨p, u⟩ = some v ∧ v.backend = .inmem i ∧ v.writable = w

theorem Present.reaches {w : Bool} (h : Present p u w vm) (write : Bool) : reaches vm p u write = (!write || w) := by
  obtain ⟨v, i, hv, hb, rfl⟩ := h.inmem
  obtain ⟨d, hd⟩ := Option.isSome_iff_exists.mp h.dir
  obtain ⟨hmem, hk⟩ := h.sound.owned.keyed.find_eq_some.mp hv
  have hown := h.sound.owned.ownPd v hmem i hb
  rw [show v.pid = p from congrArg Key.pid hk, hd] at hown
  obtain rfl := Option.some.inj hown
  have hpte := h.mapped v hmem i hb
  rw [show v.uaddr = u from congrArg Key.uaddr hk] at hpte
  unfold MappedAccess.reaches
  rw [hd, Option.bind_some, hpte]

theorem reaches_eq_false (h : Sound vm) (hv : vm.find ⟨p, u⟩ = some v) (hb : ∀ i, v.backend ≠ .inmem i) :
    reaches vm p u write = false := by
  unfold reaches
  cases hd : vm.pagedir p with
  | none => rfl
  | some d => rw [Option.bind_some, pte_eq_none_of_find h.owned hd hv hb]

/-- A page that comes in keeps its permission. -/
theorem handleUserFault_present (h : Sound vm) (hr : Ready p u env vm) (hv : vm.find ⟨p, u⟩ = some v)
    (hb : ∀ i, v.backend ≠ .inmem i) :
    Yields (handleUserFault p env u) vm fun r vm' => r = .cont ∧ Present p u v.writable vm' := by
  refine (handleUserFault_comesIn h hr hv hb).mono fun r vm' hr' => ⟨hr'.1, ?_⟩
  have hin := hr'.2
  obtain ⟨w, i, hw, hi⟩ := inmem_pagedIn h.owned hin
  have hperm : perm vm' ⟨p, u⟩ = some v.writable := (perm_pagedIn h.owned hin).trans (perm_of_find hv)
  rw [perm_of_find hw] at hperm
  refine ⟨(keeps_pagedIn h hr.below hin).sound, mapped_pagedIn h.owned hr.mapped (fun _ _ => .inl hr.table) hin, ?_,
    w, i, hw, hi, Option.some.inj hperm⟩
  rw [pagedir_pagedIn hin]
  exact hr.dir

/-! ### A page becomes writable -/

/-- **`vpage_info_set_writable`**: a page in memory is writable at once. -/
theorem setWritable_inmem {i : InfoInmem} (h : Sound vm) (hm : Mapped vm) (hu : u < physBase)
    (hv : vm.find ⟨p, u⟩ = some v) (hb : v.backend = .inmem i) (hd : (vm.pagedir p).isSome = true) :
    Yields (setWritable env u p true) vm fun r vm' => r = true ∧ Present p u true vm' := by
  obtain ⟨hmem, hk⟩ := h.owned.keyed.find_eq_some.mp hv
  obtain rfl : v.uaddr = u := congrArg Key.uaddr hk
  have hpte := hm v hmem i hb
  have hlive : (vm.pagedirs i.pagedir).isSome := h.owned.pdLive _ _ (h.owned.ownPd v hmem i hb)
  -- the page directory maps the page again
  have hfind : (vm.replace (v.withWritable true)).find ⟨p, v.uaddr⟩ = some (v.withWritable true) := by
    rw [find_replace (w := v.withWritable true) h.owned.keyed hmem rfl, if_pos hk.symm]
  have hpresent : Present p v.uaddr true (mapPage (unmapPage (vm.replace (v.withWritable true)) i.pagedir v.uaddr)
      i.pagedir v.uaddr ⟨i.paddr, true⟩) :=
    ⟨⟨owned_remap h.owned hmem hb hpte, inUserSpace_replace h.user fun _ => hu⟩, mapped_remap h.owned hm hmem hb hpte,
      hd, _, i, hfind, hb, rfl⟩
  have hclear := pagedirClearPage_returns (s := vm.replace (v.withWritable true)) hu hlive
  have hnone : (unmapPage (vm.replace (v.withWritable true)) i.pagedir v.uaddr).pte i.pagedir v.uaddr = none :=
    pte_unmapPage.trans (if_pos ⟨rfl, rfl⟩)
  have htable : HasTable (unmapPage (vm.replace (v.withWritable true)) i.pagedir v.uaddr)
    i.pagedir v.uaddr env.table :=
    hasTable_unmapPage.mpr (hasTable_of_pte (s := vm.replace (v.withWritable true)) hpte)
  have hret : Returns (pagedirSetPage i.pagedir v.uaddr i.paddr true env.table)
      (unmapPage (vm.replace (v.withWritable true)) i.pagedir v.uaddr) :=
    pagedirSetPage_returns hu (isSome_pagedirs_setPagedir_map.trans hlive) hnone
  have hafter : Ensures (pagedirSetPage i.pagedir v.uaddr i.paddr true env.table)
      (unmapPage (vm.replace (v.withWritable true)) i.pagedir v.uaddr) fun _ vm' => Present p v.uaddr true vm' :=
    pagedirSetPage_ensures (fun _ _ _ => hpresent) fun hn => absurd htable hn
  refine .bind (.get ?_)
  rw [hv]
  refine .bind (.set ?_)
  rw [hb]
  refine .bind (.deref hpte (.bind (hclear.mono fun _ s₁ hs₁ => ?_)))
  subst hs₁
  exact .bind ((hret.and_ensures hafter).mono fun _ _ h => .pure ⟨rfl, h.2⟩)

/-- Another page is writable as soon as it comes in. -/
theorem setWritable_out (hv : vm.find ⟨p, u⟩ = some v) (hb : ∀ i, v.backend ≠ .inmem i) :
    Yields (setWritable env u p true) vm fun r vm' => r = false ∧ vm' = vm.replace (v.withWritable true) := by
  refine .bind (.get ?_)
  rw [hv]
  refine .bind (.set ?_)
  cases hback : v.backend with
  | lazy i => exact .pure ⟨rfl, rfl⟩
  | swapped i => exact .pure ⟨rfl, rfl⟩
  | inmem i => exact absurd hback (hb i)

/-! ### A fault on a mapped page -/

/-- What follows the stack expansion in `vm_handle_user_fault`. -/
def afterStack (p : Pid) (env : Env) (uaddr : ℕ) (write : Bool) : Op Maps UserFaultType := do
  if ← handleMmapDirty p env uaddr write then return .cont
  else onVm (handleUserFault p env (uaddr / pgSize))

/-- **A store that `mmap_entry_get_by_addr` finds a mapping for** goes through next time. -/
theorem afterStack_found (h : Sound m.vm) (hget : mmapEntryGetByAddr m p uaddr = some me)
    (hr : Ready p (uaddr / pgSize) env m.vm) (hv : m.vm.find ⟨p, uaddr / pgSize⟩ = some v) :
    Yields (afterStack p env uaddr true) m fun r m' => r = .cont ∧ Present p (uaddr / pgSize) true m'.vm := by
  obtain ⟨hmem, hk⟩ := h.owned.keyed.find_eq_some.mp hv
  unfold afterStack handleMmapDirty
  refine .bind (.bind (.get ?_))
  rw [if_pos rfl, hget]
  refine .bind (.modify (.zoom ?_))
  by_cases hb : ∃ i, v.backend = .inmem i
  · obtain ⟨i, hb⟩ := hb
    refine (setWritable_inmem h hr.mapped hr.below hv hb hr.dir).mono fun r vm' hr' => ?_
    obtain ⟨rfl, hpresent⟩ := hr'
    exact .pure ⟨rfl, hpresent⟩
  · have hout : ∀ i, v.backend ≠ .inmem i := fun i hi => hb ⟨i, hi⟩
    refine (setWritable_out hv hout).mono fun r vm' hr' => ?_
    obtain ⟨rfl, rfl⟩ := hr'
    rw [if_neg (by decide)]
    have hsound : Sound (m.vm.replace (v.withWritable true)) :=
      ⟨owned_withWritable h.owned hmem fun i hi => absurd hi (hout i), inUserSpace_replace h.user fun hno =>
        h.user v hmem hno⟩
    have hfind : (m.vm.replace (v.withWritable true)).find ⟨p, uaddr / pgSize⟩ = some (v.withWritable true) := by
      rw [find_replace (w := v.withWritable true) h.owned.keyed hmem rfl, if_pos hk.symm]
    have hthere : FrameThere env m.vm → FrameThere env (m.vm.replace (v.withWritable true)) := by
      rintro (hfresh | ⟨⟨w, hw, i, hi⟩, hslot⟩)
      · exact .inl hfresh
      · refine .inr ⟨⟨w, Table.mem_replace.mpr (.inr ⟨hw, fun hkey => ?_⟩), i, hi⟩, hslot⟩
        obtain rfl : w = v := h.owned.keyed.eq_of_key hw hmem hkey
        exact hout i hi
    have hready : Ready p (uaddr / pgSize) env (m.vm.replace (v.withWritable true)) :=
      ⟨hr.below, hr.dir, mapped_withWritable hr.mapped hout, hr.table, fun _ _ _ => hthere (hr.frame v hv hout)⟩
    exact .zoom (handleUserFault_present hsound hready hfind hout)

/-- Without a mapping, a page that is not in memory comes in with the permission that it has. -/
theorem afterStack_plain (h : Sound m.vm) (hget : write = true → mmapEntryGetByAddr m p uaddr = none)
    (hr : Ready p (uaddr / pgSize) env m.vm) (hv : m.vm.find ⟨p, uaddr / pgSize⟩ = some v)
    (hb : ∀ i, v.backend ≠ .inmem i) : Yields (afterStack p env uaddr write) m fun r m' => r = .cont ∧
      Present p (uaddr / pgSize) v.writable m'.vm ∧ m'.entries = m.entries := by
  unfold afterStack handleMmapDirty
  refine .bind (.bind (.get ?_))
  have hnone : (if write then mmapEntryGetByAddr m p uaddr else none) = none := by
    split_ifs with hw
    · exact hget hw
    · rfl
  rw [hnone]
  refine .pure ?_
  rw [if_neg (by decide)]
  exact .zoom ((handleUserFault_present h hr hv hb).mono fun _ _ h => ⟨h.1, h.2, rfl⟩)

/-- **A page in memory that no mapping is found for** kills the process. -/
theorem afterStack_kill {i : InfoInmem} (hget : write = true → mmapEntryGetByAddr m p uaddr = none)
    (hv : m.vm.find ⟨p, uaddr / pgSize⟩ = some v) (hb : v.backend = .inmem i) :
    Yields (afterStack p env uaddr write) m fun r _ => r = .kill := by
  unfold afterStack handleMmapDirty
  refine .bind (.bind (.get ?_))
  have hnone : (if write then mmapEntryGetByAddr m p uaddr else none) = none := by
    split_ifs with hw
    · exact hget hw
    · rfl
  rw [hnone]
  refine .pure ?_
  rw [if_neg (by decide)]
  refine .zoom (.bind (.get ?_))
  rw [hv]
  dsimp only
  rw [hb]
  exact .pure rfl

/-! ### The stack of the process -/

/-- The stack can grow down to the page `start`: the loop of `vm_handle_user_fault` reaches the first stack page
before `STACK_MAX_GROWTH_PAGES` are new, and there is memory for their vpages. -/
def StackFits (vm : VM) (p : Pid) (envs : ℕ → Env) (start : Upage) : Prop :=
  ((missing vm p start).filter (· < stackTop - 1)).length < stackMaxGrowthPages ∧
    ∀ n < (missing vm p start).length, (envs n).malloc = true

theorem growStack_fits (hfit : StackFits vm p envs start) : ∀ (left cur : ℕ) (new : List Upage),
    NewPages vm p start new → (∀ u ∈ new, u < cur) → start ≤ cur → cur + left = stackTop →
    Ensures (growStack p envs left cur new) (withStack vm p new) fun r _ => r = true
  | 0, _, _, _, _, _, _ => .pure rfl
  | left + 1, cur, new, h, hnew, hcur, htop => by
    have hend : cur ≤ stackTop - 1 := by omega
    have hlen : new.length ≤ ((missing vm p start).filter (· < stackTop - 1)).length := by
      refine (List.subperm_of_subset h.nodup fun u hu => List.mem_filter.mpr ⟨h.absent u hu, ?_⟩).length_le
      exact decide_eq_true ((hnew u hu).trans_le hend)
    have hfew : new.length < stackMaxGrowthPages := hlen.trans_lt hfit.1
    have hbelow : ∀ u ∈ new, u < cur + 1 := fun u hu => Nat.lt_succ_of_lt (hnew u hu)
    rw [growStack, if_neg (not_le.mpr hfew)]
    refine .bind (.get (.ite (fun _ => ?_) fun hfind => ?_))
    · exact growStack_fits hfit left (cur + 1) new h hbelow (by omega) (by omega)
    · have hnone : (withStack vm p new).find ⟨p, cur⟩ = none := by
        rw [← Option.not_isSome_iff_eq_none]
        exact hfind
      have hconcat := h.concat hcur (by omega) hnone
      have hmalloc : (envs new.length).malloc = true := by
        refine hfit.2 _ ?_
        have hle := hconcat.length_le
        rw [List.length_append, List.length_singleton] at hle
        omega
      unfold lazyAllocate
      refine .bind (.bind (.get ?_))
      rw [hnone, hmalloc]
      refine .bind (.set (.pure ?_))
      have hrec := growStack_fits hfit left (cur + 1) (new ++ [cur]) hconcat (fun u hu => ?_) (by omega) (by omega)
      · rw [withStack_concat] at hrec
        exact hrec
      · rcases List.mem_append.mp hu with hu | hu
        · exact hbelow u hu
        · obtain rfl := List.mem_singleton.mp hu
          exact Nat.lt_succ_self u

/-- **The stack does not get in the way** of an access, where it grows or need not. -/
theorem handleStack_fits (hfit : nearStack esp uaddr = true → uaddr / pgSize < stackTop →
    StackFits vm p envs (uaddr / pgSize)) : Yields (handleStack p envs esp uaddr) vm fun r vm' =>
      r = true ∧ ∃ new, NewPages vm p (uaddr / pgSize) new ∧ vm' = withStack vm p new := by
  have htrue : Ensures (handleStack p envs esp uaddr) vm fun r _ => r = true := by
    have hnil : NewPages vm p (uaddr / pgSize) [] := ⟨List.nodup_nil, fun u hu => by cases hu⟩
    by_cases htop : uaddr / pgSize < stackTop
    · unfold handleStack
      refine .ite (fun hnear => ?_) fun _ => .pure rfl
      have hgrow := growStack_fits (hfit hnear htop) (stackTop - uaddr / pgSize) (uaddr / pgSize) [] hnil
        (fun u hu => by cases hu) le_rfl (by omega)
      exact hgrow
    · intro r vm' hrun
      rw [handleStack_above vm p envs esp (not_lt.mp htop)] at hrun
      exact (Prod.mk.inj (Option.some.inj hrun)).1.symm
  exact ((handleStack_yields vm p envs esp uaddr).and_ensures htrue).mono fun _ _ h => ⟨h.2, h.1⟩

/-- The new pages of the stack change nothing for a page that is registered. -/
theorem ready_withStack (hr : Ready p u env vm) (hnew : NewPages vm p start new) (hv : vm.find ⟨p, u⟩ = some v) :
    Ready p u env (withStack vm p new) := by
  have hmapped : Mapped (withStack vm p new) := by
    intro w hw i hi
    rcases List.mem_append.mp hw with hw | hw
    · obtain ⟨u', -, rfl⟩ := List.mem_map.mp hw
      cases hi
    · exact hr.mapped w hw i hi
  refine ⟨hr.below, hr.dir, hmapped, hr.table, fun w hw hb => ?_⟩
  obtain rfl : w = v := Option.some.inj (hw.symm.trans (keepsAll_withStack hnew _ v hv))
  rcases hr.frame w hv hb with hfresh | ⟨⟨x, hx, i, hi⟩, hslot⟩
  · exact .inl hfresh
  · exact .inr ⟨⟨x, List.mem_append_right _ hx, i, hi⟩, hslot⟩

/-! ### Which accesses go through -/

/-- `mmap_entry_get_by_addr` looks up to the end of the file, not to the end of its last page. -/
def Finds (me : MmapEntry) (uaddr : ℕ) : Prop :=
  me.uaddr * pgSize ≤ uaddr ∧ uaddr < (me.uaddr * pgSize + me.length) % 2 ^ 32

instance (me : MmapEntry) (uaddr : ℕ) : Decidable (Finds me uaddr) := inferInstanceAs (Decidable (_ ∧ _))

/-- What `mmap_entry_get_by_addr` finds on a page of a mapping. -/
theorem getByAddr_eq (h : MapInv m st) (hme : me ∈ m.entries p) (hu : uaddr / pgSize ∈ pagesOf me) :
    mmapEntryGetByAddr m p uaddr = if Finds me uaddr then some me else none := by
  cases hget : mmapEntryGetByAddr m p uaddr with
  | none =>
    have hno := List.find?_eq_none.mp hget me hme
    rw [if_neg fun hf => hno ?_]
    rw [Bool.and_eq_true]
    exact ⟨decide_eq_true hf.1, decide_eq_true hf.2⟩
  | some me' =>
    obtain ⟨hme', hu'⟩ := mem_of_getByAddr h hget
    obtain rfl : me' = me := h.eq_of_page hme' hme hu' hu
    have hf := List.find?_some hget
    rw [Bool.and_eq_true] at hf
    rw [if_pos ⟨of_decide_eq_true hf.1, of_decide_eq_true hf.2⟩]

variable {fs : Faults} {w : Bool}

/-- The process is killed, whatever becomes of the stack. -/
theorem vmHandleUserFault_kills {i : InfoInmem} (hget : write = true → mmapEntryGetByAddr m p uaddr = none)
    (hv : m.vm.find ⟨p, uaddr / pgSize⟩ = some v) (hb : v.backend = .inmem i) :
    Yields (vmHandleUserFault p env envs esp uaddr write) m fun r _ => r = .kill := by
  refine .bind (.zoom ((handleStack_yields m.vm p envs esp uaddr).mono fun r vm' h => ?_))
  obtain ⟨new, hnew, rfl⟩ := h
  cases r with
  | false => exact .pure rfl
  | true => exact afterStack_kill (m := { m with vm := _ }) hget (keepsAll_withStack hnew _ v hv) hb

/-- **A page that is in memory**: what its permission allows goes through, anything else that no mapping is found for
kills the process. -/
theorem access_present (hp : Present p (uaddr / pgSize) w m.vm)
    (hget : write = true → w = false → mmapEntryGetByAddr m p uaddr = none) (left i : ℕ) :
    Yields (access p fs uaddr write (left + 1) i) m fun r m' =>
      (r = .cont ↔ (write = true → w = true)) ∧ (r = .cont → reaches m'.vm p (uaddr / pgSize) write = true) := by
  have hreach := hp.reaches write
  rw [access]
  refine .bind (.get ?_)
  by_cases hallow : write = true → w = true
  · have htrue : reaches m.vm p (uaddr / pgSize) write = true := by
      rw [hreach]
      cases write
      · rfl
      · exact hallow rfl
    rw [if_pos htrue]
    exact .pure ⟨⟨fun _ => hallow, fun _ => rfl⟩, fun _ => htrue⟩
  · obtain ⟨rfl, hw⟩ : write = true ∧ w = false := by
      cases write <;> cases w <;> simp at hallow ⊢
    obtain ⟨v, j, hv, hb, -⟩ := hp.inmem
    rw [hreach, hw, if_neg (by decide)]
    refine .bind ((vmHandleUserFault_kills (fun _ => hget rfl hw) hv hb).mono fun r m' hr => ?_)
    subst hr
    have hkill : UserFaultType.kill ≠ .cont := by decide
    refine .pure ⟨⟨fun hcont => absurd hcont hkill, fun hall => ?_⟩, fun hcont => absurd hcont hkill⟩
    exact absurd (hall rfl) (by decide)

/-- **Access to a mapping**: it goes through exactly if it is a load, or a store that `mmap_entry_get_by_addr`
finds the mapping for, or one to a page that is writable already; otherwise the process is killed. -/
theorem access_iff (h : MapInv m st) (hme : me ∈ m.entries p) (hu : uaddr / pgSize ∈ pagesOf me)
    (hr : Ready p (uaddr / pgSize) (fs.env 0) m.vm)
    (hfit : nearStack fs.esp uaddr = true → uaddr / pgSize < stackTop →
      StackFits m.vm p (fs.stack 0) (uaddr / pgSize)) (left : ℕ) :
    Yields (access p fs uaddr write (left + 2) 0) m fun r m' =>
      (r = .cont ↔ (write = true → Finds me uaddr ∨ perm m.vm ⟨p, uaddr / pgSize⟩ = some true)) ∧
        (r = .cont → reaches m'.vm p (uaddr / pgSize) write = true) := by
  obtain ⟨w, hperm, -⟩ := h.pages hme _ hu
  obtain ⟨v, hv, rfl⟩ := Option.map_eq_some_iff.mp hperm
  have hget := getByAddr_eq h hme hu
  have hnone : ¬Finds me uaddr → mmapEntryGetByAddr m p uaddr = none := fun hno => by rw [hget, if_neg hno]
  have hside : ¬Finds me uaddr → ((write = true → v.writable = true) ↔
      (write = true → Finds me uaddr ∨ perm m.vm ⟨p, uaddr / pgSize⟩ = some true)) := by
    intro hno
    rw [hperm, Option.some_inj]
    simp [hno]
  -- the page is in memory, and what is asked for is allowed or no mapping is found
  by_cases hstay : (∃ i, v.backend = .inmem i) ∧ (Finds me uaddr → write = true → v.writable = true)
  · obtain ⟨⟨i, hb⟩, hstay⟩ := hstay
    have hpresent : Present p (uaddr / pgSize) v.writable m.vm := ⟨h.sound, hr.mapped, hr.dir, v, i, hv, hb, rfl⟩
    have hno : write = true → v.writable = false → ¬Finds me uaddr := by
      intro hw hro hf
      rw [hstay hf hw] at hro
      cases hro
    refine (access_present hpresent (fun hw hro => hnone (hno hw hro)) (left + 1) 0).mono fun r m' hr' => ⟨?_, hr'.2⟩
    rw [hr'.1]
    by_cases hf : Finds me uaddr
    · exact ⟨fun _ _ => .inl hf, fun _ => hstay hf⟩
    · exact hside hf
  · have hfault : reaches m.vm p (uaddr / pgSize) write = false := by
      by_cases hb : ∃ i, v.backend = .inmem i
      · obtain ⟨i, hb⟩ := hb
        have hpresent : Present p (uaddr / pgSize) v.writable m.vm := ⟨h.sound, hr.mapped, hr.dir, v, i, hv, hb, rfl⟩
        rw [hpresent.reaches write]
        by_contra hne
        refine hstay ⟨⟨i, hb⟩, fun _ hw => ?_⟩
        rw [hw, Bool.not_eq_false] at hne
        exact hne
      · exact reaches_eq_false h.sound hv fun i hi => hb ⟨i, hi⟩
    rw [access]
    refine .bind (.get ?_)
    rw [hfault, if_neg (by decide)]
    refine .bind (.bind (.zoom ?_))
    refine ((handleStack_fits hfit).and_ensures (handleStack_keeps h.sound)).mono fun r vm₁ hr₁ => ?_
    obtain ⟨⟨rfl, new, hnew, rfl⟩, hkeeps⟩ := hr₁
    have hv₁ := keepsAll_withStack hnew _ v hv
    have hr₁ := ready_withStack hr hnew hv
    rw [if_pos rfl]
    by_cases hfound : write = true ∧ Finds me uaddr
    · obtain ⟨rfl, hf⟩ := hfound
      rw [if_pos hf] at hget
      have hget₁ : mmapEntryGetByAddr { m with vm := withStack m.vm p new } p uaddr = some me := hget
      refine (afterStack_found hkeeps.sound hget₁ hr₁ hv₁).mono fun r m₂ hr₂ => ?_
      obtain ⟨rfl, hpresent⟩ := hr₂
      refine (access_present hpresent (fun _ h => by cases h) left 1).mono fun r m' hr' => ⟨?_, hr'.2⟩
      rw [hr'.1]
      exact ⟨fun _ _ => .inl hf, fun _ _ => rfl⟩
    · have hout : ∀ i, v.backend ≠ .inmem i := by
        intro i hb
        refine hstay ⟨⟨i, hb⟩, fun hf hw => absurd ⟨hw, hf⟩ hfound⟩
      have hno : write = true → mmapEntryGetByAddr m p uaddr = none := fun hw => hnone fun hf => hfound ⟨hw, hf⟩
      have hno₁ : write = true → mmapEntryGetByAddr { m with vm := withStack m.vm p new } p uaddr = none := hno
      refine (afterStack_plain hkeeps.sound hno₁ hr₁ hv₁ hout).mono fun r m₂ hr₂ => ?_
      obtain ⟨rfl, hpresent, hentries⟩ := hr₂
      have hno₂ : write = true → v.writable = false → mmapEntryGetByAddr m₂ p uaddr = none := by
        intro hw _
        have hsame := hno hw
        unfold mmapEntryGetByAddr at hsame ⊢
        rw [hentries]
        exact hsame
      refine (access_present hpresent hno₂ left 1).mono fun r m' hr' => ⟨?_, hr'.2⟩
      rw [hr'.1]
      cases write with
      | false => simp
      | true => exact hside fun hf => hfound ⟨rfl, hf⟩

end Pintos.Userprog.MappedAccess
