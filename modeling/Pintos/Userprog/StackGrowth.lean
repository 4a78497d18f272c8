import Pintos.Userprog.Mmap
import Pintos.Vm.Effect

/-! # Stack growth

Which faults grow the stack, and what growing does. The stack pointer that `vm_handle_user_fault` looks at is the
one in the interrupt frame. -/

namespace Pintos.Userprog.StackGrowth

open Pintos.Lib Pintos.Lib.Ops Pintos.Vm.State Pintos.Vm.Vpage Pintos.Userprog.Mmap

/-! ### The stack pointer -/

/-- Where a fault is taken. In kernel mode the processor stores no stack pointer, and the frame holds what was on
the kernel stack. -/
inductive FaultMode
  | user
  | kernel (junk : BitVec 32)

/-- `f->esp`, where `sp` is the stack pointer of the process. -/
def frameEsp : FaultMode → BitVec 32 → BitVec 32
  | .user, sp => sp
  | .kernel junk, _ => junk

/-- The addresses differ by `STACK_EXPANSION_RNG` at most. -/
def Near (sp uaddr : BitVec 32) : Prop :=
  sp.toNat ≤ uaddr.toNat + stackExpansionRng ∧ uaddr.toNat ≤ sp.toNat + stackExpansionRng

instance (sp uaddr : BitVec 32) : Decidable (Near sp uaddr) := inferInstanceAs (Decidable (_ ∧ _))

/-- The page that was registered as the stack first. -/
def stackTop : Upage := physBase - 1

/-- **The frame has the right stack pointer**: in user mode the range around it does not begin below address 0; in
kernel mode, what is on the kernel stack leads to the same decision. -/
def Agrees : FaultMode → BitVec 32 → BitVec 32 → Prop
  | .user, sp, uaddr => sp.toNat < stackExpansionRng → sp.toNat + stackExpansionRng < uaddr.toNat
  | .kernel junk, sp, uaddr => nearStack junk.toNat uaddr.toNat = true ↔ Near sp uaddr

/-! ### What is claimed of a fault -/

/-- The pages from `start` on that are not registered, below the first stack page. -/
def missing (vm : VM) (p : Pid) (start : Upage) : List Upage :=
  (List.range' start (stackTop - start)).filter fun u => (vm.find ⟨p, u⟩).isNone

/-- Nothing that was there has changed. -/
def KeepsAll (vm vm' : VM) : Prop := ∀ k v, vm.find k = some v → vm'.find k = some v

/-- The stack grows down to the page `start`, or it cannot: it is `STACK_MAX_GROWTH_PAGES` long, or there is no
memory for a vpage. A result of false ends the process. -/
structure Grown (p : Pid) (envs : ℕ → Env) (start : Upage) (vm : VM) (r : Bool) (vm' : VM) : Prop where
  keeps : KeepsAll vm vm'
  registered : r = true → ∀ u, start ≤ u → u < stackTop → (vm'.find ⟨p, u⟩).isSome = true
  cannot : r = false → stackMaxGrowthPages ≤ (missing vm p start).length ∨ ∃ n, (envs n).malloc = false

/-- The stack grows exactly if the address is near the stack pointer of the process. -/
def GrowsIfNear (p : Pid) (envs : ℕ → Env) (sp uaddr : BitVec 32) (vm : VM) (r : Bool) (vm' : VM) : Prop :=
  if Near sp uaddr then Grown p envs (uaddr.toNat / pgSize) vm r vm' else r = true ∧ vm' = vm

variable {p : Pid} {envs : ℕ → Env} {vm vm' : VM} {sp uaddr : BitVec 32} {new : List Upage} {u start left cur : ℕ}
  {k : Key} {v : VpageInfo}

/-! ### Registered stack pages -/

/-- The vpage of a page of zeros. -/
def stackPage (p : Pid) (u : Upage) : VpageInfo := ⟨u, true, p, .lazy ⟨none, 0, 0⟩⟩

/-- The pages `new` were registered one after the other. -/
def withStack (vm : VM) (p : Pid) (new : List Upage) : VM :=
  { vm with map := new.reverse.map (stackPage p) ++ vm.map }

/-- Different pages from `start` on that were not registered. -/
structure NewPages (vm : VM) (p : Pid) (start : Upage) (new : List Upage) : Prop where
  nodup : new.Nodup
  absent : ∀ u ∈ new, u ∈ missing vm p start

theorem mem_missing : u ∈ missing vm p start ↔ (start ≤ u ∧ u < stackTop) ∧ vm.find ⟨p, u⟩ = none := by
  unfold missing
  rw [List.mem_filter, List.mem_range'_1, Option.isNone_iff_eq_none]
  constructor
  · rintro ⟨⟨h1, h2⟩, h3⟩
    exact ⟨⟨h1, by omega⟩, h3⟩
  · rintro ⟨⟨h1, h2⟩, h3⟩
    exact ⟨⟨h1, by omega⟩, h3⟩

theorem NewPages.length_le (h : NewPages vm p start new) : new.length ≤ (missing vm p start).length :=
  (List.subperm_of_subset h.nodup h.absent).length_le

/-- The keys of the new pages are not those of the old ones. -/
theorem find_withStack (vm : VM) (p : Pid) (new : List Upage) (k : Key) :
    (withStack vm p new).find k =
      if k.pid = p ∧ k.uaddr ∈ new then some (stackPage p k.uaddr) else vm.find k := by
  show ((new.reverse.map (stackPage p) ++ vm.map).find? fun v => v.key = k) = _
  rw [List.find?_append]
  split_ifs with h
  · obtain ⟨rfl, hmem⟩ := h
    have hsome : (new.reverse.map (stackPage k.pid)).find? (fun v => v.key = k) = some (stackPage k.pid k.uaddr) := by
      rcases hf : (new.reverse.map (stackPage k.pid)).find? (fun v => v.key = k) with _ | v
      · rw [List.find?_eq_none] at hf
        have hno := hf (stackPage k.pid k.uaddr) (List.mem_map_of_mem (List.mem_reverse.mpr hmem))
        simp [stackPage, VpageInfo.key] at hno
      · obtain ⟨u, -, rfl⟩ := List.mem_map.mp (List.mem_of_find?_eq_some hf)
        have hk : (stackPage k.pid u).key = k := by simpa using List.find?_some hf
        have hu : u = k.uaddr := congrArg Key.uaddr hk
        rw [hf, hu]
    rw [hsome]
    rfl
  · have hnone : (new.reverse.map (stackPage p)).find? (fun v => v.key = k) = none := by
      rw [List.find?_eq_none]
      intro v hv
      obtain ⟨u, hu, rfl⟩ := List.mem_map.mp hv
      have hne : (stackPage p u).key ≠ k := by
        rintro rfl
        exact h ⟨rfl, List.mem_reverse.mp hu⟩
      simpa using hne
    rw [hnone]
    rfl

theorem isSome_find_withStack :
    ((withStack vm p new).find ⟨p, u⟩).isSome = true ↔ u ∈ new ∨ (vm.find ⟨p, u⟩).isSome = true := by
  rw [find_withStack]
  split_ifs with h
  · exact ⟨fun _ => .inl h.2, fun _ => rfl⟩
  · exact ⟨.inr, fun h' => h'.resolve_left fun hmem => h ⟨rfl, hmem⟩⟩

theorem keepsAll_withStack (h : NewPages vm p start new) : KeepsAll vm (withStack vm p new) := by
  intro k v hv
  rw [find_withStack]
  split_ifs with hk
  · obtain ⟨rfl, hmem⟩ := hk
    have hnone := (mem_missing.mp (h.absent _ hmem)).2
    have hkey : (⟨k.pid, k.uaddr⟩ : Key) = k := rfl
    rw [hkey, hv] at hnone
    cases hnone
  · exact hv

/-- **A new page is given up**: the first one that was registered. -/
theorem release_withStack (h : NewPages vm p start (u :: new)) :
    Yields (release ⟨p, u⟩) (withStack vm p (u :: new)) fun _ vm' => vm' = withStack vm p new := by
  have hfind : (withStack vm p (u :: new)).find ⟨p, u⟩ = some (stackPage p u) := by
    rw [find_withStack, if_pos ⟨rfl, List.mem_cons_self⟩]
  have hfront : ∀ v ∈ new.reverse.map (stackPage p), v.key ≠ ⟨p, u⟩ := by
    intro v hv he
    obtain ⟨w, hw, rfl⟩ := List.mem_map.mp hv
    obtain rfl : w = u := congrArg Key.uaddr he
    exact (List.nodup_cons.mp h.nodup).1 (List.mem_reverse.mp hw)
  have hback : ∀ v ∈ vm.map, v.key ≠ ⟨p, u⟩ :=
    Table.find_eq_none.mp (mem_missing.mp (h.absent u List.mem_cons_self)).2
  have hmap : Table.erase VpageInfo.key ((u :: new).reverse.map (stackPage p) ++ vm.map) ⟨p, u⟩ =
      new.reverse.map (stackPage p) ++ vm.map := by
    have h1 := Table.erase_of_forall hfront
    have h2 := Table.erase_of_forall hback
    have hself : Table.erase VpageInfo.key [stackPage p u] ⟨p, u⟩ = [] := by
      simp [Table.erase, stackPage, VpageInfo.key]
    unfold Table.erase at h1 h2 hself ⊢
    rw [List.reverse_cons, List.map_append, List.filter_append, List.filter_append, h1, h2, List.map_singleton,
      hself, List.append_nil]
  unfold release
  refine .bind (.get (.bind (.deref hfind ?_)))
  refine .bind (.pure (.modify ?_))
  have hkey : (stackPage p u).key = ⟨p, u⟩ := rfl
  unfold VM.erase withStack
  rw [hkey, hmap]

theorem releaseAll_withStack : ∀ {new : List Upage}, NewPages vm p start new →
    Yields (new.forM fun u => release ⟨p, u⟩) (withStack vm p new) fun _ vm' => vm' = vm
  | [], _ => .pure rfl
  | u :: new, h => by
    refine .bind ((release_withStack h).mono fun _ vm' hvm => ?_)
    subst hvm
    exact releaseAll_withStack ⟨(List.nodup_cons.mp h.nodup).2, fun w hw => h.absent w (List.mem_cons_of_mem u hw)⟩

/-! ### Growing -/

/-- A page more. -/
theorem NewPages.concat (h : NewPages vm p start new) (hcur : start ≤ cur) (htop : cur < stackTop)
    (hnone : (withStack vm p new).find ⟨p, cur⟩ = none) : NewPages vm p start (new ++ [cur]) := by
  rw [find_withStack] at hnone
  split_ifs at hnone with hmem
  have hnew : cur ∉ new := fun hm => hmem ⟨rfl, hm⟩
  refine ⟨?_, fun u hu => ?_⟩
  · rw [List.nodup_append]
    refine ⟨h.nodup, List.nodup_singleton cur, fun a ha b hb => ?_⟩
    obtain rfl := List.mem_singleton.mp hb
    rintro rfl
    exact hnew ha
  · rcases List.mem_append.mp hu with hu | hu
    · exact h.absent u hu
    · obtain rfl := List.mem_singleton.mp hu
      exact mem_missing.mpr ⟨⟨hcur, htop⟩, hnone⟩

theorem withStack_concat (vm : VM) (p : Pid) (new : List Upage) (cur : Upage) :
    withStack vm p (new ++ [cur]) =
      { withStack vm p new with map := stackPage p cur :: (withStack vm p new).map } := by
  unfold withStack
  rw [List.reverse_append]
  rfl

/-- **The loop of `vm_handle_user_fault`**: new pages where there were none, until there is a page everywhere. -/
theorem growStack_yields (envs : ℕ → Env) : ∀ (left cur : ℕ) (new : List Upage), NewPages vm p start new →
    start ≤ cur → cur + left = stackTop →
    (∀ u, start ≤ u → u < cur → ((withStack vm p new).find ⟨p, u⟩).isSome = true) →
    Yields (growStack p envs left cur new) (withStack vm p new) fun r vm' =>
      Grown p envs start vm r vm' ∧ ∃ new', NewPages vm p start new' ∧ vm' = withStack vm p new'
  | 0, cur, new, h, hcur, htop, hreg => by
    refine .pure ⟨⟨keepsAll_withStack h, fun _ u h1 h2 => hreg u h1 (h2.trans_eq htop.symm), fun hr => ?_⟩,
      new, h, rfl⟩
    cases hr
  | left + 1, cur, new, h, hcur, htop, hreg => by
    rw [growStack]
    split_ifs with hmax
    · refine .pure ⟨⟨keepsAll_withStack h, fun hr => ?_, fun _ => .inl (hmax.trans h.length_le)⟩, new, h, rfl⟩
      cases hr
    · refine .bind (.get ?_)
      split_ifs with hfind
      · refine growStack_yields envs left (cur + 1) new h (by omega) (by omega) fun u h1 h2 => ?_
        rcases Nat.lt_succ_iff_lt_or_eq.mp h2 with hu | rfl
        · exact hreg u h1 hu
        · exact hfind
      · have hnone : (withStack vm p new).find ⟨p, cur⟩ = none := by
          rw [← Option.not_isSome_iff_eq_none]
          exact hfind
        have halloc : Yields (lazyAllocate (envs new.length) cur ⟨none, 0, 0⟩ p true) (withStack vm p new)
          fun r vm' =>
            (r = true ∧ vm' = withStack vm p (new ++ [cur])) ∨
              r = false ∧ vm' = withStack vm p new ∧ (envs new.length).malloc = false := by
          unfold lazyAllocate
          refine .bind (.get ?_)
          rw [hnone]
          split_ifs with hc
          · exact .bind (.set (.pure (.inl ⟨rfl, (withStack_concat vm p new cur).symm⟩)))
          · refine .pure (.inr ⟨rfl, rfl, ?_⟩)
            simpa using hc
        refine .bind (halloc.mono fun r vm' hr => ?_)
        rcases hr with ⟨rfl, rfl⟩ | ⟨rfl, rfl, hmalloc⟩
        · have hnew := h.concat hcur (by omega) hnone
          refine growStack_yields envs left (cur + 1) (new ++ [cur]) hnew (by omega) (by omega) fun u h1 h2 => ?_
          rw [isSome_find_withStack]
          rcases Nat.lt_succ_iff_lt_or_eq.mp h2 with hu | rfl
          · rcases isSome_find_withStack.mp (hreg u h1 hu) with hmem | hold
            · exact .inl (List.mem_append_left _ hmem)
            · exact .inr hold
          · exact .inl (List.mem_append_right _ (List.mem_singleton_self u))
        · refine .bind ((releaseAll_withStack h).mono fun _ vm' hvm => .pure ?_)
          subst hvm
          have hnil : NewPages vm' p start [] := ⟨List.nodup_nil, fun u hu => by cases hu⟩
          refine ⟨⟨fun k v hv => hv, fun hr => ?_, fun _ => .inr ⟨_, hmalloc⟩⟩, [], hnil, rfl⟩
          cases hr

/-! ### The decision -/

theorem nearStack_iff {esp uaddr : ℕ} : nearStack esp uaddr = true ↔
    (esp + (2 ^ 32 - stackExpansionRng)) % 2 ^ 32 ≤ uaddr ∧ uaddr ≤ (esp + stackExpansionRng) % 2 ^ 32 := by
  rw [nearStack, Bool.and_eq_true, decide_eq_true_iff, decide_eq_true_iff]

/-- Below the first stack page, the frame leads to the right decision exactly if it agrees. -/
theorem agrees_iff {mode : FaultMode} (h : uaddr.toNat / pgSize < stackTop) :
    (nearStack (frameEsp mode sp).toNat uaddr.toNat = true ↔ Near sp uaddr) ↔ Agrees mode sp uaddr := by
  cases mode with
  | kernel junk => exact Iff.rfl
  | user =>
    have hsp := sp.isLt
    have hframe : frameEsp .user sp = sp := rfl
    rw [hframe, nearStack_iff]
    unfold Near Agrees stackExpansionRng
    unfold stackTop physBase pgSize at h
    by_cases hlow : sp.toNat < 0x100
    · -- the lower end wraps around
      have h1 : (sp.toNat + (2 ^ 32 - 0x100)) % 2 ^ 32 = sp.toNat + (2 ^ 32 - 0x100) := by omega
      rw [h1]
      omega
    · have h1 : (sp.toNat + (2 ^ 32 - 0x100)) % 2 ^ 32 = sp.toNat - 0x100 := by omega
      rw [h1]
      omega

theorem handleStack_far (vm : VM) (p : Pid) (envs : ℕ → Env) {esp uaddr : ℕ} (h : ¬nearStack esp uaddr = true) :
    handleStack p envs esp uaddr vm = some (true, vm) := by
  unfold handleStack
  rw [if_neg h]
  rfl

/-- From the first stack page on there is nothing to grow. -/
theorem handleStack_above (vm : VM) (p : Pid) (envs : ℕ → Env) (esp : ℕ) {uaddr : ℕ} (h : stackTop ≤ uaddr / pgSize) :
    handleStack p envs esp uaddr vm = some (true, vm) := by
  unfold handleStack
  have hleft : physBase - 1 - uaddr / pgSize = 0 := Nat.sub_eq_zero_of_le h
  rw [hleft]
  split_ifs <;> rfl

theorem handleStack_near (vm : VM) (p : Pid) (envs : ℕ → Env) {esp uaddr : ℕ} (h : nearStack esp uaddr = true)
    (htop : uaddr / pgSize ≤ stackTop) :
    Yields (handleStack p envs esp uaddr) vm fun r vm' => Grown p envs (uaddr / pgSize) vm r vm' ∧
      ∃ new, NewPages vm p (uaddr / pgSize) new ∧ vm' = withStack vm p new := by
  unfold handleStack
  rw [if_pos h]
  have hnil : NewPages vm p (uaddr / pgSize) [] := ⟨List.nodup_nil, fun u hu => by cases hu⟩
  exact growStack_yields envs (stackTop - uaddr / pgSize) (uaddr / pgSize) [] hnil le_rfl (by omega)
    fun u h1 h2 => by omega

/-- **What `vm_handle_user_fault` does about the stack**: some pages of zeros are registered. -/
theorem handleStack_yields (vm : VM) (p : Pid) (envs : ℕ → Env) (esp uaddr : ℕ) :
    Yields (handleStack p envs esp uaddr) vm fun _ vm' =>
      ∃ new, NewPages vm p (uaddr / pgSize) new ∧ vm' = withStack vm p new := by
  have hnil : NewPages vm p (uaddr / pgSize) [] := ⟨List.nodup_nil, fun u hu => by cases hu⟩
  by_cases htop : uaddr / pgSize ≤ stackTop
  · by_cases h : nearStack esp uaddr = true
    · exact (handleStack_near vm p envs h htop).mono fun r vm' hr => hr.2
    · exact ⟨true, vm, handleStack_far vm p envs h, [], hnil, rfl⟩
  · exact ⟨true, vm, handleStack_above vm p envs esp (not_le.mp htop).le, [], hnil, rfl⟩

/-- A process whose stack cannot grow is ended. -/
theorem vmHandleUserFault_kill {m : Maps} {env : Env} {esp uaddr : ℕ} {write : Bool}
    (h : handleStack p envs esp uaddr m.vm = some (false, vm')) :
    vmHandleUserFault p env envs esp uaddr write m = some (.kill, { m with vm := vm' }) := by
  have hz : onVm (handleStack p envs esp uaddr) m = some (false, { m with vm := vm' }) := by
    rw [onVm, zoom, h]
    rfl
  unfold vmHandleUserFault
  rw [bind_apply, hz]
  rfl

/-- **Stack growth**: a fault on a page that is not registered grows the stack exactly if it is near the stack pointer
of the process, as long as the interrupt frame agrees with that stack pointer; and only then. -/
theorem grows_iff_agrees (m : Maps) (p : Pid) (env : Env) (envs : ℕ → Env) (mode : FaultMode) (sp uaddr : BitVec 32)
    (write : Bool) (hun : m.vm.find ⟨p, uaddr.toNat / pgSize⟩ = none) :
    Yields (handleStack p envs (frameEsp mode sp).toNat uaddr.toNat) m.vm (fun r vm' =>
      GrowsIfNear p envs sp uaddr m.vm r vm' ∧ (r = false →
        vmHandleUserFault p env envs (frameEsp mode sp).toNat uaddr.toNat write m =
          some (.kill, { m with vm := vm' }))) ↔
      (uaddr.toNat / pgSize < stackTop → Agrees mode sp uaddr) := by
  have hstill : ∀ r vm', handleStack p envs (frameEsp mode sp).toNat uaddr.toNat m.vm = some (r, vm') →
      r = false → vmHandleUserFault p env envs (frameEsp mode sp).toNat uaddr.toNat write m =
        some (.kill, { m with vm := vm' }) := by
    rintro r vm' h rfl
    exact vmHandleUserFault_kill h
  constructor
  · rintro ⟨r, vm', hm, hgrow, -⟩ htop
    rw [← agrees_iff htop]
    unfold GrowsIfNear at hgrow
    by_cases hnear : nearStack (frameEsp mode sp).toNat uaddr.toNat = true
    · refine ⟨fun _ => ?_, fun _ => hnear⟩
      by_contra hfar
      rw [if_neg hfar] at hgrow
      obtain ⟨rfl, rfl⟩ := hgrow
      -- the faulting page would be registered
      have hg := ((handleStack_near m.vm p envs hnear htop.le).ensures _ _ hm).1
      have hreg := hg.registered rfl _ le_rfl htop
      rw [hun] at hreg
      cases hreg
    · refine ⟨fun h => absurd h hnear, fun hin => ?_⟩
      rw [if_pos hin] at hgrow
      rw [handleStack_far m.vm p envs hnear] at hm
      obtain ⟨rfl, rfl⟩ := Prod.mk.inj (Option.some.inj hm)
      have hreg := hgrow.registered rfl _ le_rfl htop
      rw [hun] at hreg
      cases hreg
  · intro hagree
    by_cases htop : uaddr.toNat / pgSize < stackTop
    · have hiff := (agrees_iff htop).mpr (hagree htop)
      by_cases hin : Near sp uaddr
      · obtain ⟨r, vm', hm, hg, -⟩ := handleStack_near m.vm p envs (hiff.mpr hin) htop.le
        refine ⟨r, vm', hm, ?_, hstill r vm' hm⟩
        unfold GrowsIfNear
        rw [if_pos hin]
        exact hg
      · have hm := handleStack_far m.vm p envs fun h => hin (hiff.mp h)
        refine ⟨true, m.vm, hm, ?_, hstill true m.vm hm⟩
        unfold GrowsIfNear
        rw [if_neg hin]
        exact ⟨rfl, rfl⟩
    · have hm := handleStack_above m.vm p envs (frameEsp mode sp).toNat (not_lt.mp htop)
      refine ⟨true, m.vm, hm, ?_, hstill true m.vm hm⟩
      unfold GrowsIfNear
      split_ifs
      · exact ⟨fun _ _ h => h, fun _ u h1 h2 => absurd (h1.trans_lt h2) htop, fun hr => by cases hr⟩
      · exact ⟨rfl, rfl⟩

/-! ### A fault in a system call -/

/-- The process 1 with its first stack page. -/
def oneStackPage : Maps where
  vm :=
    { map := [⟨stackTop, true, 1, .lazy ⟨none, 0, 0⟩⟩]
      pagedirs := fun _ => some .empty
      pagedir := fun p => some p
      userPool := [false, false]
      mem := fun _ _ => 0
      swapMap := []
      swapBlock := fun _ _ => 0
      files := fun _ => ⟨0, fun _ => 0⟩ }
  entries _ := []
  midCounter _ := 0
  denied _ := false

/-- Memory is there for everything. -/
def plenty : Env := ⟨false, true, true, 0⟩

/-- The kernel reads four bytes above the stack pointer, in the page below the first stack page. The frame of the
fault has an address of the kernel for a stack pointer: the stack does not grow, and the process is killed. -/
theorem kernel_fault_kills :
    Near 0xbfffeff0 0xbfffeff4 ∧ oneStackPage.vm.find ⟨1, (0xbfffeff4 : BitVec 32).toNat / pgSize⟩ = none ∧
      (handleStack 1 (fun _ => plenty) (frameEsp (.kernel 0xc0100000) 0xbfffeff0).toNat
        (0xbfffeff4 : BitVec 32).toNat oneStackPage.vm).map (fun r => (r.1, r.2.map)) =
          some (true, oneStackPage.vm.map) ∧
      (vmHandleUserFault 1 plenty (fun _ => plenty) (frameEsp (.kernel 0xc0100000) 0xbfffeff0).toNat
        (0xbfffeff4 : BitVec 32).toNat false oneStackPage).map (·.1) = some .kill := by
  refine ⟨by decide, by decide, ?_, ?_⟩ <;> decide +kernel

/-- The same fault in user mode grows the stack. -/
theorem grows_iff_agrees_user :
    Yields (handleStack 1 (fun _ => plenty) (frameEsp .user 0xbfffeff0).toNat (0xbfffeff4 : BitVec 32).toNat)
      oneStackPage.vm fun r vm' => GrowsIfNear 1 (fun _ => plenty) 0xbfffeff0 0xbfffeff4 oneStackPage.vm r vm' := by
  have hun : oneStackPage.vm.find ⟨1, (0xbfffeff4 : BitVec 32).toNat / pgSize⟩ = none := by decide
  have h := (grows_iff_agrees oneStackPage 1 plenty (fun _ => plenty) .user 0xbfffeff0 0xbfffeff4 false hun).mpr
    fun _ hlow => absurd hlow (by decide)
  exact h.mono fun r vm' hr => hr.1

end Pintos.Userprog.StackGrowth
