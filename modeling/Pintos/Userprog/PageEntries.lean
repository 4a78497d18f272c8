import Pintos.Lib.Ops

/-! # Page directory and page table entries

The words of `threads/vaddr.h` and `threads/pte.h`: the parts of a virtual address, the translation between
kernel virtual and physical addresses, and the entries, which hold the address of a page and flag bits. -/

namespace Pintos.Userprog.PageEntries

open Pintos.Lib.Ops

/-- An address or an entry. -/
abbrev Word := BitVec 32

/-- `PHYS_BASE`. -/
def physBase : Word := 0xc0000000#32

/-- `PTE_ADDR`. -/
def pteAddr : Word := 0xfffff000#32

/-- `PTE_P`. -/
def pteP : Word := 0x1#32

/-- `PTE_W`. -/
def pteW : Word := 0x2#32

/-- `PTE_U`. -/
def pteU : Word := 0x4#32

/-- `pg_ofs`. -/
def pgOfs (va : Word) : Word := va &&& 0x00000fff#32

/-- `pg_no`. -/
def pgNo (va : Word) : ℕ := (va >>> 12).toNat

/-- `pt_no`. -/
def ptNo (va : Word) : ℕ := ((va &&& 0x003ff000#32) >>> 12).toNat

/-- `pd_no`. -/
def pdNo (va : Word) : ℕ := (va >>> 22).toNat

/-- `is_user_vaddr`. -/
def isUserVaddr (va : Word) : Bool := va < physBase

/-- `is_kernel_vaddr`. -/
def isKernelVaddr (va : Word) : Bool := physBase ≤ va

section Functions

variable {σ : Type}

/-- `vtop`. -/
def vtop (vaddr : Word) : Op σ Word := do
  assert (isKernelVaddr vaddr)
  pure (vaddr - physBase)

/-- `ptov`. -/
def ptov (paddr : Word) : Op σ Word := do
  assert (paddr < physBase)
  pure (paddr + physBase)

/-- `pde_create`. -/
def pdeCreate (pt : Word) : Op σ Word := do
  assert (pgOfs pt = 0)
  let p ← vtop pt
  pure (p ||| pteU ||| pteP ||| pteW)

/-- `pde_get_pt`. -/
def pdeGetPt (pde : Word) : Op σ Word := do
  assert (pde &&& pteP ≠ 0)
  ptov (pde &&& pteAddr)

/-- `pte_create_kernel`. -/
def pteCreateKernel (page : Word) (writable : Bool) : Op σ Word := do
  assert (pgOfs page = 0)
  let p ← vtop page
  pure (p ||| pteP ||| if writable then pteW else 0)

/-- `pte_create_user`. -/
def pteCreateUser (page : Word) (writable : Bool) : Op σ Word := do
  let pte ← pteCreateKernel page writable
  pure (pte ||| pteU)

/-- `pte_get_page`. -/
def pteGetPage (pte : Word) : Op σ Word := ptov (pte &&& pteAddr)

end Functions

/-! ### Indices -/

variable {va u v p w flags : Word}

theorem pgNo_eq (va : Word) : pgNo va = va.toNat / 4096 := by
  rw [pgNo, BitVec.toNat_ushiftRight, Nat.shiftRight_eq_div_pow]

theorem pdNo_eq (va : Word) : pdNo va = va.toNat / 4194304 := by
  rw [pdNo, BitVec.toNat_ushiftRight, Nat.shiftRight_eq_div_pow]

theorem toNat_pgOfs (va : Word) : (pgOfs va).toNat = va.toNat % 4096 := by
  rw [pgOfs, BitVec.toNat_and]
  exact Nat.and_two_pow_sub_one_eq_mod va.toNat 12

theorem ptNo_eq (va : Word) : ptNo va = va.toNat / 4096 % 1024 := by
  rw [ptNo, BitVec.ushiftRight_and_distrib, BitVec.toNat_and, BitVec.toNat_ushiftRight, Nat.shiftRight_eq_div_pow]
  exact Nat.and_two_pow_sub_one_eq_mod (va.toNat / 2 ^ 12) 10

theorem ptNo_lt (va : Word) : ptNo va < 1024 := by
  rw [ptNo_eq]
  exact Nat.mod_lt _ (by decide)

/-- **The page number is the two indices.** -/
theorem pgNo_eq_pdNo_ptNo (va : Word) : pgNo va = pdNo va * 1024 + ptNo va := by
  rw [pgNo_eq, pdNo_eq, ptNo_eq]
  omega

theorem pdNo_lt_of_user (h : isUserVaddr va = true) : pdNo va < 768 := by
  have hlt : va.toNat < 0xc0000000 := of_decide_eq_true h
  rw [pdNo_eq]
  omega

/-! ### Entries -/

/-- The address of a page of kernel memory. -/
structure KernelPage (p : Word) : Prop where
  aligned : pgOfs p = 0
  kernel : isKernelVaddr p = true

theorem toNat_aligned (h : pgOfs p = 0) : p.toNat % 4096 = 0 := by
  rw [← toNat_pgOfs, h]
  rfl

/-- The physical address of the page. -/
theorem KernelPage.toNat_sub (h : KernelPage p) : (p - physBase).toNat = p.toNat - 0xc0000000 := by
  have hle : 0xc0000000 ≤ p.toNat := of_decide_eq_true h.kernel
  rw [BitVec.toNat_sub_of_le (by exact hle)]
  rfl

theorem KernelPage.sub_aligned (h : KernelPage p) : pgOfs (p - physBase) = 0 := by
  have hmod := toNat_aligned h.aligned
  refine BitVec.eq_of_toNat_eq ?_
  rw [toNat_pgOfs, h.toNat_sub]
  show (p.toNat - 0xc0000000) % 4096 = 0
  omega

/-- An aligned address is its address bits. -/
theorem and_pteAddr (h : pgOfs w = 0) : w &&& pteAddr = w := by
  have hsplit : w &&& (pteAddr ||| 0x00000fff#32) = w := by
    rw [show pteAddr ||| 0x00000fff#32 = BitVec.allOnes 32 from by decide, BitVec.and_allOnes]
  rwa [BitVec.and_or_distrib_left, show w &&& 0x00000fff#32 = 0#32 from h, BitVec.or_zero] at hsplit

/-- An entry of the page `p`. -/
structure Points (w p : Word) : Prop where
  present : w &&& pteP ≠ 0
  addr : w &&& pteAddr = p - physBase

/-- **An entry with flags** points to its page. -/
theorem KernelPage.points (h : KernelPage p) (hp : flags &&& pteP = pteP) (ha : flags &&& pteAddr = 0#32) :
    Points ((p - physBase) ||| flags) p := by
  refine ⟨fun hzero => ?_, ?_⟩
  · rw [BitVec.and_or_distrib_right, hp] at hzero
    have hbit := congrArg (fun x : Word => x.getLsbD 0) hzero
    rw [BitVec.getLsbD_or] at hbit
    simp [pteP] at hbit
  · rw [BitVec.and_or_distrib_right, ha, BitVec.or_zero, and_pteAddr h.sub_aligned]

theorem Points.ne_zero (h : Points w p) : w ≠ 0 := by
  rintro rfl
  exact h.present (by decide)

section Yields

variable {σ : Type} {s : σ} {Q : Word → σ → Prop}

theorem vtop_yields (h : KernelPage p) (hQ : Q (p - physBase) s) : Yields (vtop p) s Q :=
  Yields.bind (Yields.assert h.kernel (Yields.pure hQ))

theorem ptov_yields (h : KernelPage p) (hw : w = p - physBase) (hQ : Q p s) : Yields (ptov w) s Q := by
  have hlt : w < physBase := by
    have hp := p.isLt
    rw [hw, BitVec.lt_def, h.toNat_sub]
    show p.toNat - 0xc0000000 < 0xc0000000
    omega
  refine Yields.bind (Yields.assert (decide_eq_true hlt) (Yields.pure ?_))
  rwa [hw, BitVec.sub_add_cancel]

theorem pdeCreate_yields (h : KernelPage p) (hQ : ∀ w, Points w p → Q w s) : Yields (pdeCreate p) s Q := by
  refine Yields.bind (Yields.assert (decide_eq_true h.aligned) (Yields.bind (vtop_yields h (Yields.pure (hQ _ ?_)))))
  rw [BitVec.or_assoc, BitVec.or_assoc]
  exact h.points (by decide) (by decide)

theorem pdeGetPt_yields (h : KernelPage p) (hw : Points w p) (hQ : Q p s) : Yields (pdeGetPt w) s Q :=
  Yields.bind (Yields.assert (decide_eq_true hw.present) (ptov_yields h hw.addr hQ))

theorem pteGetPage_yields (h : KernelPage p) (hw : Points w p) (hQ : Q p s) : Yields (pteGetPage w) s Q :=
  ptov_yields h hw.addr hQ

theorem pteCreateKernel_yields {writable : Bool} (h : KernelPage p) (hQ : ∀ w, Points w p → Q w s) :
    Yields (pteCreateKernel p writable) s Q := by
  refine Yields.bind (Yields.assert (decide_eq_true h.aligned) (Yields.bind (vtop_yields h (Yields.pure (hQ _ ?_)))))
  rw [BitVec.or_assoc]
  cases writable <;> exact h.points (by decide) (by decide)

theorem pteCreateUser_yields {writable : Bool} (h : KernelPage p) (hQ : ∀ w, Points w p → Q w s) :
    Yields (pteCreateUser p writable) s Q := by
  refine Yields.bind (Yields.bind (Yields.assert (decide_eq_true h.aligned) (Yields.bind (vtop_yields h (Yields.pure
    (Yields.pure (hQ _ ?_)))))))
  rw [BitVec.or_assoc, BitVec.or_assoc]
  cases writable <;> exact h.points (by decide) (by decide)

end Yields

/-- **A cleared entry** is not present. -/
theorem and_not_pteP_and_pteP (w : Word) : (w &&& ~~~pteP) &&& pteP = 0 := by
  rw [BitVec.and_assoc, show ~~~pteP &&& pteP = 0#32 from by decide, BitVec.and_zero]
  rfl

end Pintos.Userprog.PageEntries
