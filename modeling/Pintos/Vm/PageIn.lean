import Pintos.Vm.Totality

/-! # What a lazy page shows when it comes in

`vpage_info_lazy_to_inmem` with reads that may come back short: at the end of the file, and where `inode_read_at`
finds no memory. The frame is a zeroed one of the pool, or one that holds a page of some process. -/

namespace Pintos.Vm.PageIn

open Pintos.Lib Pintos.Lib.Ops Pintos.Kernel.Bitmap Pintos.Vm.State Pintos.Vm.Swap Pintos.Vm.Vpage
open Pintos.Vm.Effect Pintos.Vm.Preserve Pintos.Vm.Content Pintos.Vm.Totality

/-! ### Short reads -/

/-- `vpage_info_lazy_to_inmem`, where `inode_read_at` finds memory for the first `served` bytes only. -/
def lazyToInmemServed (self : Pid) (env : Env) (served : ℕ) (vpi : VpageInfo) (i : InfoLazy) : Op VM Unit := do
  let paddr ← getFrame env
  match i.file with
  | some file => do
    fileReadAt file paddr (min i.length served) i.offset
    memsetZero paddr i.length
  | none => memsetZero paddr 0
  setInmem self env vpi paddr

/-- The bytes of the file that are there, and zeros. -/
def presentPage (s : VM) (i : InfoLazy) : Page := fun j =>
  match i.file with
  | some file =>
    if (j : ℕ) < i.length ∧ i.offset + j < (s.files file).length then (s.files file).bytes (i.offset + j) else 0
  | none => 0

/-- The page made in a frame that holds `p`. -/
def servedPage (s : VM) (i : InfoLazy) (served : ℕ) (p : Page) : Page :=
  match i.file with
  | some file => zeroFrom (readInto p (s.files file) (min i.length served) i.offset) i.length
  | none => zeroFrom p 0

/-- The frame that `palloc_get_page` returns. -/
def freshFrame (env : Env) (s : VM) : Option Frame :=
  if env.exhausted then none else (bitmapScanAndFlip s.userPool 0 1 false).map (·.1)

/-- What the frame holds before the page is read. -/
def before (env : Env) (s : VM) (f : Frame) : Page := if (freshFrame env s).isSome then fun _ => 0 else s.mem f

/-- **Nothing shows through**: what is not read is zero in the file, if the frame is zeroed, and all is read, if
it is not. -/
def Covered (env : Env) (s : VM) (i : InfoLazy) (served : ℕ) : Prop :=
  ∀ file, i.file = some file →
    if (freshFrame env s).isSome then
      ∀ j < (i.length : ℕ), served ≤ j → i.offset + j < (s.files file).length →
        (s.files file).bytes (i.offset + j) = 0
    else ∀ j < (i.length : ℕ), j < served ∧ i.offset + j < (s.files file).length

variable {self : Pid} {env : Env} {s s' t : VM} {v : VpageInfo} {i : InfoLazy} {f : Frame} {served : ℕ}
  {mem : Frame → Page} {swap : ℕ → SectorData}

/-- Reads that are not cut short by memory are those of `lazyToInmem`. -/
theorem lazyToInmemServed_eq (h : i.length ≤ served) :
    lazyToInmemServed self env served v i = lazyToInmem self env v i := by
  rcases i with ⟨_ | file, offset, length⟩
  · rfl
  · have hmin : min (length : ℕ) served = length := min_eq_left h
    simp only [lazyToInmemServed, lazyToInmem, hmin]

/-! ### Two contents of memory -/

/-- The same tables over another memory and another swap device. -/
def withMem (s : VM) (mem : Frame → Page) (swap : ℕ → SectorData) : VM := { s with mem := mem, swapBlock := swap }

/-- Two states that differ in memory and on the swap device only. -/
def SameTables (s t : VM) : Prop := ∃ mem swap, t = withMem s mem swap

theorem sameTables_withMem (s : VM) : SameTables s (withMem s mem swap) := ⟨mem, swap, rfl⟩

/-- The operation does not look at memory. -/
def Blind {α : Type} (m : Op VM α) : Prop := ∀ s t, SameTables s t → Alike SameTables m s m t

theorem blind_pallocGetPage : Blind (pallocGetPage env) := by
  rintro s t ⟨mem, swap, rfl⟩
  refine .get_bind ?_
  have hpool : (withMem s mem swap).userPool = s.userPool := rfl
  rw [hpool]
  generalize (if env.exhausted then none else bitmapScanAndFlip s.userPool 0 1 false) = scan
  rcases scan with _ | ⟨f, used⟩
  · exact .pure (sameTables_withMem s) none
  · exact .bind (.set ⟨_, _, rfl⟩) fun _ s' t' h => .pure h (some f)

theorem blind_pagedirClearPage (d : PdId) (u : Upage) : Blind (pagedirClearPage d u) := by
  rintro s t ⟨mem, swap, rfl⟩
  refine .bind (.assert (sameTables_withMem s)) ?_
  rintro - s t ⟨mem, swap, rfl⟩
  refine .get_bind (.bind (.deref (sameTables_withMem s)) ?_)
  rintro pd s' t' -
  exact .set ⟨_, _, rfl⟩

theorem blind_swapOut (f : Frame) : Blind (swapOut f) := by
  rintro s t ⟨mem, swap, rfl⟩
  refine .get_bind (.bind (.deref (sameTables_withMem s)) fun free s' t' h => ?_)
  refine .bind (.assert h) fun _ s' t' h => .bind (.deref h) fun r s' t' h => ?_
  exact .bind (.set ⟨_, _, rfl⟩) fun _ s' t' h => .pure h r.1

theorem blind_inmemToSwap (v : VpageInfo) (i : InfoInmem) : Blind (inmemToSwap v i) := by
  intro s t h
  refine .bind (blind_pagedirClearPage _ _ s t h) fun _ s t h => .bind (blind_swapOut _ s t h) ?_
  rintro n s t ⟨mem, swap, rfl⟩
  exact .modify ⟨_, _, rfl⟩

theorem blind_evictPage : Blind evictPage := by
  rintro s t ⟨mem, swap, rfl⟩
  refine .get_bind (.bind (.deref (sameTables_withMem s)) fun r s t h => ?_)
  exact .bind (blind_inmemToSwap r.1 r.2 s t h) fun _ s t h => .pure h r.2.paddr

theorem blind_getFrame : Blind (getFrame env) := by
  intro s t h
  refine .bind (blind_pallocGetPage s t h) fun o s t h => ?_
  cases o with
  | none => exact blind_evictPage s t h
  | some f => exact .pure h f

theorem blind_setInmem : Blind (setInmem self env v f) := by
  rintro s t ⟨mem, swap, rfl⟩
  refine .get_bind (.bind (.deref (sameTables_withMem s)) fun d s' t' _ => .bind (.set ⟨mem, swap, rfl⟩) ?_)
  intro _ s t h
  refine .bind (?_ : Alike SameTables (pagedirSetPage d v.uaddr f v.writable env.table) s _ t) fun _ s t h =>
    .pure h ()
  obtain ⟨mem, swap, rfl⟩ := h
  refine .bind (.assert (sameTables_withMem s)) ?_
  rintro - s t ⟨mem, swap, rfl⟩
  refine .get_bind (.bind (.deref (sameTables_withMem s)) fun pd s' t' h => .ite (fun _ => ?_) fun _ => .pure h false)
  exact .bind (.assert h) fun _ s' t' _ => .bind (.set ⟨mem, swap, rfl⟩) fun _ s t h => .pure h true

theorem blind_lazyToInmemServed : Blind (lazyToInmemServed self env served v i) := by
  intro s t h
  refine .bind (blind_getFrame s t h) fun f s t h => ?_
  have hmemset : ∀ n s t, SameTables s t → Alike SameTables (memsetZero f n) s (memsetZero f n) t := by
    rintro n s t ⟨mem, swap, rfl⟩
    exact .get_bind (.set ⟨_, _, rfl⟩)
  cases i.file with
  | none => exact .bind (hmemset 0 s t h) fun _ s t h => blind_setInmem s t h
  | some file =>
    obtain ⟨mem, swap, rfl⟩ := h
    have hread : Alike SameTables (fileReadAt file f (min i.length served) i.offset) s
        (fileReadAt file f (min i.length served) i.offset) (withMem s mem swap) := .get_bind (.set ⟨_, _, rfl⟩)
    exact .bind hread fun _ s t h => .bind (hmemset _ s t h) fun _ s t h => blind_setInmem s t h

/-! ### The page -/

theorem pallocGetPage_fresh : Ensures (pallocGetPage env) s fun r _ => r = freshFrame env s := by
  refine .bind (.get ?_)
  unfold freshFrame
  rcases env.exhausted with _ | _
  · rw [if_neg (by decide), if_neg (by decide)]
    rcases bitmapScanAndFlip s.userPool 0 1 false with _ | ⟨f, used⟩
    · exact .pure rfl
    · exact .bind (.set (.pure rfl))
  · rw [if_pos rfl, if_pos rfl]
    exact .pure rfl

/-- The frame, and what it holds. -/
theorem getFrame_before : Ensures (getFrame env) s fun f s₁ => Got s f s₁ ∧ s₁.mem f = before env s f := by
  have htake : Ensures (pallocGetPage env) s fun r s₁ => (r = none → s₁ = s) ∧
      ∀ f, r = some f → s.userPool[f]? = some false ∧ s₁ = takeFrame s f := by
    refine pallocGetPage_ensures ⟨fun _ => rfl, fun f h => ?_⟩ fun f hf => ⟨fun h => ?_, fun g hg => ?_⟩
    · cases h
    · cases h
    · obtain rfl := Option.some.inj hg
      exact ⟨hf, rfl⟩
  refine .bind fun r s₁ hr => ?_
  have hfresh := pallocGetPage_fresh r s₁ hr
  obtain ⟨h1, h2⟩ := htake r s₁ hr
  cases r with
  | none =>
    obtain rfl := h1 rfl
    refine evictPage_ensures fun v hv i hb n hfree hlen => ⟨.evict hv hb hfree hlen, ?_⟩
    rw [before, ← hfresh]
    rfl
  | some f =>
    obtain ⟨hf, rfl⟩ := h2 f rfl
    refine .pure ⟨.take hf, ?_⟩
    rw [before, ← hfresh]
    exact Function.update_self _ _ _

/-- **A lazy page comes in**: the frame holds what is read over what it held. -/
theorem lazyToInmemServed_ensures (hs : Table.Keyed VpageInfo.key s.map) (hv : s.find v.key = some v)
    (hb : v.backend = .lazy i) :
    Ensures (lazyToInmemServed self env served v i) s fun _ s' => ∃ j,
      s'.find v.key = some (v.withBackend (.inmem j)) ∧
      s'.mem j.paddr = servedPage s i served (before env s j.paddr) := by
  refine .bind (getFrame_before.mono fun f s₁ hgot => ?_)
  obtain ⟨hgot, hmem⟩ := hgot
  have hs₁ : Table.Keyed VpageInfo.key s₁.map := by
    unfold Table.Keyed at *
    rw [got_map_key hgot]
    exact hs
  have hv₁ : v ∈ s₁.map := got_mem_map hgot hs (Table.mem_of_find hv) (by simp [hb])
  have hset : ∀ p, Ensures (setInmem self env v f) (fillFrame s₁ f p) fun _ s' => ∃ j,
      s'.find v.key = some (v.withBackend (.inmem j)) ∧ j.paddr = f ∧ s'.mem f = p := by
    intro p
    refine setInmem_ensures.mono fun _ s' hin => ?_
    have hfind : ∀ d, (enter (fillFrame s₁ f p) v f d env.now).find v.key =
        some (v.withBackend (.inmem ⟨f, d, env.now⟩)) := fun d => by
      have h := find_replace (s := fillFrame s₁ f p) (w := v.withBackend (.inmem ⟨f, d, env.now⟩)) hs₁ hv₁ rfl v.key
      rw [if_pos rfl] at h
      exact h
    cases hin with
    | mapped => exact ⟨_, hfind _, rfl, mem_fillFrame_self⟩
    | unmapped => exact ⟨_, hfind _, rfl, mem_fillFrame_self⟩
  have hpage : servedPage s i served (before env s f) = servedPage s₁ i served (s₁.mem f) := by
    rw [hmem, servedPage, servedPage, got_files hgot]
  have hfill : Ensures (setInmem self env v f) (fillFrame s₁ f (servedPage s₁ i served (s₁.mem f)))
      fun _ s' => ∃ j, s'.find v.key = some (v.withBackend (.inmem j)) ∧
        s'.mem j.paddr = servedPage s i served (before env s j.paddr) := by
    refine (hset _).mono fun _ s' ⟨j, h1, h2, h3⟩ => ⟨j, h1, ?_⟩
    rw [h2, h3, hpage]
  cases hf : i.file with
  | none =>
    rw [servedPage, hf] at hfill
    exact .bind (.bind (.get (.set hfill)))
  | some file =>
    rw [servedPage, hf] at hfill
    refine .bind (.bind (.get (.set (.bind (.bind (.get (.set ?_)))))))
    simpa [fillFrame] using hfill

/-! ### Nothing shows through -/

theorem servedPage_eq_iff {p : Page} : servedPage s i served p = presentPage s i ↔
    ∀ file, i.file = some file → ∀ j : Fin pgSize, (j : ℕ) < i.length →
      ¬((j : ℕ) < served ∧ i.offset + j < (s.files file).length) → p j = presentPage s i j := by
  rw [funext_iff]
  unfold servedPage presentPage
  rcases i.file with _ | file
  · exact ⟨fun _ file hf => (nomatch hf), fun _ j => by simp [zeroFrom]⟩
  · constructor
    · intro h file' hf j hj hno
      obtain rfl := Option.some.inj hf
      have hj' := h j
      simp only [zeroFrom, readInto, lt_min_iff] at hj'
      rw [if_neg (by omega), if_neg (by omega)] at hj'
      exact hj'
    · intro h j
      simp only [zeroFrom, readInto, lt_min_iff]
      split_ifs with h1 h2 h3 h4 h5
      · omega
      · rfl
      · rfl
      · omega
      · have hj := h file rfl j (by omega) (by omega)
        simp only at hj
        rw [hj, if_pos h5]
      · by_cases hj : (j : ℕ) < i.length
        · have hj' := h file rfl j hj (by omega)
          simp only at hj'
          rw [hj', if_neg h5]
        · omega

/-- **What holds of the page from every content** of memory and of the swap device: what holds in a zeroed frame, or
whatever the frame holds. -/
theorem lazyToInmem_iff (hs : Table.Keyed VpageInfo.key s.map) (hv : s.find v.key = some v)
    (hb : v.backend = .lazy i) (hret : Returns (lazyToInmemServed self env served v i) s) (Q : Page → Prop) :
    (∀ mem swap, Yields (lazyToInmemServed self env served v i) (withMem s mem swap) fun _ s' => ∃ j,
      s'.find v.key = some (v.withBackend (.inmem j)) ∧ Q (s'.mem j.paddr)) ↔
      if (freshFrame env s).isSome then Q (servedPage s i served fun _ => 0)
      else ∀ page, Q (servedPage s i served page) := by
  have hrun : ∀ mem swap, Yields (lazyToInmemServed self env served v i) (withMem s mem swap) fun _ s' => ∃ j,
      s'.find v.key = some (v.withBackend (.inmem j)) ∧
      s'.mem j.paddr = servedPage s i served (before env (withMem s mem swap) j.paddr) := by
    intro mem swap
    have hret' := (blind_lazyToInmemServed s (withMem s mem swap) (sameTables_withMem s)).yields hret
    exact (hret'.and_ensures (lazyToInmemServed_ensures hs hv hb)).mono fun _ _ h => h.2
  have hbefore : ∀ mem swap f, before env (withMem s mem swap) f =
      if (freshFrame env s).isSome then fun _ => 0 else mem f := fun _ _ _ => rfl
  constructor
  · intro h
    have hpage : ∀ page : Page, Q (servedPage s i served (if (freshFrame env s).isSome then fun _ =>
      0 else page)) := by
      intro page
      obtain ⟨-, s', -, ⟨j, hj, hq⟩, j', hj', hp'⟩ :=
        (h (fun _ => page) s.swapBlock).and_ensures (lazyToInmemServed_ensures hs hv hb)
      obtain rfl : j = j' := by simpa [VpageInfo.withBackend] using hj.symm.trans hj'
      rw [hp', hbefore] at hq
      exact hq
    split_ifs at hpage ⊢ with hfresh
    · exact hpage fun _ => 0
    · exact hpage
  · intro h mem swap
    refine (hrun mem swap).mono fun _ s' ⟨j, hj, hp⟩ => ⟨j, hj, ?_⟩
    rw [hp, hbefore]
    split_ifs at h ⊢ with hfresh
    · exact h
    · exact h _

/-- **Lazy pages leak nothing exactly if all is covered**: from every content of memory and of the swap device, the
page is the bytes that are there, and zeros. -/
theorem lazyToInmem_present (hs : Table.Keyed VpageInfo.key s.map) (hv : s.find v.key = some v)
    (hb : v.backend = .lazy i) (hret : Returns (lazyToInmemServed self env served v i) s) :
    (∀ mem swap, Yields (lazyToInmemServed self env served v i) (withMem s mem swap) fun _ s' => ∃ j,
      s'.find v.key = some (v.withBackend (.inmem j)) ∧ s'.mem j.paddr = presentPage s i) ↔
      Covered env s i served := by
  have hlen := i.length.isLt
  rw [lazyToInmem_iff hs hv hb hret fun page => page = presentPage s i]
  simp only [servedPage_eq_iff]
  unfold Covered
  split_ifs with hfresh
  · refine forall₂_congr fun file hf => ⟨fun h k hk hserved hin => ?_, fun h k hk hno => ?_⟩
    · have hk' := h ⟨k, by omega⟩ hk (by dsimp only; omega)
      unfold presentPage at hk'
      rw [hf] at hk'
      dsimp only at hk'
      rw [if_pos ⟨hk, hin⟩] at hk'
      exact hk'.symm
    · unfold presentPage
      rw [hf]
      dsimp only
      split_ifs with hin
      · exact (h k hk (by omega) hin.2).symm
      · rfl
  · constructor
    · intro h file hf k hk
      by_contra hno
      -- a frame whose bytes are all wrong
      have hk' := h (fun k => presentPage s i k + 1) file hf ⟨k, by omega⟩ hk hno
      simp at hk'
    · exact fun h page file hf k hk hno => absurd (h file hf k hk) hno

/-! ### A page that leaks -/

/-- One user frame, which holds a page of the process 2 that is full of the byte `secret`. The process 1 has a lazy
page of 4 bytes of a file that is 2 bytes long. -/
def leakMachine (exhausted : Bool) (secret : UInt8) : VM where
  map := [⟨5, true, 1, .lazy ⟨some 0, 0, 4⟩⟩, ⟨7, true, 2, .inmem ⟨0, 2, 0⟩⟩]
  pagedirs := fun _ => some .empty
  pagedir := fun p => some p
  userPool := [exhausted]
  mem := fun _ _ => secret
  swapMap := List.replicate 8 false
  swapBlock := fun _ _ => 0
  files := fun _ => ⟨2, fun _ => 1⟩

def plenty : Env := ⟨false, true, true, 0⟩

/-- The byte 3 of the page 5 of the process 1, after the page fault. -/
def leaked (exhausted : Bool) (secret : UInt8) : Option UInt8 :=
  match lazyToInmemServed 1 plenty 4 ⟨5, true, 1, .lazy ⟨some 0, 0, 4⟩⟩ ⟨some 0, 0, 4⟩
      (leakMachine exhausted secret) with
  | some ((), s) =>
    match s.find ⟨1, 5⟩ with
    | some ⟨_, _, _, .inmem j⟩ => some (s.mem j.paddr ⟨3, by decide⟩)
    | _ => none
  | none => none

/-- **The page shows what the other process had stored.** -/
theorem lazyToInmem_leaks : leaked true 7 = some 7 ∧ leaked true 8 = some 8 ∧
    presentPage (leakMachine true 7) ⟨some 0, 0, 4⟩ ⟨3, by decide⟩ = 0 := by
  refine ⟨?_, ?_, ?_⟩ <;> rfl

/-- In a free frame, the page shows the two bytes of the file and zeros. -/
theorem lazyToInmem_present_fresh :
    Yields (lazyToInmemServed 1 plenty 4 ⟨5, true, 1, .lazy ⟨some 0, 0, 4⟩⟩ ⟨some 0, 0, 4⟩)
      (withMem (leakMachine false 7) (fun _ _ => 9) fun _ _ => 9) fun _ s' => ∃ j,
        s'.find ⟨1, 5⟩ = some ⟨5, true, 1, .inmem j⟩ ∧
        s'.mem j.paddr = presentPage (leakMachine false 7) ⟨some 0, 0, 4⟩ := by
  have hs : Table.Keyed VpageInfo.key (leakMachine false 7).map := by
    unfold Table.Keyed
    decide
  refine (lazyToInmem_present hs rfl rfl ⟨(), _, rfl, trivial⟩).mpr (fun file hf => ?_) _ _
  rw [if_pos (by rfl)]
  intro j hj hserved
  have hlen : j < 4 := hj
  omega

end Pintos.Vm.PageIn
