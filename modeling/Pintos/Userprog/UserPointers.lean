import Pintos.Userprog.Syscall

/-! # Where the kernel stores for a process

Every store a system call makes through an address of its arguments should lie in user memory and be made
with faults allowed. `copy_to_user` does that for any address and any length, and every call that hands its
pointers to `copy_to_user` inherits it. `sys_readdir` hands the pointer on to `strlcpy`: this is the one call
that breaks the rule, and it does so whenever there is a name to store. -/

namespace Pintos.Userprog.UserPointers

open Pintos.Lib.Stopping
open Pintos.Filesys.Path
open Pintos.Filesys.DirState (DirEntry InodePtr nameMax)
open Pintos.Userprog.UserMem Pintos.Userprog.Syscall

variable {ν κ α : Type} {S : Services ν κ} {s : CallState ν κ}

/-- A store into user memory, made while a fault is allowed. -/
def Disciplined (st : Store) : Prop := st.addr < physBase ∧ st.allowed = true

/-- All stores so far were as they should be. -/
def Clean (s : CallState ν κ) : Prop := ∀ st ∈ s.stores, Disciplined st

/-- Some store so far was not. -/
def Dirty (s : CallState ν κ) : Prop := ∃ st ∈ s.stores, ¬Disciplined st

theorem dirty_iff : Dirty s ↔ ¬Clean s := by
  unfold Dirty Clean
  push Not
  exact Iff.rfl

/-- The stores of a system call. -/
def storesOf (S : Services ν κ) (esp : ℕ) (s : CallState ν κ) : List Store :=
  (left (syscallHandler S esp) { s with stores := [] }).stores

/-! ### Steps that store nothing -/

/-- What holds as long as nothing is stored. -/
def Quiet (P : CallState ν κ → Prop) : Prop :=
  ∀ s t : CallState ν κ, P s → t.stores = s.stores → P t

theorem quiet_clean : Quiet (Clean : CallState ν κ → Prop) :=
  fun _ _ h he st hst => h st (he ▸ hst)

theorem quiet_dirty : Quiet (Dirty : CallState ν κ → Prop) :=
  fun _ _ ⟨st, hst, hd⟩ he => ⟨st, he ▸ hst, hd⟩

/-- What holds whatever page faults bring in. -/
def Still (P : CallState ν κ → Prop) : Prop :=
  ∀ (s : CallState ν κ) (vm : ν) (b : Bool), P s → P { s with vm := vm, faultAllowed := b }

/-- What holds of the process's own data: the memory, the open files and the stores. -/
def Calm (P : CallState ν κ → Prop) : Prop :=
  ∀ s t : CallState ν κ, P s → t.mem = s.mem → t.userFiles = s.userFiles → t.dirs = s.dirs →
    t.stores = s.stores → P t

theorem Calm.still {P : CallState ν κ → Prop} (hP : Calm P) : Still P :=
  fun s _ _ h => hP s _ h rfl rfl rfl rfl

theorem Quiet.calm {P : CallState ν κ → Prop} (hP : Quiet P) : Calm P :=
  fun s t h _ _ _ hst => hP s t h hst

theorem Quiet.still {P : CallState ν κ → Prop} (hP : Quiet P) : Still P := hP.calm.still

theorem keeps_ask {P : CallState ν κ → Prop} (hP : Calm P) (m : Service ν κ α) : Keeps P (ask m) := by
  refine .get_bind fun t ht => ?_
  rcases m (t.vm, t.kernel) with stop | ⟨a, vm, kernel⟩
  · exact .throw
  · exact .bind (.set (hP t _ ht rfl rfl rfl rfl)) fun _ => .pure

section Still

variable {P : CallState ν κ → Prop} (hP : Still P)
include hP

theorem keeps_access (addr : ℕ) (write : Bool) : Keeps P (access S addr write) := by
  refine .get_bind fun t ht => ?_
  refine .ite (fun _ => .pure) fun _ => .ite (fun _ => ?_) fun _ => .throw
  rcases S.vmHandleUserFault addr write t.vm with stop | vm
  · exact .throw
  · exact .set (hP t vm t.faultAllowed ht)

theorem keeps_load (addr : ℕ) : Keeps P (load S addr) :=
  .bind (keeps_access hP addr false) fun _ => .get_bind fun _ _ => .pure

theorem keeps_loadBytes : ∀ src size, Keeps P (loadBytes S src size)
  | _, 0 => .pure
  | src, size + 1 => .bind (keeps_load hP src) fun _ =>
      .bind (keeps_loadBytes ((src + 1) % 2 ^ 32) size) fun _ => .pure

omit hP in
theorem keeps_assert (b : Bool) : Keeps P (UserMem.assert b) :=
  .ite (fun _ => .pure) fun _ => .throw

theorem keeps_memcpyFrom (src size : ℕ) : Keeps P (memcpyFrom S src size) :=
  .bind (keeps_assert _) fun _ => keeps_loadBytes hP src size

theorem keeps_faultRegionEnter : Keeps P faultRegionEnter :=
  .modify fun t ht => hP t t.vm true ht

theorem keeps_faultRegionExit : Keeps P faultRegionExit :=
  .modify fun t ht => hP t t.vm false ht

theorem keeps_copyFromUser (uaddr length : ℕ) : Keeps P (copyFromUser S uaddr length) := by
  refine .bind (keeps_faultRegionEnter hP) fun _ => ?_
  refine .ite (fun _ => .bind (keeps_faultRegionExit hP) fun _ => .pure) fun _ => ?_
  refine .ite (fun _ => .bind (keeps_faultRegionExit hP) fun _ => .pure) fun _ => ?_
  exact .bind (keeps_memcpyFrom hP uaddr length) fun _ =>
    .bind (keeps_faultRegionExit hP) fun _ => .pure

theorem keeps_userStrlen (str : ℕ) : ∀ left i, Keeps P (userStrlen S str left i)
  | 0, _ => .pure
  | left + 1, i => by
    refine .bind (keeps_copyFromUser hP _ 1) fun r => ?_
    rcases r with _ | bytes
    · exact .pure
    · exact .ite (fun _ => .pure) fun _ => keeps_userStrlen str left (i + 1)

theorem keeps_strdupUser (hm : ∀ n, Keeps P (ask (S.malloc n))) (str : ℕ) : Keeps P (strdupUser S str) := by
  refine .bind (keeps_userStrlen hP str _ 0) fun r => ?_
  rcases r with _ | length
  · exact .pure
  refine .bind (hm _) fun ok => .ite (fun _ => ?_) fun _ => .pure
  refine .bind (keeps_copyFromUser hP str _) fun out => ?_
  rcases out with _ | out <;> exact .pure

theorem keeps_withString (hm : ∀ n, Keeps P (ask (S.malloc n))) (str : ℕ) (failed : ℤ)
    {call : CStr → Sys ν κ ℤ} (h : ∀ copy, Keeps P (call copy)) : Keeps P (withString S str failed call) := by
  refine .bind (keeps_strdupUser hP hm str) fun r => ?_
  rcases r with copy | _ | _
  · exact .bind (h copy) fun _ => .pure
  · exact .throw
  · exact .pure

end Still

theorem keeps_withFile {P : CallState ν κ → Prop} (fd : ℤ) {call : ℕ → Sys ν κ ℤ} (h : ∀ file, Keeps P (call file)) :
    Keeps P (withFile fd call) := by
  refine .get_bind fun t _ => ?_
  rcases userFileGet t.userFiles fd with _ | f
  · exact .pure
  rcases hf : f.inner with _ | _ | file | _
  case file => simpa only [hf] using Keeps.bind (h file) fun _ => .pure
  all_goals simp only [hf]; exact .pure

theorem keeps_append {P : CallState ν κ → Prop} (hP : Quiet P) (inner : Inner) :
    Keeps P (append S inner) := by
  refine .bind (keeps_ask hP.calm _) fun ok => .ite (fun _ => ?_) fun _ => .pure
  refine .get_bind fun t ht => ?_
  exact .bind (.set (hP t _ ht rfl)) fun _ => .pure

/-! ### Stores -/

theorem keeps_store_dirty (addr : ℕ) (byte : UInt8) :
    Keeps (Dirty : CallState ν κ → Prop) (store S addr byte) := by
  refine .bind (.modify fun t ⟨st, hst, hd⟩ => ⟨st, List.mem_append_left _ hst, hd⟩) fun _ => ?_
  refine .bind (keeps_access quiet_dirty.still addr true) fun _ => ?_
  exact .modify fun t ht => quiet_dirty t _ ht rfl

/-- The flag stays as it is during an access. -/
theorem access_faultAllowed (addr : ℕ) (write : Bool) (b : Bool) :
    Keeps (fun s : CallState ν κ => s.faultAllowed = b) (access S addr write) := by
  refine .get_bind fun t ht => ?_
  refine .ite (fun _ => .pure) fun _ => .ite (fun _ => ?_) fun _ => .throw
  rcases S.vmHandleUserFault addr write t.vm with stop | vm
  · exact .throw
  · exact .set ht

theorem access_clean {addr : ℕ} {write : Bool} (hs : Clean s) :
    Ends (access S addr write) s (fun _ t => Clean t ∧ t.faultAllowed = s.faultAllowed) Clean := by
  have hclean := keeps_access (S := S) quiet_clean.still addr write s hs
  have hflag := access_faultAllowed (S := S) addr write s.faultAllowed s rfl
  exact (hclean.and hflag).mono (fun _ _ ht => ht) fun _ ht => ht.1

/-- A store into user memory while faults are allowed. -/
theorem store_clean {addr : ℕ} {byte : UInt8} (hs : Clean s) (hf : s.faultAllowed = true)
    (ha : addr < physBase) :
    Ends (store S addr byte) s (fun _ t => Clean t ∧ t.faultAllowed = true) Clean := by
  refine .bind (.modify (.bind ((access_clean ?_).mono (fun _ t ht => ?_) fun _ ht => ht)))
  · intro st hst
    rcases List.mem_append.mp hst with hst | hst
    · exact hs st hst
    · obtain rfl := List.mem_singleton.mp hst
      exact ⟨ha, hf⟩
  · exact .modify ⟨quiet_clean t _ ht.1 rfl, ht.2.trans hf⟩

theorem storeBytes_clean : ∀ {bytes : List UInt8} {dst : ℕ} {s : CallState ν κ}, Clean s →
    s.faultAllowed = true → dst + bytes.length ≤ physBase →
    Ends (storeBytes S dst bytes) s (fun _ => Clean) Clean
  | [], _, _, hs, _, _ => .pure hs
  | byte :: bytes, dst, s, hs, hf, hd => by
    rw [List.length_cons] at hd
    refine .bind ((store_clean hs hf (by omega)).mono (fun _ t ht => ?_) fun _ ht => ht)
    have hw : (dst + 1) % 2 ^ 32 + bytes.length ≤ physBase := by
      have := Nat.mod_le (dst + 1) (2 ^ 32)
      omega
    exact storeBytes_clean ht.1 ht.2 hw

/-! ### copy_to_user -/

theorem pagesOk_spec : ∀ {cnt iterPg : ℕ}, pagesOk cnt iterPg = true → ∀ i < cnt,
    iterPg + i * pgSize < physBase
  | cnt + 1, iterPg, h, i, hi => by
    obtain ⟨h0, h1⟩ := (Bool.and_eq_true _ _).mp h
    rcases i with _ | i
    · simpa [accessOk] using h0
    · have := pagesOk_spec h1 i (by omega)
      rw [Nat.succ_mul]
      omega

/-- **The check of `copy_to_user`.** A range that does not wrap around and has its pages below `PHYS_BASE` is
in user memory. -/
theorem in_user_memory {uaddr length : ℕ} (hl : length < 2 ^ 32)
    (hw : ¬(uaddr + length) % 2 ^ 32 < uaddr)
    (hp : pagesOk (pageCnt (pgRoundDown uaddr) (pgRoundDown ((uaddr + length) % 2 ^ 32)))
      (pgRoundDown uaddr) = true) : uaddr + length ≤ physBase := by
  have hsum : (uaddr + length) % 2 ^ 32 = uaddr + length := by omega
  rw [hsum] at hp
  unfold pageCnt pgRoundDown pgSize at hp
  have hle : uaddr / 4096 * 4096 ≤ (uaddr + length) / 4096 * 4096 := by omega
  rw [if_pos hle] at hp
  have hlast := pagesOk_spec hp (((uaddr + length) / 4096 * 4096 - uaddr / 4096 * 4096) / 4096)
    (Nat.lt_succ_self _)
  unfold pgSize physBase at hlast
  unfold physBase
  omega

theorem keeps_copyToUser (uaddr : ℕ) {bytes : List UInt8} (hl : bytes.length < 2 ^ 32) :
    Keeps (Clean : CallState ν κ → Prop) (copyToUser S uaddr bytes) := by
  intro s hs
  refine .bind (.modify ?_)
  refine .ite (fun _ => ?_) fun hw => .ite (fun _ => ?_) fun hp => ?_
  · exact .bind (.modify (.pure (quiet_clean s _ hs rfl)))
  · exact .bind (.modify (.pure (quiet_clean s _ hs rfl)))
  have hu : uaddr + bytes.length ≤ physBase := in_user_memory hl hw (by simpa using hp)
  have hallowed : Clean { s with faultAllowed := true } := quiet_clean s _ hs rfl
  refine .bind (.bind (.ite (fun _ => .pure ?_) fun _ => .throw hallowed))
  refine (storeBytes_clean hallowed rfl hu).mono (fun _ t ht => ?_) fun _ ht => ht
  exact .bind (.modify (.pure (quiet_clean t _ ht rfl)))

/-! ### The calls that do not hand a pointer on -/

theorem bufferBytes_length (buffer : List UInt8) (length : ℕ) :
    (bufferBytes buffer length).length = length := by
  simp [bufferBytes]

theorem keeps_sysRead (fd : ℤ) (data dataLen : ℕ) :
    Keeps (Clean : CallState ν κ → Prop) (sysRead S fd data dataLen) := by
  refine .ite (fun _ => .pure) fun _ => ?_
  refine .bind (keeps_ask quiet_clean.calm _) fun ok => .ite (fun _ => ?_) fun _ => .pure
  refine .get_bind fun t _ => ?_
  rcases userFileGet t.userFiles fd with _ | f
  · exact .pure
  rcases hf : f.inner with _ | _ | file | d <;> simp only [hf]
  · refine .bind (.forM _ fun _ _ => .bind (keeps_ask quiet_clean.calm _) fun _ => .pure) fun _ => .pure
  · exact .pure
  · refine .bind (keeps_ask quiet_clean.calm _) fun r => .ite (fun _ => .pure) fun _ => ?_
    have hl : (bufferBytes r.2 (r.1 % 2 ^ 32).toNat).length < 2 ^ 32 := by
      rw [bufferBytes_length]
      omega
    exact .bind (keeps_copyToUser data hl) fun ok => .ite (fun _ => .pure) fun _ => .throw
  · exact .pure

theorem keeps_sysWrite {P : CallState ν κ → Prop} (hP : Quiet P) (fd : ℤ) (data dataLen : ℕ) :
    Keeps P (sysWrite S fd data dataLen) := by
  refine .ite (fun _ => .pure) fun _ => ?_
  refine .bind (keeps_ask hP.calm _) fun ok => .ite (fun _ => ?_) fun _ => .pure
  refine .bind (keeps_copyFromUser hP.still data dataLen) fun r => ?_
  rcases r with _ | copy
  · exact .throw
  refine .get_bind fun t _ => ?_
  rcases userFileGet t.userFiles fd with _ | f
  · exact .pure
  rcases hf : f.inner with _ | _ | file | d <;> simp only [hf]
  · exact .pure
  · exact .bind (keeps_ask hP.calm _) fun _ => .pure
  · exact .bind (keeps_ask hP.calm _) fun _ => .pure
  · exact .pure

theorem keeps_sysClose {P : CallState ν κ → Prop} (hP : Quiet P) (fd : ℤ) :
    Keeps P (sysClose S fd) := by
  refine .get_bind fun t ht => ?_
  rcases userFileGet t.userFiles fd with _ | f
  · exact .pure
  have hrelease : Keeps P (userFileRelease S f) := by
    unfold userFileRelease
    rcases f.inner with _ | _ | file | d
    · exact .pure
    · exact .pure
    · exact keeps_ask hP.calm _
    · exact keeps_ask hP.calm _
  rcases hf : f.inner with _ | _ | file | d <;> simp only [hf]
  · exact .pure
  · exact .pure
  · exact .bind (.set (hP t _ ht rfl)) fun _ => .bind hrelease fun _ => .pure
  · exact .bind (.set (hP t _ ht rfl)) fun _ => .bind hrelease fun _ => .pure

theorem keeps_sysInumber {P : CallState ν κ → Prop} (hP : Quiet P) (fd : ℤ) :
    Keeps P (sysInumber S fd) := by
  refine .get_bind fun t _ => ?_
  rcases userFileGet t.userFiles fd with _ | f
  · exact .pure
  rcases hf : f.inner with _ | _ | file | d <;> simp only [hf]
  · exact .pure
  · exact .pure
  · exact .bind (keeps_ask hP.calm _) fun _ => .pure
  · exact .bind (keeps_ask hP.calm _) fun _ => .pure

theorem keeps_sysIsdir {P : CallState ν κ → Prop} (fd : ℤ) : Keeps P (sysIsdir fd) := by
  refine .get_bind fun t _ => ?_
  rcases userFileGet t.userFiles fd with _ | f
  · exact .pure
  rcases hf : f.inner with _ | _ | file | d <;> simp only [hf] <;> exact .pure

theorem keeps_sysOpen {P : CallState ν κ → Prop} (hP : Quiet P) (fileName : ℕ) :
    Keeps P (sysOpen S fileName) := by
  refine keeps_withString hP.still (fun _ => keeps_ask hP.calm _) _ _ fun copy => .bind (keeps_ask hP.calm _) fun r =>
    ?_
  rcases r with _ | inner
  · exact .pure
  refine .bind (keeps_append hP inner) fun fd => ?_
  rcases fd with _ | fd <;> exact .pure

theorem keeps_sysMmap {P : CallState ν κ → Prop} (hP : Quiet P) (fd : ℤ) (data : ℕ) :
    Keeps P (sysMmap S fd data) := by
  refine .ite (fun _ => .pure) fun _ => keeps_withFile fd fun file => ?_
  refine .bind (keeps_ask hP.calm _) fun mmapFile => .ite (fun _ => .pure) fun _ => ?_
  refine .bind (keeps_ask hP.calm _) fun mid => ?_
  rcases mid with _ | mid <;> exact .pure

/-- **Every other call.** A call that is not `readdir` keeps to user memory. -/
theorem keeps_dispatch (arg : ℕ → ℕ) {nr : Option SyscallNr} (hnr : nr ≠ some .readdir) :
    Keeps (Clean : CallState ν κ → Prop) (dispatch S arg nr) := by
  have hq : Quiet (Clean : CallState ν κ → Prop) := quiet_clean
  have hask := fun {α : Type} (m : Service ν κ α) => keeps_ask hq.calm m
  rcases nr with _ | nr
  · exact .pure
  cases nr with
  | halt => exact .throw
  | exit => exact .throw
  | exec => exact keeps_withString hq.still (fun _ => keeps_ask hq.calm _) _ _ fun copy => hask _
  | wait => exact .bind (hask _) fun _ => .pure
  | create => exact keeps_withString hq.still (fun _ => keeps_ask hq.calm _) _ _ fun copy => .bind (hask _) fun _ =>
      .pure
  | remove => exact keeps_withString hq.still (fun _ => keeps_ask hq.calm _) _ _ fun copy => .bind (hask _) fun _ =>
      .pure
  | «open» => exact keeps_sysOpen hq _
  | filesize => exact keeps_withFile _ fun file => hask _
  | read => exact keeps_sysRead _ _ _
  | write => exact keeps_sysWrite hq _ _ _
  | seek => exact keeps_withFile _ fun file => .bind (hask _) fun _ => .pure
  | tell => exact keeps_withFile _ fun file => hask _
  | close => exact keeps_sysClose hq _
  | sigaction => exact .bind (hask _) fun _ => .ite (fun _ => .pure) fun _ => .pure
  | sendsig => exact .bind (hask _) fun _ => .ite (fun _ => .pure) fun _ => .pure
  | yield => exact .bind (hask _) fun _ => .pure
  | mmap => exact keeps_sysMmap hq _ _
  | munmap => exact .bind (hask _) fun _ => .pure
  | chdir => exact keeps_withString hq.still (fun _ => keeps_ask hq.calm _) _ _ fun copy => .bind (hask _) fun _ =>
      .pure
  | mkdir => exact keeps_withString hq.still (fun _ => keeps_ask hq.calm _) _ _ fun copy => .bind (hask _) fun _ =>
      .pure
  | readdir => exact absurd rfl hnr
  | isdir => exact keeps_sysIsdir _
  | inumber => exact keeps_sysInumber hq _

/-! ### The argument words -/

/-- The access that reads a byte with faults allowed. -/
def touch (S : Services ν κ) (src : ℕ) (vm : ν) : Except Stop ν :=
  if S.present vm src false then .ok vm else S.vmHandleUserFault src false vm

/-- The accesses that read `size` bytes from `src` on with faults allowed. -/
def readIn (S : Services ν κ) : (src size : ℕ) → ν → Except Stop ν
  | _, 0, vm => .ok vm
  | src, size + 1, vm => (touch S src vm).bind (readIn S ((src + 1) % 2 ^ 32) size)

/-- The bytes from `src` on. -/
def bytesAt (mem : ℕ → UInt8) : (src size : ℕ) → List UInt8
  | _, 0 => []
  | src, size + 1 => mem src :: bytesAt mem ((src + 1) % 2 ^ 32) size

/-- The system call number and the argument words at `esp`. -/
def argWord (s : CallState ν κ) (esp i : ℕ) : ℕ := wordAt (bytesAt s.mem esp argsSize) i

/-- The calls that forward a user's pointer: the words at `esp` can be read, they ask for `readdir` on an open
directory that has an entry left, and the pointer is not null. -/
structure ForwardsPointer (S : Services ν κ) (esp : ℕ) (s : CallState ν κ) : Prop where
  esp_ok : accessOk esp ∧ accessOk ((esp + argsSize) % 2 ^ 32)
  esp_ne : esp ≠ 0
  readable : ∃ vm, readIn S esp argsSize s.vm = .ok vm
  nr : syscallNrs[argWord s esp 0]? = some .readdir
  name_ne : argWord s esp 2 ≠ 0
  entry : ∃ f d, userFileGet s.userFiles (toInt (argWord s esp 1)) = some f ∧ f.inner = .dir d ∧
    ∃ e ∈ slotsLeft S s d, e.inUse = true

theorem load_spec {src : ℕ} (hf : s.faultAllowed = true) : Ends (load S src) s
    (fun byte t => ∃ vm, touch S src s.vm = .ok vm ∧ byte = s.mem src ∧ t = { s with vm := vm })
    (fun t => (∃ stop, touch S src s.vm = .error stop) ∧ t.stores = s.stores) := by
  refine .bind (.bind (.get ?_))
  unfold touch
  by_cases hp : S.present s.vm src false = true
  · rw [if_pos hp, if_pos hp]
    exact .pure (.bind (.get (.pure ⟨s.vm, rfl, rfl, rfl⟩)))
  rw [if_neg hp, if_neg hp, if_pos hf]
  rcases S.vmHandleUserFault src false s.vm with stop | vm
  · exact .throw ⟨⟨stop, rfl⟩, rfl⟩
  · exact .set (.bind (.get (.pure ⟨vm, rfl, rfl, rfl⟩)))

theorem loadBytes_spec : ∀ {size src : ℕ} {s : CallState ν κ}, s.faultAllowed = true →
    Ends (loadBytes S src size) s
      (fun bytes t => ∃ vm, readIn S src size s.vm = .ok vm ∧ bytes = bytesAt s.mem src size ∧
        t = { s with vm := vm })
      (fun t => (∃ stop, readIn S src size s.vm = .error stop) ∧ t.stores = s.stores)
  | 0, _, s, _ => .pure ⟨s.vm, rfl, rfl, rfl⟩
  | size + 1, src, s, hf => by
    refine .bind ((load_spec hf).mono (fun byte t ht => ?_) fun t ht => ?_)
    · obtain ⟨vm, htouch, rfl, rfl⟩ := ht
      have hread : readIn S src (size + 1) s.vm = readIn S ((src + 1) % 2 ^ 32) size vm := by
        rw [readIn, htouch]
        rfl
      rw [hread]
      refine .bind ((loadBytes_spec (s := { s with vm := vm }) hf).mono (fun bytes t ht => ?_)
        fun t ht => ht)
      obtain ⟨vm', hr, rfl, rfl⟩ := ht
      exact .pure ⟨vm', hr, rfl, rfl⟩
    · obtain ⟨⟨stop, htouch⟩, hst⟩ := ht
      refine ⟨⟨stop, ?_⟩, hst⟩
      rw [readIn, htouch]
      rfl

/-! ### readdir -/

theorem store_faultAllowed (addr : ℕ) (byte : UInt8) (b : Bool) :
    Keeps (fun s : CallState ν κ => s.faultAllowed = b) (store S addr byte) :=
  .bind (.modify fun _ ht => ht) fun _ =>
    .bind (access_faultAllowed addr true b) fun _ => .modify fun _ ht => ht

/-- A store without leave. -/
theorem store_dirty {addr : ℕ} {byte : UInt8} (hf : s.faultAllowed = false) :
    Ends (store S addr byte) s (fun _ => Dirty) Dirty := by
  refine .bind (.modify ((Keeps.bind (keeps_access quiet_dirty.still addr true) fun _ => ?_) _ ?_))
  · exact .modify fun t ht => quiet_dirty t _ ht rfl
  · refine ⟨_, List.mem_append_right _ (List.mem_singleton_self _), fun h => ?_⟩
    exact absurd (hf.symm.trans h.2) (by simp)

theorem storeBytes_dirty : ∀ {bytes : List UInt8} {dst : ℕ} {s : CallState ν κ},
    s.faultAllowed = false →
    Ends (storeBytes S dst bytes) s (fun _ t => t.faultAllowed = false) Dirty
  | [], _, _, hf => .pure hf
  | byte :: bytes, dst, s, hf => by
    have hdirty : Ends (store S dst byte) s (fun _ => Dirty) Dirty := store_dirty hf
    have hflag := store_faultAllowed (S := S) dst byte false s hf
    exact .bind ((hdirty.and hflag).mono (fun _ t ht => storeBytes_dirty ht.2) fun _ ht => ht.1)

/-- `strlcpy` stores at least the null byte. -/
theorem strlcpy_dirty {dst : ℕ} {src : CStr} (hd : dst ≠ 0) (hf : s.faultAllowed = false) :
    Ends (strlcpy S dst src (nameMax + 1)) s (fun _ => Dirty) Dirty := by
  refine .bind (.ite (fun _ => .pure ?_) fun h => absurd (by simpa using hd) h)
  refine .ite (fun _ => ?_) fun h => absurd (Nat.succ_pos nameMax) h
  refine .bind (.bind (.ite (fun _ => .pure ?_) fun h => absurd (by simp [hd]) h))
  exact (storeBytes_dirty hf).mono (fun _ t ht => store_dirty ht) fun _ ht => ht

theorem readdirFrom_dirty {d name : ℕ} (hn : name ≠ 0) : ∀ {es : List DirEntry}
    {s : CallState ν κ}, s.faultAllowed = false → (∃ e ∈ es, e.inUse = true) →
    Ends (readdirFrom S d name es) s (fun _ => Dirty) Dirty
  | [], _, _, ⟨_, he, _⟩ => absurd he (by simp)
  | e :: es, s, hf, hex => by
    refine .bind (.modify (.ite (fun _ => ?_) fun hu => ?_))
    · refine .bind ((strlcpy_dirty hn ?_).mono (fun _ t ht => ?_) fun _ ht => ht)
      · exact hf
      · exact .pure ht
    · obtain ⟨e', he', hu'⟩ := hex
      rcases List.mem_cons.mp he' with rfl | he'
      · exact absurd hu' hu
      · exact readdirFrom_dirty hn hf ⟨e', he', hu'⟩

/-- `strlcpy` to a null pointer fails its assertion. -/
theorem strlcpy_null {P : CallState ν κ → Prop} (src : CStr) (size : ℕ) :
    Keeps P (strlcpy S 0 src size) := fun _ hs =>
  .bind (.ite (fun h => absurd h (by simp)) fun _ => .throw hs)

/-- Without an entry left, or with a null pointer, nothing is stored. -/
theorem readdirFrom_clean {d name : ℕ} : ∀ {es : List DirEntry},
    (name ≠ 0 → ∀ e ∈ es, e.inUse = false) →
    Keeps (Clean : CallState ν κ → Prop) (readdirFrom S d name es)
  | [], _ => .pure
  | e :: es, h => by
    refine .bind (.modify fun t ht => quiet_clean t _ ht rfl) fun _ => .ite (fun hu => ?_) fun _ => ?_
    · rcases Nat.eq_zero_or_pos name with rfl | hn
      · exact .bind (strlcpy_null _ _) fun _ => .pure
      · have := h (by omega) e List.mem_cons_self
        simp [this] at hu
    · exact readdirFrom_clean fun hn e he => h hn e (List.mem_cons_of_mem _ he)

/-! ### The handler -/

/-- What a call of `readdir` hands on. -/
def ReaddirForwards (S : Services ν κ) (s : CallState ν κ) (fd : ℤ) (name : ℕ) : Prop :=
  name ≠ 0 ∧ ∃ f d, userFileGet s.userFiles fd = some f ∧ f.inner = .dir d ∧
    ∃ e ∈ slotsLeft S s d, e.inUse = true

theorem sysReaddir_clean {fd : ℤ} {name : ℕ} (hs : Clean s) (h : ¬ReaddirForwards S s fd name) :
    Ends (sysReaddir S fd name) s (fun _ => Clean) Clean := by
  refine .bind (.get ?_)
  rcases hf : userFileGet s.userFiles fd with _ | f
  · exact .pure hs
  rcases hi : f.inner with _ | _ | file | d <;> simp only [hi]
  · exact .pure hs
  · exact .pure hs
  · exact .pure hs
  · refine .bind (.bind (.get ((readdirFrom_clean fun hn e he => ?_) s hs |>.mono
      (fun _ t ht => .pure ht) fun _ ht => ht)))
    by_contra hu
    exact h ⟨hn, f, d, hf, hi, e, he, by simpa using hu⟩

theorem sysReaddir_dirty {fd : ℤ} {name : ℕ} (hf : s.faultAllowed = false)
    (h : ReaddirForwards S s fd name) :
    Ends (sysReaddir S fd name) s (fun _ => Dirty) Dirty := by
  obtain ⟨hn, f, d, hget, hi, he⟩ := h
  refine .bind (.get ?_)
  simp only [hget, hi]
  refine .bind (.bind (.get ((readdirFrom_dirty hn hf he).mono (fun _ t ht => ?_) fun _ ht => ht)))
  exact .pure ht

/-- The condition on the words at `esp`, with the copy of the words as the handler has it. -/
theorem forwards_iff {esp : ℕ} {vm : ν} (hok : accessOk esp ∧ accessOk ((esp + argsSize) % 2 ^ 32))
    (hesp : esp ≠ 0) (hread : readIn S esp argsSize s.vm = .ok vm) :
    ForwardsPointer S esp s ↔
      syscallNrs[argWord s esp 0]? = some .readdir ∧
        ReaddirForwards S s (toInt (argWord s esp 1)) (argWord s esp 2) :=
  ⟨fun h => ⟨h.nr, h.name_ne, h.entry⟩, fun h => ⟨hok, hesp, ⟨vm, hread⟩, h.1, h.2.1, h.2.2⟩⟩

theorem handler_clean {esp : ℕ} (hs : Clean s) (h : ¬ForwardsPointer S esp s) :
    Ends (syscallHandler S esp) s (fun _ => Clean) Clean := by
  refine .ite (fun _ => .throw hs) fun hok => ?_
  have hok : accessOk esp ∧ accessOk ((esp + argsSize) % 2 ^ 32) := by
    simpa [not_or] using hok
  have hallowed : Clean { s with faultAllowed := true } := quiet_clean s _ hs rfl
  refine .bind (.modify (.bind (.bind (.ite (fun hesp => .pure ?_) fun _ => .throw hallowed))))
  have hesp : esp ≠ 0 := by simpa [argsSize] using hesp
  refine (loadBytes_spec rfl).mono (fun bytes t ht => ?_) fun t ht => quiet_clean s t hs ht.2
  obtain ⟨vm, hread, rfl, rfl⟩ := ht
  refine .bind (.modify ?_)
  by_cases hnr : syscallNrs[argWord s esp 0]? = some .readdir
  · have hr : ¬ReaddirForwards S s (toInt (argWord s esp 1)) (argWord s esp 2) := fun hr =>
      h ((forwards_iff (s := s) hok hesp hread).mpr ⟨hnr, hr⟩)
    have hdispatch := sysReaddir_clean (S := S)
      (quiet_clean s { s with vm := vm, faultAllowed := false } hs rfl) hr
    unfold argWord at hnr hdispatch
    simp only [hnr]
    exact hdispatch
  · exact keeps_dispatch _ hnr _ (quiet_clean s _ hs rfl)

theorem handler_dirty {esp : ℕ} (h : ForwardsPointer S esp s) :
    Ends (syscallHandler S esp) s (fun _ => Dirty) Dirty := by
  have hesp := h.esp_ne
  obtain ⟨vm, hread⟩ := h.readable
  refine .ite (fun hok => hok.elim (absurd h.esp_ok.1) (absurd h.esp_ok.2)) fun _ => ?_
  refine .bind (.modify (.bind (.bind (.ite (fun _ => .pure ?_) fun hesp' => ?_))))
  · refine (loadBytes_spec rfl).mono (fun bytes t ht => ?_) fun t ht => ?_
    · obtain ⟨vm', hread', rfl, rfl⟩ := ht
      refine .bind (.modify ?_)
      have hdispatch := sysReaddir_dirty (S := S) (s := { s with vm := vm', faultAllowed := false }) rfl
        ⟨h.name_ne, h.entry⟩
      have hnr := h.nr
      unfold argWord at hnr hdispatch
      simp only [hnr]
      exact hdispatch
    · obtain ⟨stop, hstop⟩ := ht.1
      have hboth := hread.symm.trans hstop
      cases hboth
  · exact absurd (by simp [hesp]) hesp'

/-- **When every store is as it should be.** All stores of a system call lie in user memory and are made with
faults allowed, except when the call is a `readdir` with an entry to hand out. -/
theorem storesOf_disciplined_iff (S : Services ν κ) (esp : ℕ) (s : CallState ν κ) :
    (∀ st ∈ storesOf S esp s, st.addr < physBase ∧ st.allowed = true) ↔
      ¬ForwardsPointer S esp s := by
  have hsame : ForwardsPointer S esp { s with stores := [] } ↔ ForwardsPointer S esp s :=
    ⟨fun h => ⟨h.1, h.2, h.3, h.4, h.5, h.6⟩, fun h => ⟨h.1, h.2, h.3, h.4, h.5, h.6⟩⟩
  constructor
  · intro hclean hf
    exact dirty_iff.mp (handler_dirty (hsame.mpr hf)).left_of hclean
  · intro hf
    exact (handler_clean (s := { s with stores := [] }) (by simp [Clean])
      (fun h => hf (hsame.mp h))).left_of

/-- A kernel with all pages in place and one directory, whose slots are its state; nothing else is asked of it
below. -/
def oneDirectory : Services Unit (List DirEntry) where
  present _ _ _ := true
  vmHandleUserFault _ _ _ := .error (.exit (-1))
  malloc _ := return false
  slots entries _ := entries
  filesysOpen _ := return none
  filesysCreate _ _ _ := return false
  filesysRemove _ := return false
  changeDir _ := return false
  dirClose _ := return ()
  fileClose _ := return ()
  fileReopen file := return file
  fileRead _ _ := return (0, [])
  fileWrite _ _ := return 0
  fileSeek _ _ := return ()
  fileLength _ := return 0
  inumber _ := return 1
  inputGetc := return 0
  putbuf _ := return ()
  processExecute _ := return -1
  processWait _ := return -1
  threadYield := return ()
  sendSignal _ _ := return false
  setHandler _ _ := return false
  mmapEntryAppend _ _ := return none
  mmapEntryRelease _ := return ()

/-- A process with the root directory open as descriptor 2 and the words of `readdir (2, PHYS_BASE)` on its
stack. -/
def readdirState : CallState Unit (List DirEntry) where
  vm := ()
  kernel := [⟨7, ['a'], true⟩]
  mem addr := if addr = 0xbfffff00 then 20 else if addr = 0xbfffff04 then 2
    else if addr = 0xbfffff0b then 0xc0 else 0
  userFiles := [⟨0, .stdin⟩, ⟨1, .stdout⟩, ⟨2, .dir 0⟩]
  dirs _ := ⟨⟨1, 0⟩, 0⟩
  faultAllowed := false
  stores := []

/-- The name of the entry goes into kernel memory. -/
example : storesOf oneDirectory 0xbfffff00 readdirState =
    [⟨0xc0000000, 97, false⟩, ⟨0xc0000001, 0, false⟩] := by
  decide +kernel

theorem not_disciplined :
    ¬∀ st ∈ storesOf oneDirectory 0xbfffff00 readdirState, st.addr < physBase ∧ st.allowed = true := by
  decide +kernel

end Pintos.Userprog.UserPointers
