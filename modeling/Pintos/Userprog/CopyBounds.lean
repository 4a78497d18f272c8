import Pintos.Lib.Overlay
import Pintos.Userprog.UserPointers

/-! # The bounds of a copy from or to the user

Both functions of usermem.c should copy exactly the ranges that end at `PHYS_BASE` or below. Here are their
loops over the pages, with the addresses as they wrap around, and what the checks let pass: `copy_from_user`
looks at the page of the last byte, `copy_to_user` at the page after it, so that a range that ends at
`PHYS_BASE` is refused. And a null pointer that passes the checks ends in an assertion of `memcpy`. -/

namespace Pintos.Userprog.CopyBounds

open Pintos.Lib.Overlay (slice overlay slice_succ overlay_append overlay_nil)
open Pintos.Lib.Stopping
open Pintos.Filesys.DirState (DirEntry)
open Pintos.Userprog.UserMem Pintos.Userprog.UserPointers

/-! ### The loop over the pages -/

/-- `for (iter_pg = first_pg; iter_pg <= last_pg; iter_pg += PGSIZE)` with the call of `access_ok`, from `iterPg`
on; `none` if it is not at its end after `fuel` rounds. -/
def pageLoop (lastPg : ℕ) : (fuel iterPg : ℕ) → Option Bool
  | 0, _ => none
  | fuel + 1, iterPg =>
    if iterPg ≤ lastPg then
      if accessOk iterPg then pageLoop lastPg fuel ((iterPg + pgSize) % 2 ^ 32) else some false
    else some true

theorem pageCnt_succ {iterPg lastPg : ℕ} (hi : pgSize ∣ iterPg) (hl : pgSize ∣ lastPg) (hle : iterPg ≤ lastPg) :
    pageCnt iterPg lastPg = pageCnt (iterPg + pgSize) lastPg + 1 := by
  obtain ⟨i, rfl⟩ := hi
  obtain ⟨l, rfl⟩ := hl
  unfold pageCnt pgSize at *
  split_ifs <;> omega

/-- **The loop ends** before `iter_pg` wraps around, with the answer of `pagesOk`. -/
theorem pageLoop_eq {lastPg : ℕ} (hl : pgSize ∣ lastPg) : ∀ {fuel iterPg : ℕ}, pgSize ∣ iterPg →
    pageCnt iterPg lastPg < fuel → pageLoop lastPg fuel iterPg = some (pagesOk (pageCnt iterPg lastPg) iterPg)
  | fuel + 1, iterPg, hi, hfuel => by
    unfold pageLoop
    split_ifs with hle hok
    · have hcnt := pageCnt_succ hi hl hle
      have hwrap : (iterPg + pgSize) % 2 ^ 32 = iterPg + pgSize := by
        have hlt : iterPg < physBase := by simpa [accessOk] using hok
        unfold physBase at hlt
        unfold pgSize
        omega
      rw [hwrap, pageLoop_eq hl (Dvd.dvd.add hi dvd_rfl) (by omega), hcnt, pagesOk, hok, Bool.true_and]
    · rw [pageCnt_succ hi hl hle, pagesOk, Bool.eq_false_iff.mpr hok, Bool.false_and]
    · unfold pageCnt
      rw [if_neg hle]
      rfl

theorem pagesOk_of_lt : ∀ {cnt iterPg : ℕ}, (∀ i < cnt, iterPg + i * pgSize < physBase) →
    pagesOk cnt iterPg = true
  | 0, _, _ => rfl
  | cnt + 1, iterPg, h => by
    have h0 : iterPg < physBase := by simpa using h 0 (Nat.succ_pos cnt)
    have hrest : pagesOk cnt (iterPg + pgSize) = true := pagesOk_of_lt fun i hi => by
      have := h (i + 1) (by omega)
      rw [Nat.succ_mul] at this
      omega
    rw [pagesOk, hrest, Bool.and_true]
    simpa [accessOk] using h0

/-- The pages from that of `addr` to that of `last` are in user memory if `last` is. -/
theorem pagesOk_iff {addr last : ℕ} (hle : addr ≤ last) :
    pagesOk (pageCnt (pgRoundDown addr) (pgRoundDown last)) (pgRoundDown addr) = true ↔ last < physBase := by
  have hcnt : pageCnt (pgRoundDown addr) (pgRoundDown last) = last / pgSize - addr / pgSize + 1 := by
    unfold pageCnt pgRoundDown pgSize
    rw [if_pos (by omega)]
    omega
  rw [hcnt]
  constructor
  · intro h
    have hlast := pagesOk_spec h _ (Nat.lt_succ_self _)
    unfold pgRoundDown pgSize physBase at *
    omega
  · intro h
    refine pagesOk_of_lt fun i hi => ?_
    unfold pgRoundDown pgSize physBase at *
    omega

variable {uaddr length : ℕ}

/-- What the checks of `copy_from_user` let pass. -/
theorem from_checks_iff (hu : uaddr < 2 ^ 32) (h0 : 0 < length) (hl : length < 2 ^ 32) :
    (¬(uaddr + length) % 2 ^ 32 ≤ uaddr ∧
      pagesOk (pageCnt (pgRoundDown uaddr) (pgRoundDown ((uaddr + length + (2 ^ 32 - 1)) % 2 ^ 32)))
        (pgRoundDown uaddr) = true) ↔ uaddr + length ≤ physBase := by
  by_cases hwrap : uaddr + length < 2 ^ 32
  · have hlast : (uaddr + length + (2 ^ 32 - 1)) % 2 ^ 32 = uaddr + length - 1 := by omega
    rw [hlast, pagesOk_iff (by omega)]
    omega
  · have hphys : physBase < 2 ^ 32 := by decide
    constructor
    · rintro ⟨h, -⟩
      omega
    · intro h
      omega

/-- What the checks of `copy_to_user` let pass. -/
theorem to_checks_iff (hu : uaddr < 2 ^ 32) (h0 : 0 < length) (hl : length < 2 ^ 32) :
    (¬(uaddr + length) % 2 ^ 32 < uaddr ∧
      pagesOk (pageCnt (pgRoundDown uaddr) (pgRoundDown ((uaddr + length) % 2 ^ 32)))
        (pgRoundDown uaddr) = true) ↔ uaddr + length < physBase := by
  by_cases hwrap : uaddr + length < 2 ^ 32
  · have hlast : (uaddr + length) % 2 ^ 32 = uaddr + length := by omega
    rw [hlast, pagesOk_iff (by omega)]
    omega
  · have hphys : physBase < 2 ^ 32 := by decide
    constructor
    · rintro ⟨h, -⟩
      omega
    · intro h
      omega

/-! ### The copies -/

variable {ν κ : Type} {S : Services ν κ} {s : CallState ν κ}

/-- The access that writes a byte with faults allowed. -/
def touchTo (S : Services ν κ) (dst : ℕ) (vm : ν) : Except Stop ν :=
  if S.present vm dst true then .ok vm else S.vmHandleUserFault dst true vm

/-- The accesses that write `size` bytes from `dst` on with faults allowed. -/
def writeIn (S : Services ν κ) : (dst size : ℕ) → ν → Except Stop ν
  | _, 0, vm => .ok vm
  | dst, size + 1, vm => (touchTo S dst vm).bind (writeIn S ((dst + 1) % 2 ^ 32) size)

/-- Below the end of the address space the bytes are those of a slice. -/
theorem bytesAt_eq_slice (mem : ℕ → UInt8) : ∀ {size src : ℕ}, src + size < 2 ^ 32 →
    bytesAt mem src size = slice mem src size
  | 0, _, _ => rfl
  | size + 1, src, h => by
    have hnext : (src + 1) % 2 ^ 32 = src + 1 := by omega
    rw [bytesAt, hnext, slice_succ, bytesAt_eq_slice mem (by omega)]

/-- The stores of a copy to the user. -/
def storesTo : (dst : ℕ) → List UInt8 → List Store
  | _, [] => []
  | dst, byte :: bytes => ⟨dst, byte, true⟩ :: storesTo (dst + 1) bytes

theorem store_ends {dst : ℕ} {byte : UInt8} (hf : s.faultAllowed = true) : Ends (store S dst byte) s
    (fun _ t => ∃ vm, touchTo S dst s.vm = .ok vm ∧ t =
      { s with vm := vm, mem := Function.update s.mem dst byte, stores := s.stores ++ [⟨dst, byte, true⟩] })
    fun _ => ∃ stop, touchTo S dst s.vm = .error stop := by
  refine .bind (.modify (.bind (.bind (.get ?_))))
  unfold touchTo
  by_cases hp : S.present s.vm dst true = true
  · rw [if_pos hp, if_pos hp]
    exact .pure (.modify ⟨s.vm, rfl, by rw [hf]⟩)
  rw [if_neg hp, if_neg hp, if_pos hf]
  dsimp only
  rcases S.vmHandleUserFault dst true s.vm with stop | vm
  · exact .throw ⟨stop, rfl⟩
  · exact .set (.modify ⟨vm, rfl, by rw [hf]⟩)

theorem overlay_cons (mem : ℕ → UInt8) (dst : ℕ) (byte : UInt8) (bytes : List UInt8) :
    overlay mem dst (byte :: bytes) = overlay (Function.update mem dst byte) (dst + 1) bytes := by
  have hone : overlay mem dst [byte] = Function.update mem dst byte := by
    funext addr
    rw [Function.update_apply]
    unfold overlay
    split_ifs with hle heq heq
    · rw [heq, Nat.sub_self]
      rfl
    · rw [List.getElem?_eq_none (by simp only [List.length_singleton]; omega)]
      rfl
    · omega
    · rfl
  rw [← hone]
  exact overlay_append mem dst [byte] bytes

/-- **The copy to the user**, below the end of the address space: all bytes are stored, or a page fault ends the
process. -/
theorem storeBytes_ends : ∀ {bytes : List UInt8} {dst : ℕ} {s : CallState ν κ}, s.faultAllowed = true →
    dst + bytes.length < 2 ^ 32 → Ends (storeBytes S dst bytes) s
      (fun _ t => ∃ vm, writeIn S dst bytes.length s.vm = .ok vm ∧
        t = { s with vm := vm, mem := overlay s.mem dst bytes, stores := s.stores ++ storesTo dst bytes })
      fun _ => ∃ stop, writeIn S dst bytes.length s.vm = .error stop
  | [], dst, s, _, _ => .pure ⟨s.vm, rfl, by simp [storesTo]⟩
  | byte :: bytes, dst, s, hf, hwrap => by
    have hnext : (dst + 1) % 2 ^ 32 = dst + 1 := by
      rw [List.length_cons] at hwrap
      omega
    refine .bind ((store_ends hf).mono (fun _ t ht => ?_) fun _ hstop => ?_)
    · obtain ⟨vm, htouch, rfl⟩ := ht
      have hwrite : writeIn S dst (byte :: bytes).length s.vm = writeIn S (dst + 1) bytes.length vm := by
        rw [List.length_cons, writeIn, htouch, hnext]
        rfl
      rw [hwrite, hnext]
      refine (storeBytes_ends (by exact hf) (by rw [List.length_cons] at hwrap; omega)).mono
        (fun _ t ht => ?_) fun _ h => h
      obtain ⟨vm', hrest, rfl⟩ := ht
      refine ⟨vm', hrest, ?_⟩
      rw [overlay_cons]
      simp [storesTo]
    · obtain ⟨stop, htouch⟩ := hstop
      exact ⟨stop, by rw [List.length_cons, writeIn, htouch]; rfl⟩

/-! ### What the functions should do -/

/-- `copy_from_user` on a range that it should copy: it returns all the bytes, or a page fault in the range ends
the process. -/
def CopiesFrom (S : Services ν κ) (s : CallState ν κ) (uaddr length : ℕ) : Prop :=
  Ends (copyFromUser S uaddr length) s
    (fun r t => r = some (slice s.mem uaddr length) ∧ ∃ vm, readIn S uaddr length s.vm = .ok vm ∧
      t = { s with vm := vm, faultAllowed := false })
    fun _ => ∃ stop, readIn S uaddr length s.vm = .error stop

/-- `copy_to_user` on such a range: it stores all the bytes there and nothing else, or a page fault in the range
ends the process. -/
def CopiesTo (S : Services ν κ) (s : CallState ν κ) (uaddr : ℕ) (bytes : List UInt8) : Prop :=
  Ends (copyToUser S uaddr bytes) s
    (fun r t => r = true ∧ ∃ vm, writeIn S uaddr bytes.length s.vm = .ok vm ∧
      t = { s with vm := vm, mem := overlay s.mem uaddr bytes, faultAllowed := false,
                   stores := s.stores ++ storesTo uaddr bytes })
    fun _ => ∃ stop, writeIn S uaddr bytes.length s.vm = .error stop

/-- `-1`, with nothing copied. -/
def Refuses {α : Type} (m : Sys ν κ α) (s : CallState ν κ) (failed : α) : Prop :=
  Ends m s (fun r t => r = failed ∧ t = { s with faultAllowed := false }) fun _ => False

/-- **The law of `copy_from_user`.** -/
def FromLaw (uaddr length : ℕ) : Prop :=
  (∃ fuel, pageLoop (pgRoundDown ((uaddr + length + (2 ^ 32 - 1)) % 2 ^ 32)) fuel (pgRoundDown uaddr) ≠ none) ∧
    ∀ (ν κ : Type) (S : Services ν κ) (s : CallState ν κ),
      if uaddr + length ≤ physBase then CopiesFrom S s uaddr length
      else Refuses (copyFromUser S uaddr length) s none

/-- **The law of `copy_to_user`.** -/
def ToLaw (uaddr length : ℕ) : Prop :=
  (∃ fuel, pageLoop (pgRoundDown ((uaddr + length) % 2 ^ 32)) fuel (pgRoundDown uaddr) ≠ none) ∧
    ∀ (ν κ : Type) (S : Services ν κ) (s : CallState ν κ) (bytes : List UInt8), bytes.length = length →
      if uaddr + length ≤ physBase then CopiesTo S s uaddr bytes
      else Refuses (copyToUser S uaddr bytes) s false

theorem loop_ends (addr last : ℕ) : ∃ fuel, pageLoop (pgRoundDown last) fuel (pgRoundDown addr) ≠ none := by
  have hd : ∀ a, pgSize ∣ pgRoundDown a := fun a => Dvd.intro_left (a / pgSize) rfl
  refine ⟨pageCnt (pgRoundDown addr) (pgRoundDown last) + 1, ?_⟩
  rw [pageLoop_eq (hd last) (hd addr) (Nat.lt_succ_self _)]
  exact Option.some_ne_none _

/-! ### When they do -/

/-- `copy_from_user` on a range that its checks let pass. -/
theorem copiesFrom_of (hu : uaddr < 2 ^ 32) (h0 : 0 < length) (hl : length < 2 ^ 32)
    (hle : uaddr + length ≤ physBase) (hnull : uaddr ≠ 0) : CopiesFrom S s uaddr length := by
  obtain ⟨hwrap, hpages⟩ := (from_checks_iff hu h0 hl).mpr hle
  have hphys : physBase < 2 ^ 32 := by decide
  refine .bind (.modify (.ite (fun h => absurd h hwrap) fun _ => .ite (fun h => absurd hpages h) fun _ => ?_))
  refine .bind (.bind (.ite (fun _ => .pure ?_) fun h => absurd (by simp [hnull]) h))
  refine (loadBytes_spec rfl).mono (fun bytes t ht => ?_) fun t ht => ht.1
  obtain ⟨vm, hread, rfl, rfl⟩ := ht
  refine .bind (.modify (.pure ⟨?_, vm, hread, rfl⟩))
  rw [bytesAt_eq_slice s.mem (by omega)]

theorem refuses_from (hu : uaddr < 2 ^ 32) (h0 : 0 < length) (hl : length < 2 ^ 32)
    (hgt : ¬uaddr + length ≤ physBase) : Refuses (copyFromUser S uaddr length) s none := by
  have hchecks := mt (from_checks_iff hu h0 hl).mp hgt
  refine .bind (.modify (.ite (fun _ => .bind (.modify (.pure ⟨rfl, rfl⟩))) fun hwrap => ?_))
  refine .ite (fun _ => .bind (.modify (.pure ⟨rfl, rfl⟩))) fun hpages => ?_
  exact absurd ⟨hwrap, not_not.mp hpages⟩ hchecks

/-- `copy_to_user` on a range that its checks let pass. -/
theorem copiesTo_of {bytes : List UInt8} (hu : uaddr < 2 ^ 32) (h0 : 0 < bytes.length)
    (hl : bytes.length < 2 ^ 32) (hlt : uaddr + bytes.length < physBase) (hnull : uaddr ≠ 0) :
    CopiesTo S s uaddr bytes := by
  obtain ⟨hwrap, hpages⟩ := (to_checks_iff hu h0 hl).mpr hlt
  have hphys : physBase < 2 ^ 32 := by decide
  refine .bind (.modify (.ite (fun h => absurd h hwrap) fun _ => .ite (fun h => absurd hpages h) fun _ => ?_))
  refine .bind (.bind (.ite (fun _ => .pure ?_) fun h => absurd (by simp [hnull]) h))
  refine (storeBytes_ends rfl (by omega)).mono (fun _ t ht => ?_) fun t ht => ht
  obtain ⟨vm, hwrite, rfl⟩ := ht
  exact .bind (.modify (.pure ⟨rfl, vm, hwrite, rfl⟩))

theorem refuses_to {bytes : List UInt8} (hu : uaddr < 2 ^ 32) (h0 : 0 < bytes.length)
    (hl : bytes.length < 2 ^ 32) (hge : ¬uaddr + bytes.length < physBase) :
    Refuses (copyToUser S uaddr bytes) s false := by
  have hchecks := mt (to_checks_iff hu h0 hl).mp hge
  refine .bind (.modify (.ite (fun _ => .bind (.modify (.pure ⟨rfl, rfl⟩))) fun hwrap => ?_))
  refine .ite (fun _ => .bind (.modify (.pure ⟨rfl, rfl⟩))) fun hpages => ?_
  exact absurd ⟨hwrap, not_not.mp hpages⟩ hchecks

/-! ### When they do not -/

theorem readIn_of_present (hp : ∀ vm addr, S.present vm addr false = true) : ∀ (size src : ℕ) (vm : ν),
    readIn S src size vm = .ok vm
  | 0, _, _ => rfl
  | size + 1, src, vm => by
    have htouch : touch S src vm = .ok vm := if_pos (hp vm src)
    rw [readIn, htouch]
    exact readIn_of_present hp size _ vm

theorem writeIn_of_present (hp : ∀ vm addr, S.present vm addr true = true) : ∀ (size dst : ℕ) (vm : ν),
    writeIn S dst size vm = .ok vm
  | 0, _, _ => rfl
  | size + 1, dst, vm => by
    have htouch : touchTo S dst vm = .ok vm := if_pos (hp vm dst)
    rw [writeIn, htouch]
    exact writeIn_of_present hp size _ vm

/-- The assertion of `memcpy` on its source. -/
theorem from_null (h0 : 0 < length) (hle : length ≤ physBase) :
    Ends (copyFromUser S 0 length) s (fun _ _ => False) fun _ => True := by
  have hphys : physBase < 2 ^ 32 := by decide
  obtain ⟨hwrap, hpages⟩ := (from_checks_iff (by omega : 0 < 2 ^ 32) h0 (by omega)).mpr
    ((Nat.zero_add length).symm ▸ hle)
  refine .bind (.modify (.ite (fun h => absurd h hwrap) fun _ => .ite (fun h => absurd hpages h) fun _ => ?_))
  exact .bind (.bind (.ite (fun h => absurd h (by simp; omega)) fun _ => .throw trivial))

/-- The assertion of `memcpy` on its destination. -/
theorem to_null {bytes : List UInt8} (h0 : 0 < bytes.length) (hlt : bytes.length < physBase) :
    Ends (copyToUser S 0 bytes) s (fun _ _ => False) fun _ => True := by
  have hphys : physBase < 2 ^ 32 := by decide
  obtain ⟨hwrap, hpages⟩ := (to_checks_iff (by omega : 0 < 2 ^ 32) h0 (by omega)).mpr
    ((Nat.zero_add bytes.length).symm ▸ hlt)
  refine .bind (.modify (.ite (fun h => absurd h hwrap) fun _ => .ite (fun h => absurd hpages h) fun _ => ?_))
  have hne : bytes ≠ [] := List.ne_nil_of_length_pos h0
  exact .bind (.bind (.ite (fun h => absurd h (by simp [hne])) fun _ => .throw trivial))

theorem not_copiesFrom_null (h0 : 0 < length) (hle : length ≤ physBase) (s : CallState Unit (List DirEntry)) :
    ¬CopiesFrom oneDirectory s 0 length := by
  intro h
  refine ((h.and (from_null h0 hle)).mono (fun _ _ h => h.2) fun _ h => ?_).elim
  obtain ⟨stop, hstop⟩ := h.1
  rw [readIn_of_present fun _ _ => rfl] at hstop
  cases hstop

theorem not_copiesTo_null {bytes : List UInt8} (h0 : 0 < bytes.length) (hlt : bytes.length < physBase)
    (s : CallState Unit (List DirEntry)) : ¬CopiesTo oneDirectory s 0 bytes := by
  intro h
  refine ((h.and (to_null h0 hlt)).mono (fun _ _ h => h.2) fun _ h => ?_).elim
  obtain ⟨stop, hstop⟩ := h.1
  rw [writeIn_of_present fun _ _ => rfl] at hstop
  cases hstop

/-- A range that ends at `PHYS_BASE` is refused. -/
theorem not_copiesTo_top {bytes : List UInt8} (hu : uaddr < 2 ^ 32) (h0 : 0 < bytes.length)
    (htop : uaddr + bytes.length = physBase) : ¬CopiesTo S s uaddr bytes := by
  have hphys : physBase < 2 ^ 32 := by decide
  intro h
  have hrefuses := refuses_to (S := S) (s := s) hu h0 (by omega) (by omega)
  refine ((h.and hrefuses).mono (fun _ _ h => ?_) fun _ h => h.2).elim
  exact Bool.noConfusion (h.1.1.symm.trans h.2.1)

/-- `copy_from_user` keeps its law unless it is to copy from the null pointer. -/
theorem fromLaw_iff (hu : uaddr < 2 ^ 32) (h0 : 0 < length) (hl : length < 2 ^ 32) :
    FromLaw uaddr length ↔ (uaddr = 0 → physBase < length) := by
  constructor
  · rintro ⟨-, hlaw⟩ rfl
    by_contra hle
    have hcopies := hlaw Unit (List DirEntry) oneDirectory readdirState
    rw [if_pos (by omega)] at hcopies
    exact not_copiesFrom_null h0 (by omega) readdirState hcopies
  · intro hnull
    refine ⟨loop_ends _ _, fun ν κ S s => ?_⟩
    split_ifs with hle
    · exact copiesFrom_of hu h0 hl hle fun h => by have := hnull h; omega
    · exact refuses_from hu h0 hl hle

/-- `copy_to_user` also does not copy to a range that ends at `PHYS_BASE`. -/
theorem toLaw_iff (hu : uaddr < 2 ^ 32) (h0 : 0 < length) (hl : length < 2 ^ 32) :
    ToLaw uaddr length ↔ (uaddr = 0 → physBase < length) ∧ uaddr + length ≠ physBase := by
  constructor
  · rintro ⟨-, hlaw⟩
    have hcopies : uaddr + length ≤ physBase →
        CopiesTo oneDirectory readdirState uaddr (List.replicate length 0) := by
      intro hle
      have := hlaw Unit (List DirEntry) oneDirectory readdirState (List.replicate length 0) List.length_replicate
      rwa [if_pos hle] at this
    have htop : uaddr + length ≠ physBase := fun htop =>
      not_copiesTo_top hu (by rwa [List.length_replicate]) (by rwa [List.length_replicate]) (hcopies htop.le)
    refine ⟨?_, htop⟩
    rintro rfl
    by_contra hle
    have hlt : length < physBase := by omega
    rw [← List.length_replicate (n := length) (a := (0 : UInt8))] at h0 hlt
    exact not_copiesTo_null h0 hlt readdirState (hcopies (by omega))
  · rintro ⟨hnull, htop⟩
    refine ⟨loop_ends _ _, ?_⟩
    rintro ν κ S s bytes rfl
    split_ifs with hle
    · exact copiesTo_of hu h0 hl (by omega) fun h => by have := hnull h; omega
    · exact refuses_to hu h0 hl (by omega)

/-- **When the bounds of both copies are right.** The loops end, and each function copies exactly the ranges that
end at `PHYS_BASE` or below and refuses all others: for the ranges that do not end at `PHYS_BASE` itself, and
with the null pointer only when the length alone is too large. -/
theorem bounds_iff (hu : uaddr < 2 ^ 32) (h0 : 0 < length) (hl : length < 2 ^ 32) :
    FromLaw uaddr length ∧ ToLaw uaddr length ↔
      uaddr + length ≠ physBase ∧ (uaddr = 0 → physBase < length) := by
  rw [fromLaw_iff hu h0 hl, toLaw_iff hu h0 hl]
  constructor
  · rintro ⟨-, hnull, htop⟩
    exact ⟨htop, hnull⟩
  · rintro ⟨htop, hnull⟩
    exact ⟨hnull, hnull, htop⟩

/-- Some bytes of the first page of a program. -/
theorem bounds_iff_code : FromLaw 0x08048000 100 ∧ ToLaw 0x08048000 100 ↔
    0x08048000 + 100 ≠ physBase ∧ (0x08048000 = 0 → physBase < 100) :=
  bounds_iff (by decide) (by decide) (by decide)

/-- `copy_to_user` refuses the last page of user memory, the stack page. -/
theorem not_bounds : ¬∀ uaddr length : ℕ, uaddr < 2 ^ 32 → 0 < length → length < 2 ^ 32 →
    FromLaw uaddr length ∧ ToLaw uaddr length := by
  intro h
  have hto := (h 0xbffff000 4096 (by decide) (by decide) (by decide)).2
  exact ((toLaw_iff (by decide) (by decide) (by decide)).mp hto).2 (by decide)

end Pintos.Userprog.CopyBounds
