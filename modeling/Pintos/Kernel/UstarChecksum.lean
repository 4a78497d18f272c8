import Pintos.Kernel.Ustar

/-! # Corrupted archive headers

What the checksum of `lib/ustar.c` is for: a header with one wrong byte is not parsed. The checksum is a sum,
which one changed byte changes; the end of the archive is 512 null bytes, which is two bytes at least away from
a header with the magic string. -/

namespace Pintos.Kernel.Ustar

open Pintos.Lib.Overlay

variable {h h' : Header} {p : ℕ} {parsed : Parsed}

/-- The byte `p` is in the checksum field. -/
def InChksum (p : ℕ) : Prop := Field.chksum.ofs ≤ p ∧ p < Field.chksum.ofs + Field.chksum.size

/-- `h'` differs from `h` in the byte `p` of the header and in no other. -/
structure DiffersAt (h h' : Header) (p : ℕ) : Prop where
  lt : p < headerSize
  ne : h' p ≠ h p
  eq : ∀ q < headerSize, q ≠ p → h' q = h q

/-- What the byte `p` counts in the checksum. -/
def summand (h : Header) (p : ℕ) : ℕ :=
  if Field.chksum.ofs ≤ p ∧ p < Field.chksum.ofs + Field.chksum.size then 32 else (h p).toNat

theorem calculateChksum_eq_sum (h : Header) : calculateChksum h = ∑ q ∈ Finset.range headerSize, summand h q := rfl

theorem summand_of_not_inChksum (hp : ¬InChksum p) : summand h p = (h p).toNat := if_neg hp

/-- **One changed byte changes the checksum.** -/
theorem calculateChksum_ne (hdiff : DiffersAt h h' p) (hp : ¬InChksum p) :
    calculateChksum h' ≠ calculateChksum h := by
  have hmem : p ∈ Finset.range headerSize := Finset.mem_range.mpr hdiff.lt
  have hrest : ∑ q ∈ (Finset.range headerSize).erase p, summand h' q = ∑ q ∈ (Finset.range headerSize).erase p,
    summand h q := by
    refine Finset.sum_congr rfl fun q hq => ?_
    obtain ⟨hne, hq⟩ := Finset.mem_erase.mp hq
    rw [summand, summand, hdiff.eq q (Finset.mem_range.mp hq) hne]
  rw [calculateChksum_eq_sum, calculateChksum_eq_sum, ← Finset.add_sum_erase _ _ hmem,
    ← Finset.add_sum_erase _ (summand h) hmem, hrest, summand_of_not_inChksum hp, summand_of_not_inChksum hp]
  exact fun heq => hdiff.ne (UInt8.toNat_inj.mp (Nat.add_right_cancel heq))

/-- **What is accepted** is the end of the archive, or has the magic string and the right checksum. -/
theorem accepted_of_ustarParseHeader (hok : ustarParseHeader h = .ok parsed) :
    (∀ q < headerSize, h q = 0) ∧ parsed.type = .eof ∨
      Field.magic.bytes h = ustar ++ [0] ∧ parseOctalField (Field.chksum.bytes h) = some (calculateChksum h) := by
  unfold ustarParseHeader at hok
  by_cases hzero : (slice h 0 headerSize).all (· = 0) = true
  · rw [if_pos hzero] at hok
    obtain rfl := Except.ok.inj hok
    rw [List.all_eq_true] at hzero
    exact Or.inl ⟨fun q hq => of_decide_eq_true (hzero _ (mem_slice.mpr ⟨q, by omega, rfl⟩)), rfl⟩
  rw [if_neg hzero] at hok
  by_cases hmagic : Field.magic.bytes h = ustar ++ [0]
  · refine Or.inr ⟨hmagic, ?_⟩
    rw [if_neg (not_not_intro hmagic)] at hok
    by_cases hversion : h Field.version.ofs ≠ 48 ∨ h (Field.version.ofs + 1) ≠ 48
    · rw [if_pos hversion] at hok
      cases hok
    rw [if_neg hversion] at hok
    cases hchksum : parseOctalField (Field.chksum.bytes h) with
    | none => simp [hchksum] at hok
    | some chksum =>
      by_cases hsum : chksum = calculateChksum h
      · rw [hsum]
      · simp [hchksum, hsum] at hok
  · rw [if_pos hmagic] at hok
    cases hok

/-- The first bytes of the magic string are not null. -/
theorem ne_zero_of_magic (hmagic : Field.magic.bytes h = ustar ++ [0]) : h 257 ≠ 0 ∧ h 258 ≠ 0 := by
  have hbytes : [h 257, h 258, h 259, h 260, h 261, h 262] = [117, 115, 116, 97, 114, 0] := hmagic
  simp only [List.cons.injEq] at hbytes
  rw [hbytes.1, hbytes.2.1]
  decide

/-- **A header with the magic string** does not become the end of the archive by one byte. -/
theorem not_zeros_of_magic (hmagic : Field.magic.bytes h = ustar ++ [0]) (hdiff : DiffersAt h h' p) :
    ¬∀ q < headerSize, h' q = 0 := by
  intro hzero
  obtain ⟨h1, h2⟩ := ne_zero_of_magic hmagic
  have hsame : ∀ q < headerSize, h q ≠ 0 → q = p := fun q hq hne =>
    by_contra fun hqp => hne ((hdiff.eq q hq hqp).symm.trans (hzero q hq))
  have heq := (hsame 257 (by decide) h1).trans (hsame 258 (by decide) h2).symm
  omega

/-- **One wrong byte is detected**: a header that is one byte away from an accepted one, outside its checksum
field, is not parsed. -/
theorem ustarParseHeader_of_differsAt (hok : ustarParseHeader h = .ok parsed) (htype : parsed.type ≠ .eof)
    (hdiff : DiffersAt h h' p) (hp : ¬InChksum p) : ∃ message, ustarParseHeader h' = .error message := by
  obtain ⟨hmagic, hchksum⟩ := (accepted_of_ustarParseHeader hok).resolve_left fun hzero => htype hzero.2
  cases hparse : ustarParseHeader h' with
  | error message => exact ⟨message, rfl⟩
  | ok parsed' =>
    rcases accepted_of_ustarParseHeader hparse with ⟨hzero, -⟩ | ⟨-, hchksum'⟩
    · exact absurd hzero (not_zeros_of_magic hmagic hdiff)
    · have hfield : Field.chksum.bytes h' = Field.chksum.bytes h := slice_congr fun q hq hqn =>
        hdiff.eq q (hqn.trans (by decide)) fun hqp => hp (hqp ▸ ⟨hq, hqn⟩)
      rw [hfield, hchksum] at hchksum'
      exact absurd (Option.some.inj hchksum').symm (calculateChksum_ne hdiff hp)

/-- The file `a` of ten bytes, its name changed to `b`. -/
theorem ustarParseHeader_of_differsAt_a :
    ∃ message, ustarParseHeader (Function.update (madeHeader (fun _ => 0) [97] .regular 10) 0 98) = .error message :=
  have hok : ustarParseHeader (madeHeader (fun _ => 0) [97] .regular 10) = .ok ⟨_, .regular, _⟩ :=
    ustarParseHeader_madeHeader (by decide) (by decide) (by decide) (by decide)
  ustarParseHeader_of_differsAt (p := 0) hok (by decide)
    ⟨by decide, by decide +kernel, fun _ _ hq => Function.update_of_ne hq _ _⟩ (by unfold InChksum; decide)

end Pintos.Kernel.Ustar
