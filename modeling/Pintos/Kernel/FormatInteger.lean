import Mathlib.Data.List.DropRight
import Mathlib.Data.List.GetD
import Pintos.Kernel.Printf

/-! # What format_integer writes

The buffer of `format_integer` always suffices, and what is written can be read back: `digitString` drops the
padding, the sign, the prefix and the commas, and `readDigits` reads what is left. The number of characters that a
number needs is a formula (`needed`); the field width decides how many more there are. -/

namespace Pintos.Kernel.FormatInteger

open Pintos.Kernel.Printf

variable {format : List Char} {args : List (BitVec 32)} {spec : Spec} {rest : List Char × List (BitVec 32)}
  {b : IntegerBase} {group : Bool} {value n cnt fuel : ℕ} {buf l : List Char} {precision : ℤ}

/-! ### Reading back -/

/-- The number that digits stand for. -/
def readDigits (b : IntegerBase) (s : List Char) : Option ℕ :=
  s.foldlM (fun v c => (b.digits.idxOf? c).map fun d => v * b.base + d) 0

/-- The digits of what is written: without padding, sign, prefix and commas. -/
def digitString (b : IntegerBase) (out : List Char) : List Char :=
  let s := (out.dropWhile (· = ' ')).rdropWhile (· = ' ')
  let s := if s.head? = some '-' ∨ s.head? = some '+' then s.tail else s
  let s := if b.base = 16 ∧ (s.take 2 = ['0', 'x'] ∨ s.take 2 = ['0', 'X']) then s.drop 2 else s
  s.filter (· ≠ ',')

/-! ### Digits -/

theorem digit_mem (b : IntegerBase) (n : ℕ) : b.digit n ∈ b.digits := by
  rcases Nat.lt_or_ge n b.digits.length with h | h
  · rw [IntegerBase.digit, List.getD_eq_getElem _ _ h]
    exact List.getElem_mem h
  · rw [IntegerBase.digit, List.getD_eq_default _ _ h]
    cases b <;> decide

/-- A digit is nothing else. -/
theorem digit_ne {c : Char} (hc : c ∈ b.digits) : c ≠ ' ' ∧ c ≠ ',' ∧ c ≠ '-' ∧ c ≠ '+' ∧ c ≠ 'x' ∧ c ≠ 'X' := by
  have hall : b.digits.all fun c => c != ' ' && c != ',' && c != '-' && c != '+' && c != 'x' && c != 'X' := by
    cases b <;> rfl
  simpa [and_assoc] using List.all_eq_true.mp hall c hc

theorem idxOf?_digit (hn : n < b.base) : b.digits.idxOf? (b.digit n) = some n := by
  have hall : ∀ n < b.base, b.digits.idxOf? (b.digit n) = some n := by cases b <;> decide
  exact hall n hn

theorem digit_eq_zero_iff (hn : n < b.base) : b.digit n = '0' ↔ n = 0 := by
  have hall : ∀ n < b.base, b.digit n = '0' ↔ n = 0 := by cases b <;> decide
  exact hall n hn

theorem base_range (b : IntegerBase) : 8 ≤ b.base ∧ b.base ≤ 16 := by cases b <;> decide

theorem one_lt_base (b : IntegerBase) : 1 < b.base := by cases b <;> decide

/-- **Digits are read back**, most significant first. -/
theorem readDigits_map : ∀ {ds : List ℕ}, (∀ d ∈ ds, d < b.base) →
    readDigits b (ds.map b.digit).reverse = some (Nat.ofDigits b.base ds)
  | [], _ => rfl
  | d :: ds, h => by
    obtain ⟨hd, hds⟩ := List.forall_mem_cons.mp h
    have hrest : List.foldlM (fun v c => (b.digits.idxOf? c).map fun d => v * b.base + d) 0 (ds.map b.digit).reverse =
        some (Nat.ofDigits b.base ds) := readDigits_map hds
    rw [readDigits, List.map_cons, List.reverse_cons, List.foldlM_append, hrest, Option.bind_eq_bind,
      Option.bind_some, List.foldlM_cons, idxOf?_digit hd, Option.map_some, Option.bind_eq_bind, Option.bind_some,
      List.foldlM_nil, Nat.ofDigits_cons, Nat.mul_comm, Nat.add_comm]
    rfl

/-- A number of 64 bits has 22 digits at most. -/
theorem length_digits_le (b : IntegerBase) (h : value < 2 ^ 64) : (Nat.digits b.base value).length ≤ 22 := by
  rw [Nat.digits_length_le_iff (one_lt_base b)]
  calc value < 2 ^ 64 := h
    _ ≤ 8 ^ 22 := by norm_num
    _ ≤ b.base ^ 22 := Nat.pow_le_pow_left (base_range b).1 22

/-! ### The buffer -/

theorem store_of_lt {c : Char} (h : buf.length < 64) : store buf c = some (buf ++ [c]) := if_pos h

/-- The commas between `n` digits. -/
def commas (b : IntegerBase) (group : Bool) (n : ℕ) : ℕ := if group then (n - 1) / b.group else 0

theorem commas_le (b : IntegerBase) (group : Bool) : commas b group n ≤ (n - 1) / 3 := by
  unfold commas
  split_ifs
  · exact Nat.div_le_div_left (by cases b <;> decide) (by decide)
  · exact Nat.zero_le _

/-- What the loop over the digits appends: the digits of `value`, with commas between them. -/
structure Digits (b : IntegerBase) (group : Bool) (value cnt : ℕ) (l : List Char) : Prop where
  chars : ∀ c ∈ l, c = ',' ∨ c ∈ b.digits
  filter : l.filter (· ≠ ',') = (Nat.digits b.base value).map b.digit
  length : l.length + commas b group cnt =
    (Nat.digits b.base value).length + commas b group (cnt + (Nat.digits b.base value).length)
  last : l.getLast? = ((Nat.digits b.base value).map b.digit).getLast?

/-- The comma before a digit. -/
theorem comma_eq (b : IntegerBase) (group : Bool) (cnt : ℕ) (hbuf : buf.length < 64) :
    ∃ sep : List Char, (if group ∧ 0 < cnt ∧ cnt % b.group = 0 then store buf ',' else some buf) = some (buf ++ sep) ∧
      (∀ c ∈ sep, c = ',') ∧ sep.length ≤ 1 ∧ sep.length + commas b group cnt = commas b group (cnt + 1) := by
  by_cases hcomma : group ∧ 0 < cnt ∧ cnt % b.group = 0
  · refine ⟨[','], by rw [if_pos hcomma, store_of_lt hbuf], by simp, le_rfl, ?_⟩
    obtain ⟨hgroup, hpos, hmod⟩ := hcomma
    rw [commas, commas, if_pos hgroup, if_pos hgroup, List.length_singleton, Nat.add_sub_cancel]
    cases b <;> simp only [IntegerBase.group] at hmod ⊢ <;> omega
  · refine ⟨[], by rw [if_neg hcomma, List.append_nil], by simp, Nat.zero_le 1, ?_⟩
    rw [commas, commas, List.length_nil, Nat.zero_add]
    split_ifs with hgroup
    · have hnot : ¬(0 < cnt ∧ cnt % b.group = 0) := fun h => hcomma ⟨hgroup, h⟩
      cases b <;> simp only [IntegerBase.group] at hnot ⊢ <;> omega
    · rfl

/-- **The loop over the digits** fits into the buffer. -/
theorem digitLoop_eq (b : IntegerBase) (group : Bool) :
    ∀ (fuel value cnt : ℕ) (buf : List Char), (Nat.digits b.base value).length < fuel →
    buf.length + 2 * (Nat.digits b.base value).length ≤ 64 →
    ∃ l, digitLoop b group fuel value cnt buf = some (buf ++ l) ∧ Digits b group value cnt l
  | fuel + 1, 0, cnt, buf, _, _ =>
    ⟨[], by rw [digitLoop, if_neg (lt_irrefl 0), List.append_nil], by simp, by simp, by simp, by simp⟩
  | fuel + 1, value + 1, cnt, buf, hfuel, hbuf => by
    have hdigits := Nat.digits_def' (one_lt_base b) (Nat.succ_pos value)
    set rest := (value + 1) / b.base with hrest
    set low := b.digit ((value + 1) % b.base) with hlow
    rw [hdigits, List.length_cons] at hfuel hbuf
    obtain ⟨sep, hsep, hcommas, hone, hcount⟩ := comma_eq b group cnt (show buf.length < 64 by omega)
    have hlen : (buf ++ sep ++ [low]).length = buf.length + sep.length + 1 := by
      rw [List.length_append, List.length_append, List.length_singleton]
    obtain ⟨l, hloop, hl⟩ := digitLoop_eq b group fuel rest (cnt + 1) (buf ++ sep ++ [low]) (by omega) (by omega)
    refine ⟨sep ++ [low] ++ l, ?_, ?_⟩
    · rw [digitLoop, if_pos (Nat.succ_pos value), hsep, Option.bind_some, ← hlow, ← hrest,
        store_of_lt (by rw [List.length_append]; omega), Option.bind_some, hloop, List.append_assoc,
        List.append_assoc, List.append_assoc]
    · have hmem := digit_mem b ((value + 1) % b.base)
      have hnil : sep.filter (· ≠ ',') = [] := List.filter_eq_nil_iff.mpr fun c hc => by simp [hcommas c hc]
      refine ⟨fun c hc => ?_, ?_, ?_, ?_⟩
      · rcases List.mem_append.mp hc with hc | hc
        · rcases List.mem_append.mp hc with hc | hc
          · exact Or.inl (hcommas c hc)
          · rw [List.mem_singleton.mp hc]
            exact Or.inr hmem
        · exact hl.chars c hc
      · rw [List.filter_append, List.filter_append, hnil, List.nil_append, hl.filter, hdigits, List.map_cons,
          List.filter_cons_of_pos (by simpa using (digit_ne hmem).2.1), List.filter_nil, List.singleton_append]
      · have hlength := hl.length
        rw [hdigits, List.length_cons, List.length_append, List.length_append, List.length_singleton,
          show cnt + ((Nat.digits b.base rest).length + 1) = cnt + 1 + (Nat.digits b.base rest).length by omega]
        omega
      · rw [List.getLast?_append, hl.last, List.getLast?_concat, hdigits, List.map_cons, ← List.singleton_append,
          List.getLast?_append, List.getLast?_singleton]

/-- The precision that is rendered. -/
def rendered (precision : ℤ) : ℕ := if precision < 0 then 1 else (min precision 63).toNat

/-- **The loop over the zeros** fills up to the precision, and never the last character of `buf`. -/
theorem zerosLoop_eq (precision : ℤ) : ∀ (fuel : ℕ) (buf : List Char), buf.length ≤ 63 → 63 - buf.length < fuel →
    zerosLoop precision fuel buf = some (buf ++ List.replicate ((min precision 63).toNat - buf.length) '0')
  | fuel + 1, buf, hbuf, hfuel => by
    rw [zerosLoop]
    split_ifs with hmore
    · have hlen : (buf ++ ['0']).length = buf.length + 1 := by rw [List.length_append, List.length_singleton]
      rw [store_of_lt (by omega), Option.bind_some, zerosLoop_eq precision fuel (buf ++ ['0']) (by omega) (by omega),
        hlen, List.append_assoc, List.singleton_append, ← List.replicate_succ,
        show (min precision 63).toNat - (buf.length + 1) + 1 = (min precision 63).toNat - buf.length by omega]
    · rw [show (min precision 63).toNat - buf.length = 0 by omega, List.replicate_zero, List.append_nil]

/-- The top digit is no zero. -/
theorem Digits.getLast?_ne (h : Digits b group value cnt l) : l.getLast? ≠ some '0' := by
  rw [h.last]
  rcases Nat.eq_zero_or_pos value with rfl | hpos
  · simp
  · have hnil : Nat.digits b.base value ≠ [] := Nat.digits_ne_nil_iff_ne_zero.mpr hpos.ne'
    rw [List.getLast?_map, List.getLast?_eq_some_getLast hnil, Option.map_some]
    intro htop
    have hlt := Nat.digits_lt_base (one_lt_base b) (List.getLast_mem hnil)
    exact Nat.getLast_digit_ne_zero b.base hpos.ne' ((digit_eq_zero_iff hlt).mp (Option.some.inj htop))

/-- The zeros above the digits: up to the precision, and one for `#` in an octal conversion that has none. -/
def zeros (b : IntegerBase) (pound : Bool) (precision : ℤ) (n : ℕ) : ℕ :=
  (rendered precision - n) + if pound ∧ b.base = 8 ∧ rendered precision ≤ n then 1 else 0

/-- **What is accumulated in `buf`**: the digits, and zeros above them. -/
theorem fillBuffer_eq (value : BitVec 64) (b : IntegerBase) (c : Conversion) :
    ∃ l, Digits b c.flags.group value.toNat 0 l ∧ l.length ≤ 29 ∧
      fillBuffer value b c = some (l ++ List.replicate (zeros b c.flags.pound c.precision l.length) '0') := by
  have hcnt := length_digits_le b value.isLt
  obtain ⟨l, hloop, hl⟩ :=
    digitLoop_eq b c.flags.group 65 value.toNat 0 [] (by omega)
      (show 0 + 2 * (Nat.digits b.base value.toNat).length ≤ 64 by omega)
  have hlen : l.length ≤ 29 := by
    have hlength := hl.length
    rw [Nat.zero_add] at hlength
    have hcommas := commas_le b c.flags.group (n := (Nat.digits b.base value.toNat).length)
    omega
  refine ⟨l, hl, hlen, ?_⟩
  have hrendered : (min (if c.precision < 0 then 1 else c.precision) 63).toNat = rendered c.precision := by
    unfold rendered
    split_ifs <;> rfl
  rw [fillBuffer, hloop, Option.bind_some, List.nil_append, zerosLoop_eq _ 64 l (by omega) (by omega),
    Option.bind_some, hrendered, zeros]
  rcases Nat.lt_or_ge l.length (rendered c.precision) with hlt | hge
  · -- a zero is on top
    have htop : (l ++ List.replicate (rendered c.precision - l.length) '0').getLast? = some '0' := by
      rw [List.getLast?_append, List.getLast?_replicate, if_neg (by omega), Option.some_or]
    rw [if_neg (fun h => h.2.2 htop), if_neg (fun h => absurd h.2.2 (by omega)), Nat.add_zero]
  · rw [Nat.sub_eq_zero_of_le hge, List.replicate_zero, List.append_nil]
    by_cases hpound : c.flags.pound ∧ b.base = 8
    · rw [if_pos ⟨hpound.1, hpound.2, hl.getLast?_ne⟩, if_pos ⟨hpound.1, hpound.2, hge⟩, store_of_lt (by omega)]
      rfl
    · rw [if_neg (fun h => hpound ⟨h.1, h.2.1⟩), if_neg (fun h => hpound ⟨h.1, h.2.1⟩), List.replicate_zero,
        List.append_nil]

/-! ### What is left without padding, sign, prefix and commas -/

theorem dropWhile_replicate (k : ℕ) (s : List Char) :
    (List.replicate k ' ' ++ s).dropWhile (· = ' ') = s.dropWhile (· = ' ') := by
  refine List.dropWhile_append_of_pos fun c hc => ?_
  rw [List.eq_of_mem_replicate hc]
  rfl

theorem dropWhile_eq_self {s : List Char} (h : ∀ c ∈ s, c ≠ ' ') : s.dropWhile (· = ' ') = s := by
  cases s with
  | nil => rfl
  | cons c s => exact List.dropWhile_cons_of_neg (by simpa using h c List.mem_cons_self)

/-- The padding is dropped. -/
theorem strip_eq {s : List Char} (h : ∀ c ∈ s, c ≠ ' ') (j k : ℕ) :
    ((List.replicate j ' ' ++ s ++ List.replicate k ' ').dropWhile (· = ' ')).rdropWhile (· = ' ') = s := by
  rw [List.append_assoc, dropWhile_replicate, List.rdropWhile]
  cases s with
  | nil =>
    have hall : (List.replicate k ' ').dropWhile (· = ' ') = [] := by
      simp
    rw [List.nil_append, hall]
    rfl
  | cons c s =>
    rw [List.cons_append, List.dropWhile_cons_of_neg (by simpa using h c List.mem_cons_self), ← List.cons_append,
      List.reverse_append, List.reverse_replicate, dropWhile_replicate,
      dropWhile_eq_self fun c hc => h c (List.mem_reverse.mp hc), List.reverse_reverse]

/-- The sign is dropped. -/
theorem tail_sign {sign : Option Char} {s : List Char} (hsign : ∀ c ∈ sign, c = '-' ∨ c = '+')
    (hs : ∀ c ∈ s.head?, c ≠ '-' ∧ c ≠ '+') :
    (if (sign.toList ++ s).head? = some '-' ∨ (sign.toList ++ s).head? = some '+' then (sign.toList ++ s).tail
      else sign.toList ++ s) = s := by
  cases sign with
  | none =>
    rw [Option.toList_none, List.nil_append, if_neg]
    rintro (hc | hc)
    · exact (hs _ hc).1 rfl
    · exact (hs _ hc).2 rfl
  | some c =>
    rw [Option.toList_some, List.singleton_append, if_pos]
    · rfl
    · rcases hsign c rfl with rfl | rfl
      · exact Or.inl rfl
      · exact Or.inr rfl

/-- The prefix. -/
def pre (x : Option Char) : List Char := x.toList.flatMap fun x => ['0', x]

/-- The prefix is dropped. -/
theorem drop_pre {x : Option Char} {s : List Char} (hx : ∀ c ∈ x, b.base = 16 ∧ (c = 'x' ∨ c = 'X'))
    (hs : ∀ c ∈ s, c ≠ 'x' ∧ c ≠ 'X') :
    (if b.base = 16 ∧ ((pre x ++ s).take 2 = ['0', 'x'] ∨ (pre x ++ s).take 2 = ['0', 'X']) then (pre x ++ s).drop 2
      else pre x ++ s) = s := by
  cases x with
  | none =>
    rw [show pre none ++ s = s from rfl, if_neg]
    rintro ⟨-, htake | htake⟩
    · exact (hs 'x' (List.mem_of_mem_take (by rw [htake]; decide))).1 rfl
    · exact (hs 'X' (List.mem_of_mem_take (by rw [htake]; decide))).2 rfl
  | some c =>
    obtain ⟨hbase, hc⟩ := hx c rfl
    rw [if_pos]
    · rfl
    · refine ⟨hbase, ?_⟩
      rcases hc with rfl | rfl
      · exact Or.inl rfl
      · exact Or.inr rfl

/-- The prefix and the digits hold no blank, and start with no sign. -/
theorem pre_append {x : Option Char} {s : List Char} (hx : ∀ c ∈ x, b.base = 16 ∧ (c = 'x' ∨ c = 'X'))
    (hs : ∀ c ∈ s, c = ',' ∨ c ∈ b.digits) : ∀ c ∈ pre x ++ s, c ≠ ' ' ∧ c ≠ '-' ∧ c ≠ '+' := by
  intro c hc
  rcases List.mem_append.mp hc with hc | hc
  · cases x with
    | none => simp [pre] at hc
    | some x =>
      rcases List.mem_pair.mp (show c ∈ ['0', x] from hc) with rfl | rfl
      · decide
      · rcases (hx c rfl).2 with rfl | rfl <;> decide
  · rcases hs c hc with rfl | hc
    · decide
    · obtain ⟨hspace, -, hminus, hplus, -⟩ := digit_ne hc
      exact ⟨hspace, hminus, hplus⟩

/-- Only the digits are left of a number whose sign is no blank. -/
theorem digitString_of_sign {sign x : Option Char} {s : List Char} (hsign : ∀ c ∈ sign, c = '-' ∨ c = '+')
    (hx : ∀ c ∈ x, b.base = 16 ∧ (c = 'x' ∨ c = 'X')) (hs : ∀ c ∈ s, c = ',' ∨ c ∈ b.digits) (j k : ℕ) :
    digitString b (List.replicate j ' ' ++ (sign.toList ++ (pre x ++ s)) ++ List.replicate k ' ') =
      s.filter (· ≠ ',') := by
  have hpre := pre_append hx hs
  have hblank : ∀ c ∈ sign.toList ++ (pre x ++ s), c ≠ ' ' := by
    intro c hc
    rcases List.mem_append.mp hc with hc | hc
    · rcases hsign c (Option.mem_toList.mp hc) with rfl | rfl <;> decide
    · exact (hpre c hc).1
  have hx' : ∀ c ∈ s, c ≠ 'x' ∧ c ≠ 'X' := by
    intro c hc
    rcases hs c hc with rfl | hc
    · decide
    · exact (digit_ne hc).2.2.2.2
  rw [digitString, strip_eq hblank, tail_sign hsign fun c hc => (hpre c (List.mem_of_head? hc)).2, drop_pre hx hx']

/-- **Only the digits are left.** -/
theorem digitString_eq {sign x : Option Char} {s : List Char} (hsign : ∀ c ∈ sign, c = '-' ∨ c = '+' ∨ c = ' ')
    (hx : ∀ c ∈ x, b.base = 16 ∧ (c = 'x' ∨ c = 'X')) (hs : ∀ c ∈ s, c = ',' ∨ c ∈ b.digits) (j k : ℕ) :
    digitString b (List.replicate j ' ' ++ (sign.toList ++ (pre x ++ s)) ++ List.replicate k ' ') =
      s.filter (· ≠ ',') := by
  by_cases hspace : sign = some ' '
  · -- the blank belongs to the padding
    have hpad : List.replicate j ' ' ++ (sign.toList ++ (pre x ++ s)) =
        List.replicate (j + 1) ' ' ++ (Option.toList none ++ (pre x ++ s)) := by
      rw [hspace, Option.toList_some, Option.toList_none, List.nil_append, List.replicate_succ', List.append_assoc]
    rw [hpad]
    exact digitString_of_sign (fun c hc => absurd hc (Option.not_mem_none c)) hx hs (j + 1) k
  · refine digitString_of_sign (fun c hc => ?_) hx hs j k
    rcases hsign c hc with hc' | hc' | hc'
    · exact Or.inl hc'
    · exact Or.inr hc'
    · rw [hc'] at hc
      exact absurd hc hspace

/-! ### The output -/

/-- The `x' character of a number. -/
def xOf (value : BitVec 64) (b : IntegerBase) (pound : Bool) : Option Char :=
  if pound ∧ value ≠ 0 then b.xChar else none

/-- The characters of the prefix and of the sign. -/
def leads (x sign : Option Char) : ℕ := (if x = none then 0 else 2) + if sign = none then 0 else 1

/-- The pad characters of `format_integer`. -/
def padCnt (width : ℤ) (len : ℕ) (x sign : Option Char) : ℕ :=
  (int (int (int (width - len) - if x = none then 0 else 2) - if sign = none then 0 else 1)).toNat

theorem signChar_mem (isSigned negative : Bool) (flags : Flags) :
    ∀ c ∈ signChar isSigned negative flags, c = '-' ∨ c = '+' ∨ c = ' ' := by
  unfold signChar
  cases isSigned <;> cases negative <;> cases flags.plus <;> cases flags.space <;> simp

theorem xOf_mem (value : BitVec 64) (b : IntegerBase) (pound : Bool) :
    ∀ c ∈ xOf value b pound, b.base = 16 ∧ (c = 'x' ∨ c = 'X') := by
  unfold xOf
  split_ifs
  · cases b <;> simp [IntegerBase.xChar, IntegerBase.base]
  · simp

/-- **What is written**: padding, sign, prefix, more padding, zeros, digits and padding. -/
theorem formatInteger_eq (value : BitVec 64) (isSigned negative : Bool) (b : IntegerBase) (c : Conversion) :
    ∃ l, Digits b c.flags.group value.toNat 0 l ∧ l.length ≤ 29 ∧
      let cnt := zeros b c.flags.pound c.precision l.length
      let x := xOf value b c.flags.pound
      let sign := signChar isSigned negative c.flags
      let pad := padCnt c.width (l.length + cnt) x sign
      formatInteger value isSigned negative b c =
        some (List.replicate (if c.flags.minus = false ∧ c.flags.zero = false then pad else 0) ' ' ++
          (sign.toList ++ (pre x ++ (List.replicate (if c.flags.zero then pad else 0) '0' ++
            (List.replicate cnt '0' ++ l.reverse)))) ++
          List.replicate (if c.flags.minus then pad else 0) ' ') := by
  obtain ⟨l, hl, hlen, hfill⟩ := fillBuffer_eq value b c
  refine ⟨l, hl, hlen, ?_⟩
  have hpad : ∀ n : ℤ, (if n < 0 then 0 else n.toNat) = n.toNat := fun n => by split_ifs <;> omega
  have hif : ∀ (p : Prop) [Decidable p] (k : ℕ) (ch : Char),
      (if p then List.replicate k ch else []) = List.replicate (if p then k else 0) ch := by
    intro p _ k ch
    split_ifs <;> rfl
  simp only [formatInteger, hfill, Option.map_some, hpad, hif, List.reverse_append, List.reverse_replicate,
    List.length_append, List.length_replicate, List.append_assoc, padCnt, pre, xOf]
  rfl

theorem zero_mem (b : IntegerBase) : '0' ∈ b.digits := by cases b <;> decide

/-- Zeros above the digits, without the commas. -/
theorem filter_zeros (hl : Digits b group value 0 l) (m n : ℕ) :
    (List.replicate m '0' ++ (List.replicate n '0' ++ l.reverse)).filter (· ≠ ',') =
      ((Nat.digits b.base value ++ List.replicate (n + m) 0).map b.digit).reverse := by
  have hfilter : ∀ k : ℕ, (List.replicate k '0').filter (· ≠ ',') = List.replicate k '0' := fun k =>
    List.filter_replicate_of_pos (by decide)
  have hzero : b.digit 0 = '0' := (digit_eq_zero_iff (Nat.zero_lt_of_lt (one_lt_base b))).mpr rfl
  rw [List.filter_append, List.filter_append, hfilter, hfilter, List.filter_reverse, hl.filter, List.map_append,
    List.map_replicate, hzero, List.reverse_append, List.reverse_replicate, ← List.append_assoc,
    List.replicate_append_replicate, Nat.add_comm m n]

/-- The digit string is empty only of 0 with precision 0. -/
theorem precision_of_zeros {pound : Bool} {precision : ℤ} (h : zeros b pound precision 0 = 0) : precision = 0 := by
  unfold zeros rendered at h
  split_ifs at h <;> omega

/-- **Integers are formatted faithfully**: the buffer suffices, and the digits that are written stand for the value;
there are none only of 0 with precision 0. -/
theorem formatInteger_faithful (value : BitVec 64) (isSigned negative : Bool) (b : IntegerBase) (c : Conversion) :
    ∃ out, formatInteger value isSigned negative b c = some out ∧
      readDigits b (digitString b out) = some value.toNat ∧
      (digitString b out = [] → c.precision = 0 ∧ value = 0) := by
  obtain ⟨l, hl, -, hout⟩ := formatInteger_eq value isSigned negative b c
  refine ⟨_, hout, ?_⟩
  have hchars : ∀ m n : ℕ, ∀ ch ∈ List.replicate m '0' ++ (List.replicate n '0' ++ l.reverse),
    ch = ',' ∨ ch ∈ b.digits := by
    intro m n ch hch
    rcases List.mem_append.mp hch with hch | hch
    · exact Or.inr (List.eq_of_mem_replicate hch ▸ zero_mem b)
    rcases List.mem_append.mp hch with hch | hch
    · exact Or.inr (List.eq_of_mem_replicate hch ▸ zero_mem b)
    · exact hl.chars ch (List.mem_reverse.mp hch)
  rw [digitString_eq (signChar_mem isSigned negative c.flags) (xOf_mem value b c.flags.pound) (hchars _ _),
    filter_zeros hl]
  refine ⟨?_, fun hnil => ?_⟩
  · rw [readDigits_map, Nat.ofDigits_append_replicate_zero, Nat.ofDigits_digits]
    intro d hd
    rcases List.mem_append.mp hd with hd | hd
    · exact Nat.digits_lt_base (one_lt_base b) hd
    · rw [List.eq_of_mem_replicate hd]
      exact Nat.zero_lt_of_lt (one_lt_base b)
  · obtain ⟨hdigits, hzeros⟩ := List.append_eq_nil_iff.mp (List.map_eq_nil_iff.mp (List.reverse_eq_nil_iff.mp hnil))
    have hvalue : value.toNat = 0 := Nat.digits_eq_nil_iff_eq_zero.mp hdigits
    have hlen : l.length = 0 := by
      have hlength := hl.length
      rw [hdigits, List.length_nil, Nat.add_zero, Nat.zero_add] at hlength
      omega
    rw [List.replicate_eq_nil_iff, hlen] at hzeros
    exact ⟨precision_of_zeros (Nat.eq_zero_of_add_eq_zero hzeros).1, BitVec.eq_of_toNat_eq hvalue⟩

/-! ### The field width -/

/-- The characters that a number needs: digits and commas, zeros above them, prefix and sign. -/
def needed (value : BitVec 64) (isSigned negative : Bool) (b : IntegerBase) (flags : Flags) (precision : ℤ) : ℕ :=
  let n := (Nat.digits b.base value.toNat).length
  n + commas b flags.group n + zeros b flags.pound precision (n + commas b flags.group n) +
    leads (xOf value b flags.pound) (signChar isSigned negative flags)

theorem length_pre (x : Option Char) : (pre x).length = if x = none then 0 else 2 := by cases x <;> rfl

theorem length_sign (sign : Option Char) : sign.toList.length = if sign = none then 0 else 1 := by cases sign <;> rfl

theorem zeros_le {pound : Bool} (hn : n ≤ 29) : zeros b pound precision n ≤ 64 := by
  unfold zeros rendered
  split_ifs <;> omega

/-- The padding fills the field, if its width is an `int`. -/
theorem padCnt_eq {width : ℤ} {len : ℕ} (hle : -2 ^ 30 ≤ width) (hlt : width < 2 ^ 31) (hlen : len ≤ 100)
    (x sign : Option Char) :
    padCnt width len x sign = (width - (len + leads x sign : ℕ)).toNat := by
  have hint : ∀ n : ℤ, -2 ^ 31 ≤ n ∧ n < 2 ^ 31 → int n = n := fun n hn => int_of_range hn.1 hn.2
  unfold padCnt leads
  split_ifs
  all_goals
    rw [hint (width - len) (by omega), hint (width - len - _) (by omega), hint (width - len - _ - _) (by omega)]
    omega

/-- **The number of characters**: what the number needs, and the padding, which is written once or twice. -/
theorem length_formatInteger (value : BitVec 64) (isSigned negative : Bool) (b : IntegerBase) {c : Conversion}
    (hle : -2 ^ 30 ≤ c.width) (hlt : c.width < 2 ^ 31) :
    ∃ out, formatInteger value isSigned negative b c = some out ∧
      out.length = needed value isSigned negative b c.flags c.precision +
        (c.width - needed value isSigned negative b c.flags c.precision).toNat *
          if c.flags.zero ∧ c.flags.minus then 2 else 1 := by
  obtain ⟨l, hl, hlen, hout⟩ := formatInteger_eq value isSigned negative b c
  refine ⟨_, hout, ?_⟩
  have hlength : l.length = (Nat.digits b.base value.toNat).length +
      commas b c.flags.group (Nat.digits b.base value.toNat).length := by
    have hlength := hl.length
    rw [Nat.zero_add] at hlength
    have hzero : commas b c.flags.group 0 = 0 := Nat.le_zero.mp (commas_le b c.flags.group)
    omega
  have hzeros : zeros b c.flags.pound c.precision l.length ≤ 64 := zeros_le hlen
  have hneeded : l.length + zeros b c.flags.pound c.precision l.length +
      leads (xOf value b c.flags.pound) (signChar isSigned negative c.flags) =
        needed value isSigned negative b c.flags c.precision := by
    rw [needed, ← hlength]
  rw [padCnt_eq hle hlt (by omega), hneeded]
  simp only [List.length_append, List.length_replicate, List.length_reverse, length_pre, length_sign]
  rw [← hneeded, leads]
  cases c.flags.minus <;> cases c.flags.zero <;> simp <;> omega

/-- What a number needs does not depend on the field width. -/
theorem needed_conversion (value : BitVec 64) (isSigned negative : Bool) (b : IntegerBase) (spec : Spec) :
    needed value isSigned negative b spec.conversion.flags spec.conversion.precision =
      needed value isSigned negative b spec.flags spec.precision := by
  have hflags : signChar isSigned negative spec.conversion.flags = signChar isSigned negative spec.flags ∧
      spec.conversion.flags.group = spec.flags.group ∧ spec.conversion.flags.pound = spec.flags.pound := by
    obtain ⟨⟨minus, plus, space, pound, zero, group⟩, width, precision, type⟩ := spec
    cases minus <;> cases plus <;> simp [signChar, Spec.conversion, overrideFlags]
  have hrendered : rendered spec.conversion.precision = rendered spec.precision := by
    unfold Spec.conversion rendered
    split_ifs with hneg <;> simp_all
  rw [needed, needed, hflags.1, hflags.2.1, hflags.2.2, zeros, zeros, hrendered]

/-- The padding is written twice for a negative field width with `0`, if neither `-` nor a precision takes it away. -/
def Twice (spec : Spec) : Prop := spec.flags.zero ∧ ¬spec.flags.minus ∧ spec.precision < 0 ∧ spec.width < 0

theorem twice_iff (spec : Spec) :
    (spec.conversion.flags.zero ∧ spec.conversion.flags.minus) ↔ Twice spec := by
  unfold Spec.conversion Twice
  cases spec.flags.zero <;> cases spec.flags.minus <;> simp

/-- The width of the field. -/
theorem width_conversion (hw : -2 ^ 31 < spec.width) (hlt : spec.width < 2 ^ 31) :
    spec.conversion.width = (spec.width.natAbs : ℤ) := by
  unfold Spec.conversion
  dsimp only
  split_ifs with hneg
  · rw [int_of_range (by omega) (by omega)]
    omega
  · omega

/-- **The field width decides how many characters are written**, unless the padding is written twice. -/
theorem length_conversion_iff (value : BitVec 64) (isSigned negative : Bool) (b : IntegerBase)
    (h : readSpec format args = some (spec, rest)) (hw : -2 ^ 31 < spec.width) :
    parseConversion format args = some (spec.conversion, rest) ∧
      ∃ out out₀, formatInteger value isSigned negative b spec.conversion = some out ∧
        formatInteger value isSigned negative b (Spec.conversion { spec with width := 0 }) = some out₀ ∧
        (out.length = max spec.width.natAbs out₀.length ↔
          ¬(Twice spec ∧ needed value isSigned negative b spec.flags spec.precision < spec.width.natAbs)) := by
  refine ⟨by rw [parseConversion_eq, h, Option.map_some], ?_⟩
  have hwidth := width_conversion hw (width_range h).2
  have hlt := (width_range h).2
  obtain ⟨out, hout, hlen⟩ :=
    length_formatInteger value isSigned negative b (c := spec.conversion) (by rw [hwidth]; omega)
      (by rw [hwidth]; omega)
  have hzero : (Spec.conversion { spec with width := 0 }).width = 0 := by simp [Spec.conversion]
  obtain ⟨out₀, hout₀, hlen₀⟩ := length_formatInteger value isSigned negative b
    (c := Spec.conversion { spec with width := 0 }) (by rw [hzero]; decide) (by rw [hzero]; decide)
  refine ⟨out, out₀, hout, hout₀, ?_⟩
  rw [needed_conversion, hzero] at hlen₀
  rw [needed_conversion, hwidth] at hlen
  dsimp only at hlen₀
  rw [hlen, hlen₀]
  generalize needed value isSigned negative b spec.flags spec.precision = n
  have hzero₀ : ((0 - n : ℤ)).toNat = 0 := by omega
  rw [hzero₀, Nat.zero_mul]
  by_cases htwice : Twice spec
  · rw [if_pos ((twice_iff spec).mpr htwice)]
    simp only [htwice, true_and]
    omega
  · rw [if_neg fun hif => htwice ((twice_iff spec).mp hif)]
    simp only [htwice, false_and, not_false_eq_true, iff_true]
    omega

/-- `printf ("%0*d", 5, 42)`. -/
theorem length_conversion_iff_five : ∃ out out₀ : List Char,
    formatInteger 42 true false .d (Spec.conversion ⟨{ noFlags with zero := true }, 5, -1, .int⟩) = some out ∧
      formatInteger 42 true false .d (Spec.conversion ⟨{ noFlags with zero := true }, 0, -1, .int⟩) = some out₀ ∧
      out.length = max 5 out₀.length := by
  have hread : readSpec "0*d".toList [5#32] = some (⟨{ noFlags with zero := true }, 5, -1, .int⟩, ['d'], []) := rfl
  obtain ⟨-, out, out₀, hout, hout₀, hiff⟩ := length_conversion_iff 42 true false .d hread (by decide)
  exact ⟨out, out₀, hout, hout₀, hiff.mpr fun h => absurd h.1.2.2.2 (by decide)⟩

/-- `printf ("%0*d", -5, 42)` writes eight characters, and `printf ("%0*d", 0, 42)` two. -/
theorem exists_length_ne : ∃ (c c₀ : Conversion) (rest : List Char × List (BitVec 32)) (out out₀ : List Char),
    parseConversion "0*d".toList [-5#32] = some (c, rest) ∧ parseConversion "0*d".toList [0#32] = some (c₀, rest) ∧
      formatInteger 42 true false .d c = some out ∧ formatInteger 42 true false .d c₀ = some out₀ ∧
      out.length ≠ max ((-5#32).toInt.natAbs) out₀.length :=
  ⟨_, _, _, "00042   ".toList, "42".toList, rfl, rfl, by decide +kernel, by decide +kernel, by decide⟩

end Pintos.Kernel.FormatInteger
