import Mathlib.Tactic

/-! # Integer conversions

The integer conversions of `lib/stdio.c`: `parse_conversion` reads the flags, the field width, the precision and
the type of a conversion, and `format_integer` writes a number. A format is the list of its characters, and the
arguments are those that `*` takes. An `int` is an integer that wraps; a store outside `buf` is `none`. -/

namespace Pintos.Kernel.Printf

/-- The flags of `struct printf_conversion`. -/
structure Flags where
  minus : Bool
  plus : Bool
  space : Bool
  pound : Bool
  zero : Bool
  group : Bool
  deriving DecidableEq, Repr

/-- The type of the argument. -/
inductive ConvType where
  | char
  | short
  | int
  | intmax
  | long
  | longlong
  | ptrdifft
  | sizet
  deriving DecidableEq, Repr

/-- `struct printf_conversion`. -/
structure Conversion where
  flags : Flags
  width : ℤ
  precision : ℤ
  type : ConvType
  deriving DecidableEq, Repr

/-- `base_d`, `base_o`, `base_x` and `base_X`. -/
inductive IntegerBase where
  | d
  | o
  | x
  | X
  deriving DecidableEq, Repr

namespace IntegerBase

def base : IntegerBase → ℕ
  | d => 10
  | o => 8
  | x => 16
  | X => 16

def digits : IntegerBase → List Char
  | d => "0123456789".toList
  | o => "01234567".toList
  | x => "0123456789abcdef".toList
  | X => "0123456789ABCDEF".toList

/-- The `x' character; `none` is 0. -/
def xChar : IntegerBase → Option Char
  | d => none
  | o => none
  | x => some 'x'
  | X => some 'X'

def group : IntegerBase → ℕ
  | d => 3
  | o => 3
  | x => 4
  | X => 4

/-- `b->digits[n]`. -/
def digit (b : IntegerBase) (n : ℕ) : Char := b.digits.getD n '0'

end IntegerBase

/-- The value of an `int`. -/
def int (n : ℤ) : ℤ := n.bmod (2 ^ 32)

/-- `INT_MIN`. -/
def intMin : ℤ := -2 ^ 31

/-! ### Parsing -/

/-- The loop over the flag characters. -/
def flagsLoop : Flags → List Char → Flags × List Char
  | flags, [] => (flags, [])
  | flags, c :: format =>
    if c = '-' then flagsLoop { flags with minus := true } format
    else if c = '+' then flagsLoop { flags with plus := true } format
    else if c = ' ' then flagsLoop { flags with space := true } format
    else if c = '#' then flagsLoop { flags with pound := true } format
    else if c = '0' then flagsLoop { flags with zero := true } format
    else if c = Char.ofNat 39 then flagsLoop { flags with group := true } format
    else (flags, c :: format)

/-- The flags of a conversion without flag characters. -/
def noFlags : Flags := ⟨false, false, false, false, false, false⟩

/-- `-` overrides `0`, and `+` overrides the space. -/
def overrideFlags (flags : Flags) : Flags :=
  let flags := if flags.minus then { flags with zero := false } else flags
  if flags.plus then { flags with space := false } else flags

/-- The loop over the digits of a number. -/
def numberLoop : ℤ → List Char → ℤ × List Char
  | n, [] => (n, [])
  | n, c :: format => if c.isDigit then numberLoop (int (n * 10 + c.toNat - 48)) format else (n, c :: format)

/-- A number that is read, with the rest of the format and of the arguments. -/
structure Number where
  value : ℤ
  format : List Char
  args : List (BitVec 32)

/-- A number, or `*` with its argument; `none` if there is no argument. -/
def parseNumber (format : List Char) (args : List (BitVec 32)) : Option Number :=
  if format.head? = some '*' then args.head?.map fun arg => ⟨arg.toInt, format.tail, args.tail⟩
  else some ⟨(numberLoop 0 format).1, (numberLoop 0 format).2, args⟩

/-- The precision, as it is written; -1 if there is none. -/
def parsePrecision (format : List Char) (args : List (BitVec 32)) : Option Number :=
  if format.head? = some '.' then parseNumber format.tail args else some ⟨-1, format, args⟩

/-- The type. -/
def parseType (format : List Char) : ConvType × List Char :=
  if format.head? = some 'h' then
    if format.tail.head? = some 'h' then (.char, format.tail.tail) else (.short, format.tail)
  else if format.head? = some 'j' then (.intmax, format.tail)
  else if format.head? = some 'l' then
    if format.tail.head? = some 'l' then (.longlong, format.tail.tail) else (.long, format.tail)
  else if format.head? = some 't' then (.ptrdifft, format.tail)
  else if format.head? = some 'z' then (.sizet, format.tail)
  else (.int, format)

/-- `parse_conversion`: the conversion, with the rest of the format and of the arguments. -/
def parseConversion (format : List Char) (args : List (BitVec 32)) :
    Option (Conversion × List Char × List (BitVec 32)) :=
  let r := flagsLoop noFlags format
  let flags := overrideFlags r.1
  (parseNumber r.2 args).bind fun w =>
    let width := if w.value < 0 then int (-w.value) else w.value
    let flags := if w.value < 0 then { flags with minus := true } else flags
    (parsePrecision w.format w.args).map fun p =>
      let precision := if p.value < 0 then -1 else p.value
      let flags := if 0 ≤ precision then { flags with zero := false } else flags
      let t := parseType p.format
      (⟨flags, width, precision, t.1⟩, t.2, p.args)

/-! ### Formatting -/

/-- `*cp++ = c` in `buf`, which has 64 characters. -/
def store (buf : List Char) (c : Char) : Option (List Char) := if buf.length < 64 then some (buf ++ [c]) else none

/-- The sign character; `none` is 0. -/
def signChar (isSigned negative : Bool) (flags : Flags) : Option Char :=
  if isSigned then
    if flags.plus then some (if negative then '-' else '+')
    else if flags.space then some (if negative then '-' else ' ')
    else if negative then some '-'
    else none
  else none

/-- The loop that accumulates digits, with at most `fuel` tests of its condition. -/
def digitLoop (b : IntegerBase) (group : Bool) : (fuel value digitCnt : ℕ) → List Char → Option (List Char)
  | 0, _, _, _ => none
  | fuel + 1, value, digitCnt, buf =>
    if 0 < value then
      (if group ∧ 0 < digitCnt ∧ digitCnt % b.group = 0 then store buf ',' else some buf).bind fun buf =>
        (store buf (b.digit (value % b.base))).bind fun buf =>
          digitLoop b group fuel (value / b.base) (digitCnt + 1) buf
    else some buf

/-- The loop that appends zeros, with at most `fuel` tests of its condition. -/
def zerosLoop (precision : ℤ) : (fuel : ℕ) → List Char → Option (List Char)
  | 0, _ => none
  | fuel + 1, buf =>
    if (buf.length : ℤ) < precision ∧ buf.length < 63 then (store buf '0').bind (zerosLoop precision fuel)
      else some buf

/-- What `format_integer` accumulates in `buf`. -/
def fillBuffer (value : BitVec 64) (b : IntegerBase) (c : Conversion) : Option (List Char) :=
  (digitLoop b c.flags.group 65 value.toNat 0 []).bind fun buf =>
    (zerosLoop (if c.precision < 0 then 1 else c.precision) 64 buf).bind fun buf =>
      if c.flags.pound ∧ b.base = 8 ∧ buf.getLast? ≠ some '0' then store buf '0' else some buf

/-- `format_integer`: what it writes to `output`. -/
def formatInteger (value : BitVec 64) (isSigned negative : Bool) (b : IntegerBase) (c : Conversion) :
    Option (List Char) :=
  let sign := signChar isSigned negative c.flags
  let x := if c.flags.pound ∧ value ≠ 0 then b.xChar else none
  (fillBuffer value b c).map fun buf =>
    let padCnt := int (int (int (c.width - buf.length) - if x = none then 0 else 2) - if sign = none then 0 else 1)
    let padCnt := if padCnt < 0 then 0 else padCnt.toNat
    (if c.flags.minus = false ∧ c.flags.zero = false then List.replicate padCnt ' ' else []) ++ sign.toList ++
      (x.toList.flatMap fun x => ['0', x]) ++ (if c.flags.zero then List.replicate padCnt '0' else []) ++
        buf.reverse ++
      if c.flags.minus then List.replicate padCnt ' ' else []

/-! ### What is written in a format -/

/-- A conversion as it is written: its flag characters, the values of its field width and its precision. -/
structure Spec where
  flags : Flags
  width : ℤ
  precision : ℤ
  type : ConvType

/-- What is written in a format, with the rest of the format and of the arguments. -/
def readSpec (format : List Char) (args : List (BitVec 32)) : Option (Spec × List Char × List (BitVec 32)) :=
  let r := flagsLoop noFlags format
  (parseNumber r.2 args).bind fun w =>
    (parsePrecision w.format w.args).map fun p =>
      (⟨r.1, w.value, p.value, (parseType p.format).1⟩, (parseType p.format).2, p.args)

/-- The conversion that `parse_conversion` makes of it. -/
def Spec.conversion (spec : Spec) : Conversion where
  flags :=
    { overrideFlags spec.flags with
      minus := spec.flags.minus || spec.width < 0
      zero := spec.flags.zero && !spec.flags.minus && spec.precision < 0 }
  width := if spec.width < 0 then int (-spec.width) else spec.width
  precision := if spec.precision < 0 then -1 else spec.precision
  type := spec.type

variable {format : List Char} {args : List (BitVec 32)}

/-- The flags after the field width and the precision. -/
theorem flags_conversion (spec : Spec) : spec.conversion.flags =
    let flags := overrideFlags spec.flags
    let flags := if spec.width < 0 then { flags with minus := true } else flags
    if 0 ≤ spec.conversion.precision then { flags with zero := false } else flags := by
  obtain ⟨⟨minus, plus, space, pound, zero, group⟩, width, precision, type⟩ := spec
  by_cases hw : width < 0 <;> by_cases hp : precision < 0 <;> cases minus <;> cases plus <;>
    simp [Spec.conversion, overrideFlags, hw, hp]

/-- **`parse_conversion` in one piece.** -/
theorem parseConversion_eq (format : List Char) (args : List (BitVec 32)) :
    parseConversion format args = (readSpec format args).map fun r => (r.1.conversion, r.2) := by
  unfold parseConversion readSpec
  rw [Option.map_bind]
  refine Option.bind_congr fun w _ => ?_
  rw [Function.comp_apply, Option.map_map]
  refine Option.map_congr fun p _ => ?_
  exact congrArg (fun flags => (Conversion.mk flags _ _ _, _, _)) (flags_conversion ⟨_, _, _, _⟩).symm

/-! ### Numbers that are read -/

theorem int_range (n : ℤ) : -2 ^ 31 ≤ int n ∧ int n < 2 ^ 31 := by
  have hle := Int.le_bmod (x := n) (show 0 < 2 ^ 32 by decide)
  have hlt := Int.bmod_lt (x := n) (show 0 < 2 ^ 32 by decide)
  unfold int
  omega

theorem int_of_range {n : ℤ} (hle : -2 ^ 31 ≤ n) (hlt : n < 2 ^ 31) : int n = n :=
  Int.bmod_eq_of_le (by omega) (by omega)

theorem numberLoop_range : ∀ (format : List Char) {n : ℤ}, -2 ^ 31 ≤ n ∧ n < 2 ^ 31 →
    -2 ^ 31 ≤ (numberLoop n format).1 ∧ (numberLoop n format).1 < 2 ^ 31
  | [], _, h => h
  | c :: format, n, h => by
    rw [numberLoop]
    split_ifs
    · exact numberLoop_range format (int_range _)
    · exact h

theorem parseNumber_range {w : Number} (h : parseNumber format args = some w) :
    -2 ^ 31 ≤ w.value ∧ w.value < 2 ^ 31 := by
  unfold parseNumber at h
  split_ifs at h
  · obtain ⟨arg, -, rfl⟩ := Option.map_eq_some_iff.mp h
    exact ⟨BitVec.le_toInt arg, BitVec.toInt_lt⟩
  · obtain rfl := Option.some.inj h
    exact numberLoop_range format (by decide)

/-- The field width that is read is an `int`. -/
theorem width_range {spec : Spec} {rest : List Char × List (BitVec 32)}
    (h : readSpec format args = some (spec, rest)) :
    -2 ^ 31 ≤ spec.width ∧ spec.width < 2 ^ 31 := by
  obtain ⟨w, hw, h⟩ := Option.bind_eq_some_iff.mp h
  obtain ⟨p, -, h⟩ := Option.map_eq_some_iff.mp h
  rw [← (Prod.mk.inj h).1]
  exact parseNumber_range hw

end Pintos.Kernel.Printf
