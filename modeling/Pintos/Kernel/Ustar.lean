import Pintos.Lib.Ops
import Pintos.Lib.Overlay

/-! # Archive headers

`lib/ustar.c`: headers of a ustar archive, composed by `ustar_make_header` and read by
`ustar_parse_header`. A header is 512 bytes, its fields are places in it. A string is the list of its bytes
without the null byte that ends it. -/

namespace Pintos.Kernel.Ustar

open Pintos.Lib.Ops Pintos.Lib.Overlay

/-- Bytes of a string or a field. -/
abbrev Bytes := List UInt8

/-- The bytes of a header, by their offsets. -/
abbrev Header := ℕ → UInt8

/-- `USTAR_HEADER_SIZE`. -/
def headerSize : ℕ := 512

/-- `enum ustar_type`. -/
inductive UstarType where
  | regular
  | directory
  | eof
  deriving DecidableEq, Repr

/-- The byte of a type: `'0'`, `'5'` and `-1`. -/
def UstarType.byte : UstarType → UInt8
  | regular => 48
  | directory => 53
  | eof => 255

/-- A field of `struct ustar_header`. -/
structure Field where
  ofs : ℕ
  size : ℕ

namespace Field

def name : Field := ⟨0, 100⟩
def mode : Field := ⟨100, 8⟩
def uid : Field := ⟨108, 8⟩
def gid : Field := ⟨116, 8⟩
def fileSize : Field := ⟨124, 12⟩
def mtime : Field := ⟨136, 12⟩
def chksum : Field := ⟨148, 8⟩
def typeflag : Field := ⟨156, 1⟩
def magic : Field := ⟨257, 6⟩
def version : Field := ⟨263, 2⟩
def uname : Field := ⟨265, 32⟩
def gname : Field := ⟨297, 32⟩
def namePrefix : Field := ⟨345, 155⟩

/-- The bytes of the field in a header. -/
def bytes (f : Field) (h : Header) : Bytes := slice h f.ofs f.size

end Field

/-- `"ustar"`. -/
def ustar : Bytes := [117, 115, 116, 97, 114]

/-- `"root"`. -/
def root : Bytes := [114, 111, 111, 116]

/-- `"0000000"`. -/
def zeros : Bytes := List.replicate 7 48

/-- `calculate_chksum`: the sum of the bytes, those of the checksum field taken as spaces. -/
def calculateChksum (h : Header) : ℕ :=
  ((List.range headerSize).map fun i =>
    if Field.chksum.ofs ≤ i ∧ i < Field.chksum.ofs + Field.chksum.size then 32 else (h i).toNat).sum

/-! ### File names -/

/-- The loop condition of `strip_antisocial_prefixes`: the name begins with `/`, `./` or `../`. -/
def antisocial (name : Bytes) : Bool :=
  name.head? = some 47 || [46, 47].isPrefixOf name || [46, 46, 47].isPrefixOf name

/-- `strchr (file_name, '/') + 1`. -/
def afterSlash (name : Bytes) : Bytes := (name.dropWhile (· ≠ 47)).tail

/-- The loop of `strip_antisocial_prefixes`; each round takes a character at least. -/
def stripLoop : ℕ → Bytes → Bytes
  | 0, name => name
  | fuel + 1, name => if antisocial name then stripLoop fuel (afterSlash name) else name

/-- `strip_antisocial_prefixes`. -/
def stripAntisocialPrefixes (name : Bytes) : Bytes :=
  let name := stripLoop name.length name
  if name = [] ∨ name = [46, 46] then [46] else name

/-! ### Composing a header -/

/-- What `strlcpy` and `snprintf` write for the string `s` into `size` bytes. -/
def terminated (s : Bytes) (size : ℕ) : Bytes := s.take (size - 1) ++ [0]

/-- `strlcpy` to the offset `ofs`. -/
def strlcpy (h : Header) (ofs : ℕ) (s : Bytes) (size : ℕ) : Header := overlay h ofs (terminated s size)

/-- The octal number `%0<width>o`. -/
def octal (width value : ℕ) : Bytes :=
  let digits := (Nat.digits 8 value).reverse.map fun d => UInt8.ofNat (48 + d)
  List.replicate (width - digits.length) 48 ++ digits

/-- `snprintf` of an octal number. -/
def snprintfOctal (h : Header) (ofs size width value : ℕ) : Header := strlcpy h ofs (octal width value) size

/-- The header but for its checksum. -/
def fillHeader (h : Header) (fileName : Bytes) (type : UstarType) (size : BitVec 32) : Header :=
  let h := overlay h 0 (List.replicate headerSize 0)
  let h := strlcpy h Field.name.ofs fileName Field.name.size
  let h := snprintfOctal h Field.mode.ofs Field.mode.size 7 (if type = .regular then 0o644 else 0o755)
  let h := strlcpy h Field.uid.ofs zeros Field.uid.size
  let h := strlcpy h Field.gid.ofs zeros Field.gid.size
  let h := snprintfOctal h Field.fileSize.ofs Field.fileSize.size 11 size.toNat
  let h := snprintfOctal h Field.mtime.ofs Field.fileSize.size 11 1136102400
  let h := overlay h Field.typeflag.ofs [type.byte]
  let h := strlcpy h Field.magic.ofs ustar Field.magic.size
  let h := overlay h Field.version.ofs [48, 48]
  let h := strlcpy h Field.gname.ofs root Field.gname.size
  strlcpy h Field.uname.ofs root Field.uname.size

/-- `ustar_make_header`; `size` is an `int`. -/
def ustarMakeHeader (fileName : Bytes) (type : UstarType) (size : BitVec 32) : Op Header Bool := do
  assert (type = .regular || type = .directory)
  let fileName := stripAntisocialPrefixes fileName
  if 99 < fileName.length then pure false else do
    modify fun h => fillHeader h fileName type size
    modify fun h => snprintfOctal h Field.chksum.ofs Field.chksum.size 7 (calculateChksum h)
    pure true

/-! ### Parsing a header -/

/-- The loop of `parse_octal_field`, at the rest `s` of the field; `none` is a failure. -/
def parseOctalLoop : Bytes → ℕ → ℕ → Option ℕ
  | [], _, _ => none
  | c :: s, ofs, value =>
    if 48 ≤ c ∧ c ≤ 55 then
      if value > (2 ^ 32 - 1) / 8 then none
      else parseOctalLoop s (ofs + 1) ((c.toNat - 48 + value * 8) % 2 ^ 32)
    else if c = 32 ∨ c = 0 then if 0 < ofs then some value else none
    else none

/-- `parse_octal_field`. -/
def parseOctalField (s : Bytes) : Option ℕ := parseOctalLoop s 0 0

/-- What `ustar_parse_header` stores: a name or a null pointer, the type and the size. -/
structure Parsed where
  fileName : Option Bytes
  type : UstarType
  size : BitVec 32
  deriving DecidableEq

/-- The string in a field. -/
def cString (bytes : Bytes) : Bytes := bytes.takeWhile (· ≠ 0)

/-- `ustar_parse_header`; a failure is the message it returns. -/
def ustarParseHeader (h : Header) : Except String Parsed :=
  if (slice h 0 headerSize).all (· = 0) then .ok ⟨none, .eof, 0⟩
  else if Field.magic.bytes h ≠ ustar ++ [0] then .error "not a ustar archive"
  else if h Field.version.ofs ≠ 48 ∨ h (Field.version.ofs + 1) ≠ 48 then .error "invalid ustar version"
  else match parseOctalField (Field.chksum.bytes h) with
    | none => .error "corrupt chksum field"
    | some chksum =>
      if chksum ≠ calculateChksum h then .error "checksum mismatch"
      else if h (Field.name.ofs + Field.name.size - 1) ≠ 0 ∨
        h Field.namePrefix.ofs ≠ 0 then .error "file name too long"
      else if h Field.typeflag.ofs ≠ UstarType.regular.byte ∧ h Field.typeflag.ofs ≠ UstarType.directory.byte then
        .error "unimplemented file type"
      else
        let fileName := stripAntisocialPrefixes (cString (Field.name.bytes h))
        if h Field.typeflag.ofs = UstarType.regular.byte then
          match parseOctalField (Field.fileSize.bytes h) with
          | none => .error "corrupt file size field"
          | some size => if 2 ^ 31 - 1 < size then .error "file too large" else .ok
              ⟨some fileName, .regular, BitVec.ofNat 32 size⟩
        else .ok ⟨some fileName, .directory, 0⟩

variable {h h' : Header} {name : Bytes} {fuel : ℕ}

/-! ### Stripping -/

/-- `rest` is `name` without the prefixes `/`, `./` and `../` it begins with. -/
def Stripped (name rest : Bytes) : Prop :=
  antisocial rest = false ∧ ∃ prefixes : List Bytes, (∀ p ∈ prefixes, p = [47] ∨ p = [46, 47] ∨ p = [46, 46, 47]) ∧
    name = prefixes.flatten ++ rest

/-- What `strchr` finds is the end of the prefix. -/
theorem eq_append_of_antisocial (h : antisocial name = true) :
    ∃ p, (p = [47] ∨ p = [46, 47] ∨ p = [46, 46, 47]) ∧ name = p ++ afterSlash name := by
  unfold antisocial at h
  simp only [Bool.or_eq_true, decide_eq_true_eq, List.isPrefixOf_iff_prefix] at h
  rcases h with (h | ⟨l, rfl⟩) | ⟨l, rfl⟩
  · obtain ⟨l, rfl⟩ := List.head?_eq_some_iff.mp h
    exact ⟨[47], Or.inl rfl, rfl⟩
  · exact ⟨[46, 47], Or.inr (Or.inl rfl), rfl⟩
  · exact ⟨[46, 46, 47], Or.inr (Or.inr rfl), rfl⟩

theorem stripLoop_of_not_antisocial (h : antisocial name = false) : stripLoop fuel name = name := by
  cases fuel with
  | zero => rfl
  | succ fuel => rw [stripLoop, h, if_neg Bool.false_ne_true]

/-- **The loop takes all the prefixes.** -/
theorem stripped_stripLoop : ∀ {fuel : ℕ} {name : Bytes}, name.length ≤ fuel → Stripped name (stripLoop fuel name)
  | 0, name, hfuel => by
    obtain rfl := List.length_eq_zero_iff.mp (Nat.le_zero.mp hfuel)
    exact ⟨rfl, [], nofun, rfl⟩
  | fuel + 1, name, hfuel => by
    rw [stripLoop]
    split_ifs with ha
    · obtain ⟨p, hp, hname⟩ := eq_append_of_antisocial ha
      have hlen := congrArg List.length hname
      have hpos : 0 < p.length := by rcases hp with rfl | rfl | rfl <;> decide
      rw [List.length_append] at hlen
      obtain ⟨hrest, ps, hps, heq⟩ := stripped_stripLoop (show (afterSlash name).length ≤ fuel by omega)
      refine ⟨hrest, p :: ps, List.forall_mem_cons.mpr ⟨hp, hps⟩, ?_⟩
      rw [List.flatten_cons, List.append_assoc, ← heq]
      exact hname
    · exact ⟨by simpa using ha, [], nofun, rfl⟩

/-- The stripped name: what is left of it, or `.`. -/
def IsStripped (name out : Bytes) : Prop :=
  ∃ rest, Stripped name rest ∧ out = if rest = [] ∨ rest = [46, 46] then [46] else rest

theorem isStripped_stripAntisocialPrefixes (name : Bytes) : IsStripped name (stripAntisocialPrefixes name) :=
  ⟨_, stripped_stripLoop le_rfl, rfl⟩

/-- **A name is stripped once.** -/
theorem stripAntisocialPrefixes_idem (name : Bytes) :
    stripAntisocialPrefixes (stripAntisocialPrefixes name) = stripAntisocialPrefixes name := by
  obtain ⟨rest, ⟨hrest, -⟩, hout⟩ := isStripped_stripAntisocialPrefixes name
  rw [hout]
  split_ifs with hdot
  · decide
  · unfold stripAntisocialPrefixes
    rw [stripLoop_of_not_antisocial hrest, if_neg hdot]

theorem notMem_stripAntisocialPrefixes (h : 0 ∉ name) : 0 ∉ stripAntisocialPrefixes name := by
  obtain ⟨rest, ⟨-, ps, -, rfl⟩, hout⟩ := isStripped_stripAntisocialPrefixes name
  rw [hout]
  split_ifs
  · decide
  · exact fun hmem => h (List.mem_append_right _ hmem)

/-! ### Octal numbers -/

/-- The character of a digit. -/
def digit (d : ℕ) : UInt8 := UInt8.ofNat (48 + d)

theorem toNat_digit {d : ℕ} (hd : d < 8) : (digit d).toNat = 48 + d := by
  rw [digit, UInt8.toNat_ofNat_of_lt' (by
    show 48 + d < 256
    omega)]

/-- The value of the digits `ds` behind those of `value`. -/
def shiftIn (ds : List ℕ) (value : ℕ) : ℕ := ds.foldl (fun value d => d + value * 8) value

theorem le_shiftIn : ∀ (ds : List ℕ) (value : ℕ), value ≤ shiftIn ds value
  | [], _ => le_rfl
  | d :: ds, value => by
    have hle := le_shiftIn ds (d + value * 8)
    rw [shiftIn, List.foldl_cons]
    exact (show value ≤ d + value * 8 by omega).trans hle

/-- The digits of a number that fits are read one by one. -/
theorem parseOctalLoop_digits : ∀ {ds : List ℕ} {s : Bytes} {ofs value : ℕ}, (∀ d ∈ ds, d < 8) →
    shiftIn ds value < 2 ^ 32 →
    parseOctalLoop (ds.map digit ++ s) ofs value = parseOctalLoop s (ofs + ds.length) (shiftIn ds value)
  | [], _, _, _, _, _ => rfl
  | d :: ds, s, ofs, value, hds, hfit => by
    obtain ⟨hd, hds⟩ := List.forall_mem_cons.mp hds
    have hfit' : shiftIn ds (d + value * 8) < 2 ^ 32 := hfit
    have hle := le_shiftIn ds (d + value * 8)
    have hchar := toNat_digit hd
    have hrange : 48 ≤ digit d ∧ digit d ≤ 55 := by
      rw [UInt8.le_iff_toNat_le, UInt8.le_iff_toNat_le, hchar]
      exact ⟨by simp, by
        show 48 + d ≤ 55
        omega⟩
    have hvalue : (48 + d - 48 + value * 8) % 2 ^ 32 = d + value * 8 := by omega
    rw [List.map_cons, List.cons_append, parseOctalLoop, if_pos hrange, if_neg (by omega), hchar, hvalue,
      parseOctalLoop_digits hds hfit', List.length_cons, Nat.add_right_comm, Nat.add_assoc ofs]
    rfl

theorem shiftIn_replicate (k : ℕ) : shiftIn (List.replicate k 0) 0 = 0 := by
  induction k with
  | zero => rfl
  | succ k ih => exact ih

theorem shiftIn_digits (value : ℕ) : shiftIn (Nat.digits 8 value).reverse 0 = value := by
  rw [shiftIn, List.foldl_reverse]
  conv_rhs => rw [← Nat.ofDigits_digits 8 value, Nat.ofDigits_eq_foldr]
  congr 1
  funext d v
  rw [Nat.mul_comm 8 v]
  rfl

/-- A padded number is its digits. -/
theorem octal_eq (width value : ℕ) : ∃ ds : List ℕ, octal width value = ds.map digit ∧ (∀ d ∈ ds, d < 8) ∧
    shiftIn ds 0 = value ∧ ds.length = width - (Nat.digits 8 value).length + (Nat.digits 8 value).length := by
  refine ⟨List.replicate (width - (Nat.digits 8 value).length) 0 ++ (Nat.digits 8 value).reverse, ?_, ?_, ?_, ?_⟩
  · rw [List.map_append, List.map_replicate]
    simp [octal, digit]
  · intro d hd
    rcases List.mem_append.mp hd with hd | hd
    · rw [List.eq_of_mem_replicate hd]
      decide
    · exact Nat.digits_lt_base (by decide) (List.mem_reverse.mp hd)
  · rw [shiftIn, List.foldl_append]
    exact (congrArg (fun v => shiftIn (Nat.digits 8 value).reverse v) (shiftIn_replicate _)).trans
      (shiftIn_digits value)
  · rw [List.length_append, List.length_replicate, List.length_reverse]

theorem length_octal {width value : ℕ} (hvalue : value < 8 ^ width) : (octal width value).length = width := by
  obtain ⟨ds, hds, -, -, hlen⟩ := octal_eq width value
  have hdigits := (Nat.digits_length_le_iff (by decide) value).mpr hvalue
  rw [hds, List.length_map]
  omega

theorem terminated_of_length_lt {s : Bytes} {size : ℕ} (h : s.length < size) : terminated s size = s ++ [0] := by
  rw [terminated, List.take_of_length_le (by omega)]

/-- **What is printed in a field is read back.** -/
theorem parseOctalField_octal {width value : ℕ} (hw : 0 < width) (hvalue : value < 8 ^ width)
    (hfit : value < 2 ^ 32) :
    parseOctalField (terminated (octal width value) (width + 1)) = some value := by
  have hlength := length_octal hvalue
  rw [terminated_of_length_lt (by omega)]
  obtain ⟨ds, hds, hlt, hval, -⟩ := octal_eq width value
  rw [hds, List.length_map] at hlength
  rw [parseOctalField, hds, parseOctalLoop_digits hlt (by rwa [hval]), hval, hlength]
  rw [parseOctalLoop, if_neg (by decide), if_pos (Or.inr rfl), if_pos (by omega)]

/-! ### Fields -/

theorem length_terminated_le {s : Bytes} {size : ℕ} (h : 0 < size) : (terminated s size).length ≤ size := by
  rw [terminated, List.length_append, List.length_take, List.length_singleton]
  omega

theorem strlcpy_of_out {s : Bytes} {ofs size p : ℕ} (hsize : 0 < size) (hp : p < ofs ∨ ofs + size ≤ p) :
    strlcpy h ofs s size p = h p := by
  have hlen := length_terminated_le (s := s) hsize
  rcases hp with hp | hp
  · exact overlay_of_lt _ hp
  · exact overlay_of_le (by omega)

/-- A field that is not written to. -/
theorem slice_strlcpy_of_out {s : Bytes} {ofs size o n : ℕ} (hsize : 0 < size) (ho : o + n ≤ ofs ∨ ofs + size ≤ o) :
    slice (strlcpy h ofs s size) o n = slice h o n :=
  slice_congr fun p hp hpn => strlcpy_of_out hsize (by omega)

theorem slice_overlay_of_out {bytes : Bytes} {ofs o n : ℕ} (ho : o + n ≤ ofs ∨ ofs + bytes.length ≤ o) :
    slice (overlay h ofs bytes) o n = slice h o n := by
  refine slice_congr fun p hp hpn => ?_
  rcases ho with ho | ho
  · exact overlay_of_lt _ (by omega)
  · exact overlay_of_le (by omega)

/-- **The checksum does not depend on its field.** -/
theorem calculateChksum_strlcpy {s : Bytes} :
    calculateChksum (strlcpy h Field.chksum.ofs s Field.chksum.size) = calculateChksum h := by
  unfold calculateChksum
  refine congrArg List.sum (List.map_congr_left fun i _ => ?_)
  split_ifs with hi
  · rfl
  · rw [strlcpy_of_out (by decide) (by omega)]

theorem calculateChksum_lt : calculateChksum h < 8 ^ 7 := by
  refine (List.sum_le_card_nsmul _ 255 fun x hx => ?_).trans_lt ?_
  · obtain ⟨i, -, rfl⟩ := List.mem_map.mp hx
    split_ifs
    · decide
    · exact Nat.le_of_lt_succ (h i).toNat_lt
  · rw [List.length_map, List.length_range]
    decide

/-! ### The header that is made -/

/-- The header with its checksum. -/
def madeHeader (h : Header) (name : Bytes) (type : UstarType) (size : BitVec 32) : Header :=
  let h := fillHeader h name type size
  snprintfOctal h Field.chksum.ofs Field.chksum.size 7 (calculateChksum h)

theorem ustarMakeHeader_ensures {type : UstarType} {size : BitVec 32} :
    Ensures (ustarMakeHeader name type size) h fun r h' => r = true → type ≠ UstarType.eof ∧
      (stripAntisocialPrefixes name).length ≤ 99 ∧ h' = madeHeader h (stripAntisocialPrefixes name) type size := by
  refine Ensures.bind (Ensures.assert fun htype => Ensures.ite (fun _ => Ensures.pure nofun) fun hlen => ?_)
  refine Ensures.bind (Ensures.modify (Ensures.bind (Ensures.modify
    (Ensures.pure fun _ => ⟨?_, not_lt.mp hlen, rfl⟩))))
  rintro rfl
  exact absurd htype (by decide)

section Made

variable {type : UstarType} {size : BitVec 32}

theorem magic_madeHeader : Field.magic.bytes (madeHeader h name type size) = ustar ++ [0] := by
  simp only [Field.bytes, madeHeader, fillHeader, snprintfOctal]
  rw [slice_strlcpy_of_out (by decide) (by decide), slice_strlcpy_of_out (by decide) (by decide),
    slice_strlcpy_of_out (by decide) (by decide), slice_overlay_of_out (by decide)]
  exact slice_overlay _ _ _

theorem version_madeHeader : slice (madeHeader h name type size) Field.version.ofs 2 = [48, 48] := by
  simp only [madeHeader, fillHeader, snprintfOctal]
  rw [slice_strlcpy_of_out (by decide) (by decide), slice_strlcpy_of_out (by decide) (by decide),
    slice_strlcpy_of_out (by decide) (by decide)]
  exact slice_overlay _ _ _

theorem chksum_madeHeader : parseOctalField (Field.chksum.bytes (madeHeader h name type size)) =
    some (calculateChksum (madeHeader h name type size)) := by
  have hlt : calculateChksum (fillHeader h name type size) < 8 ^ 7 := calculateChksum_lt
  have hlen : (terminated (octal 7 (calculateChksum (fillHeader h name type size))) 8).length = 8 := by
    have hoctal := length_octal hlt
    rw [terminated_of_length_lt (by omega), List.length_append, hoctal]
    rfl
  have hfield : Field.chksum.bytes (madeHeader h name type size) =
      terminated (octal 7 (calculateChksum (fillHeader h name type size))) 8 := by
    have hslice := slice_overlay (fillHeader h name type size) 148
      (terminated (octal 7 (calculateChksum (fillHeader h name type size))) 8)
    rwa [hlen] at hslice
  rw [hfield, parseOctalField_octal (by decide) hlt (hlt.trans (by decide))]
  exact congrArg some calculateChksum_strlcpy.symm

theorem typeflag_madeHeader : madeHeader h name type size Field.typeflag.ofs = type.byte := by
  simp only [madeHeader, fillHeader, snprintfOctal]
  rw [strlcpy_of_out (by decide) (by decide), strlcpy_of_out (by decide) (by decide),
    strlcpy_of_out (by decide) (by decide), overlay_of_lt _ (by decide), strlcpy_of_out (by decide) (by decide)]
  rfl

theorem size_madeHeader :
    parseOctalField (Field.fileSize.bytes (madeHeader h name type size)) = some size.toNat := by
  have hlt : size.toNat < 8 ^ 11 := size.isLt.trans (by decide)
  have hlen : (terminated (octal 11 size.toNat) 12).length = 12 := by
    have hoctal := length_octal hlt
    rw [terminated_of_length_lt (by omega), List.length_append, hoctal]
    rfl
  have hfield : Field.fileSize.bytes (madeHeader h name type size) = terminated (octal 11 size.toNat) 12 := by
    simp only [Field.bytes, madeHeader, fillHeader, snprintfOctal]
    rw [slice_strlcpy_of_out (by decide) (by decide), slice_strlcpy_of_out (by decide) (by decide),
      slice_strlcpy_of_out (by decide) (by decide), slice_overlay_of_out (by decide),
      slice_strlcpy_of_out (by decide) (by decide), slice_overlay_of_out (Or.inl (by decide)),
      slice_strlcpy_of_out (by decide) (by decide)]
    exact (congrArg (slice _ _) hlen.symm).trans (slice_overlay _ _ _)
  rw [hfield, parseOctalField_octal (by decide) hlt size.isLt]

/-- What is before the mode is only written by the name. -/
theorem madeHeader_of_lt {p : ℕ} (hp : p < 100) :
    madeHeader h name type size p = strlcpy (overlay h 0 (List.replicate headerSize 0)) 0 name 100 p := by
  simp only [madeHeader, fillHeader, snprintfOctal, Field.name, Field.mode, Field.uid, Field.gid, Field.fileSize,
    Field.mtime, Field.chksum, Field.typeflag, Field.magic, Field.version, Field.uname, Field.gname]
  rw [strlcpy_of_out (by decide) (by omega), strlcpy_of_out (by decide) (by omega),
    strlcpy_of_out (by decide) (by omega), overlay_of_lt _ (by omega), strlcpy_of_out (by decide) (by omega),
      overlay_of_lt _ (by omega),
    strlcpy_of_out (by decide) (by omega), strlcpy_of_out (by decide) (by omega),
    strlcpy_of_out (by decide) (by omega), strlcpy_of_out (by decide) (by omega),
    strlcpy_of_out (by decide) (by omega)]

theorem overlay_zeros {p : ℕ} (hp : p < headerSize) : overlay h 0 (List.replicate headerSize 0) p = 0 := by
  rw [overlay_of_mem (Nat.zero_le p) (by rwa [List.length_replicate, Nat.sub_zero]), List.getElem_replicate]

theorem name_madeHeader (hname : 0 ∉ name) (hlen : name.length ≤ 99) :
    cString (Field.name.bytes (madeHeader h name type size)) = name := by
  have hfield : Field.name.bytes (madeHeader h name type size) =
      slice (overlay (overlay h 0 (List.replicate headerSize 0)) 0 (name ++ [0])) 0 100 := by
    refine slice_congr fun p _ hp => ?_
    have hp' : p < 100 := by simpa [Field.name] using hp
    rw [madeHeader_of_lt hp', strlcpy, terminated_of_length_lt (by omega)]
  have hsplit : 100 = (name ++ [0]).length + (99 - name.length) := by
    rw [List.length_append, List.length_singleton]
    omega
  have hkeep : ∀ b ∈ name, decide (b ≠ 0) = true := fun b hb => decide_eq_true fun hb0 => hname (hb0 ▸ hb)
  rw [hfield, hsplit, slice_append, slice_overlay, cString, List.append_assoc, List.takeWhile_append_of_pos hkeep]
  simp

/-- **The byte behind the name** is null. -/
theorem last_madeHeader (hlen : name.length ≤ 99) : madeHeader h name type size 99 = 0 := by
  rw [madeHeader_of_lt (by decide), strlcpy, terminated_of_length_lt (by omega)]
  rcases hlen.eq_or_lt with heq | hlt
  · rw [overlay_append, overlay_of_mem (by omega) (by simp [heq])]
    simp [heq]
  · rw [overlay_of_le (by rw [List.length_append, List.length_singleton]; omega), overlay_zeros (by decide)]

theorem prefix_madeHeader : madeHeader h name type size Field.namePrefix.ofs = 0 := by
  simp only [madeHeader, fillHeader, snprintfOctal]
  rw [strlcpy_of_out (by decide) (by decide), strlcpy_of_out (by decide) (by decide),
    strlcpy_of_out (by decide) (by decide), overlay_of_le (by decide), strlcpy_of_out (by decide) (by decide),
      overlay_of_le (show 156 + 1 ≤ 345 by decide),
    strlcpy_of_out (by decide) (by decide), strlcpy_of_out (by decide) (by decide),
    strlcpy_of_out (by decide) (by decide), strlcpy_of_out (by decide) (by decide),
    strlcpy_of_out (by decide) (by decide), strlcpy_of_out (by decide) (by decide), overlay_zeros (by decide)]

/-- **A header that is made is accepted**, with what it was made of. -/
theorem ustarParseHeader_madeHeader (hname : 0 ∉ name) (hlen : name.length ≤ 99) (htype : type ≠ UstarType.eof)
    (hsize : 0 ≤ size.toInt) : ustarParseHeader (madeHeader h name type size) =
      .ok ⟨some (stripAntisocialPrefixes name), type, if type = UstarType.directory then 0 else size⟩ := by
  set m := madeHeader h name type size with hm
  have hmagic : Field.magic.bytes m = ustar ++ [0] := magic_madeHeader
  have hversion : m 263 = 48 ∧ m 264 = 48 := by
    have hslice : slice m Field.version.ofs 2 = [48, 48] := version_madeHeader
    simpa [slice, List.range', Field.version] using hslice
  have hnonzero : (slice m 0 headerSize).all (· = 0) = false := by
    rw [List.all_eq_false]
    exact ⟨m 263, mem_slice.mpr ⟨263, by decide, rfl⟩, by rw [hversion.1]; decide⟩
  have hchksum : parseOctalField (Field.chksum.bytes m) = some (calculateChksum m) := chksum_madeHeader
  have hlast : m 99 = 0 := last_madeHeader hlen
  have hprefix : m Field.namePrefix.ofs = 0 := prefix_madeHeader
  have htf : m Field.typeflag.ofs = type.byte := typeflag_madeHeader
  have hnm : cString (Field.name.bytes m) = name := name_madeHeader hname hlen
  have hsz : parseOctalField (Field.fileSize.bytes m) = some size.toNat := size_madeHeader
  have hshort : ¬(m (Field.name.ofs + Field.name.size - 1) ≠ 0 ∨ m Field.namePrefix.ofs ≠ 0) := by
    rintro (h1 | h1)
    · exact h1 hlast
    · exact h1 hprefix
  have hfit : ¬2 ^ 31 - 1 < size.toNat := by
    have := BitVec.toInt_eq_toNat_cond size
    split_ifs at this <;> omega
  rw [ustarParseHeader, if_neg (by simp [hnonzero]), if_neg (not_not_intro hmagic),
    if_neg (by simp [Field.version, hversion]), hchksum]
  dsimp only
  rw [if_neg (not_not_intro rfl), if_neg hshort, htf, hnm, hsz]
  cases type with
  | regular =>
    dsimp only
    rw [if_neg (by decide), if_pos rfl, if_neg hfit, if_neg (by decide), BitVec.ofNat_toNat, BitVec.setWidth_eq]
  | directory =>
    rw [if_neg (by decide), if_neg (by decide), if_pos rfl]
  | eof => exact absurd rfl htype

end Made

/-- **A header that `ustar_make_header` makes** is parsed, to the stripped name, the type and the size. -/
theorem ustarParseHeader_ustarMakeHeader {type : UstarType} {size : BitVec 32} (hname : 0 ∉ name)
    (hsize : 0 ≤ size.toInt)
    (hmake : ustarMakeHeader name type size h = some (true, h')) :
    IsStripped name (stripAntisocialPrefixes name) ∧ ustarParseHeader h' =
      .ok ⟨some (stripAntisocialPrefixes name), type, if type = UstarType.directory then 0 else size⟩ := by
  obtain ⟨htype, hlen, rfl⟩ := ustarMakeHeader_ensures true h' hmake rfl
  have hparse := ustarParseHeader_madeHeader (h := h) (notMem_stripAntisocialPrefixes hname) hlen htype hsize
  rw [stripAntisocialPrefixes_idem] at hparse
  exact ⟨isStripped_stripAntisocialPrefixes name, hparse⟩

/-- The file `../a` of ten bytes. -/
theorem ustarParseHeader_ustarMakeHeader_a :
    IsStripped [46, 46, 47, 97] (stripAntisocialPrefixes [46, 46, 47, 97]) ∧
      ustarParseHeader (madeHeader (fun _ => 0) [97] .regular 10) =
        .ok ⟨some (stripAntisocialPrefixes [46, 46, 47, 97]), .regular,
          if UstarType.regular = .directory then 0 else 10⟩ :=
  ustarParseHeader_ustarMakeHeader (h := fun _ => 0) (by decide) (by decide) rfl

end Pintos.Kernel.Ustar
