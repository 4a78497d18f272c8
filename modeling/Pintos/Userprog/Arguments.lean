import Pintos.Lib.ByteMemory
import Pintos.Lib.Tokens
import Pintos.Userprog.UserMem

/-! # The arguments of a program

The end of `load`: the command line is copied below `PHYS_BASE`, `tokenize` cuts the copy in place and writes
the addresses of the tokens below it, and the first stack frame comes below these. The kernel reads and writes
the user memory of the process here, in its stack page. A loop that runs into `PHYS_BASE` is `none`. -/

namespace Pintos.Userprog.Arguments

open Pintos.Lib.ByteMemory Pintos.Lib.Words Pintos.Lib.Tokens
open Pintos.Userprog.UserMem (physBase pgSize)

/-- The delimiter `" "`. -/
def space : UInt8 := 32

def isSpace (c : UInt8) : Bool := c == space

/-- `ARGC_LIMIT`. -/
def argcLimit : ℕ := 100

/-! ### strtok_r -/

/-- `while (strchr (delimiters, *s) != NULL)`: the position of the first byte that is no delimiter, at most `left`
bytes on. The null byte is found in every string of delimiters, and ends the loop. -/
def skipDelimiters (byte : ℕ → UInt8) : (left s : ℕ) → Option ℕ
  | 0, _ => none
  | left + 1, s =>
    if byte s = 0 then some s else if byte s = space then skipDelimiters byte left (s + 1) else some s

/-- `while (strchr (delimiters, *s) == NULL)`. -/
def skipNonDelimiters (byte : ℕ → UInt8) : (left s : ℕ) → Option ℕ
  | 0, _ => none
  | left + 1, s => if byte s = 0 ∨ byte s = space then some s else skipNonDelimiters byte left (s + 1)

/-- What `strtok_r` returns and leaves. -/
structure Strtok where
  mem : Memory
  /-- The token, or NULL. -/
  token : Option ℕ
  savePtr : ℕ

/-- `strtok_r` from `s` on, a string or the saved position. -/
def strtokR (m : Memory) (s : ℕ) : Option Strtok :=
  (skipDelimiters m.byte (physBase - s) s).bind fun s =>
    if m.byte s = 0 then some ⟨m, none, s⟩
    else (skipNonDelimiters m.byte (physBase - s) s).map fun e =>
      if m.byte e ≠ 0 then ⟨m.store e [0], some s, e + 1⟩ else ⟨m, some s, e⟩

/-! ### process.c -/

/-- The loop of `tokenize` with its call of `strtok_r`, with the address of `argv`. -/
def tokenizeFrom (argv : ℕ) : (fuel i s : ℕ) → Memory → Option (Memory × ℕ)
  | 0, _, _, _ => none
  | fuel + 1, i, s, m =>
    (strtokR m s).bind fun r =>
      match r.token with
      | none => some (r.mem.storeWord (argv + 4 * i) 0, i)
      | some cursor =>
        tokenizeFrom argv fuel (i + 1) r.savePtr (r.mem.storeWord (argv + 4 * i) (BitVec.ofNat 32 cursor))

/-- `tokenize`; the memory and `*argc`. Its count of the spaces is not used. -/
def tokenize (m : Memory) (input argv : ℕ) : Option (Memory × ℕ) :=
  tokenizeFrom argv (physBase - input) 0 input m

/-- `strlcpy` of a string of the kernel. -/
def strlcpy (m : Memory) (dst : ℕ) (src : List UInt8) (size : ℕ) : Memory :=
  if 0 < size then
    let dstLen := if src.length < size - 1 then src.length else size - 1
    (m.store dst (src.take dstLen)).store (dst + dstLen) [0]
  else m

/-- `while (*cursor)`: adds the spaces of the string to `argc`. -/
def countSpaces (byte : ℕ → UInt8) : (left cursor argc : ℕ) → Option ℕ
  | 0, _, _ => none
  | left + 1, cursor, argc =>
    if byte cursor = 0 then some argc
    else countSpaces byte left (cursor + 1) (if byte cursor = space then argc + 1 else argc)

/-- `cmd_line_len` after the rounding. -/
def roundedLen (cmdLineLen : ℕ) : ℕ :=
  if cmdLineLen % 4 = 0 then cmdLineLen + 4 else cmdLineLen + 4 - cmdLineLen % 4

/-- The end of `load`, from `setup_stack` on, where `*esp` is `esp`: the new `*esp`, or no success if there are too
many arguments. -/
def passArguments (cmdLine : List UInt8) (esp : ℕ) (m : Memory) : Option (Memory × Option ℕ) :=
  let cmdLineLen := roundedLen cmdLine.length
  let cmdLineCopy := esp - cmdLineLen
  let m := strlcpy m cmdLineCopy cmdLine cmdLineLen
  (countSpaces m.byte (physBase - cmdLineCopy) cmdLineCopy 1).bind fun argc =>
    if argcLimit < argc then some (m, none)
    else
      let userStack := cmdLineCopy - (argc + 1) * 4
      (tokenize m cmdLineCopy userStack).map fun r =>
        (((r.1.storeWord (userStack - 4) (BitVec.ofNat 32 userStack)).storeWord (userStack - 8)
          (BitVec.ofNat 32 r.2)).storeWord (userStack - 12) 0xcafebebe, some (userStack - 12))

/-! ### The loops over a string -/

variable {m : Memory} {byte : ℕ → UInt8}

theorem skipDelimiters_eq : ∀ {str : List UInt8} {left s : ℕ}, IsStr byte s str → str.length < left →
    skipDelimiters byte left s = some (s + (str.takeWhile isSpace).length)
  | [], left + 1, s, h, _ => by
    rw [skipDelimiters, if_pos (show byte s = 0 from h)]
    rfl
  | c :: str, left + 1, s, ⟨hc, h0, h⟩, hl => by
    rw [List.length_cons] at hl
    rw [skipDelimiters, hc, if_neg h0]
    by_cases hsp : c = space
    · rw [if_pos hsp, skipDelimiters_eq h (by omega), List.takeWhile_cons_of_pos (by simp [isSpace, hsp]),
        List.length_cons]
      congr 1
      omega
    · rw [if_neg hsp, List.takeWhile_cons_of_neg (by simp [isSpace, hsp])]
      rfl

theorem skipNonDelimiters_eq : ∀ {str : List UInt8} {left s : ℕ}, IsStr byte s str → str.length < left →
    skipNonDelimiters byte left s = some (s + (str.takeWhile (!isSpace ·)).length)
  | [], left + 1, s, h, _ => by
    rw [skipNonDelimiters, if_pos (.inl h)]
    rfl
  | c :: str, left + 1, s, ⟨hc, h0, h⟩, hl => by
    rw [List.length_cons] at hl
    rw [skipNonDelimiters, hc]
    by_cases hsp : c = space
    · rw [if_pos (.inr hsp), List.takeWhile_cons_of_neg (by simp [isSpace, hsp])]
      rfl
    · rw [if_neg (by simp [h0, hsp]), skipNonDelimiters_eq h (by omega),
        List.takeWhile_cons_of_pos (by simp [isSpace, hsp]), List.length_cons]
      congr 1
      omega

theorem countSpaces_eq : ∀ {str : List UInt8} {left s argc : ℕ}, IsStr byte s str → str.length < left →
    countSpaces byte left s argc = some (argc + str.countP isSpace)
  | [], left + 1, s, argc, h, _ => by
    rw [countSpaces, if_pos (show byte s = 0 from h)]
    rfl
  | c :: str, left + 1, s, argc, ⟨hc, h0, h⟩, hl => by
    rw [List.length_cons] at hl
    rw [countSpaces, hc, if_neg h0, countSpaces_eq h (by omega), List.countP_cons]
    by_cases hsp : c = space
    · rw [if_pos hsp, if_pos (by simp [isSpace, hsp])]
      congr 1
      omega
    · rw [if_neg hsp, if_neg (by simp [isSpace, hsp]), Nat.add_zero]

/-! ### One token -/

/-- What `strtok_r` does with the string at `s` where it finds a token `t` with `rest` behind it. -/
structure Cuts (m : Memory) (s : ℕ) (str t rest : List UInt8) (r : Strtok) (p : ℕ) : Prop where
  token : r.token = some p
  isToken : IsStr r.mem.byte p t
  isRest : IsStr r.mem.byte r.savePtr rest
  start_le : s ≤ p ∧ s ≤ r.savePtr
  /-- The rest comes behind the token and its null byte, or it is empty. -/
  behind : p + t.length < r.savePtr ∨ rest = []
  end_le : p + t.length ≤ s + str.length ∧ r.savePtr + rest.length ≤ s + str.length
  frame : ∀ a, a < s ∨ s + str.length ≤ a → r.mem.byte a = m.byte a
  written : ∀ a ∈ r.mem.written, a ∈ m.written ∨ s ≤ a ∧ a < s + str.length

theorem strtokR_none {s : ℕ} {str : List UInt8} (h : IsStr m.byte s str) (hs : s + str.length < physBase)
    (hn : nextToken isSpace str = none) : ∃ e, strtokR m s = some ⟨m, none, e⟩ := by
  have hsplit := List.takeWhile_append_dropWhile (p := isSpace) (l := str)
  have hback : str.dropWhile isSpace = [] := by
    unfold nextToken at hn
    rcases hd : str.dropWhile isSpace with _ | ⟨c, back⟩
    · rfl
    · rw [hd] at hn
      cases hn
  rw [← hsplit] at h
  have h0 := h.drop
  rw [hback] at h0
  refine ⟨s + (str.takeWhile isSpace).length, ?_⟩
  rw [hsplit] at h
  rw [strtokR, skipDelimiters_eq h (by omega), Option.bind_some, if_pos (show m.byte _ = 0 from h0)]

theorem strtokR_some {s : ℕ} {str t rest : List UInt8} (h : IsStr m.byte s str) (hs : s + str.length < physBase)
    (hn : nextToken isSpace str = some (t, rest)) : ∃ r p, strtokR m s = some r ∧ Cuts m s str t rest r p := by
  have hskip := skipDelimiters_eq h (by omega : str.length < physBase - s)
  have hsplit := List.takeWhile_append_dropWhile (p := isSpace) (l := str)
  unfold nextToken at hn
  rcases hd : str.dropWhile isSpace with _ | ⟨c, back⟩ <;> rw [hd] at hn
  · cases hn
  obtain ⟨rfl, rfl⟩ := Prod.mk.inj (Option.some.inj hn)
  rw [hd] at hsplit
  set front := str.takeWhile isSpace with hfront
  set p := s + front.length with hp
  have hback : IsStr m.byte p (c :: back) := by
    rw [← hsplit] at h
    exact h.drop
  have hlen : front.length + (c :: back).length = str.length := by rw [← hsplit, List.length_append]
  have hne : ¬m.byte p = 0 := by
    rw [hback.1]
    exact hback.2.1
  have hend := skipNonDelimiters_eq hback (by omega : (c :: back).length < physBase - p)
  have hsplit2 := List.takeWhile_append_dropWhile (p := (!isSpace ·)) (l := c :: back)
  set t := (c :: back).takeWhile (!isSpace ·) with ht
  rw [strtokR, hskip, Option.bind_some, if_neg hne, hend, Option.map_some]
  have hlen2 : t.length + ((c :: back).dropWhile (!isSpace ·)).length = (c :: back).length := by
    rw [← List.length_append, hsplit2]
  rw [← hsplit2] at hback
  have hstop := hback.drop
  rcases hd2 : (c :: back).dropWhile (!isSpace ·) with _ | ⟨d, rest⟩ <;> rw [hd2] at hback hstop hlen2
  · -- the token ends at the end of the string
    have h0 : m.byte (p + t.length) = 0 := hstop
    rw [if_neg (not_not.mpr h0)]
    rw [List.append_nil] at hback
    refine ⟨_, p, rfl, rfl, hback, h0, ⟨by omega, by show s ≤ p + t.length; omega⟩, .inr rfl, ?_, fun _ _ => rfl,
      fun a ha => .inl ha⟩
    rw [List.length_nil] at hlen2
    exact ⟨by omega, by show p + t.length + 0 ≤ _; omega⟩
  · have h0 : m.byte (p + t.length) ≠ 0 := by
      rw [hstop.1]
      exact hstop.2.1
    rw [if_pos h0]
    rw [List.length_cons] at hlen2
    have hout : ∀ a, a < p + t.length ∨ p + t.length + 1 ≤ a → (m.store (p + t.length) [0]).byte a = m.byte a :=
      fun a ha => byte_store_of_out ha
    refine ⟨_, p, rfl, rfl, ?_, ?_, ⟨by omega, ?_⟩, .inl ?_, ⟨by omega, ?_⟩, ?_, ?_⟩
    · have hnull : (m.store (p + t.length) [0]).byte (p + t.length + 0) = 0 := byte_store_of_in (by decide)
      exact hback.cut (fun a _ h2 => hout a (.inl h2)) hnull
    · exact hstop.2.2.congr fun a h1 _ => hout a (.inr h1)
    · show s ≤ p + t.length + 1
      omega
    · show p + t.length < p + t.length + 1
      omega
    · show p + t.length + 1 + rest.length ≤ _
      omega
    · exact fun a ha => hout a (by omega)
    · intro a ha
      rcases mem_written_store.mp ha with ha | ⟨h1, h2⟩
      · exact .inl ha
      · rw [List.length_singleton] at h2
        exact .inr ⟨by omega, by omega⟩

/-! ### All tokens -/

/-- What `tokenize` leaves when it has found the tokens `ts` in the string at `s`, with `argv` filled from the
index `i` on. -/
structure Filled (argv i s : ℕ) (str : List UInt8) (ts : List (List UInt8)) (m m' : Memory) : Prop where
  args : ∀ j (hj : j < ts.length), s ≤ (wordOf m'.byte (argv + 4 * (i + j))).toNat ∧
    IsStr m'.byte (wordOf m'.byte (argv + 4 * (i + j))).toNat ts[j]
  last : wordOf m'.byte (argv + 4 * (i + ts.length)) = 0
  frame : ∀ a, a < argv + 4 * i ∨ argv + 4 * (i + ts.length + 1) ≤ a → a < s ∨ s + str.length ≤ a →
    m'.byte a = m.byte a
  written : ∀ a ∈ m'.written, a ∈ m.written ∨ (argv + 4 * i ≤ a ∧ a < argv + 4 * (i + ts.length + 1)) ∨
    (s ≤ a ∧ a < s + str.length)

theorem tokenizeFrom_none {argv i s fuel : ℕ} {str : List UInt8} (hfuel : 0 < fuel) (h : IsStr m.byte s str)
    (hs : s + str.length < physBase) (hn : nextToken isSpace str = none) :
    ∃ m', tokenizeFrom argv fuel i s m = some (m', i) ∧ Filled argv i s str [] m m' := by
  obtain ⟨fuel, rfl⟩ := Nat.exists_eq_succ_of_ne_zero hfuel.ne'
  obtain ⟨e, he⟩ := strtokR_none h hs hn
  refine ⟨m.storeWord (argv + 4 * i) 0, by rw [tokenizeFrom, he]; rfl, fun j hj => ?_, wordOf_storeWord, ?_, ?_⟩
  · simp at hj
  · intro a ha _
    exact byte_storeWord_of_out (by simp only [List.length_nil] at ha; omega)
  · intro a ha
    rcases mem_written_storeWord.mp ha with ha | ha
    · exact .inl ha
    · exact .inr (.inl ⟨ha.1, by simp only [List.length_nil]; omega⟩)

/-- One round of the loop before the others. -/
theorem Filled.cons {argv i s p : ℕ} {str t rest : List UInt8} {ts : List (List UInt8)} {r : Strtok} {m' : Memory}
    (hc : Cuts m s str t rest r p) (hs : s + str.length < physBase) (hargv : argv + 4 * (i + ts.length + 2) ≤ s)
    (hf : Filled argv (i + 1) r.savePtr rest ts (r.mem.storeWord (argv + 4 * i) (BitVec.ofNat 32 p)) m') :
    Filled argv i s str (t :: ts) m m' := by
  obtain ⟨hstart, hsave⟩ := hc.start_le
  obtain ⟨hend, hrest⟩ := hc.end_le
  set m₁ := r.mem.storeWord (argv + 4 * i) (BitVec.ofNat 32 p) with hm₁
  have hout : ∀ a, a < argv + 4 * i ∨ argv + 4 * i + 4 ≤ a → m₁.byte a = r.mem.byte a :=
    fun a ha => byte_storeWord_of_out ha
  have hslot : wordOf m'.byte (argv + 4 * i) = BitVec.ofNat 32 p := by
    have hstored : wordOf m₁.byte (argv + 4 * i) = BitVec.ofNat 32 p := wordOf_storeWord
    rw [← hstored]
    exact wordOf_congr fun k hk => hf.frame _ (by omega) (by omega)
  have htok : IsStr m'.byte p t := by
    refine hc.isToken.congr fun a h1 h2 => ?_
    rw [hf.frame a (by omega) ?_, hout a (by omega)]
    rcases hc.behind with hlt | rfl
    · exact .inl (by omega)
    · simp only [List.length_nil]
      omega
  refine ⟨?_, ?_, ?_, ?_⟩
  · rintro (_ | j) hj
    · have hp : p < 2 ^ 32 := by
        unfold physBase at hs
        omega
      rw [Nat.add_zero, hslot, BitVec.toNat_ofNat, Nat.mod_eq_of_lt hp]
      exact ⟨hstart, htok⟩
    · have h := hf.args j (by rw [List.length_cons] at hj; omega)
      rw [show i + 1 + j = i + (j + 1) by omega] at h
      exact ⟨hsave.trans h.1, h.2⟩
  · have h := hf.last
    rwa [show i + 1 + ts.length = i + (t :: ts).length by rw [List.length_cons]; omega] at h
  · intro a h1 h2
    rw [List.length_cons] at h1
    rw [hf.frame a (by omega) (by omega), hout a (by omega), hc.frame a h2]
  · intro a ha
    rw [List.length_cons]
    rcases hf.written a ha with ha | ha | ha
    · rcases mem_written_storeWord.mp ha with ha | ha
      · exact (hc.written a ha).imp_right .inr
      · exact .inr (.inl ⟨ha.1, by omega⟩)
    · exact .inr (.inl ⟨by omega, by omega⟩)
    · exact .inr (.inr ⟨by omega, by omega⟩)

/-- **The loop of `tokenize`**, by induction on the rounds. The addresses stay below the string. -/
theorem tokenizeFrom_eq {argv : ℕ} : ∀ {n i s fuel : ℕ} {str : List UInt8} {m : Memory}, str.length ≤ n → n < fuel →
    IsStr m.byte s str → s + str.length < physBase → argv + 4 * (i + (tokensN isSpace n str).length + 1) ≤ s →
    ∃ m', tokenizeFrom argv fuel i s m = some (m', i + (tokensN isSpace n str).length) ∧
      Filled argv i s str (tokensN isSpace n str) m m' := by
  intro n
  induction n with
  | zero =>
    intro i s fuel str m hn hfuel hstr hs _
    obtain rfl : str = [] := List.length_eq_zero_iff.mp (by omega)
    exact tokenizeFrom_none hfuel hstr hs rfl
  | succ n ih =>
    intro i s fuel str m hn hfuel hstr hs hargv
    rcases hnext : nextToken isSpace str with _ | ⟨t, rest⟩
    · have hnil : tokensN isSpace (n + 1) str = [] := by rw [tokensN, hnext]
      rw [hnil]
      exact tokenizeFrom_none (by omega) hstr hs hnext
    have hcons : tokensN isSpace (n + 1) str = t :: tokensN isSpace n rest := by rw [tokensN, hnext]
    obtain ⟨fuel, rfl⟩ := Nat.exists_eq_succ_of_ne_zero (by omega : fuel ≠ 0)
    obtain ⟨r, p, hr, hc⟩ := strtokR_some hstr hs hnext
    have hshort := nextToken_length hnext
    obtain ⟨hstart, hsave⟩ := hc.start_le
    obtain ⟨hend, hrest⟩ := hc.end_le
    rw [hcons, List.length_cons] at hargv
    have hstr' : IsStr (r.mem.storeWord (argv + 4 * i) (BitVec.ofNat 32 p)).byte r.savePtr rest :=
      hc.isRest.congr fun a h1 _ => byte_storeWord_of_out (by omega)
    obtain ⟨m', hm', hf⟩ := ih (i := i + 1) (by omega) (by omega : n < fuel) hstr' (by omega) (by omega)
    refine ⟨m', ?_, ?_⟩
    · rw [tokenizeFrom, hr, Option.bind_some, hc.token, hcons, List.length_cons,
        show i + ((tokensN isSpace n rest).length + 1) = i + 1 + (tokensN isSpace n rest).length by omega]
      exact hm'
    · rw [hcons]
      exact hf.cons hc hs (by omega)

/-! ### The stack on entry -/

theorem roundedLen_spec (n : ℕ) : n < roundedLen n ∧ roundedLen n ≤ n + 4 ∧ 4 ∣ roundedLen n := by
  unfold roundedLen
  split_ifs <;> omega

/-- `strlcpy` with enough room copies the whole string. -/
theorem isStr_strlcpy {dst size : ℕ} {src : List UInt8} (h0 : 0 ∉ src) (hsize : src.length < size) :
    IsStr (strlcpy m dst src size).byte dst src ∧
      ∀ a ∈ (strlcpy m dst src size).written, a ∈ m.written ∨ dst ≤ a ∧ a < dst + src.length + 1 := by
  have hlen : (if src.length < size - 1 then src.length else size - 1) = src.length := by
    split_ifs <;> omega
  have hcopy : strlcpy m dst src size = (m.store dst src).store (dst + src.length) [0] := by
    rw [strlcpy, if_pos (by omega)]
    simp only [hlen, List.take_length]
  rw [hcopy]
  constructor
  · refine isStr_store h0 fun i hi => ?_
    rcases Nat.lt_or_ge i src.length with hlt | hge
    · rw [byte_store_of_out (.inl (by omega)), byte_store_of_in hlt, List.getElem?_append_left hlt,
        List.getElem?_eq_getElem hlt]
      rfl
    · obtain rfl : i = src.length := by omega
      have hnull : ((m.store dst src).store (dst + src.length) [0]).byte (dst + src.length + 0) = 0 :=
        byte_store_of_in (by decide)
      rw [List.getElem?_append_right le_rfl, Nat.sub_self]
      exact hnull
  · intro a ha
    rcases mem_written_store.mp ha with ha | ha
    · rcases mem_written_store.mp ha with ha | ha
      · exact .inl ha
      · exact .inr ⟨ha.1, by omega⟩
    · rw [List.length_singleton] at ha
      exact .inr ⟨by omega, by omega⟩

/-- The maximal runs of the command line without spaces, in their order. -/
def runs (cmdLine : List UInt8) : List (List UInt8) := (cmdLine.splitOnP isSpace).filter (· ≠ [])

/-- **The stack on entry**, with `*esp`. -/
structure StackOk (cmdLine : List UInt8) (m : Memory) (esp : ℕ) : Prop where
  /-- A return address slot. -/
  returnAddress : wordOf m.byte esp = 0xcafebebe
  argc : (wordOf m.byte (esp + 4)).toNat = (runs cmdLine).length
  argv : ∀ i (hi : i < (runs cmdLine).length),
    IsStr m.byte (wordOf m.byte ((wordOf m.byte (esp + 8)).toNat + 4 * i)).toNat (runs cmdLine)[i]
  null : wordOf m.byte ((wordOf m.byte (esp + 8)).toNat + 4 * (runs cmdLine).length) = 0
  aligned : 4 ∣ esp
  inPage : ∀ a ∈ m.written, physBase - pgSize ≤ a ∧ a < physBase

/-- The three words below `argv`. -/
def firstFrame (m : Memory) (argv argc : ℕ) : Memory :=
  ((m.storeWord (argv - 4) (BitVec.ofNat 32 argv)).storeWord (argv - 8) (BitVec.ofNat 32 argc)).storeWord (argv - 12)
    0xcafebebe

theorem stackOk_of_filled {argv copy : ℕ} {cmdLine : List UInt8} {m₀ m₁ : Memory}
    (hf : Filled argv 0 copy cmdLine (runs cmdLine) m₀ m₁) (hlow : physBase - pgSize + 12 ≤ argv) (hdvd : 4 ∣ argv)
    (hroom : argv + 4 * ((runs cmdLine).length + 1) ≤ copy) (hcopy : copy + cmdLine.length < physBase)
    (hwritten : ∀ a ∈ m₀.written, copy ≤ a ∧ a < copy + cmdLine.length + 1) :
    StackOk cmdLine (firstFrame m₁ argv (runs cmdLine).length) (argv - 12) := by
  have hphys : physBase = 0xc0000000 := rfl
  have hpg : pgSize = 4096 := rfl
  have habove : ∀ a, argv ≤ a → (firstFrame m₁ argv (runs cmdLine).length).byte a = m₁.byte a := fun a ha => by
    rw [firstFrame, byte_storeWord_of_out (by omega), byte_storeWord_of_out (by omega),
      byte_storeWord_of_out (by omega)]
  have hword : ∀ a, argv ≤ a → wordOf (firstFrame m₁ argv (runs cmdLine).length).byte a = wordOf m₁.byte a :=
    fun a ha => wordOf_congr fun k _ => habove _ (by omega)
  have hargv : (wordOf (firstFrame m₁ argv (runs cmdLine).length).byte (argv - 12 + 8)).toNat = argv := by
    rw [show argv - 12 + 8 = argv - 4 by omega, firstFrame, wordOf_storeWord_of_out (by omega),
      wordOf_storeWord_of_out (by omega), wordOf_storeWord, BitVec.toNat_ofNat, Nat.mod_eq_of_lt (by omega)]
  refine ⟨wordOf_storeWord, ?_, fun i hi => ?_, ?_, by omega, fun a ha => ?_⟩
  · rw [show argv - 12 + 4 = argv - 8 by omega, firstFrame, wordOf_storeWord_of_out (by omega), wordOf_storeWord,
      BitVec.toNat_ofNat, Nat.mod_eq_of_lt (by omega)]
  · obtain ⟨hle, hstr⟩ := hf.args i hi
    rw [Nat.zero_add] at hle hstr
    rw [hargv, hword _ (by omega)]
    exact hstr.congr fun a h1 _ => habove a (by omega)
  · have hlast := hf.last
    rw [Nat.zero_add] at hlast
    rw [hargv, hword _ (by omega), hlast]
  · rcases mem_written_storeWord.mp ha with ha | ha
    · rcases mem_written_storeWord.mp ha with ha | ha
      · rcases mem_written_storeWord.mp ha with ha | ha
        · rcases hf.written a ha with ha | ha | ha
          · have := hwritten a ha
            omega
          · omega
          · omega
        · omega
      · omega
    · omega

/-- **The arguments are passed or refused**, whatever the stack page holds before: no loop leaves the page, and no
byte outside of it is stored to. -/
theorem passArguments_returns (byte : ℕ → UInt8) {cmdLine : List UInt8} (h0 : 0 ∉ cmdLine)
    (hlen : cmdLine.length ≤ 2047) : ∃ m r, passArguments cmdLine physBase ⟨byte, []⟩ = some (m, r) ∧
      (∀ a ∈ m.written, physBase - pgSize ≤ a ∧ a < physBase) ∧
      (cmdLine.countP isSpace < argcLimit → ∃ esp, r = some esp ∧ StackOk cmdLine m esp) := by
  obtain ⟨hround, hround', hdvd⟩ := roundedLen_spec cmdLine.length
  have hphys : physBase = 0xc0000000 := rfl
  have hpg : pgSize = 4096 := rfl
  have hlimit : argcLimit = 100 := rfl
  set copy := physBase - roundedLen cmdLine.length with hcopy
  obtain ⟨hstr, hwritten⟩ := isStr_strlcpy (m := ⟨byte, []⟩) h0 hround
  have hwritten0 : ∀ a ∈ (strlcpy ⟨byte, []⟩ copy cmdLine (roundedLen cmdLine.length)).written,
      copy ≤ a ∧ a < copy + cmdLine.length + 1 := fun a ha => (hwritten a ha).resolve_left List.not_mem_nil
  set m₀ := strlcpy ⟨byte, []⟩ copy cmdLine (roundedLen cmdLine.length) with hm₀
  have hcount : countSpaces m₀.byte (physBase - copy) copy 1 = some (1 + cmdLine.countP isSpace) :=
    countSpaces_eq hstr (by omega)
  set argc := 1 + cmdLine.countP isSpace with hargc
  set argv := copy - (argc + 1) * 4 with hargv
  by_cases hspaces : argcLimit < argc
  · refine ⟨m₀, none, ?_, fun a ha => ?_, fun h => by omega⟩
    · show (countSpaces m₀.byte (physBase - copy) copy 1).bind _ = _
      rw [hcount, Option.bind_some, if_pos hspaces]
    · have := hwritten0 a ha
      omega
  have hruns : tokensN isSpace cmdLine.length cmdLine = runs cmdLine := tokenize_eq_runs cmdLine
  have hcnt : (runs cmdLine).length ≤ argc := by
    have h : (runs cmdLine).length ≤ cmdLine.countP isSpace + 1 := by
      rw [← hruns]
      exact length_tokenize_le cmdLine
    omega
  have hroom : argv + 4 * ((runs cmdLine).length + 1) ≤ copy := by omega
  have htokens : argv + 4 * (0 + (tokensN isSpace cmdLine.length cmdLine).length + 1) ≤ copy := by
    rw [hruns]
    omega
  obtain ⟨m₁, hm₁, hf⟩ := tokenizeFrom_eq le_rfl (by omega : cmdLine.length < physBase - copy) hstr (by omega) htokens
  rw [hruns] at hm₁ hf
  rw [Nat.zero_add] at hm₁
  have hok : StackOk cmdLine (firstFrame m₁ argv (runs cmdLine).length) (argv - 12) :=
    stackOk_of_filled hf (by omega) (by omega) hroom (by omega) hwritten0
  refine ⟨firstFrame m₁ argv (runs cmdLine).length, some (argv - 12), ?_, hok.inPage, fun _ => ⟨argv - 12, rfl, hok⟩⟩
  show (countSpaces m₀.byte (physBase - copy) copy 1).bind _ = _
  rw [hcount, Option.bind_some, if_neg hspaces]
  show (tokenizeFrom argv (physBase - copy) 0 copy m₀).map _ = _
  rw [hm₁]
  rfl

/-- **Argument passing**, whatever the stack page holds before. -/
theorem stackOk_of_load (byte : ℕ → UInt8) {cmdLine : List UInt8} (h0 : 0 ∉ cmdLine)
    (hlen : cmdLine.length ≤ 2047) (hspaces : cmdLine.countP isSpace < argcLimit) :
    ∃ m esp, passArguments cmdLine physBase ⟨byte, []⟩ = some (m, some esp) ∧ StackOk cmdLine m esp := by
  obtain ⟨m, r, hrun, -, hok⟩ := passArguments_returns byte h0 hlen
  obtain ⟨esp, rfl, hstack⟩ := hok hspaces
  exact ⟨m, esp, hrun, hstack⟩

/-- `" ls  -l "`. -/
def lsLine : List UInt8 := [32, 108, 115, 32, 32, 45, 108, 32]

theorem stackOk_of_load_ls : ∃ m esp, passArguments lsLine physBase ⟨fun _ => 0, []⟩ = some (m, some esp) ∧
    StackOk lsLine m esp :=
  stackOk_of_load (fun _ => 0) (by decide) (by decide) (by decide)

/-- The four spaces around the two arguments make room for six addresses. -/
example : runs lsLine = [[108, 115], [45, 108]] := by decide

end Pintos.Userprog.Arguments
