import Pintos.Filesys.Path

/-! # The buffer of canon_path_serialize

`canon_path_serialize` computes the length of its output in one loop and writes the output in another. What
it writes is the serialized path and a null byte, one byte after the other, and it fits; reading the path
back gives the tokens it was made of. So the strings that the dentry cache is keyed with are equal only for
equal tokens. A path fits in memory, so the sums of lengths do not wrap around. -/

namespace Pintos.Filesys.Serialize

open Pintos.Lib.Tokens
open Pintos.Filesys.Path

/-- The null byte at the end of a C string. -/
def nul : Char := Char.ofNat 0

/-- A byte stored at an offset of the buffer. -/
abbrev Byte := ℕ × Char

/-- The loop that adds up `out_length`. -/
def outLengthFrom : ℕ → List CStr → ℕ
  | outLength, [] => outLength
  | outLength, t :: ts => outLengthFrom (outLength + t.length + 1) ts

/-- The bytes of `memcpy` to `offset`. -/
def copyAt : ℕ → CStr → List Byte
  | _, [] => []
  | offset, c :: cs => (offset, c) :: copyAt (offset + 1) cs

/-- The loop that writes the tokens, and the null byte after it. -/
def writeFrom : ℕ → List CStr → List Byte
  | offset, [] => [(offset, nul)]
  | offset, t :: ts =>
    copyAt offset t ++
      if ts ≠ [] then (offset + t.length, '/') :: writeFrom (offset + t.length + 1) ts
      else writeFrom (offset + t.length) ts

/-- What `canon_path_serialize` does with its buffer. -/
structure Buffer where
  /-- The argument of `malloc`. -/
  size : ℕ
  /-- The bytes written, in their order. -/
  writes : List Byte
  /-- `*out_length_`. -/
  outLength : ℕ

/-- `canon_path_serialize` with its buffer. -/
def serializeBuffer (cpath : CanonPath) (outerLevel : ℕ) : Option Buffer :=
  if cpath.tokensCnt ≤ outerLevel then none
  else
    let tokens := cpath.tokens.take (cpath.tokensCnt - outerLevel)
    let outLength := outLengthFrom 1 tokens
    some ⟨outLength + 1, (0, '/') :: writeFrom 1 tokens, outLength⟩

/-! ### What is written -/

theorem copyAt_append : ∀ (offset : ℕ) (a b : CStr),
    copyAt offset (a ++ b) = copyAt offset a ++ copyAt (offset + a.length) b
  | _, [], _ => rfl
  | offset, c :: cs, b => by
    have h : offset + 1 + cs.length = offset + (c :: cs).length := by simp; omega
    rw [List.cons_append, copyAt, copyAt_append (offset + 1) cs b, h]
    rfl

theorem lt_of_mem_copyAt : ∀ {offset : ℕ} {a : CStr} {b : Byte}, b ∈ copyAt offset a →
    b.1 < offset + a.length
  | offset, c :: cs, b, h => by
    rw [List.length_cons]
    rcases List.mem_cons.mp h with rfl | h
    · show offset < _
      omega
    · have := lt_of_mem_copyAt h
      omega

theorem serializeLoop_cons (t u : CStr) (us : List CStr) :
    serializeLoop (t :: u :: us) = t ++ '/' :: serializeLoop (u :: us) := rfl

/-- The loop writes the string that the tokens are joined to. -/
theorem writeFrom_eq : ∀ (offset : ℕ) (ts : List CStr),
    writeFrom offset ts = copyAt offset (serializeLoop ts ++ [nul])
  | offset, [] => rfl
  | offset, [t] => by
    rw [serializeLoop, copyAt_append, writeFrom, if_neg (by simp)]
    rfl
  | offset, t :: u :: us => by
    rw [writeFrom, if_pos (by simp), writeFrom_eq (offset + t.length + 1) (u :: us), serializeLoop_cons,
      List.append_assoc, copyAt_append offset t]
    rfl

theorem outLengthFrom_eq : ∀ (n : ℕ) (ts : List CStr), ts ≠ [] →
    outLengthFrom n ts = n + (serializeLoop ts).length + 1
  | _, [], h => absurd rfl h
  | n, [t], _ => by
    rw [outLengthFrom, outLengthFrom, serializeLoop]
  | n, t :: u :: us, _ => by
    rw [outLengthFrom, outLengthFrom_eq _ (u :: us) (by simp), serializeLoop_cons, List.length_append,
      List.length_cons]
    omega

theorem take_ne_nil {cpath : CanonPath} {k : ℕ} (hk : k < cpath.tokensCnt) :
    cpath.tokens.take (cpath.tokensCnt - k) ≠ [] := by
  intro h
  have hlen := congrArg List.length h
  rw [List.length_take, List.length_nil] at hlen
  unfold CanonPath.tokensCnt at hk hlen
  omega

/-- **The buffer** holds the serialized path and its null byte, and is one byte longer. -/
theorem serializeBuffer_eq {cpath : CanonPath} {k : ℕ} (hk : k < cpath.tokensCnt) :
    ∃ key, canonPathSerialize cpath k = some key ∧
      serializeBuffer cpath k = some ⟨key.length + 2, copyAt 0 (key ++ [nul]), key.length + 1⟩ := by
  refine ⟨_, if_neg (by omega), ?_⟩
  unfold serializeBuffer
  rw [if_neg (by omega)]
  simp only [writeFrom_eq, outLengthFrom_eq 1 _ (take_ne_nil hk), List.length_cons]
  have hlen : ∀ n : ℕ, 1 + n + 1 = n + 1 + 1 := fun n => by omega
  rw [hlen]
  rfl

/-! ### Reading a serialized path back -/

/-- A serialized path of tokens other than ".." canonicalizes to these tokens. -/
theorem pathCanonicalize_serialize {cpath : CanonPath} {k : ℕ} {key : CStr}
    (hkey : canonPathSerialize cpath k = some key) (hdd : dotdot ∉ cpath.outer k) :
    ∃ c, pathCanonicalize key = some c ∧ c.isAbsolute = true ∧ c.tokens = cpath.outer k := by
  have htokens := tokenize_serialize hkey
  unfold canonPathSerialize at hkey
  split_ifs at hkey
  obtain rfl := by simpa using hkey
  refine ⟨_, rfl, rfl, ?_⟩
  -- the scan of the loop starts behind the first slash
  have hscan : ∀ s : CStr, tokensN slash s.length s = tokenize slash ('/' :: s) := fun s => by
    rw [tokenize, tokensN_of_le s.length (s.length + 1) s le_rfl (by omega), List.length_cons]
    unfold tokensN
    rw [nextToken_sep (by decide)]
  have hdot : dot ∉ cpath.outer k := fun h => cpath.canonical.not_dot (List.mem_of_mem_take h)
  show canonLoop true _ _ [] = _
  rw [canonLoop_eq_foldl, hscan, htokens, foldl_canonStep _ _ hdot hdd, List.nil_append]

/-- **Serialized paths are faithful keys.** For an absolute path and each level below its number of tokens,
the writes stay in the buffer, the key canonicalizes to the absolute path of the tokens that are kept, and two
keys are equal exactly if these tokens are. -/
theorem serialize_faithful {c : CanonPath} (habs : c.isAbsolute = true) {k : ℕ}
    (hk : k < c.tokensCnt) :
    ∃ key buffer, canonPathSerialize c k = some key ∧ serializeBuffer c k = some buffer ∧
      buffer.size = buffer.outLength + 1 ∧ (∀ b ∈ buffer.writes, b.1 < buffer.size) ∧
      buffer.writes = copyAt 0 (key ++ [nul]) ∧
      (∃ c', pathCanonicalize key = some c' ∧ c'.isAbsolute = true ∧
        c'.tokens = c.tokens.take (c.tokensCnt - k)) ∧
      ∀ d j key', d.isAbsolute = true → j < d.tokensCnt → canonPathSerialize d j = some key' →
        (key = key' ↔ c.tokens.take (c.tokensCnt - k) = d.tokens.take (d.tokensCnt - j)) := by
  obtain ⟨key, hkey, hbuffer⟩ := serializeBuffer_eq hk
  have hdd : dotdot ∉ c.outer k := fun h =>
    c.canonical.not_dotdot habs (List.mem_of_mem_take h)
  refine ⟨key, _, hkey, hbuffer, rfl, fun b hb => ?_, rfl, pathCanonicalize_serialize hkey hdd, ?_⟩
  · have hlt := lt_of_mem_copyAt hb
    rw [List.length_append, List.length_singleton] at hlt
    show b.1 < key.length + 2
    omega
  · intro d j key' _ hj hkey'
    constructor
    · rintro rfl
      exact canonPathSerialize_injective hkey hkey'
    · intro h
      rw [canonPathSerialize_eq, if_neg (by omega)] at hkey hkey'
      have houter : c.outer k = d.outer j := h
      rw [houter] at hkey
      exact Option.some.inj (hkey.symm.trans hkey')

/-- The path "/a/./b/../c" without its last token. -/
theorem serialize_faithful_ac :
    ∃ key buffer, canonPathSerialize (canonOf true ['a', '/', '.', '/', 'b', '/', '.', '.', '/', 'c']) 1
        = some key ∧
      serializeBuffer (canonOf true ['a', '/', '.', '/', 'b', '/', '.', '.', '/', 'c']) 1 = some buffer ∧
      (∀ b ∈ buffer.writes, b.1 < buffer.size) ∧
      ∃ c', pathCanonicalize key = some c' ∧ c'.tokens = [['a']] := by
  obtain ⟨key, buffer, hkey, hbuffer, -, hin, -, ⟨c', hc', -, htokens⟩, -⟩ :=
    serialize_faithful (c := canonOf true ['a', '/', '.', '/', 'b', '/', '.', '.', '/', 'c']) rfl
      (k := 1) (by decide)
  exact ⟨key, buffer, hkey, hbuffer, hin, c', hc', htokens⟩

end Pintos.Filesys.Serialize
