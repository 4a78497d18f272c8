import Pintos.Lib.Tokens

/-! # Canonical paths (filesys/path.c)

`path_canonicalize` cuts a path at its slashes and resolves "." and "..": an absolute path keeps no
"..", a relative one at most a leading "..", because a further ".." pops the last token even when that is
itself a "..". `canon_path_serialize` writes a prefix of the tokens as an absolute path string, whether
the path was absolute or not; this string is the key of the dentry cache. Allocation never fails here. -/

namespace Pintos.Filesys.Path

open Pintos.Lib.Tokens

/-- A C string without its terminator. -/
abbrev CStr := List Char

def slash (c : Char) : Bool := c = '/'

/-- The token "..". -/
def dotdot : CStr := ['.', '.']

/-- The token ".". -/
def dot : CStr := ['.']

/-- `strtok_r(s, "/", &save)`: the next token and the new save pointer. -/
def strtokR (s : CStr) : Option (CStr × CStr) := nextToken slash s

/-- The tokens of a canonical path: "." is gone, ".." stands at most at the head, and there only in a
relative path. -/
structure Canonical (absolute : Bool) (tokens : List CStr) : Prop where
  isToken : ∀ t ∈ tokens, IsToken slash t
  not_dot : dot ∉ tokens
  not_dotdot_tail : dotdot ∉ tokens.tail
  not_dotdot : absolute = true → dotdot ∉ tokens

/-- `struct canon_path`. -/
structure CanonPath where
  absolute : Bool
  tokens : List CStr
  canonical : Canonical absolute tokens

namespace CanonPath

/-- `canon_path_get_tokens_cnt`. -/
def tokensCnt (cpath : CanonPath) : ℕ := cpath.tokens.length

/-- `canon_path_get_token`; an index outside the array is a bad pointer. -/
def getToken (cpath : CanonPath) (index : ℕ) : Option CStr := cpath.tokens[index]?

/-- `canon_path_get_leaf`. -/
def getLeaf (cpath : CanonPath) : Option CStr := cpath.tokens[cpath.tokensCnt - 1]?

/-- `canon_path_is_absolute`. -/
def isAbsolute (cpath : CanonPath) : Bool := cpath.absolute

end CanonPath

/-! ### Canonicalization -/

/-- One pass of the loop of `path_canonicalize`, on the list of the tokens kept so far. -/
def canonStep (absolute : Bool) (tokens : List CStr) (probe : CStr) : List CStr :=
  if probe = dotdot then
    if tokens ≠ [] then tokens.dropLast
    else if absolute then tokens
    else tokens ++ [dotdot]
  else if probe = dot then tokens
  else tokens ++ [probe]

theorem mem_canonStep {absolute : Bool} {tokens : List CStr} {probe t : CStr}
    (h : t ∈ canonStep absolute tokens probe) : t ∈ tokens ∨ t = probe := by
  unfold canonStep at h
  split_ifs at h with h1 h2 h3 h4
  · exact .inl (List.mem_of_mem_dropLast h)
  · exact .inl h
  · rcases List.mem_append.mp h with h | h
    · exact .inl h
    · right; rw [h1]; simpa using h
  · exact .inl h
  · simpa using h

/-- The loop keeps the tokens canonical. -/
theorem canonStep_canonical {absolute : Bool} {tokens : List CStr} {probe : CStr}
    (h : Canonical absolute tokens) (hp : IsToken slash probe) :
    Canonical absolute (canonStep absolute tokens probe) where
  isToken t ht := by
    rcases mem_canonStep ht with ht | rfl
    · exact h.isToken t ht
    · exact hp
  not_dot hd := by
    unfold canonStep at hd
    split_ifs at hd with h1 h2 h3 h4
    · exact h.not_dot (List.mem_of_mem_dropLast hd)
    · exact h.not_dot hd
    · simp only [List.mem_append, List.mem_singleton] at hd
      rcases hd with hd | hd
      · exact h.not_dot hd
      · exact absurd hd (by decide)
    · exact h.not_dot hd
    · simp only [List.mem_append, List.mem_singleton] at hd
      rcases hd with hd | hd
      · exact h.not_dot hd
      · exact h4 hd.symm
  not_dotdot_tail hd := by
    unfold canonStep at hd
    split_ifs at hd with h1 h2 h3 h4
    · rw [List.tail_dropLast] at hd
      exact h.not_dotdot_tail (List.mem_of_mem_dropLast hd)
    · exact h.not_dotdot_tail hd
    · rw [not_ne_iff.mp h2] at hd
      simp at hd
    · exact h.not_dotdot_tail hd
    · rcases tokens with _ | ⟨u, us⟩
      · simp at hd
      · simp only [List.cons_append, List.tail_cons, List.mem_append, List.mem_singleton] at hd
        rcases hd with hd | hd
        · exact h.not_dotdot_tail hd
        · exact h1 hd.symm
  not_dotdot ha hd := by
    subst ha
    unfold canonStep at hd
    split_ifs at hd with h1 h2 h3 h4
    · exact h.not_dotdot rfl (List.mem_of_mem_dropLast hd)
    · exact h.not_dotdot rfl hd
    · exact absurd rfl h3
    · exact h.not_dotdot rfl hd
    · simp only [List.mem_append, List.mem_singleton] at hd
      rcases hd with hd | hd
      · exact h.not_dotdot rfl hd
      · exact h1 hd.symm

/-- The loop of `path_canonicalize`: `probe = strtok_r(…)` until it returns a null pointer. Each token
is at least one character long, so as many passes as there are characters are enough. -/
def canonLoop (absolute : Bool) : ℕ → CStr → List CStr → List CStr
  | 0, _, tokens => tokens
  | n + 1, save, tokens =>
    match strtokR save with
    | none => tokens
    | some (probe, save') => canonLoop absolute n save' (canonStep absolute tokens probe)

theorem canonLoop_canonical {absolute : Bool} : ∀ (n : ℕ) (save : CStr) (tokens : List CStr),
    Canonical absolute tokens → Canonical absolute (canonLoop absolute n save tokens)
  | 0, _, _, h => h
  | n + 1, save, tokens, h => by
    unfold canonLoop
    rcases hs : strtokR save with _ | ⟨probe, save'⟩
    · exact h
    · exact canonLoop_canonical n save' _ (canonStep_canonical h (nextToken_isToken hs))

/-- The loop folds its step over the tokens of the path. -/
theorem canonLoop_eq_foldl {absolute : Bool} : ∀ (n : ℕ) (save : CStr) (tokens : List CStr),
    canonLoop absolute n save tokens = (tokensN slash n save).foldl (canonStep absolute) tokens
  | 0, _, _ => rfl
  | n + 1, save, tokens => by
    unfold canonLoop tokensN strtokR
    rcases nextToken slash save with _ | ⟨probe, save'⟩
    · rfl
    · exact canonLoop_eq_foldl n save' _

theorem canonical_nil (absolute : Bool) : Canonical absolute [] where
  isToken := by simp
  not_dot := by simp
  not_dotdot_tail := by simp
  not_dotdot := by simp

/-- The canonical path of the tokens of `path`. -/
def canonOf (absolute : Bool) (path : CStr) : CanonPath where
  absolute := absolute
  tokens := canonLoop absolute path.length path []
  canonical := canonLoop_canonical _ _ _ (canonical_nil absolute)

/-- `path_canonicalize`: the empty path fails, a leading slash makes the path absolute. -/
def pathCanonicalize (path : CStr) : Option CanonPath :=
  match path with
  | [] => none
  | '/' :: rest => some (canonOf true rest)
  | path => some (canonOf false path)

/-- A token that is no "." and no ".." is kept as it stands: on such tokens canonicalization is the
identity. -/
theorem foldl_canonStep {absolute : Bool} : ∀ (ts acc : List CStr), dot ∉ ts → dotdot ∉ ts →
    ts.foldl (canonStep absolute) acc = acc ++ ts
  | [], acc, _, _ => by simp
  | t :: ts, acc, h1, h2 => by
    have ht : canonStep absolute acc t = acc ++ [t] := by
      unfold canonStep
      rw [if_neg (by rintro rfl; simp at h2), if_neg (by rintro rfl; simp at h1)]
    rw [List.foldl_cons, ht, foldl_canonStep ts _ (fun h => h1 (by simp [h]))
      (fun h => h2 (by simp [h])), List.append_assoc, List.singleton_append]

/-! ### Serialization -/

/-- The second loop of `canon_path_serialize`: tokens with a slash between them. -/
def serializeLoop : List CStr → CStr
  | [] => []
  | [t] => t
  | t :: ts => t ++ '/' :: serializeLoop ts

/-- `canon_path_serialize`: the first `tokens_cnt - outer_level` tokens as an absolute path. -/
def canonPathSerialize (cpath : CanonPath) (outerLevel : ℕ) : Option CStr :=
  if cpath.tokensCnt ≤ outerLevel then none
  else some ('/' :: serializeLoop (cpath.tokens.take (cpath.tokensCnt - outerLevel)))

theorem slash_cons_serializeLoop : ∀ (ts : List CStr), ts ≠ [] →
    '/' :: serializeLoop ts = joinWith '/' ts
  | [], h => absurd rfl h
  | [t], _ => by simp [serializeLoop]
  | t :: u :: us, _ => by
    rw [serializeLoop, slash_cons_serializeLoop (u :: us) (by simp), joinWith_cons t]
    simp

/-- The tokens a serialized path stands for: those kept by `outer_level`. -/
def CanonPath.outer (cpath : CanonPath) (outerLevel : ℕ) : List CStr :=
  cpath.tokens.take (cpath.tokensCnt - outerLevel)

theorem canonPathSerialize_eq (cpath : CanonPath) (outerLevel : ℕ) :
    canonPathSerialize cpath outerLevel =
      if cpath.tokensCnt ≤ outerLevel then none
      else some (joinWith '/' (cpath.outer outerLevel)) := by
  unfold canonPathSerialize
  split_ifs with h
  · rfl
  · rw [slash_cons_serializeLoop, CanonPath.outer]
    intro h0
    have := congrArg List.length h0
    simp only [List.length_take, List.length_nil, CanonPath.tokensCnt] at this h
    omega

/-- **Round trip**: the tokens of a serialized path are the tokens it was made of. -/
theorem tokenize_serialize {cpath : CanonPath} {outerLevel : ℕ} {key : CStr}
    (h : canonPathSerialize cpath outerLevel = some key) :
    tokenize slash key = cpath.outer outerLevel := by
  rw [canonPathSerialize_eq] at h
  split_ifs at h
  obtain rfl := by simpa using h
  exact tokenize_joinWith (by decide) _ fun t ht =>
    cpath.canonical.isToken t (List.mem_of_mem_take ht)

/-- Serializing drops the difference between absolute and relative paths only. -/
theorem canonPathSerialize_injective {c d : CanonPath} {i j : ℕ} {key : CStr}
    (hc : canonPathSerialize c i = some key) (hd : canonPathSerialize d j = some key) :
    c.outer i = d.outer j := by
  rw [← tokenize_serialize hc, tokenize_serialize hd]

example : (pathCanonicalize ['/', 'a', '/', '.', '.', '/', '.', '.', '/', 'b', '/']).map
    CanonPath.tokens = some [['b']] := by decide

example : (pathCanonicalize ['.', '.', '/', '.', '.', '/', '.', '.']).map
    CanonPath.tokens = some [dotdot] := by decide

end Pintos.Filesys.Path
