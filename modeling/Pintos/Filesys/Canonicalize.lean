import Pintos.Filesys.CacheTransparency

/-! # What a canonical path means

A path is walked component by component: "." stays, ".." goes to the stored parent, a name goes to the child.
`path_canonicalize` cancels a name against the ".." behind it, which is right in a tree. But it also cancels a
".." of a relative path against the ".." behind it: of the levels that the path climbs above the current
directory, only the last odd one is kept. This file says exactly when the canonical path still leads to the
same directory. -/

namespace Pintos.Filesys.Canonicalize

open Pintos.Lib.Walks Pintos.Lib.Tokens
open Pintos.Filesys.Path Pintos.Filesys.DentryCache Pintos.Filesys.DirState
open Pintos.Filesys.DirTree Pintos.Filesys.CacheTransparency

/-- One component of a path. -/
def plainStep (inodes : Inodes) (d : Sector) (component : CStr) : Option Sector :=
  if component = dot then some d else stepDir inodes d component

/-- The plain walk along the components of a path. -/
def plainWalk (inodes : Inodes) (d : Sector) (components : List CStr) : Option Sector :=
  walk (plainStep inodes) d components

/-- Where a path starts: at the root if it has a leading slash, else in the current directory. -/
def startOf (path : CStr) (cwd : Sector) : Sector :=
  if path.head? = some '/' then rootDirSector else cwd

/-- The directory hangs below the root. -/
def InTree (inodes : Inodes) (d : Sector) : Prop :=
  ∃ names, walk (childDir inodes) rootDirSector names = some d

/-- How many levels the components climb above their start, with `n` names to go back first. -/
def climbs : ℕ → List CStr → ℕ
  | _, [] => 0
  | n, c :: cs =>
    if c = dotdot then climbs (n - 1) cs + (if n = 0 then 1 else 0)
    else if c = dot then climbs n cs
    else climbs (n + 1) cs

/-- The names that are left after the climb. -/
def names : List CStr → List CStr → List CStr
  | ns, [] => ns
  | ns, c :: cs =>
    if c = dotdot then names ns.dropLast cs
    else if c = dot then names ns cs
    else names (ns ++ [c]) cs

/-- The tokens that `path_canonicalize` keeps of `k` levels upwards. -/
def dotdots (k : ℕ) : List CStr := if k % 2 = 1 then [dotdot] else []

/-! ### What canonicalization computes -/

theorem climbs_dotdot_zero (cs : List CStr) : climbs 0 (dotdot :: cs) = climbs 0 cs + 1 := rfl

theorem climbs_dotdot_succ (n : ℕ) (cs : List CStr) :
    climbs (n + 1) (dotdot :: cs) = climbs n cs := rfl

/-- An absolute path drops what it climbs. -/
theorem foldl_absolute : ∀ (cs ns : List CStr), cs.foldl (canonStep true) ns = names ns cs
  | [], _ => rfl
  | c :: cs, ns => by
    rw [List.foldl_cons, foldl_absolute cs]
    unfold canonStep
    rw [names]
    by_cases hdd : c = dotdot
    · rw [if_pos hdd, if_pos hdd]
      rcases ns with _ | ⟨n, ns⟩
      · rfl
      · rw [if_pos (by simp)]
    · rw [if_neg hdd, if_neg hdd]
      by_cases hd : c = dot
      · rw [if_pos hd, if_pos hd]
      · rw [if_neg hd, if_neg hd]

/-- A relative path keeps of its climb whether it is odd. -/
theorem foldl_relative : ∀ (cs : List CStr) (k : ℕ) (ns : List CStr),
    cs.foldl (canonStep false) (dotdots k ++ ns) = dotdots (k + climbs ns.length cs) ++ names ns cs
  | [], _, _ => rfl
  | c :: cs, k, ns => by
    rw [List.foldl_cons]
    by_cases hdd : c = dotdot
    · subst hdd
      rw [names, if_pos rfl]
      rcases List.eq_nil_or_concat ns with rfl | ⟨ns, n, rfl⟩
      · have hstep : canonStep false (dotdots k ++ []) dotdot = dotdots (k + 1) ++ [] := by
          unfold dotdots
          rcases Nat.mod_two_eq_zero_or_one k with hk | hk
          · rw [if_neg (by omega), if_pos (by omega)]
            rfl
          · rw [if_pos hk, if_neg (by omega)]
            rfl
        have hk : k + 1 + climbs 0 cs = k + (climbs 0 cs + 1) := by omega
        rw [hstep, foldl_relative cs (k + 1) [], List.length_nil, climbs_dotdot_zero, hk]
        rfl
      · have hstep : canonStep false (dotdots k ++ (ns ++ [n])) dotdot = dotdots k ++ ns := by
          unfold canonStep
          rw [if_pos rfl, if_pos (by simp), ← List.append_assoc, List.dropLast_concat]
        rw [List.concat_eq_append, hstep, foldl_relative cs k ns, List.length_append,
          List.length_singleton, climbs_dotdot_succ, List.dropLast_concat]
    · by_cases hd : c = dot
      · have hstep : canonStep false (dotdots k ++ ns) c = dotdots k ++ ns := by
          unfold canonStep
          rw [if_neg hdd, if_pos hd]
        rw [hstep, foldl_relative cs k ns, names, if_neg hdd, if_pos hd, climbs, if_neg hdd, if_pos hd]
      · have hstep : canonStep false (dotdots k ++ ns) c = dotdots k ++ (ns ++ [c]) := by
          unfold canonStep
          rw [if_neg hdd, if_neg hd, List.append_assoc]
        rw [hstep, foldl_relative cs k (ns ++ [c]), names, if_neg hdd, if_neg hd, climbs, if_neg hdd,
          if_neg hd, List.length_append, List.length_singleton]

theorem not_dotdot_names : ∀ (cs ns : List CStr), dotdot ∉ ns → dotdot ∉ names ns cs
  | [], _, h => h
  | c :: cs, ns, h => by
    rw [names]
    split_ifs with hdd hd
    · exact not_dotdot_names cs _ fun hm => h (List.mem_of_mem_dropLast hm)
    · exact not_dotdot_names cs _ h
    · refine not_dotdot_names cs _ fun hm => ?_
      rcases List.mem_append.mp hm with hm | hm
      · exact h hm
      · exact hdd (List.mem_singleton.mp hm).symm

/-! ### Where the walks lead -/

section Tree

variable {inodes : Inodes} (ht : TreeWf inodes)
include ht

theorem parentSector_root : parentSector inodes rootDirSector = rootDirSector := by
  obtain ⟨es, h⟩ := ht.root
  simp [parentSector, h, Inode.parent]

omit ht in
theorem parentSector_eq {d p : Sector} (h : parentDir inodes d = some p) :
    parentSector inodes d = p := by
  obtain ⟨⟨es, hd⟩, -⟩ := parentDir_some h
  simp [parentSector, hd, Inode.parent]

theorem parentDir_child {d c : Sector} {name : CStr} (h : childDir inodes d name = some c) :
    parentDir inodes c = some d := by
  obtain ⟨-, -, -, -, -, p, es, hc⟩ := childDir_some h
  have hp : parentSector inodes c = d := ht.rooted.parent_of h
  rw [ht.parentDir_eq hc, ← hp]
  simp [parentSector, hc, Inode.parent]

/-- **The plain walk** climbs, then goes down the names that are left. -/
theorem plainWalk_spec : ∀ (cs : List CStr) {b x d : Sector} {ns : List CStr},
    walk (childDir inodes) b ns = some x → plainWalk inodes x cs = some d →
    walk (childDir inodes) ((parentSector inodes)^[climbs ns.length cs] b) (names ns cs) = some d
  | [], b, x, d, ns, hx, hd => by
    obtain rfl : x = d := Option.some.inj hd
    exact hx
  | c :: cs, b, x, d, ns, hx, hd => by
    obtain ⟨y, hy, hd⟩ : ∃ y, plainStep inodes x c = some y ∧ plainWalk inodes y cs = some d :=
      Option.bind_eq_some_iff.mp hd
    have ih := fun {b' : Sector} {ns' : List CStr} (h : walk (childDir inodes) b' ns' = some y) =>
      plainWalk_spec cs h hd
    unfold plainStep stepDir at hy
    unfold names climbs
    by_cases hdd : c = dotdot
    · subst hdd
      rw [if_neg (by decide), if_pos rfl] at hy
      rw [if_pos rfl, if_pos rfl]
      rcases List.eq_nil_or_concat ns with rfl | ⟨ns, n, rfl⟩
      · obtain rfl : b = x := Option.some.inj hx
        have hup : parentSector inodes b = y := parentSector_eq hy
        have hnil : walk (childDir inodes) y [] = some y := rfl
        have hrest := ih hnil
        rw [← hup, ← Function.iterate_succ_apply] at hrest
        exact hrest
      · rw [List.concat_eq_append] at hx ⊢
        obtain ⟨u, hu, hn⟩ := Option.bind_eq_some_iff.mp (walk_snoc b ns n ▸ hx)
        obtain rfl : u = y := Option.some.inj ((parentDir_child ht hn).symm.trans hy)
        rw [List.length_append, List.length_singleton, List.dropLast_concat]
        exact ih hu
    · rw [if_neg hdd, if_neg hdd]
      by_cases hdot : c = dot
      · rw [if_pos hdot] at hy
        rw [if_pos hdot, if_pos hdot]
        obtain rfl : x = y := Option.some.inj hy
        exact ih hx
      · rw [if_neg hdot, if_neg hdd] at hy
        rw [if_neg hdot, if_neg hdot]
        have hsnoc : walk (childDir inodes) b (ns ++ [c]) = some y := by
          rw [walk_snoc, hx]
          exact hy
        have hrest := ih hsnoc
        rwa [List.length_append, List.length_singleton] at hrest

/-- The tokens of a climb lead one level up if the climb is odd. -/
theorem walkDir_dotdots {d : Sector} (hd : IsDirAt inodes d) (k : ℕ) (ns : List CStr)
    (hns : dotdot ∉ ns) : walkDir inodes d (dotdots k ++ ns) =
      walk (childDir inodes) ((parentSector inodes)^[k % 2] d) ns := by
  unfold dotdots
  rcases Nat.mod_two_eq_zero_or_one k with hk | hk <;> rw [hk]
  · rw [if_neg (by decide), List.nil_append, walkDir_eq_childDir hns]
    rfl
  · obtain ⟨p, es, hd⟩ := hd
    have hp := ht.parentDir_eq hd
    have hstep : stepDir inodes d dotdot = some p := by rw [stepDir, if_pos rfl, hp]
    rw [if_pos rfl, List.singleton_append, walkDir, walk_cons, hstep]
    show walkDir inodes p ns = walk (childDir inodes) (parentSector inodes d) ns
    rw [walkDir_eq_childDir hns, parentSector_eq hp]

theorem InTree.isDirAt {d : Sector} (h : InTree inodes d) : IsDirAt inodes d := by
  obtain ⟨ns, h⟩ := h
  exact walk_induct (fun _ _ _ _ hc => (childDir_some hc).choose_spec.choose_spec.2.2.2) _ ns
    ht.isDirAt_root h

theorem InTree.parentSector {d : Sector} (h : InTree inodes d) :
    InTree inodes (parentSector inodes d) := by
  obtain ⟨ns, h⟩ := h
  rcases List.eq_nil_or_concat ns with rfl | ⟨ns, n, rfl⟩
  · obtain rfl := Option.some.inj h
    rw [parentSector_root ht]
    exact ⟨[], rfl⟩
  · rw [List.concat_eq_append] at h
    obtain ⟨u, hu, hn⟩ := Option.bind_eq_some_iff.mp (walk_snoc _ ns n ▸ h)
    rw [ht.rooted.parent_of hn]
    exact ⟨ns, hu⟩

/-- Of a climb, only whether it is odd may count: exactly for a climb of at most one level, or where what is
left of it ends at the root. -/
theorem iterate_mod_two_iff {d : Sector} (hd : InTree inodes d) (k : ℕ) :
    (parentSector inodes)^[k % 2] d = (parentSector inodes)^[k] d ↔
      k ≤ 1 ∨ d = rootDirSector ∨ k % 2 = 1 ∧ parentDir inodes d = some rootDirSector := by
  have hroot := parentSector_root ht
  have hsplit : (parentSector inodes)^[k] d =
      (parentSector inodes)^[2 * (k / 2)] ((parentSector inodes)^[k % 2] d) := by
    rw [← Function.iterate_add_apply, Nat.div_add_mod]
  have hbase : InTree inodes ((parentSector inodes)^[k % 2] d) := by
    rcases Nat.mod_two_eq_zero_or_one k with hk | hk <;> rw [hk]
    · exact hd
    · exact hd.parentSector ht
  have hone : parentDir inodes d = some rootDirSector ↔ parentSector inodes d = rootDirSector := by
    obtain ⟨p, es, hp⟩ := hd.isDirAt ht
    rw [ht.parentDir_eq hp, parentSector_eq (ht.parentDir_eq hp)]
    exact ⟨Option.some.inj, congrArg some⟩
  rw [hsplit, hone]
  constructor
  · intro h
    rcases Nat.lt_or_ge 1 k with hk | hk
    · right
      obtain ⟨ns, hns⟩ := hbase
      have hv := ht.rooted.eq_root_of_iterate hroot hns (n := 2 * (k / 2)) (by omega) h.symm
      rcases Nat.mod_two_eq_zero_or_one k with h2 | h2 <;> rw [h2] at hv
      · exact .inl hv
      · exact .inr ⟨h2, hv⟩
    · exact .inl hk
  · rintro (hk | rfl | ⟨h2, hp⟩)
    · rw [show k / 2 = 0 by omega]
      rfl
    · rw [Function.iterate_fixed hroot, Function.iterate_fixed hroot]
    · rw [h2]
      show parentSector inodes d = _
      rw [Function.iterate_one, hp, Function.iterate_fixed hroot]

end Tree

/-! ### The canonical path -/

theorem tokens_absolute (rest : CStr) :
    (canonOf true rest).tokens = names [] (tokenize slash ('/' :: rest)) := by
  have hscan : tokensN slash rest.length rest = tokenize slash ('/' :: rest) := by
    rw [tokenize, tokensN_of_le rest.length (rest.length + 1) rest le_rfl (by omega),
      List.length_cons]
    unfold tokensN
    rw [nextToken_sep (by decide)]
  show canonLoop true _ _ [] = _
  rw [canonLoop_eq_foldl, hscan, foldl_absolute]

theorem tokens_relative (path : CStr) : (canonOf false path).tokens =
    dotdots (climbs 0 (tokenize slash path)) ++ names [] (tokenize slash path) := by
  have h := foldl_relative (tokenize slash path) 0 []
  rw [Nat.zero_add] at h
  show canonLoop false _ _ [] = _
  rw [canonLoop_eq_foldl]
  exact h

/-- **What canonicalization preserves.** In a directory tree, for a path whose plain walk succeeds, the tokens
of the canonical path lead to the same directory exactly if the path is absolute, or climbs at most one level
above the current directory, or starts in the root, or climbs an odd number of levels from a directory right
below the root. -/
theorem pathCanonicalize_preserves_iff {inodes : Inodes} (ht : TreeWf inodes) {cwd : Sector}
    (hcwd : InTree inodes cwd) {path : CStr} {c : CanonPath} (hc : pathCanonicalize path = some c)
    {d : Sector} (hd : plainWalk inodes (startOf path cwd) (tokenize slash path) = some d) :
    walkDir inodes (startOf path cwd) c.tokens = some d ↔
      path.head? = some '/' ∨ climbs 0 (tokenize slash path) ≤ 1 ∨ cwd = rootDirSector ∨
        climbs 0 (tokenize slash path) % 2 = 1 ∧ parentDir inodes cwd = some rootDirSector := by
  have hns : dotdot ∉ names [] (tokenize slash path) := not_dotdot_names _ [] (by simp)
  have hnil : walk (childDir inodes) (startOf path cwd) [] = some (startOf path cwd) := rfl
  have hplain := plainWalk_spec ht _ hnil hd
  rw [List.length_nil] at hplain
  by_cases habs : path.head? = some '/'
  · obtain ⟨rest, rfl⟩ : ∃ rest, path = '/' :: rest := by
      rcases path with _ | ⟨a, rest⟩
      · simp at habs
      · exact ⟨rest, by simpa using habs⟩
    obtain rfl : canonOf true rest = c := Option.some.inj hc
    refine ⟨fun _ => .inl habs, fun _ => ?_⟩
    unfold startOf at hplain ⊢
    rw [if_pos habs, Function.iterate_fixed (parentSector_root ht)] at hplain
    rw [if_pos habs, tokens_absolute, walkDir_eq_childDir hns]
    exact hplain
  · have hrel : canonOf false path = c := by
      rcases path with _ | ⟨a, rest⟩
      · simp [pathCanonicalize] at hc
      · unfold pathCanonicalize at hc
        split at hc
        · simp at hc
        · simp_all
        · exact Option.some.inj hc
    subst hrel
    unfold startOf at hplain ⊢
    rw [if_neg habs] at hplain ⊢
    rw [tokens_relative, walkDir_dotdots ht (hcwd.isDirAt ht) _ _ hns]
    have hsame := iterate_mod_two_iff ht hcwd (climbs 0 (tokenize slash path))
    constructor
    · intro h
      exact .inr (hsame.mp (ht.rooted.walk_injective _ h hplain))
    · intro h
      rw [hsame.mpr (h.resolve_left habs)]
      exact hplain

theorem inTree_abInodes : InTree abInodes 3 := ⟨[['a'], ['b']], by decide⟩

/-- The path "../b" from "/a/b". -/
theorem pathCanonicalize_preserves_up :
    walkDir abInodes 3 (canonOf false ['.', '.', '/', 'b']).tokens = some 3 := by
  have hplain : plainWalk abInodes (startOf ['.', '.', '/', 'b'] 3)
      (tokenize slash ['.', '.', '/', 'b']) = some 3 := by decide
  exact (pathCanonicalize_preserves_iff abInodes_wf inTree_abInodes rfl hplain).mpr
    (.inr (.inl (by decide)))

/-- **The slip**: from "/a/b" the path "../.." leads to the root, and its canonical path has no tokens. -/
theorem not_pathCanonicalize_preserves :
    ¬∀ (inodes : Inodes) (cwd : Sector) (path : CStr) (c : CanonPath) (d : Sector), TreeWf inodes →
      InTree inodes cwd → pathCanonicalize path = some c →
      plainWalk inodes (startOf path cwd) (tokenize slash path) = some d →
      walkDir inodes (startOf path cwd) c.tokens = some d := by
  intro h
  have hup := h abInodes 3 ['.', '.', '/', '.', '.'] _ 1 abInodes_wf inTree_abInodes rfl (by decide)
  exact absurd hup (by decide)

end Pintos.Filesys.Canonicalize
