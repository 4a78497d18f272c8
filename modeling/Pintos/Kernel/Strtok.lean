import Pintos.Lib.ByteMemory
import Pintos.Lib.Ops

/-! # Tokens of a string

`strtok_r` of `lib/string.c`, on a memory that records what is read and what is stored. Called with a string and
then with null pointers, it returns the maximal runs of non-delimiters, one after the other, and null pointers
from then on (`strtokCalls_exact`). -/

namespace Pintos.Kernel.Strtok

open Pintos.Lib.Ops Pintos.Lib.Overlay Pintos.Lib.ByteMemory

/-- The bytes, the addresses read so far and the stores so far. -/
structure Mem where
  byte : ℕ → UInt8
  reads : List ℕ
  stores : List (ℕ × UInt8)

/-- `*s`. -/
def load (s : ℕ) : Op Mem UInt8 := fun m => some (m.byte s, { m with reads := m.reads ++ [s] })

/-- `*s = c`. -/
def store (s : ℕ) (c : UInt8) : Op Mem PUnit :=
  modify fun m => { m with byte := Function.update m.byte s c, stores := m.stores ++ [(s, c)] }

/-- `strchr`, on a string given by its characters; the null byte behind them is found too. -/
def strchr : List UInt8 → UInt8 → Option ℕ
  | [], c => if 0 = c then some 0 else none
  | d :: string, c => if d = c then some 0 else (strchr string c).map (· + 1)

/-- The first loop of `strtok_r`, with at most `fuel` tests: where it ends, and whether it returns from there. -/
def skipDelimiters (delimiters : List UInt8) : (fuel s : ℕ) → Op Mem (ℕ × Bool)
  | 0, _ => halt
  | fuel + 1, s => do
    let c ← load s
    if strchr delimiters c ≠ none then do
      let c ← load s
      if c = 0 then pure (s, true) else skipDelimiters delimiters fuel (s + 1)
    else pure (s, false)

/-- The second loop. -/
def skipNonDelimiters (delimiters : List UInt8) : (fuel s : ℕ) → Op Mem ℕ
  | 0, _ => halt
  | fuel + 1, s => do
    let c ← load s
    if strchr delimiters c = none then skipNonDelimiters delimiters fuel (s + 1) else pure s

/-- What `strtok_r` returns, and `*save_ptr`. -/
structure Result where
  token : Option ℕ
  savePtr : ℕ

/-- `strtok_r`; a null pointer is `none`. -/
def strtokR (fuel : ℕ) (s : Option ℕ) (delimiters : List UInt8) (savePtr : Option ℕ) : Op Mem Result := do
  let s ← deref (if s = none then savePtr else s)
  let (s, atEnd) ← skipDelimiters delimiters fuel s
  if atEnd then pure ⟨none, s⟩ else do
    let token := s
    let s ← skipNonDelimiters delimiters fuel s
    let c ← load s
    if c ≠ 0 then do
      store s 0
      pure ⟨some token, s + 1⟩
    else pure ⟨some token, s⟩

/-- So many calls, the later ones with a null pointer; what they return. -/
def strtokCalls (fuel : ℕ) (delimiters : List UInt8) : ℕ → (s savePtr : Option ℕ) → Op Mem (List (Option ℕ))
  | 0, _, _ => pure []
  | calls + 1, s, savePtr => do
    let r ← strtokR fuel s delimiters savePtr
    let rs ← strtokCalls fuel delimiters calls none (some r.savePtr)
    pure (r.token :: rs)

/-! ### What the calls are for -/

/-- The `n` characters from `a` on are a maximal run of non-delimiters in the string between `s` and `stop`. -/
structure IsRun (delimiters : List UInt8) (byte : ℕ → UInt8) (s stop a n : ℕ) : Prop where
  pos : 0 < n
  lo : s ≤ a
  hi : a + n ≤ stop
  chars : ∀ k, a ≤ k → k < a + n → byte k ∉ delimiters
  left : a = s ∨ byte (a - 1) ∈ delimiters
  right : a + n = stop ∨ byte (a + n) ∈ delimiters

/-- **What the calls may touch**: they read the string with its terminator, and they store null bytes over
delimiters of the string. The rest of the memory stays. -/
structure Touches (delimiters : List UInt8) (byte : ℕ → UInt8) (s stop : ℕ) (m m' : Mem) : Prop where
  reads : ∃ l, m'.reads = m.reads ++ l ∧ ∀ a ∈ l, s ≤ a ∧ a ≤ stop
  stores : ∃ l, m'.stores = m.stores ++ l ∧ ∀ w ∈ l, (s ≤ w.1 ∧ w.1 < stop) ∧ byte w.1 ∈ delimiters ∧ w.2 = 0
  byte : ∀ a, m'.byte a = m.byte a ∨ (s ≤ a ∧ a < stop) ∧ byte a ∈ delimiters ∧ m'.byte a = 0

variable {delimiters : List UInt8} {byte : ℕ → UInt8} {s s' stop a b e fuel : ℕ} {m m' m'' : Mem} {c : UInt8}

namespace Touches

theorem refl : Touches delimiters byte s stop m m :=
  ⟨⟨[], by simp, by simp⟩, ⟨[], by simp, by simp⟩, fun _ => Or.inl rfl⟩

theorem trans (h : Touches delimiters byte s stop m m') (h' : Touches delimiters byte s stop m' m'') :
    Touches delimiters byte s stop m m'' := by
  obtain ⟨l, hl, hin⟩ := h.reads
  obtain ⟨l', hl', hin'⟩ := h'.reads
  obtain ⟨w, hw, hnull⟩ := h.stores
  obtain ⟨w', hw', hnull'⟩ := h'.stores
  refine ⟨⟨l ++ l', by rw [hl', hl, List.append_assoc], List.forall_mem_append.mpr ⟨hin, hin'⟩⟩,
    ⟨w ++ w', by rw [hw', hw, List.append_assoc], List.forall_mem_append.mpr ⟨hnull, hnull'⟩⟩, fun a => ?_⟩
  rcases h'.byte a with h2 | h2
  · rw [h2]
    exact h.byte a
  · exact Or.inr h2

/-- What touches the end of the string touches the string. -/
theorem widen (h : Touches delimiters byte b stop m m') (hs : s ≤ b) : Touches delimiters byte s stop m m' := by
  obtain ⟨l, hl, hin⟩ := h.reads
  obtain ⟨w, hw, hnull⟩ := h.stores
  refine ⟨⟨l, hl, fun a ha => ⟨hs.trans (hin a ha).1, (hin a ha).2⟩⟩,
    ⟨w, hw, fun x hx => ⟨⟨hs.trans (hnull x hx).1.1, (hnull x hx).1.2⟩, (hnull x hx).2⟩⟩, fun a => ?_⟩
  exact (h.byte a).imp_right fun h => ⟨⟨hs.trans h.1.1, h.1.2⟩, h.2⟩

end Touches

/-- What reads the string and stores nothing. -/
structure Reads (s stop : ℕ) (m m' : Mem) : Prop where
  byte : m'.byte = m.byte
  stores : m'.stores = m.stores
  reads : ∃ l, m'.reads = m.reads ++ l ∧ ∀ a ∈ l, s ≤ a ∧ a ≤ stop

namespace Reads

theorem trans (h : Reads s stop m m') (h' : Reads s stop m' m'') : Reads s stop m m'' := by
  obtain ⟨l, hl, hin⟩ := h.reads
  obtain ⟨l', hl', hin'⟩ := h'.reads
  exact ⟨h'.byte.trans h.byte, h'.stores.trans h.stores,
    l ++ l', by rw [hl', hl, List.append_assoc], List.forall_mem_append.mpr ⟨hin, hin'⟩⟩

theorem widen (h : Reads b stop m m') (hs : s ≤ b) : Reads s stop m m' := by
  obtain ⟨l, hl, hin⟩ := h.reads
  exact ⟨h.byte, h.stores, l, hl, fun a ha => ⟨hs.trans (hin a ha).1, (hin a ha).2⟩⟩

theorem touches (h : Reads s stop m m') : Touches delimiters byte s stop m m' :=
  ⟨h.reads, ⟨[], by rw [h.stores, List.append_nil], by simp⟩, fun a => Or.inl (congrFun h.byte a)⟩

end Reads

/-! ### The loops -/

theorem strchr_eq_none : ∀ {string : List UInt8}, strchr string c = none ↔ c ≠ 0 ∧ c ∉ string
  | [] => by
    rw [strchr]
    split_ifs with h0
    · simp [h0.symm]
    · simp [Ne.symm h0]
  | d :: string => by
    rw [strchr]
    split_ifs with hd
    · simp [hd.symm]
    · rw [Option.map_eq_none_iff, strchr_eq_none, List.mem_cons, not_or]
      exact ⟨fun h => ⟨h.1, Ne.symm hd, h.2⟩, fun h => ⟨h.1, h.2.2⟩⟩

theorem load_yields (hs : s ≤ a) (he : a ≤ stop) : Yields (load a) m fun c m' => c = m.byte a ∧ Reads s stop m m' :=
  ⟨_, _, rfl, rfl, rfl, rfl, [a], rfl, by simp [hs, he]⟩

/-- The bytes from `a` on are those of a string that ends at `stop`. -/
structure Rest (byte : ℕ → UInt8) (a stop : ℕ) (m : Mem) : Prop where
  le : a ≤ stop
  same : ∀ k, a ≤ k → k ≤ stop → m.byte k = byte k
  chars : ∀ k, a ≤ k → k < stop → byte k ≠ 0
  null : byte stop = 0

namespace Rest

theorem congr (h : Rest byte a stop m) (hb : m'.byte = m.byte) : Rest byte a stop m' :=
  ⟨h.le, fun k h1 h2 => (congrFun hb k).trans (h.same k h1 h2), h.chars, h.null⟩

theorem mono (h : Rest byte a stop m) (hab : a ≤ b) (hb : b ≤ stop) : Rest byte b stop m :=
  ⟨hb, fun k h1 => h.same k (hab.trans h1), fun k h1 => h.chars k (hab.trans h1), h.null⟩

/-- The character at `a` is null at the end of the string only. -/
theorem eq_zero_iff (h : Rest byte a stop m) : m.byte a = 0 ↔ a = stop := by
  rw [h.same a le_rfl h.le]
  constructor
  · intro h0
    by_contra hne
    exact h.chars a le_rfl (lt_of_le_of_ne h.le hne) h0
  · rintro rfl
    exact h.null

end Rest

/-- **The first loop** ends at the first character that is no delimiter, or at the terminator. -/
theorem skipDelimiters_yields : ∀ {fuel a : ℕ} {m : Mem}, Rest byte a stop m → stop - a < fuel →
    Yields (skipDelimiters delimiters fuel a) m fun r m' => (a ≤ r.1 ∧ r.1 ≤ stop) ∧
      (∀ k, a ≤ k → k < r.1 → byte k ∈ delimiters) ∧
        (r.2 = true ∧ r.1 = stop ∨ r.2 = false ∧ r.1 < stop ∧ byte r.1 ∉ delimiters) ∧
      Reads a stop m m'
  | fuel + 1, a, m, h, hfuel => by
    rw [skipDelimiters]
    refine Yields.bind ((load_yields le_rfl h.le).mono ?_)
    rintro c m' ⟨rfl, hread⟩
    by_cases hc : strchr delimiters (m.byte a) = none
    · obtain ⟨h0, hno⟩ := strchr_eq_none.mp hc
      rw [if_neg (not_not_intro hc)]
      rw [h.same a le_rfl h.le] at hno
      exact Yields.pure ⟨⟨le_rfl, h.le⟩, fun k h1 h2 => absurd h1 (not_le.mpr h2),
        Or.inr ⟨rfl, lt_of_le_of_ne h.le (mt h.eq_zero_iff.mpr h0), hno⟩, hread⟩
    · rw [if_pos hc]
      refine Yields.bind ((load_yields le_rfl h.le).mono ?_)
      rintro c m'' ⟨rfl, hread'⟩
      rw [hread.byte]
      by_cases h0 : m.byte a = 0
      · rw [if_pos h0]
        exact Yields.pure ⟨⟨le_rfl, h.le⟩, fun k h1 h2 => absurd h1 (not_le.mpr h2),
          Or.inl ⟨rfl, h.eq_zero_iff.mp h0⟩, hread.trans hread'⟩
      · have hlt : a < stop := lt_of_le_of_ne h.le (mt h.eq_zero_iff.mpr h0)
        have hmem : byte a ∈ delimiters := by
          rw [← h.same a le_rfl h.le]
          by_contra hno
          exact hc (strchr_eq_none.mpr ⟨h0, hno⟩)
        have hrest : Rest byte (a + 1) stop m'' := (h.congr (hread'.byte.trans hread.byte)).mono (Nat.le_succ a) hlt
        rw [if_neg h0]
        refine (skipDelimiters_yields hrest (by omega)).mono ?_
        rintro r m3 ⟨⟨hle, hle'⟩, hskip, hend, hread3⟩
        refine ⟨⟨by omega, hle'⟩, fun k h1 h2 => ?_, hend, (hread.trans hread').trans (hread3.widen (Nat.le_succ a))⟩
        rcases h1.eq_or_lt with rfl | h1
        · exact hmem
        · exact hskip k h1 h2

/-- **The second loop** ends at the next delimiter, or at the terminator. -/
theorem skipNonDelimiters_yields : ∀ {fuel a : ℕ} {m : Mem}, Rest byte a stop m → stop - a < fuel →
    Yields (skipNonDelimiters delimiters fuel a) m fun e m' => (a ≤ e ∧ e ≤ stop) ∧
      (∀ k, a ≤ k → k < e → byte k ∉ delimiters) ∧ (e = stop ∨ byte e ∈ delimiters) ∧ Reads a stop m m'
  | fuel + 1, a, m, h, hfuel => by
    rw [skipNonDelimiters]
    refine Yields.bind ((load_yields le_rfl h.le).mono ?_)
    rintro c m' ⟨rfl, hread⟩
    by_cases hc : strchr delimiters (m.byte a) = none
    · obtain ⟨h0, hno⟩ := strchr_eq_none.mp hc
      rw [h.same a le_rfl h.le] at hno
      have hlt : a < stop := lt_of_le_of_ne h.le (mt h.eq_zero_iff.mpr h0)
      have hrest : Rest byte (a + 1) stop m' := (h.congr hread.byte).mono (Nat.le_succ a) hlt
      rw [if_pos hc]
      refine (skipNonDelimiters_yields hrest (by omega)).mono ?_
      rintro e m'' ⟨⟨hle, hle'⟩, hchars, hend, hread'⟩
      refine ⟨⟨by omega, hle'⟩, fun k h1 h2 => ?_, hend, hread.trans (hread'.widen (Nat.le_succ a))⟩
      rcases h1.eq_or_lt with rfl | h1
      · exact hno
      · exact hchars k h1 h2
    · rw [if_neg hc]
      refine Yields.pure ⟨⟨le_rfl, h.le⟩, fun k h1 h2 => absurd h1 (not_le.mpr h2), ?_, hread⟩
      by_contra hno
      obtain ⟨hne, hno⟩ := not_or.mp hno
      exact hc (strchr_eq_none.mpr ⟨mt h.eq_zero_iff.mp hne, by rwa [h.same a le_rfl h.le]⟩)

/-! ### One call -/

/-- The first token behind `a` is at `x` and ends at `e`. -/
structure Token (delimiters : List UInt8) (byte : ℕ → UInt8) (a stop x e : ℕ) : Prop where
  le : a ≤ x
  lt : x < e
  hi : e ≤ stop
  skipped : ∀ k, a ≤ k → k < x → byte k ∈ delimiters
  chars : ∀ k, x ≤ k → k < e → byte k ∉ delimiters
  right : e = stop ∨ byte e ∈ delimiters

/-- `*save_ptr` behind a token that ends at `e`. -/
def behind (stop e : ℕ) : ℕ := if e = stop then stop else e + 1

variable {x e' x' y n : ℕ} {arg savePtr : Option ℕ}

/-- **One call** returns the first token and ends it, or there is none. -/
theorem strtokR_yields (harg : (if arg = none then savePtr else arg) = some a) (h : Rest byte a stop m)
    (hfuel : stop - a < fuel) :
    Yields (strtokR fuel arg delimiters savePtr) m fun r m' =>
      (r = ⟨none, stop⟩ ∧ (∀ k, a ≤ k → k < stop → byte k ∈ delimiters) ∧ Reads a stop m m') ∨
        ∃ x e, Token delimiters byte a stop x e ∧ r = ⟨some x, behind stop e⟩ ∧ Touches delimiters byte a stop m m' ∧
          m'.byte e = 0 ∧ ∀ k, k ≠ e → m'.byte k = m.byte k := by
  refine Yields.bind (Yields.deref harg ?_)
  refine Yields.bind ((skipDelimiters_yields h hfuel).mono ?_)
  rintro ⟨x, atEnd⟩ m₁ ⟨⟨hax, hx⟩, hskip, ⟨rfl, hend⟩ | ⟨rfl, hlt, hno⟩, hread⟩
  · obtain rfl : x = stop := hend
    exact Yields.pure (Or.inl ⟨rfl, hskip, hread⟩)
  have hrest : Rest byte x stop m₁ := (h.congr hread.byte).mono hax hx
  refine Yields.bind ((skipNonDelimiters_yields hrest (by omega)).mono ?_)
  rintro e m₂ ⟨⟨hxe, he⟩, hchars, hright, hread₂⟩
  have hrest₂ : Rest byte e stop m₂ := (hrest.congr hread₂.byte).mono hxe he
  have hne : x ≠ e := by
    rintro rfl
    exact hright.elim hlt.ne hno
  have htoken : Token delimiters byte a stop x e := ⟨hax, lt_of_le_of_ne hxe hne, he, hskip, hchars, hright⟩
  refine Yields.bind ((load_yields le_rfl he).mono ?_)
  rintro c m₃ ⟨rfl, hread₃⟩
  have hreads : Reads a stop m m₃ := (hread.trans (hread₂.widen hax)).trans (hread₃.widen (hax.trans hxe))
  have hbytes := hreads.byte
  by_cases h0 : m₂.byte e = 0
  · rw [if_neg (not_not_intro h0)]
    obtain rfl : e = stop := hrest₂.eq_zero_iff.mp h0
    refine Yields.pure (Or.inr ⟨x, e, htoken, by rw [behind, if_pos rfl], hreads.touches, ?_,
      fun k _ => congrFun hbytes k⟩)
    rw [hread₃.byte, h0]
  · have hstop : e ≠ stop := mt hrest₂.eq_zero_iff.mpr h0
    have hdelim : byte e ∈ delimiters := hright.resolve_left hstop
    rw [if_pos h0]
    refine Yields.bind (Yields.modify (Yields.pure (Or.inr ⟨x, e, htoken, by rw [behind, if_neg hstop], ?_,
      Function.update_self .., fun k hk => ?_⟩)))
    · have hin : a ≤ e ∧ e < stop := ⟨hax.trans hxe, lt_of_le_of_ne he hstop⟩
      refine hreads.touches.trans ⟨⟨[], by simp, by simp⟩, ⟨[(e, 0)], rfl, by simp [hin, hdelim]⟩, fun k => ?_⟩
      by_cases hk : k = e
      · subst hk
        exact Or.inr ⟨hin, hdelim, Function.update_self ..⟩
      · exact Or.inl (Function.update_of_ne hk ..)
    · exact (Function.update_of_ne hk ..).trans (congrFun hbytes k)

/-! ### Runs and tokens -/

/-- A string has a first token, unless all of its characters are delimiters. -/
theorem exists_token (delimiters : List UInt8) (byte : ℕ → UInt8) (a stop : ℕ) :
    (∀ k, a ≤ k → k < stop → byte k ∈ delimiters) ∨ ∃ x e, Token delimiters byte a stop x e := by
  by_cases hall : ∀ k, a ≤ k → k < stop → byte k ∈ delimiters
  · exact Or.inl hall
  have hx : ∃ x, a ≤ x ∧ x < stop ∧ byte x ∉ delimiters := by
    push Not at hall
    exact hall
  have he : ∃ e, Nat.find hx < e ∧ (e = stop ∨ byte e ∈ delimiters) := ⟨stop, (Nat.find_spec hx).2.1, Or.inl rfl⟩
  obtain ⟨hle, hlt, hno⟩ := Nat.find_spec hx
  obtain ⟨hxe, hright⟩ := Nat.find_spec he
  have hhi : Nat.find he ≤ stop := Nat.find_min' he ⟨hlt, Or.inl rfl⟩
  refine Or.inr ⟨Nat.find hx, Nat.find he, hle, hxe, hhi, fun k h1 h2 => ?_, fun k h1 h2 => ?_, hright⟩
  · by_contra hk
    exact Nat.find_min hx h2 ⟨h1, by omega, hk⟩
  · rcases h1.eq_or_lt with rfl | h1
    · exact hno
    · exact fun hk => Nat.find_min he h2 ⟨h1, Or.inr hk⟩

theorem Token.unique (h : Token delimiters byte a stop x e) (h' : Token delimiters byte a stop x' e') :
    x = x' ∧ e = e' := by
  obtain rfl : x = x' := by
    rcases lt_trichotomy x x' with hlt | heq | hlt
    · exact absurd (h'.skipped x h.le hlt) (h.chars x le_rfl h.lt)
    · exact heq
    · exact absurd (h.skipped x' h'.le hlt) (h'.chars x' le_rfl h'.lt)
  refine ⟨rfl, ?_⟩
  rcases lt_trichotomy e e' with hlt | heq | hlt
  · exact absurd (h.right.resolve_left (hlt.trans_le h'.hi).ne) (h'.chars e h.lt.le hlt)
  · exact heq
  · exact absurd (h'.right.resolve_left (hlt.trans_le h.hi).ne) (h.chars e' h'.lt.le hlt)

theorem IsRun.unique (h : IsRun delimiters byte s stop x n) (h' : IsRun delimiters byte s stop x e) : n = e := by
  have hr := h.right
  have hr' := h'.right
  have hhi := h.hi
  have hhi' := h'.hi
  rcases lt_trichotomy n e with hlt | heq | hlt
  · exact absurd (hr.resolve_left (by omega)) (h'.chars (x + n) (by omega) (by omega))
  · exact heq
  · exact absurd (hr'.resolve_left (by omega)) (h.chars (x + e) (by omega) (by omega))

/-- No run begins inside a token. -/
def Boundary (delimiters : List UInt8) (byte : ℕ → UInt8) (s stop b : ℕ) : Prop :=
  b = s ∨ byte (b - 1) ∈ delimiters ∨ b = stop

theorem Token.isRun (h : Token delimiters byte b stop x e) (hs : s ≤ b) (hb : Boundary delimiters byte s stop b) :
    IsRun delimiters byte s stop x (e - x) := by
  have hle := h.le
  have hlt := h.lt
  have hhi := h.hi
  have heq : x + (e - x) = e := by omega
  refine ⟨by omega, by omega, by omega, fun k h1 h2 => h.chars k h1 (by omega), ?_, by rw [heq]; exact h.right⟩
  rcases hle.eq_or_lt with rfl | hlt'
  · rcases hb with rfl | hb | rfl
    · exact Or.inl rfl
    · exact Or.inr hb
    · omega
  · exact Or.inr (h.skipped (x - 1) (by omega) (by omega))

/-- **The runs behind `b`** are the first token and the runs behind it. -/
theorem Token.isRun_iff (h : Token delimiters byte b stop x e) (hs : s ≤ b) (hb : Boundary delimiters byte s stop b) :
    (b ≤ y ∧ ∃ n, IsRun delimiters byte s stop y n) ↔
      y = x ∨ behind stop e ≤ y ∧ ∃ n, IsRun delimiters byte s stop y n := by
  have hle := h.le
  have hlt := h.lt
  have hhi := h.hi
  constructor
  · rintro ⟨hby, n, hn⟩
    have hpos := hn.pos
    have hyn := hn.hi
    rcases lt_trichotomy y x with hyx | hyx | hyx
    · exact absurd (h.skipped y hby hyx) (hn.chars y le_rfl (by omega))
    · exact Or.inl hyx
    · have hinside : ¬y ≤ e := fun hye =>
        (hn.left.resolve_left (by omega) : byte (y - 1) ∈ delimiters) |> h.chars (y - 1) (by omega) (by omega)
      refine Or.inr ⟨?_, n, hn⟩
      unfold behind
      split_ifs <;> omega
  · rintro (rfl | ⟨hy, hrun⟩)
    · exact ⟨hle, _, h.isRun hs hb⟩
    · refine ⟨?_, hrun⟩
      unfold behind at hy
      split_ifs at hy <;> omega

/-! ### All calls -/

/-- The characters of a run stand where they stood, with a null byte behind them. -/
def Terminated (byte : ℕ → UInt8) (a n : ℕ) (m : Mem) : Prop :=
  (∀ k, a ≤ k → k < a + n → m.byte k = byte k) ∧ m.byte (a + n) = 0

theorem boundary_behind (h : Token delimiters byte b stop x e) : Boundary delimiters byte s stop (behind stop e) := by
  unfold behind
  split_ifs with he
  · exact Or.inr (Or.inr rfl)
  · exact Or.inr (Or.inl (h.right.resolve_left he))

/-- **The calls on what is left of a string** without tokens. -/
theorem strtokCalls_of_delimiters : ∀ {calls b : ℕ} {arg savePtr : Option ℕ} {m : Mem},
    (if arg = none then savePtr else arg) = some b → Rest byte b stop m → stop - b < fuel →
    (∀ k, b ≤ k → k < stop → byte k ∈ delimiters) →
    Yields (strtokCalls fuel delimiters calls arg savePtr) m fun results m' =>
      results = List.replicate calls none ∧ Reads b stop m m'
  | 0, _, _, _, _, _, _, _, _ => Yields.pure ⟨rfl, rfl, rfl, [], by simp, by simp⟩
  | calls + 1, b, arg, savePtr, m, harg, h, hfuel, hall => by
    refine Yields.bind ((strtokR_yields harg h hfuel).mono ?_)
    rintro r m₁ (⟨rfl, -, hread⟩ | ⟨x, e, htoken, -⟩)
    · have hrest : Rest byte stop stop m₁ := (h.congr hread.byte).mono h.le le_rfl
      refine Yields.bind ((strtokCalls_of_delimiters (if_pos rfl) hrest (by omega) fun k h1 h2 =>
        absurd h1 (not_le.mpr h2)).mono ?_)
      rintro results m₂ ⟨rfl, hread₂⟩
      exact Yields.pure ⟨rfl, hread.trans (hread₂.widen h.le)⟩
    · exact absurd (hall x htoken.le (htoken.lt.trans_le htoken.hi)) (htoken.chars x le_rfl htoken.lt)

/-- **The calls on what is left of a string**, from `b` on. -/
theorem strtokCalls_from (hchars : ∀ k, s ≤ k → k < stop → byte k ≠ 0) (hnull : byte stop = 0) (b : ℕ) (hs : s ≤ b)
    (hb : b ≤ stop)
    (hboundary : Boundary delimiters byte s stop b) :
    ∃ tokens : List ℕ, tokens.Pairwise (· < ·) ∧
      (∀ a, a ∈ tokens ↔ b ≤ a ∧ ∃ n, IsRun delimiters byte s stop a n) ∧
      ∀ (fuel calls : ℕ) (arg savePtr : Option ℕ) (m : Mem), (if arg = none then savePtr else arg) = some b →
        (∀ k, b ≤ k → k ≤ stop → m.byte k = byte k) → stop - b < fuel →
        Yields (strtokCalls fuel delimiters calls arg savePtr) m fun results m' =>
          results = (tokens.map some).take calls ++ List.replicate (calls - tokens.length) none ∧
          (∀ a n, some a ∈ results → IsRun delimiters byte s stop a n → Terminated byte a n m') ∧
          Touches delimiters byte b stop m m' := by
  rcases exists_token delimiters byte b stop with hall | ⟨x, e, htoken⟩
  · refine ⟨[], List.Pairwise.nil, fun a => ⟨fun ha => absurd ha List.not_mem_nil, ?_⟩,
      fun fuel calls arg savePtr m harg hsame hfuel => ?_⟩
    · rintro ⟨hba, n, hn⟩
      have hpos := hn.pos
      have hhi := hn.hi
      exact absurd (hall a hba (by omega)) (hn.chars a le_rfl (by omega))
    · have hrest : Rest byte b stop m := ⟨hb, hsame, fun k h1 => hchars k (hs.trans h1), hnull⟩
      refine (strtokCalls_of_delimiters harg hrest hfuel hall).mono ?_
      rintro results m' ⟨rfl, hread⟩
      refine ⟨by simp, fun a n ha => ?_, hread.touches⟩
      exact absurd (List.eq_of_mem_replicate ha) (Option.some_ne_none a)
  have hle := htoken.le
  have hlt := htoken.lt
  have hhi := htoken.hi
  have hnext : e ≤ behind stop e ∧ behind stop e ≤ stop := by
    unfold behind
    split_ifs <;> omega
  obtain ⟨tokens, hsorted, hmem, hcalls⟩ :=
    strtokCalls_from hchars hnull (behind stop e) (by omega) hnext.2 (boundary_behind htoken)
  refine ⟨x :: tokens, List.pairwise_cons.mpr ⟨fun a ha => ?_, hsorted⟩, fun a => ?_,
    fun fuel calls arg savePtr m harg hsame hfuel => ?_⟩
  · have := ((hmem a).mp ha).1
    omega
  · rw [List.mem_cons, hmem, htoken.isRun_iff hs hboundary]
  cases calls with
  | zero => exact Yields.pure ⟨by simp, fun a n ha => absurd ha List.not_mem_nil, Touches.refl⟩
  | succ calls =>
    have hrest : Rest byte b stop m := ⟨hb, hsame, fun k h1 => hchars k (hs.trans h1), hnull⟩
    refine Yields.bind ((strtokR_yields harg hrest hfuel).mono ?_)
    rintro r m₁ (⟨-, hall, -⟩ | ⟨x', e', htoken', rfl, htouch, hzero, hkeep⟩)
    · exact absurd (hall x hle (hlt.trans_le hhi)) (htoken.chars x le_rfl hlt)
    obtain ⟨rfl, rfl⟩ := htoken.unique htoken'
    have hsame₁ : ∀ k, behind stop e ≤ k → k ≤ stop → m₁.byte k = byte k := by
      intro k h1 h2
      by_cases hk : k = e
      · have hstop : e = stop := by
          unfold behind at h1
          split_ifs at h1 <;> omega
        rw [hk, hzero, hstop, hnull]
      · rw [hkeep k hk, hsame k (by omega) h2]
    refine Yields.bind ((hcalls fuel calls none (some (behind stop e)) m₁ (if_pos rfl) hsame₁ (by omega)).mono ?_)
    rintro results m' ⟨rfl, hterm, htouch'⟩
    refine Yields.pure ⟨by simp [Nat.succ_sub_succ], fun a n ha hn => ?_, htouch.trans (htouch'.widen (by omega))⟩
    rcases List.mem_cons.mp ha with heq | ha
    · obtain rfl := Option.some.inj heq
      obtain rfl := hn.unique (htoken.isRun hs hboundary)
      have hend : a + (e - a) = e := by omega
      refine ⟨fun k h1 h2 => ?_, ?_⟩
      · rcases htouch'.byte k with hk | ⟨hk, -⟩
        · rw [hk, hkeep k (by omega), hsame k (by omega) (by omega)]
        · omega
      · rw [hend]
        rcases htouch'.byte e with hk | ⟨-, -, hk⟩
        · rw [hk, hzero]
        · exact hk
    · exact hterm a n ha hn
termination_by stop - b
decreasing_by
  have := hnext
  unfold behind at *
  split_ifs at * <;> omega

theorem Terminated.isStr (hchars : ∀ k, a ≤ k → k < a + n → byte k ≠ 0) (h : Terminated byte a n m) :
    IsStr m.byte a (slice byte a n) := by
  refine isStr_store (fun h0 => ?_) fun i hi => ?_
  · obtain ⟨k, hk, hz⟩ := mem_slice.mp h0
    exact hchars k hk.1 hk.2 hz
  · rw [length_slice] at hi
    rcases hi.eq_or_lt with rfl | hlt
    · rw [h.2, List.getElem?_append_right (by rw [length_slice]), length_slice, Nat.sub_self]
      rfl
    · rw [h.1 _ (by omega) (by omega), List.getElem?_append_left (by rwa [length_slice]), getElem?_slice hlt]
      rfl

/-- **`strtok_r` tokenizes exactly**: the calls return the maximal runs of non-delimiters in order, each a string in
its place, and then null pointers; they read the string and store null bytes over its delimiters. -/
theorem strtokCalls_exact {str : List UInt8} (delimiters : List UInt8) (savePtr : Option ℕ)
    (hstr : IsStr m.byte s str) :
    ∃ tokens : List ℕ, tokens.Pairwise (· < ·) ∧
      (∀ a, a ∈ tokens ↔ ∃ n, IsRun delimiters m.byte s (s + str.length) a n) ∧
      ∀ fuel calls, str.length < fuel →
        Yields (strtokCalls fuel delimiters calls (some s) savePtr) m fun results m' =>
          results = (tokens.map some).take calls ++ List.replicate (calls - tokens.length) none ∧
          (∀ a n, some a ∈ results → IsRun delimiters m.byte s (s + str.length) a n →
            IsStr m'.byte a (slice m.byte a n)) ∧
          Touches delimiters m.byte s (s + str.length) m m' := by
  have hchars := hstr.char_ne_zero
  have hboundary : Boundary delimiters m.byte s (s + str.length) s := Or.inl rfl
  obtain ⟨tokens, hsorted, hmem, hcalls⟩ :=
    strtokCalls_from hchars hstr.null s le_rfl (Nat.le_add_right s _) hboundary
  refine ⟨tokens, hsorted, fun a => (hmem a).trans ⟨fun h => h.2, fun h => ⟨h.elim fun n hn => hn.lo, h⟩⟩,
    fun fuel calls hfuel => ?_⟩
  refine (hcalls fuel calls (some s) savePtr m (if_neg (Option.some_ne_none s)) (fun _ _ _ => rfl) (by omega)).mono ?_
  rintro results m' ⟨hresults, hterm, htouch⟩
  refine ⟨hresults, fun a n ha hn => ?_, htouch⟩
  have hlo := hn.lo
  have hhi := hn.hi
  exact (hterm a n ha hn).isStr fun k h1 h2 => hchars k (by omega) (by omega)

/-- The string `/a//b`. -/
def sample : Mem := ⟨fun a => [47, 97, 47, 47, 98].getD a 0, [], []⟩

theorem strtokCalls_exact_sample :
    ∃ tokens : List ℕ, tokens.Pairwise (· < ·) ∧
      (∀ a, a ∈ tokens ↔ ∃ n, IsRun [47] sample.byte 0 (0 + 5) a n) ∧
      ∀ fuel calls, 5 < fuel →
        Yields (strtokCalls fuel [47] calls (some 0) none) sample fun results m' =>
          results = (tokens.map some).take calls ++ List.replicate (calls - tokens.length) none ∧
          (∀ a n, some a ∈ results → IsRun [47] sample.byte 0 (0 + 5) a n → IsStr m'.byte a (slice sample.byte a n)) ∧
          Touches [47] sample.byte 0 (0 + 5) sample m' :=
  have hstr : IsStr sample.byte 0 [47, 97, 47, 47, 98] :=
    ⟨rfl, by decide, rfl, by decide, rfl, by decide, rfl, by decide, rfl, by decide, rfl⟩
  strtokCalls_exact [47] none hstr

end Pintos.Kernel.Strtok
