import Mathlib.Tactic

/-! # Operations that may stop

An operation on a state either returns a value and the state after it, or stops (`halt`): it fails an
assertion, follows a bad pointer or waits forever. `Ensures m s Q` says that `m`, run from `s`, ends in
`Q` if it returns; `Yields m s Q` says that it returns and ends in `Q`. Both come with one rule for each
way of building an operation, so that a proof about a program follows its text. -/

namespace Pintos.Lib.Ops

/-- An operation on states of `σ` that returns an `α` or stops. -/
abbrev Op (σ α : Type) := StateT σ Option α

/-- The operation that never returns. -/
def halt {σ α : Type} : Op σ α := fun _ => none

/-- An assertion: where it fails, nothing returns. -/
def assert {σ : Type} (b : Bool) : Op σ Unit := if b then pure () else halt

/-- The value of an option; `none` is a bad pointer. -/
def deref {σ α : Type} : Option α → Op σ α
  | some a => pure a
  | none => halt

/-- The operation `m` on a part of the state. -/
def zoom {σ τ α : Type} (part : σ → τ) (put : σ → τ → σ) (m : Op τ α) : Op σ α := fun s =>
  (m (part s)).map fun r => (r.1, put s r.2)

/-- Whatever `m` returns from `s` is in `Q`. -/
def Ensures {σ α : Type} (m : Op σ α) (s : σ) (Q : α → σ → Prop) : Prop :=
  ∀ a s', m s = some (a, s') → Q a s'

/-- `m` returns from `s`, with a result in `Q`. -/
def Yields {σ α : Type} (m : Op σ α) (s : σ) (Q : α → σ → Prop) : Prop :=
  ∃ a s', m s = some (a, s') ∧ Q a s'

variable {σ α β : Type} {s : σ}

theorem bind_apply (m : Op σ α) (f : α → Op σ β) (s : σ) :
    (m >>= f) s = (m s).bind fun x => f x.1 x.2 := by
  cases h : m s <;> simp [bind, StateT.bind, h]

theorem pure_apply (a : α) (s : σ) : (pure a : Op σ α) s = some (a, s) := rfl

theorem forM_range_succ (f : ℕ → Op σ PUnit) (n : ℕ) :
    (List.range (n + 1)).forM f = (List.range n).forM f >>= fun _ => f n := by
  have happ : (List.range n ++ [n]).forM f = (List.range n).forM f >>= fun _ => [n].forM f :=
    List.forM_append
  have hone : [n].forM f = f n := bind_pure (f n)
  rw [List.range_succ, happ, hone]

/-! ### Running the first part of an operation -/

theorem get_bind_apply (f : σ → Op σ β) : (get >>= f) s = f s s := rfl

theorem set_bind_apply (t : σ) (f : PUnit → Op σ β) : (set t >>= f) s = f ⟨⟩ t := rfl

theorem modify_bind_apply (g : σ → σ) (f : PUnit → Op σ β) : (modify g >>= f) s = f ⟨⟩ (g s) := rfl

theorem deref_bind_apply (o : Option α) (f : α → Op σ β) : (deref o >>= f) s = o.bind fun a => f a s := by
  cases o <;> rfl

theorem assert_bind_apply (b : Bool) (f : Unit → Op σ β) :
    (assert b >>= f) s = if b then f () s else none := by
  cases b <;> rfl

/-! ### What holds of every result -/

namespace Ensures

theorem mono {m : Op σ α} {P Q : α → σ → Prop} (h : Ensures m s P)
    (hPQ : ∀ a s', P a s' → Q a s') : Ensures m s Q :=
  fun a s' hm => hPQ a s' (h a s' hm)

theorem and {m : Op σ α} {P Q : α → σ → Prop} (h : Ensures m s P) (h' : Ensures m s Q) :
    Ensures m s fun a s' => P a s' ∧ Q a s' :=
  fun a s' hm => ⟨h a s' hm, h' a s' hm⟩

theorem pure {a : α} {Q : α → σ → Prop} (h : Q a s) : Ensures (pure a) s Q := by
  intro b s' hm
  obtain ⟨rfl, rfl⟩ : a = b ∧ s = s' := by simpa [pure_apply] using hm
  exact h

theorem bind {m : Op σ α} {f : α → Op σ β} {Q : β → σ → Prop}
    (h : Ensures m s fun a s' => Ensures (f a) s' Q) : Ensures (m >>= f) s Q := by
  intro b s'' hm
  rw [bind_apply] at hm
  rcases hms : m s with _ | ⟨a, s'⟩ <;> rw [hms] at hm
  · simp at hm
  · exact h a s' hms b s'' hm

theorem zoom {τ : Type} {part : σ → τ} {put : σ → τ → σ} {m : Op τ α} {Q : α → σ → Prop}
    (h : Ensures m (part s) fun a t => Q a (put s t)) : Ensures (zoom part put m) s Q := by
  intro a s' hs
  obtain ⟨⟨b, t⟩, hm, he⟩ := Option.map_eq_some_iff.mp hs
  obtain ⟨rfl, rfl⟩ : b = a ∧ put s t = s' := by simpa using he
  exact h b t hm

theorem halt {Q : α → σ → Prop} : Ensures halt s Q := by
  intro a s' hm
  simp [Ops.halt] at hm

theorem get {Q : σ → σ → Prop} (h : Q s s) : Ensures get s Q := pure h

theorem set {t : σ} {Q : PUnit → σ → Prop} (h : Q ⟨⟩ t) : Ensures (set t) s Q := by
  intro b s' hm
  have hm' : some (PUnit.unit, t) = some (b, s') := hm
  obtain rfl : t = s' := by simpa using hm'
  exact h

theorem modify {f : σ → σ} {Q : PUnit → σ → Prop} (h : Q ⟨⟩ (f s)) : Ensures (modify f) s Q := by
  intro b s' hm
  have hm' : some (PUnit.unit, f s) = some (b, s') := hm
  obtain rfl : f s = s' := by simpa using hm'
  exact h

theorem assert {b : Bool} {Q : Unit → σ → Prop} (h : b = true → Q () s) :
    Ensures (assert b) s Q := by
  cases b
  · exact halt
  · exact pure (h rfl)

theorem deref {o : Option α} {Q : α → σ → Prop} (h : ∀ a, o = some a → Q a s) :
    Ensures (deref o) s Q := by
  cases o
  · exact halt
  · exact pure (h _ rfl)

theorem ite {c : Prop} [Decidable c] {m n : Op σ α} {Q : α → σ → Prop}
    (h1 : c → Ensures m s Q) (h2 : ¬c → Ensures n s Q) : Ensures (if c then m else n) s Q := by
  split_ifs with hc
  · exact h1 hc
  · exact h2 hc

/-- What each round of a loop keeps. -/
theorem forM {γ : Type} {f : γ → Op σ PUnit} {I : σ → Prop} : ∀ (l : List γ) {s : σ}, I s →
    (∀ c ∈ l, ∀ s, I s → Ensures (f c) s fun _ s' => I s') → Ensures (l.forM f) s fun _ s' => I s'
  | [], _, h0, _ => pure h0
  | c :: l, s, h0, h => by
    refine bind ((h c List.mem_cons_self s h0).mono fun _ s' hs => ?_)
    exact forM l hs fun c hc => h c (List.mem_cons_of_mem _ hc)

/-- What holds before each round of a counting loop. -/
theorem forM_range {f : ℕ → Op σ PUnit} {I : ℕ → σ → Prop} (h0 : I 0 s) : ∀ {n : ℕ},
    (∀ i < n, ∀ s, I i s → Ensures (f i) s fun _ s' => I (i + 1) s') →
    Ensures ((List.range n).forM f) s fun _ s' => I n s'
  | 0, _ => pure h0
  | n + 1, h => by
    have hn := forM_range h0 fun i hi => h i (Nat.lt_succ_of_lt hi)
    rw [forM_range_succ]
    exact bind (hn.mono fun _ s' hs => h n (Nat.lt_succ_self n) s' hs)

end Ensures

/-! ### What is returned -/

namespace Yields

theorem mono {m : Op σ α} {P Q : α → σ → Prop} (h : Yields m s P)
    (hPQ : ∀ a s', P a s' → Q a s') : Yields m s Q := by
  obtain ⟨a, s', hm, hp⟩ := h
  exact ⟨a, s', hm, hPQ a s' hp⟩

theorem pure {a : α} {Q : α → σ → Prop} (h : Q a s) : Yields (pure a) s Q :=
  ⟨a, s, rfl, h⟩

theorem bind {m : Op σ α} {f : α → Op σ β} {Q : β → σ → Prop}
    (h : Yields m s fun a s' => Yields (f a) s' Q) : Yields (m >>= f) s Q := by
  obtain ⟨a, s', hm, b, s'', hf, hq⟩ := h
  exact ⟨b, s'', by rw [bind_apply, hm]; exact hf, hq⟩

theorem zoom {τ : Type} {part : σ → τ} {put : σ → τ → σ} {m : Op τ α} {Q : α → σ → Prop}
    (h : Yields m (part s) fun a t => Q a (put s t)) : Yields (zoom part put m) s Q := by
  obtain ⟨a, t, hm, hq⟩ := h
  exact ⟨a, put s t, by rw [Ops.zoom, hm, Option.map_some], hq⟩

theorem get {Q : σ → σ → Prop} (h : Q s s) : Yields get s Q := ⟨s, s, rfl, h⟩

theorem set {t : σ} {Q : PUnit → σ → Prop} (h : Q ⟨⟩ t) : Yields (set t) s Q :=
  ⟨⟨⟩, t, rfl, h⟩

theorem modify {f : σ → σ} {Q : PUnit → σ → Prop} (h : Q ⟨⟩ (f s)) : Yields (modify f) s Q :=
  ⟨⟨⟩, f s, rfl, h⟩

theorem assert {b : Bool} {Q : Unit → σ → Prop} (hb : b = true) (h : Q () s) :
    Yields (assert b) s Q := by
  subst hb
  exact pure h

theorem deref {o : Option α} {a : α} {Q : α → σ → Prop} (ho : o = some a) (h : Q a s) :
    Yields (deref o) s Q := by
  subst ho
  exact pure h

/-- A counting loop each of whose rounds returns. -/
theorem forM_range {f : ℕ → Op σ PUnit} {I : ℕ → σ → Prop} (h0 : I 0 s) : ∀ {n : ℕ},
    (∀ i < n, ∀ s, I i s → Yields (f i) s fun _ s' => I (i + 1) s') →
    Yields ((List.range n).forM f) s fun _ s' => I n s'
  | 0, _ => pure h0
  | n + 1, h => by
    have hn := forM_range h0 fun i hi => h i (Nat.lt_succ_of_lt hi)
    rw [forM_range_succ]
    exact bind (hn.mono fun _ s' hs => h n (Nat.lt_succ_self n) s' hs)

/-- What an operation yields also holds of every result: it has only one. -/
theorem ensures {m : Op σ α} {Q : α → σ → Prop} (h : Yields m s Q) : Ensures m s Q := by
  obtain ⟨a, s', hm, hq⟩ := h
  intro b t hb
  rw [hm] at hb
  obtain ⟨rfl, rfl⟩ := by simpa using hb
  exact hq

/-- An operation that returns, and whose results are all in `Q`, yields `Q`. -/
theorem and_ensures {m : Op σ α} {P Q : α → σ → Prop} (h : Yields m s P) (hQ : Ensures m s Q) :
    Yields m s fun a s' => P a s' ∧ Q a s' := by
  obtain ⟨a, s', hm, hp⟩ := h
  exact ⟨a, s', hm, hp, hQ a s' hm⟩

end Yields

/-! ### Two runs -/

/-- `m` from `s` and `n` from `t` return the same and end in states that `R` relates, or they both stop. -/
def Alike {σ α : Type} (R : σ → σ → Prop) (m : Op σ α) (s : σ) (n : Op σ α) (t : σ) : Prop :=
  match m s, n t with
  | some (a, s'), some (b, t') => a = b ∧ R s' t'
  | none, none => True
  | _, _ => False

namespace Alike

variable {R : σ → σ → Prop} {t : σ}

theorem pure (h : R s t) (a : α) : Alike R (pure a) s (pure a) t := ⟨rfl, h⟩

theorem halt : Alike R (halt : Op σ α) s halt t := trivial

theorem bind {m n : Op σ α} {f g : α → Op σ β} (h : Alike R m s n t)
    (hf : ∀ a s' t', R s' t' → Alike R (f a) s' (g a) t') : Alike R (m >>= f) s (n >>= g) t := by
  unfold Alike at h ⊢
  rw [bind_apply, bind_apply]
  rcases hm : m s with _ | ⟨a, s'⟩ <;> rcases hn : n t with _ | ⟨b, t'⟩ <;> rw [hm, hn] at h
  · exact trivial
  · exact h.elim
  · exact h.elim
  · obtain ⟨rfl, hR⟩ := h
    exact hf a s' t' hR

/-- What is read differs. -/
theorem get_bind {f g : σ → Op σ β} (h : Alike R (f s) s (g t) t) :
    Alike R (get >>= f) s (get >>= g) t := h

theorem set {s' t' : σ} (h : R s' t') : Alike R (set s') s (set t') t := ⟨rfl, h⟩

theorem modify {f g : σ → σ} (h : R (f s) (g t)) : Alike R (modify f) s (modify g) t := ⟨rfl, h⟩

theorem assert {b : Bool} (h : R s t) : Alike R (assert b) s (assert b) t := by
  cases b
  · exact trivial
  · exact pure h ()

theorem deref {o : Option α} (h : R s t) : Alike R (deref o) s (deref o) t := by
  cases o
  · exact trivial
  · exact pure h _

theorem ite {c : Prop} [Decidable c] {m n m' n' : Op σ α} (h1 : c → Alike R m s n t)
    (h2 : ¬c → Alike R m' s n' t) : Alike R (if c then m else m') s (if c then n else n') t := by
  split_ifs with hc
  · exact h1 hc
  · exact h2 hc

/-- If one returns, so does the other. -/
theorem yields {m n : Op σ α} {Q : α → σ → Prop} (h : Alike R m s n t) (hm : Yields m s Q) :
    Yields n t fun a t' => ∃ s', Q a s' ∧ R s' t' := by
  obtain ⟨a, s', ha, hq⟩ := hm
  unfold Alike at h
  rw [ha] at h
  rcases hn : n t with _ | ⟨b, t'⟩ <;> rw [hn] at h
  · exact h.elim
  · obtain ⟨rfl, hR⟩ := h
    exact ⟨a, t', hn, s', hq, hR⟩

end Alike

end Pintos.Lib.Ops
