import Mathlib.Tactic

/-! # Calls that may stop

A call on a state returns a value or stops with a reason, and the state it has reached stays visible either
way: what it did before it stopped is done. `Ends m s Q E` says that `m`, run from `s`, ends in `Q` if it
returns and in `E` if it stops. It comes with one rule for each way of building a call. -/

namespace Pintos.Lib.Stopping

/-- A call on states of `σ` that returns an `α` or stops with an `ε`. -/
abbrev Call (ε σ α : Type) := ExceptT ε (StateM σ) α

variable {ε σ α β : Type}

/-- How a call ends, and the state it leaves. -/
def outcome (m : Call ε σ α) (s : σ) : Except ε α × σ := m s

/-- The state a call leaves, whether it returns or stops. -/
def left (m : Call ε σ α) (s : σ) : σ := (outcome m s).2

/-- `m` returns in `Q` or stops in `E`. -/
def Ends (m : Call ε σ α) (s : σ) (Q : α → σ → Prop) (E : σ → Prop) : Prop :=
  match outcome m s with
  | (.ok a, s') => Q a s'
  | (.error _, s') => E s'

variable {s : σ} {Q : α → σ → Prop} {E : σ → Prop}

theorem outcome_bind (m : Call ε σ α) (f : α → Call ε σ β) (s : σ) :
    outcome (m >>= f) s = match outcome m s with
      | (.ok a, s') => outcome (f a) s'
      | (.error e, s') => (.error e, s') := by
  unfold outcome
  simp only [bind, ExceptT.bind, ExceptT.mk, StateT.bind]
  rcases m s with ⟨_ | a, s'⟩ <;> rfl

theorem outcome_pure (a : α) (s : σ) : outcome (pure a : Call ε σ α) s = (.ok a, s) := rfl

/-- What holds of every end holds of the state that is left. -/
theorem Ends.left_of {P : σ → Prop} {m : Call ε σ α} (h : Ends m s (fun _ => P) P) :
    P (left m s) := by
  unfold Ends at h
  unfold left
  rcases ho : outcome m s with ⟨_ | a, s'⟩ <;> rw [ho] at h <;> exact h

theorem Ends.of_left {P : σ → Prop} {m : Call ε σ α} (h : P (left m s)) :
    Ends m s (fun _ => P) P := by
  unfold Ends
  unfold left at h
  rcases ho : outcome m s with ⟨_ | a, s'⟩ <;> rw [ho] at h <;> exact h

namespace Ends

theorem mono {m : Call ε σ α} {P : α → σ → Prop} {D : σ → Prop} (h : Ends m s P D)
    (hPQ : ∀ a s', P a s' → Q a s') (hDE : ∀ s', D s' → E s') : Ends m s Q E := by
  unfold Ends at h ⊢
  rcases ho : outcome m s with ⟨_ | a, s'⟩ <;> rw [ho] at h
  · exact hDE s' h
  · exact hPQ a s' h

theorem and {m : Call ε σ α} {P : α → σ → Prop} {D : σ → Prop} (h : Ends m s Q E)
    (h' : Ends m s P D) : Ends m s (fun a s' => Q a s' ∧ P a s') fun s' => E s' ∧ D s' := by
  unfold Ends at h h' ⊢
  rcases ho : outcome m s with ⟨_ | a, s'⟩ <;> rw [ho] at h h' <;> exact ⟨h, h'⟩

/-- A call that has returned. -/
theorem of_outcome {m : Call ε σ α} {a : α} {s' : σ} (h : Ends m s Q E) (hm : outcome m s = (.ok a, s')) :
    Q a s' := by
  unfold Ends at h
  rw [hm] at h
  exact h

/-- A call ends somehow. -/
theorem elim {m : Call ε σ α} (h : Ends m s (fun _ _ => False) fun _ => False) : False := by
  unfold Ends at h
  rcases ho : outcome m s with ⟨_ | a, s'⟩ <;> rw [ho] at h <;> exact h

theorem pure {a : α} (h : Q a s) : Ends (pure a : Call ε σ α) s Q E := h

theorem bind {m : Call ε σ α} {f : α → Call ε σ β} {Q : β → σ → Prop}
    (h : Ends m s (fun a s' => Ends (f a) s' Q E) E) : Ends (m >>= f) s Q E := by
  unfold Ends at h ⊢
  rw [outcome_bind]
  rcases ho : outcome m s with ⟨_ | a, s'⟩ <;> rw [ho] at h <;> exact h

theorem throw {e : ε} (h : E s) : Ends (throw e : Call ε σ α) s Q E := h

theorem get {Q : σ → σ → Prop} (h : Q s s) : Ends (get : Call ε σ σ) s Q E := h

theorem set {t : σ} {Q : PUnit → σ → Prop} (h : Q ⟨⟩ t) : Ends (set t : Call ε σ PUnit) s Q E := h

theorem modify {f : σ → σ} {Q : PUnit → σ → Prop} (h : Q ⟨⟩ (f s)) :
    Ends (modify f : Call ε σ PUnit) s Q E := h

theorem ite {c : Prop} [Decidable c] {m n : Call ε σ α} (h1 : c → Ends m s Q E)
    (h2 : ¬c → Ends n s Q E) : Ends (if c then m else n) s Q E := by
  split_ifs with hc
  · exact h1 hc
  · exact h2 hc

end Ends

/-! ### What a call keeps -/

/-- `P` survives `m`, however `m` ends. -/
def Keeps (P : σ → Prop) (m : Call ε σ α) : Prop := ∀ s, P s → Ends m s (fun _ => P) P

variable {P : σ → Prop}

namespace Keeps

theorem pure {a : α} : Keeps P (pure a : Call ε σ α) := fun _ h => h

theorem throw {e : ε} : Keeps P (throw e : Call ε σ α) := fun _ h => h

theorem bind {m : Call ε σ α} {f : α → Call ε σ β} (hm : Keeps P m) (hf : ∀ a, Keeps P (f a)) :
    Keeps P (m >>= f) := fun s h =>
  .bind ((hm s h).mono (fun a s' hs => hf a s' hs) fun _ hs => hs)

/-- What is read is a state in `P`. -/
theorem get_bind {f : σ → Call ε σ β} (hf : ∀ s, P s → Keeps P (f s)) : Keeps P (get >>= f) :=
  fun s h => .bind (.get (hf s h s h))

theorem set {t : σ} (h : P t) : Keeps P (set t : Call ε σ PUnit) := fun _ _ => h

theorem modify {f : σ → σ} (h : ∀ s, P s → P (f s)) : Keeps P (modify f : Call ε σ PUnit) :=
  fun s hs => h s hs

theorem ite {c : Prop} [Decidable c] {m n : Call ε σ α} (h1 : c → Keeps P m)
    (h2 : ¬c → Keeps P n) : Keeps P (if c then m else n) := by
  split_ifs with hc
  · exact h1 hc
  · exact h2 hc

/-- What each round of a loop keeps. -/
theorem forM {γ : Type} {f : γ → Call ε σ PUnit} : ∀ (l : List γ), (∀ c ∈ l, Keeps P (f c)) →
    Keeps P (l.forM f)
  | [], _ => pure
  | c :: l, h => bind (h c List.mem_cons_self) fun _ =>
      forM l fun d hd => h d (List.mem_cons_of_mem _ hd)

end Keeps

/-! ### What a call returns -/

/-- `m` returns in `R`, from every state. -/
def Gives (R : α → Prop) (m : Call ε σ α) : Prop := ∀ s, Ends m s (fun a _ => R a) fun _ => True

variable {R : α → Prop}

namespace Gives

theorem pure {a : α} (h : R a) : Gives R (pure a : Call ε σ α) := fun _ => h

theorem throw {e : ε} : Gives R (throw e : Call ε σ α) := fun _ => trivial

/-- Whatever the first call returns. -/
theorem any (m : Call ε σ α) : Gives (fun _ => True) m := fun s => by
  unfold Ends
  rcases outcome m s with ⟨_ | a, s'⟩ <;> exact trivial

theorem bind_of {m : Call ε σ α} {f : α → Call ε σ β} {R' : β → Prop} (hm : Gives R m)
    (hf : ∀ a, R a → Gives R' (f a)) : Gives R' (m >>= f) := fun s =>
  .bind ((hm s).mono (fun a s' ha => hf a ha s') fun _ h => h)

theorem bind {m : Call ε σ α} {f : α → Call ε σ β} {R' : β → Prop} (hf : ∀ a, Gives R' (f a)) :
    Gives R' (m >>= f) := bind_of (any m) fun a _ => hf a

theorem ite {c : Prop} [Decidable c] {m n : Call ε σ α} (h1 : c → Gives R m) (h2 : ¬c → Gives R n) :
    Gives R (if c then m else n) := by
  split_ifs with hc
  · exact h1 hc
  · exact h2 hc

theorem of_outcome {m : Call ε σ α} {s s' : σ} {a : α} (h : Gives R m) (hm : outcome m s = (.ok a, s')) : R a :=
  (h s).of_outcome hm

end Gives

/-! ### What a call stops with -/

/-- `m`, run from `s`, stops with reasons of `R` only. -/
def StopsAt (R : ε → Prop) (m : Call ε σ α) (s : σ) : Prop := ∀ e s', outcome m s = (.error e, s') → R e

/-- `m` stops with reasons of `R` only, from every state. -/
def Stops (R : ε → Prop) (m : Call ε σ α) : Prop := ∀ s, StopsAt R m s

variable {R : ε → Prop}

namespace Stops

theorem pure {a : α} : Stops R (pure a : Call ε σ α) := fun _ _ _ h => by cases h

theorem throw {e : ε} (h : R e) : Stops R (throw e : Call ε σ α) := fun _ _ _ he => by
  cases he
  exact h

theorem bind {m : Call ε σ α} {f : α → Call ε σ β} (hm : Stops R m) (hf : ∀ a, Stops R (f a)) :
    Stops R (m >>= f) := by
  intro s e s' h
  rw [outcome_bind] at h
  rcases ho : outcome m s with ⟨_ | a, s₁⟩ <;> rw [ho] at h
  · cases h
    exact hm s _ _ ho
  · exact hf a s₁ e s' h

/-- A call after a call of which more is known. -/
theorem bind_ends {m : Call ε σ α} {f : α → Call ε σ β} (hm : Stops R m) (hQ : Ends m s Q fun _ => True)
    (hf : ∀ a s', Q a s' → StopsAt R (f a) s') : StopsAt R (m >>= f) s := by
  intro e s' h
  rw [outcome_bind] at h
  rcases ho : outcome m s with ⟨_ | a, s₁⟩ <;> rw [ho] at h
  · cases h
    exact hm s _ _ ho
  · exact hf a s₁ (hQ.of_outcome ho) e s' h

theorem get : Stops R (get : Call ε σ σ) := fun _ _ _ h => by cases h

theorem set {t : σ} : Stops R (set t : Call ε σ PUnit) := fun _ _ _ h => by cases h

theorem modify {f : σ → σ} : Stops R (modify f : Call ε σ PUnit) := fun _ _ _ h => by cases h

theorem ite {c : Prop} [Decidable c] {m n : Call ε σ α} (h1 : Stops R m) (h2 : Stops R n) :
    Stops R (if c then m else n) := by
  split_ifs
  · exact h1
  · exact h2

/-- What the rounds of a loop stop with. -/
theorem forM {γ : Type} {f : γ → Call ε σ PUnit} : ∀ (l : List γ), (∀ c, Stops R (f c)) → Stops R (l.forM f)
  | [], _ => pure
  | c :: l, h => bind (h c) fun _ => forM l h

end Stops

attribute [irreducible] Ends

end Pintos.Lib.Stopping
