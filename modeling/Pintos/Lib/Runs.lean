import Mathlib.Tactic

/-! # Runs of a labelled transition relation

A system is a relation `R s a s'`: the action `a` may take the state `s` to `s'`. This file names
nothing of the kernel: it says which states a system reaches, what it means that every step of a
run meets a condition, and packages the induction over runs once, so that a safety proof is left
with its initial states and its single steps. -/

namespace Pintos.Lib.Runs

variable {σ α : Type*}

/-- The states that `R` reaches from the states of `init`. -/
inductive Reachable (init : σ → Prop) (R : σ → α → σ → Prop) : σ → Prop
  | start {s : σ} (h : init s) : Reachable init R s
  | step {s s' : σ} {a : α} (hs : Reachable init R s) (h : R s a s') : Reachable init R s'

/-- The steps of `R` that meet `ok` in the state before them. -/
def Guarded (ok : σ → α → Prop) (R : σ → α → σ → Prop) (s : σ) (a : α) (s' : σ) : Prop :=
  ok s a ∧ R s a s'

/-- What an invariant of a system is: it holds at the start and every step keeps it. -/
structure Invariant (init : σ → Prop) (R : σ → α → σ → Prop) (I : σ → Prop) : Prop where
  start : ∀ {s}, init s → I s
  step : ∀ {s a s'}, I s → R s a s' → I s'

/-- **The invariant rule.** -/
theorem Reachable.of_invariant {init : σ → Prop} {R : σ → α → σ → Prop} {I : σ → Prop}
    (hI : Invariant init R I) : ∀ {s : σ}, Reachable init R s → I s
  | _, .start h => hI.start h
  | _, .step hs h => hI.step (hs.of_invariant hI) h

/-- A run that is computed step by step. -/
theorem Reachable.of_foldlM {init : σ → Prop} {R : σ → α → σ → Prop} {f : σ → α → Option σ}
    (hf : ∀ {s a s'}, f s a = some s' → R s a s') :
    ∀ (as : List α) {s s' : σ}, Reachable init R s → as.foldlM f s = some s' → Reachable init R s'
  | [], _, _, hs, h => by
    cases h
    exact hs
  | a :: as, s, s', hs, h => by
    rw [List.foldlM_cons] at h
    obtain ⟨s₁, h1, h2⟩ := Option.bind_eq_some_iff.mp h
    exact .of_foldlM hf as (hs.step (hf h1)) h2

/-- A system with fewer steps reaches fewer states. -/
theorem Reachable.mono {init : σ → Prop} {R R' : σ → α → σ → Prop}
    (hR : ∀ s a s', R s a s' → R' s a s') : ∀ {s : σ}, Reachable init R s → Reachable init R' s
  | _, .start h => .start h
  | _, .step hs h => .step (hs.mono hR) (hR _ _ _ h)

theorem Reachable.of_guarded {init : σ → Prop} {R : σ → α → σ → Prop} {ok : σ → α → Prop}
    {s : σ} (h : Reachable init (Guarded ok R) s) : Reachable init R s :=
  h.mono fun _ _ _ h => h.2

/-- An invariant of all runs may be used to prove one of the guarded runs. -/
theorem Invariant.guarded {init : σ → Prop} {R : σ → α → σ → Prop} {ok : σ → α → Prop}
    {J P : σ → Prop} (hJ : Invariant init R J) (h0 : ∀ {s}, init s → P s)
    (h1 : ∀ {s a s'}, J s → P s → ok s a → R s a s' → P s') :
    Invariant init (Guarded ok R) fun s => J s ∧ P s where
  start h := ⟨hJ.start h, h0 h⟩
  step := fun ⟨hj, hp⟩ ⟨hok, hr⟩ => ⟨hJ.step hj hr, h1 hj hp hok hr⟩

/-- The run of the actions `as`. -/
inductive Run (R : σ → α → σ → Prop) : σ → List α → σ → Prop
  | nil {s : σ} : Run R s [] s
  | cons {s s₁ s' : σ} {a : α} {as : List α} (h : R s a s₁) (hs : Run R s₁ as s') : Run R s (a :: as) s'

theorem Reachable.run {init : σ → Prop} {R : σ → α → σ → Prop} : ∀ {s s' : σ} {as : List α},
    Reachable init R s → Run R s as s' → Reachable init R s'
  | _, _, _, h, .nil => h
  | _, _, _, h, .cons hr hs => (h.step hr).run hs

theorem Run.split {R : σ → α → σ → Prop} : ∀ {as bs : List α} {s s' : σ}, Run R s (as ++ bs) s' →
    ∃ s₁, Run R s as s₁ ∧ Run R s₁ bs s'
  | [], _, s, _, h => ⟨s, .nil, h⟩
  | _ :: _, _, _, _, .cons h hs => by
    obtain ⟨s₁, h1, h2⟩ := split hs
    exact ⟨s₁, .cons h h1, h2⟩

/-- What each step of an action in `ok` keeps, a run of such actions keeps. -/
theorem Run.keeps {R : σ → α → σ → Prop} {P : σ → Prop} {ok : α → Prop}
    (hstep : ∀ {s a s'}, R s a s' → ok a → P s → P s') {s s' : σ} {as : List α} (h : Run R s as s')
    (hok : ∀ a ∈ as, ok a) (hs : P s) : P s' := by
  induction h with
  | nil => exact hs
  | cons hr _ ih =>
    exact ih (fun a ha => hok a (List.mem_cons_of_mem _ ha)) (hstep hr (hok _ List.mem_cons_self) hs)

/-- **The rule of the first exit.** Where each step keeps `P` or leaves it as `Q` says, a run from `P` stays
in `P`, or it stays there up to a step that does what `Q` says. -/
theorem Run.first_exit {R : σ → α → σ → Prop} {J P : σ → Prop} {Q : σ → α → σ → Prop}
    (hJ : ∀ {s a s'}, J s → R s a s' → J s')
    (hstep : ∀ {s a s'}, J s → P s → R s a s' → P s' ∨ Q s a s') :
    ∀ {s s' : σ} {as : List α}, J s → P s → Run R s as s' →
      P s' ∨ ∃ as₁ a as₂ s₁ s₂, as = as₁ ++ a :: as₂ ∧ Run (Guarded (fun s _ => P s) R) s as₁ s₁ ∧
        P s₁ ∧ R s₁ a s₂ ∧ Q s₁ a s₂ ∧ Run R s₂ as₂ s'
  | _, _, _, _, hp, .nil => .inl hp
  | s, s', a :: as, hj, hp, .cons hr hs => by
    rcases hstep hj hp hr with hp' | hq
    · rcases first_exit (R := R) hJ hstep (hJ hj hr) hp' hs with h | ⟨as₁, b, as₂, s₁, s₂, rfl, h1, h2⟩
      · exact .inl h
      · exact .inr ⟨a :: as₁, b, as₂, s₁, s₂, rfl, .cons ⟨hp, hr⟩ h1, h2⟩
    · exact .inr ⟨[], a, as, s, _, rfl, .nil, hp, hr, hq, hs⟩

end Pintos.Lib.Runs
