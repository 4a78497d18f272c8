import Pintos.Lib.Ops

/-! # The links of a list

The doubly linked lists of `lib/kernel/list.c`: the elements' `next` and `prev` pointers, the list's two
header elements `head` and `tail`, and the operations that walk and move elements. `none` is a null
pointer; an operation stops where the code fails an assertion. `Linked m l xs` says that the list `l` of
the memory `m` has the elements `xs`, in that order, with links that agree in both directions. -/

namespace Pintos.Kernel.ListLinks

open Pintos.Lib.Ops

variable {E : Type}

/-- The `next` and `prev` of every `list_elem`. -/
structure Links (E : Type) where
  next : E → Option E
  prev : E → Option E

/-- `struct list`: its two header elements. -/
structure KList (E : Type) where
  head : E
  tail : E

/-- `is_head`. -/
def isHead (m : Links E) (elem : E) : Bool := (m.prev elem).isNone && (m.next elem).isSome

/-- `is_interior`. -/
def isInterior (m : Links E) (elem : E) : Bool := (m.prev elem).isSome && (m.next elem).isSome

/-- `is_tail`. -/
def isTail (m : Links E) (elem : E) : Bool := (m.prev elem).isSome && (m.next elem).isNone

/-- `list_begin`. -/
def listBegin (l : KList E) : Op (Links E) E := do
  let m ← get
  deref (m.next l.head)

/-- `list_end`. -/
def listEnd (l : KList E) : E := l.tail

/-- `list_next`. -/
def listNext (elem : E) : Op (Links E) E := do
  let m ← get
  assert (isHead m elem || isInterior m elem)
  deref (m.next elem)

/-- `list_prev`. -/
def listPrev (elem : E) : Op (Links E) E := do
  let m ← get
  assert (isInterior m elem || isTail m elem)
  deref (m.prev elem)

section Writes

variable [DecidableEq E]

/-- `p->next = v`. -/
def setNext (p v : Option E) : Op (Links E) Unit := do
  let e ← deref p
  modify fun m => { m with next := Function.update m.next e v }

/-- `p->prev = v`. -/
def setPrev (p v : Option E) : Op (Links E) Unit := do
  let e ← deref p
  modify fun m => { m with prev := Function.update m.prev e v }

/-- `list_splice`. -/
def listSplice (before first last : E) : Op (Links E) Unit := do
  let m ← get
  assert (isInterior m before || isTail m before)
  if first = last then pure () else do
    let last ← listPrev last
    let m ← get
    assert (isInterior m first)
    assert (isInterior m last)
    -- first->prev->next = last->next, last->next->prev = first->prev
    let m ← get
    setNext (m.prev first) (m.next last)
    let m ← get
    setPrev (m.next last) (m.prev first)
    -- first->prev = before->prev, last->next = before
    let m ← get
    setPrev (some first) (m.prev before)
    setNext (some last) (some before)
    -- before->prev->next = first, before->prev = last
    let m ← get
    setNext (m.prev before) (some first)
    setPrev (some before) (some last)

end Writes

/-! ### Chains of links -/

/-- `b` follows `a`, by the links of both. -/
def Link (m : Links E) (a b : E) : Prop := m.next a = some b ∧ m.prev b = some a

/-- The elements `ys`, linked one to the next from a first one without `prev` to a last one without `next`. -/
structure Chained (m : Links E) (ys : List E) : Prop where
  nodup : ys.Nodup
  chain : ys.IsChain (Link m)
  first : ∀ x ∈ ys.head?, m.prev x = none
  last : ∀ x ∈ ys.getLast?, m.next x = none

/-- The list `l` has the elements `xs`. -/
def Linked (m : Links E) (l : KList E) (xs : List E) : Prop := Chained m (l.head :: (xs ++ [l.tail]))

/-- The element at which the rest `ys` of the list `l` starts. -/
def cursor (l : KList E) (ys : List E) : E := ys.headD l.tail

variable {m m' : Links E} {l : KList E} {xs ys P A B S : List E} {x y : E}

namespace Chained

theorem link (h : Chained m (P ++ x :: y :: S)) : Link m x y := by
  have hxy := (List.isChain_append.mp h.chain).2.1
  exact (List.isChain_cons_cons.mp hxy).1

end Chained

/-- A chain whose links are left alone, but for the `prev` of its first element and the `next` of its last. -/
theorem isChain_link_congr : ∀ {ys : List E}, ys.IsChain (Link m) → (∀ x ∈ ys.dropLast, m'.next x = m.next x) →
    (∀ x ∈ ys.tail, m'.prev x = m.prev x) → ys.IsChain (Link m')
  | [], _, _, _ => List.isChain_nil
  | [x], _, _, _ => List.isChain_singleton x
  | x :: y :: ys, h, hn, hp => by
    obtain ⟨hxy, htail⟩ := List.isChain_cons_cons.mp h
    refine List.isChain_cons_cons.mpr ⟨⟨?_, ?_⟩, isChain_link_congr htail ?_ ?_⟩
    · rw [hn x (by simp), hxy.1]
    · rw [hp y (by simp), hxy.2]
    · intro z hz
      exact hn z (by simpa using Or.inr hz)
    · intro z hz
      exact hp z (by simpa using Or.inr hz)


/-- The same for a segment without repetitions. -/
theorem isChain_link_frame (hnodup : ys.Nodup) (h : ys.IsChain (Link m))
    (hn : ∀ x ∈ ys, x ∉ ys.getLast? → m'.next x = m.next x)
    (hp : ∀ x ∈ ys, x ∉ ys.head? → m'.prev x = m.prev x) : ys.IsChain (Link m') := by
  refine isChain_link_congr h (fun x hx => hn x (List.mem_of_mem_dropLast hx) fun hlast => ?_)
    fun x hx => hp x (List.mem_of_mem_tail hx) fun hhead => ?_
  · rw [← List.dropLast_append_getLast? x hlast, List.nodup_append] at hnodup
    exact hnodup.2.2 x hx x (List.mem_singleton_self x) rfl
  · rw [← List.cons_head?_tail hhead] at hnodup
    exact (List.nodup_cons.mp hnodup).1 hx

/-! ### Single operations -/

theorem Chained.isSome_next (h : Chained m (P ++ S)) (hx : x ∈ P) (hS : S ≠ []) : (m.next x).isSome := by
  obtain ⟨P1, P2, rfl⟩ := List.append_of_mem hx
  obtain ⟨y, ys, hys⟩ := List.exists_cons_of_ne_nil (List.append_ne_nil_of_right_ne_nil P2 hS)
  rw [List.append_assoc, List.cons_append, hys] at h
  rw [h.link.1]
  rfl

theorem Chained.isSome_prev (h : Chained m (P ++ S)) (hx : x ∈ S) (hP : P ≠ []) : (m.prev x).isSome := by
  obtain ⟨S1, S2, rfl⟩ := List.append_of_mem hx
  have hys := List.dropLast_append_getLast (List.append_ne_nil_of_left_ne_nil hP S1)
  rw [← List.append_assoc, ← hys, List.append_assoc] at h
  rw [h.link.2]
  rfl

theorem Chained.listNext_yields {Q : E → Links E → Prop} (h : Chained m (P ++ x :: y :: S)) (hQ : Q y m) :
    Yields (listNext x) m Q := by
  have hxy := h.link
  refine Yields.bind (Yields.get (Yields.bind (Yields.assert ?_ (Yields.deref hxy.1 hQ))))
  cases hx : m.prev x <;> simp [isHead, isInterior, hxy.1, hx]

theorem Link.listPrev_yields {Q : E → Links E → Prop} (h : Link m x y) (hQ : Q x m) : Yields (listPrev y) m Q := by
  refine Yields.bind (Yields.get (Yields.bind (Yields.assert ?_ (Yields.deref h.2 hQ))))
  cases hy : m.next y <;> simp [isInterior, isTail, h.2, hy]

section Splice

variable [DecidableEq E] {p a a' b b' s : E}

theorem setNext_yields {v : Option E} {Q : Unit → Links E → Prop} {o : Option E} (ho : o = some x)
    (hQ : Q () { m with next := Function.update m.next x v }) : Yields (setNext o v) m Q :=
  Yields.bind (Yields.deref ho (Yields.modify hQ))

theorem setPrev_yields {v : Option E} {Q : Unit → Links E → Prop} {o : Option E} (ho : o = some x)
    (hQ : Q () { m with prev := Function.update m.prev x v }) : Yields (setPrev o v) m Q :=
  Yields.bind (Yields.deref ho (Yields.modify hQ))

/-- The memory after `list_splice` moved `b` to `b'` from before `s` to behind `p`. -/
def spliced (m : Links E) (p a a' b b' s : E) : Links E where
  next := Function.update (Function.update (Function.update m.next a' (some s)) b' (some a)) p (some b)
  prev := Function.update (Function.update (Function.update m.prev s (some a')) b (some p)) a (some b')

/-- **What `list_splice` writes.** -/
theorem listSplice_yields (hpa : Link m p a) (hab : Link m a' b) (hbs : Link m b' s) (hb : (m.next b).isSome)
    (hb' : (m.prev b').isSome) (hbs' : b ≠ s) (has : a ≠ s) (hne : a ≠ b) (hne' : b' ≠ a') :
    Yields (listSplice a b s) m fun _ m' => m' = spliced m p a a' b b' s := by
  have hbefore : (isInterior m a || isTail m a) = true := by
    cases h : m.next a <;> simp [isInterior, isTail, hpa.2, h]
  have hfirst : isInterior m b = true := by simp [isInterior, hab.2, hb]
  have hlast : isInterior m b' = true := by simp [isInterior, hbs.1, hb']
  unfold listSplice
  rw [if_neg hbs']
  refine Yields.bind (Yields.get (Yields.bind (Yields.assert hbefore (Yields.bind (hbs.listPrev_yields ?_)))))
  refine Yields.bind (Yields.get (Yields.bind (Yields.assert hfirst (Yields.bind (Yields.assert hlast ?_)))))
  refine Yields.bind (Yields.get (Yields.bind (setNext_yields hab.2 ?_)))
  refine Yields.bind (Yields.get (Yields.bind (setPrev_yields (x := s) ?_ ?_)))
  · simp only [Function.update_of_ne hne', hbs.1]
  refine Yields.bind (Yields.get (Yields.bind (setPrev_yields rfl (Yields.bind (setNext_yields rfl ?_)))))
  refine Yields.bind (Yields.get (Yields.bind (setNext_yields (x := p) ?_ (setPrev_yields rfl ?_))))
  · simp only [Function.update_of_ne hne, Function.update_of_ne has, hpa.2]
  · simp only [spliced, Function.update_of_ne has, hpa.2, hbs.1, hab.2]

/-- **The moved elements are behind `p`**, those before them behind the moved ones. -/
theorem Chained.spliced (h : Chained m (P ++ A ++ B ++ S)) (hp : P.getLast? = some p) (ha : A.head? = some a)
    (ha' : A.getLast? = some a') (hb : B.head? = some b) (hb' : B.getLast? = some b') (hs : S.head? = some s) :
    Chained (spliced m p a a' b b' s) (P ++ B ++ A ++ S) := by
  have hnodup := h.nodup
  simp only [List.nodup_append, List.mem_append] at hnodup
  obtain ⟨⟨⟨hPn, hAn, hPA⟩, hBn, hPAB⟩, hSn, hPABS⟩ := hnodup
  have hpP := List.mem_of_getLast? hp
  have haA := List.mem_of_head? ha
  have haA' := List.mem_of_getLast? ha'
  have hbB := List.mem_of_head? hb
  have hbB' := List.mem_of_getLast? hb'
  have hsS := List.mem_of_head? hs
  set m' := ListLinks.spliced m p a a' b b' s with hm'
  have hnext : ∀ x, x ≠ p → x ≠ a' → x ≠ b' → m'.next x = m.next x := by
    intro x h1 h2 h3
    simp [hm', ListLinks.spliced, h1, h2, h3]
  have hprev : ∀ x, x ≠ a → x ≠ b → x ≠ s → m'.prev x = m.prev x := by
    intro x h1 h2 h3
    simp [hm', ListLinks.spliced, h1, h2, h3]
  have hpb : Link m' p b := by
    have h1 : b ≠ a := fun e => hPAB a (Or.inr haA) b hbB e.symm
    simp [hm', Link, ListLinks.spliced, h1]
  have hba : Link m' b' a := by
    have h1 : b' ≠ p := fun e => hPAB p (Or.inl hpP) b' hbB' e.symm
    simp [hm', Link, ListLinks.spliced, h1]
  have has : Link m' a' s := by
    have h1 : a' ≠ p := fun e => hPA p hpP a' haA' e.symm
    have h2 : a' ≠ b' := hPAB a' (Or.inr haA') b' hbB'
    have h3 : s ≠ a := fun e => hPABS a (Or.inl (Or.inr haA)) s hsS e.symm
    have h4 : s ≠ b := fun e => hPABS b (Or.inr hbB) s hsS e.symm
    simp [hm', Link, ListLinks.spliced, h1, h2, h3, h4]
  have hchain := h.chain
  simp only [List.isChain_append] at hchain
  obtain ⟨⟨⟨hPc, hAc, -⟩, hBc, -⟩, hSc, -⟩ := hchain
  have hPc' : P.IsChain (Link m') := by
    refine isChain_link_frame hPn hPc (fun x hx hlast => hnext x ?_ ?_ ?_) fun x hx _ => hprev x ?_ ?_ ?_
    all_goals grind
  have hAc' : A.IsChain (Link m') := by
    refine isChain_link_frame hAn hAc (fun x hx hlast => hnext x ?_ ?_ ?_) fun x hx _ => hprev x ?_ ?_ ?_
    all_goals grind
  have hBc' : B.IsChain (Link m') := by
    refine isChain_link_frame hBn hBc (fun x hx hlast => hnext x ?_ ?_ ?_) fun x hx _ => hprev x ?_ ?_ ?_
    all_goals grind
  have hSc' : S.IsChain (Link m') := by
    refine isChain_link_frame hSn hSc (fun x hx hlast => hnext x ?_ ?_ ?_) fun x hx _ => hprev x ?_ ?_ ?_
    all_goals grind
  refine ⟨?_, ?_, ?_, ?_⟩
  · refine h.nodup.perm ?_
    exact List.Perm.append_right S (by simpa using (List.perm_append_comm : (A ++ B).Perm (B ++ A)).append_left P)
  · simp only [List.isChain_append, List.getLast?_append, hb', ha', Option.some_or, hb, ha, hs, hp]
    simp [hPc', hAc', hBc', hSc', hpb, hba, has]
  · intro x hx
    have hw := List.head?_eq_some_head (List.ne_nil_of_mem hpP)
    set w := P.head _
    obtain rfl : w = x := by simpa [List.head?_append, hw] using hx
    rw [hprev w (by grind) (by grind) (by grind)]
    exact h.first w (by simp [List.head?_append, hw])
  · intro x hx
    have hw := List.getLast?_eq_some_getLast (List.ne_nil_of_mem hsS)
    set w := S.getLast _
    rw [List.getLast?_append, hw, Option.some_or, Option.mem_some_iff] at hx
    rw [← hx, hnext w (by grind) (by grind) (by grind)]
    exact h.last w (by rw [List.getLast?_append, hw]; rfl)

/-- **`list_splice`** moves the elements `B` to the place before `A`. -/
theorem Chained.listSplice_yields (h : Chained m (P ++ A ++ B ++ S)) (hP : P ≠ []) (ha : A.head? = some a)
    (hb : B.head? = some b)
    (hs : S.head? = some s) : Yields (listSplice a b s) m fun _ m' => Chained m' (P ++ B ++ A ++ S) := by
  have haA := List.mem_of_head? ha
  have hbB := List.mem_of_head? hb
  have hsS := List.mem_of_head? hs
  have hp := List.getLast?_eq_some_getLast hP
  have ha' := List.getLast?_eq_some_getLast (List.ne_nil_of_mem haA)
  have hb' := List.getLast?_eq_some_getLast (List.ne_nil_of_mem hbB)
  set p := P.getLast _
  set a' := A.getLast _
  set b' := B.getLast _
  have hbB' := List.mem_of_getLast? hb'
  have haA' := List.mem_of_getLast? ha'
  have hchain := h.chain
  rw [List.isChain_append, List.isChain_append, List.isChain_append] at hchain
  obtain ⟨⟨⟨-, -, hpa⟩, -, hab⟩, -, hbs⟩ := hchain
  have hnodup := h.nodup
  simp only [List.nodup_append, List.mem_append] at hnodup
  obtain ⟨⟨⟨hPn, hAn, hPA⟩, hBn, hPAB⟩, hSn, hPABS⟩ := hnodup
  have hpa' := hpa p (Option.mem_def.mpr hp) a (Option.mem_def.mpr ha)
  have hab' := hab a' (by rw [List.getLast?_append, ha']; rfl) b (Option.mem_def.mpr hb)
  have hbs' := hbs b' (by rw [List.getLast?_append, hb']; rfl) s (Option.mem_def.mpr hs)
  refine (ListLinks.listSplice_yields hpa' hab' hbs' ?_ ?_ ?_ ?_ ?_ ?_).mono ?_
  · exact h.isSome_next (List.mem_append_right _ hbB) (List.ne_nil_of_mem hsS)
  · rw [List.append_assoc] at h
    exact h.isSome_prev (List.mem_append_left _ hbB') (by simp [hP])
  · exact hPABS b (Or.inr hbB) s hsS
  · exact hPABS a (Or.inl (Or.inr haA)) s hsS
  · exact hPAB a (Or.inr haA) b hbB
  · exact fun e => hPAB a' (Or.inr haA') b' hbB' e.symm
  · rintro _ _ rfl
    exact h.spliced hp ha ha' hb hb' hs

end Splice

/-! ### Lists and their cursors -/

@[simp] theorem cursor_nil : cursor l [] = l.tail := rfl

@[simp] theorem cursor_cons : cursor l (x :: xs) = x := rfl

theorem append_tail (l : KList E) (ys : List E) : ∃ rest, ys ++ [l.tail] = cursor l ys :: rest := by
  cases ys with
  | nil => exact ⟨[], rfl⟩
  | cons y ys => exact ⟨ys ++ [l.tail], rfl⟩

namespace Linked

theorem link (h : Linked m l (P ++ x :: S)) : ∃ rest, Chained m ((l.head :: P) ++ x :: cursor l S :: rest) := by
  obtain ⟨rest, hrest⟩ := append_tail l S
  refine ⟨rest, ?_⟩
  rw [← hrest]
  simpa [Linked] using h

theorem listNext_yields {Q : E → Links E → Prop} (h : Linked m l (P ++ x :: S)) (hQ : Q (cursor l S) m) :
    Yields (listNext x) m Q := by
  obtain ⟨rest, hrest⟩ := h.link
  exact hrest.listNext_yields hQ

theorem listPrev_yields {Q : E → Links E → Prop} (h : Linked m l (P ++ x :: S)) (hQ : Q x m) :
    Yields (listPrev (cursor l S)) m Q := by
  obtain ⟨rest, hrest⟩ := h.link
  exact hrest.link.listPrev_yields hQ

theorem listBegin_yields {Q : E → Links E → Prop} (h : Linked m l xs) (hQ : Q (cursor l xs) m) :
    Yields (listBegin l) m Q := by
  obtain ⟨rest, hrest⟩ := append_tail l xs
  unfold Linked at h
  rw [hrest, ← List.nil_append (l.head :: _)] at h
  exact Yields.bind (Yields.get (Yields.deref h.link.1 hQ))

/-- Cursors at two places are different. -/
theorem cursor_ne (h : Linked m l (P ++ x :: (A ++ S))) : x ≠ cursor l S := by
  obtain ⟨rest, hrest⟩ := append_tail l S
  have hnodup := h.nodup
  have heq : l.head :: (P ++ x :: (A ++ S) ++ [l.tail]) = (l.head :: P) ++ x :: (A ++ cursor l S :: rest) := by
    rw [← hrest]
    simp
  rw [heq, List.nodup_append] at hnodup
  rintro hx
  exact (List.nodup_cons.mp hnodup.2.1).1 (by rw [hx]; simp)

theorem ne_tail (h : Linked m l (P ++ x :: A)) : x ≠ l.tail :=
  cursor_ne (P := P) (A := A) (S := []) (by rwa [List.append_nil])

/-- One element moved to the place before others. -/
theorem listSplice_yields [DecidableEq E] (h : Linked m l (P ++ x :: A ++ y :: S)) :
    Yields (listSplice x y (cursor l S)) m fun _ m' => Linked m' l (P ++ y :: x :: A ++ S) := by
  obtain ⟨rest, hrest⟩ := append_tail l S
  have h' : Chained m ((l.head :: P) ++ (x :: A) ++ [y] ++ cursor l S :: rest) := by
    rw [← hrest]
    simpa [Linked] using h
  refine (h'.listSplice_yields (List.cons_ne_nil _ _) rfl rfl rfl).mono fun _ m' hm' => ?_
  rw [← hrest] at hm'
  simpa [Linked] using hm'

end Linked

end Pintos.Kernel.ListLinks
