import Mathlib.Data.List.Destutter
import Pintos.Kernel.ListSort

/-! # The operations on lists

What `lib/kernel/list.c` does to lists of the memory but for sorting: elements are inserted and removed, found at
the ends, counted, moved, reversed, kept in order and compared. Every operation is given by its links, and what it
does to the list is proved of them. All writes are of two kinds: a segment is cut out (`cutOut`), and a segment is
put in between two neighbours (`putIn`). What an operation does not write is stated with it, as `Confined`. -/

namespace Pintos.Kernel.ListOps

open Pintos.Lib.Ops Pintos.Kernel.ListLinks Pintos.Kernel.ListSort

variable {E : Type}

/-- `list_rbegin`. -/
def listRbegin (l : KList E) : Op (Links E) E := do
  let m ← get
  deref (m.prev l.tail)

/-- `list_rend`. -/
def listRend (l : KList E) : E := l.head

variable [DecidableEq E]

/-- `list_init`. -/
def listInit (l : KList E) : Op (Links E) Unit := do
  setPrev (some l.head) none
  setNext (some l.head) (some l.tail)
  setPrev (some l.tail) (some l.head)
  setNext (some l.tail) none

/-- `list_insert`. -/
def listInsert (before elem : E) : Op (Links E) Unit := do
  let m ← get
  assert (isInterior m before || isTail m before)
  setPrev (some elem) (m.prev before)
  setNext (some elem) (some before)
  let m ← get
  setNext (m.prev before) (some elem)
  setPrev (some before) (some elem)

/-- `list_push_front`. -/
def listPushFront (l : KList E) (elem : E) : Op (Links E) Unit := do listInsert (← listBegin l) elem

/-- `list_push_back`. -/
def listPushBack (l : KList E) (elem : E) : Op (Links E) Unit := listInsert (listEnd l) elem

/-- `list_remove`. -/
def listRemove (elem : E) : Op (Links E) E := do
  let m ← get
  assert (isInterior m elem)
  setNext (m.prev elem) (m.next elem)
  let m ← get
  setPrev (m.next elem) (m.prev elem)
  let m ← get
  deref (m.next elem)

/-- `list_empty`. -/
def listEmpty (l : KList E) : Op (Links E) Bool := do return (← listBegin l) == listEnd l

/-- `list_front`. -/
def listFront (l : KList E) : Op (Links E) E := do
  assert (!(← listEmpty l))
  let m ← get
  deref (m.next l.head)

/-- `list_back`. -/
def listBack (l : KList E) : Op (Links E) E := do
  assert (!(← listEmpty l))
  let m ← get
  deref (m.prev l.tail)

/-- `list_pop_front`. -/
def listPopFront (l : KList E) : Op (Links E) E := do
  let front ← listFront l
  let _ ← listRemove front
  return front

/-- `list_pop_back`. -/
def listPopBack (l : KList E) : Op (Links E) E := do
  let back ← listBack l
  let _ ← listRemove back
  return back

/-- The loop of `list_size`. -/
def listSizeLoop (l : KList E) : ℕ → E → ℕ → Op (Links E) ℕ
  | 0, _, _ => halt
  | fuel + 1, e, cnt => if e = listEnd l then pure cnt else do listSizeLoop l fuel (← listNext e) (cnt + 1)

/-- `list_size`. -/
def listSize (fuel : ℕ) (l : KList E) : Op (Links E) ℕ := do listSizeLoop l fuel (← listBegin l) 0

/-- The loop of `list_reverse`, which goes on by the `prev` that was the `next`. -/
def listReverseLoop (l : KList E) : ℕ → E → Op (Links E) Unit
  | 0, _ => halt
  | fuel + 1, e => if e = listEnd l then pure () else do
    -- swap (&e->prev, &e->next)
    let m ← get
    setPrev (some e) (m.next e)
    setNext (some e) (m.prev e)
    let m ← get
    listReverseLoop l fuel (← deref (m.prev e))

/-- `list_reverse`. -/
def listReverse (fuel : ℕ) (l : KList E) : Op (Links E) Unit := do
  if ← listEmpty l then pure () else do
    listReverseLoop l fuel (← listBegin l)
    -- swap (&list->head.next, &list->tail.prev)
    let m ← get
    setNext (some l.head) (m.prev l.tail)
    setPrev (some l.tail) (m.next l.head)
    -- swap (&list->head.next->prev, &list->tail.prev->next)
    let m ← get
    let back ← deref (m.next l.head)
    let front ← deref (m.prev l.tail)
    setPrev (some back) (m.next front)
    setNext (some front) (m.prev back)

section Ordered

variable (less : E → E → Bool)

/-- The loop of `list_insert_ordered`. -/
def insertOrderedLoop (l : KList E) (elem : E) : ℕ → E → Op (Links E) E
  | 0, _ => halt
  | fuel + 1, e =>
    if e = listEnd l then pure e
    else if less elem e then pure e
    else do insertOrderedLoop l elem fuel (← listNext e)

/-- `list_insert_ordered`. -/
def listInsertOrdered (fuel : ℕ) (l : KList E) (elem : E) : Op (Links E) Unit := do
  let e ← insertOrderedLoop less l elem fuel (← listBegin l)
  listInsert e elem

/-- `if (duplicates != NULL) list_push_back (duplicates, next)`. -/
def giveTo (duplicates : Option (KList E)) (next : E) : Op (Links E) Unit :=
  match duplicates with
  | some duplicates => listPushBack duplicates next
  | none => pure ()

/-- The loop of `list_unique`. -/
def listUniqueLoop (l : KList E) (duplicates : Option (KList E)) : ℕ → E → Op (Links E) Unit
  | 0, _ => halt
  | fuel + 1, elem => do
    let next ← listNext elem
    if next = listEnd l then pure ()
    else if !less elem next && !less next elem then do
      let _ ← listRemove next
      giveTo duplicates next
      listUniqueLoop l duplicates fuel elem
    else listUniqueLoop l duplicates fuel next

/-- `list_unique`. -/
def listUnique (fuel : ℕ) (l : KList E) (duplicates : Option (KList E)) : Op (Links E) Unit := do
  if ← listEmpty l then pure () else do listUniqueLoop less l duplicates fuel (← listBegin l)

/-- The loop of `list_max` and `list_min`: `better e best` says that `e` takes the place of `best`. -/
def listBestLoop (better : E → E → Bool) (l : KList E) : ℕ → E → E → Op (Links E) E
  | 0, _, _ => halt
  | fuel + 1, best, e =>
    if e = listEnd l then pure best
    else do listBestLoop better l fuel (if better e best then e else best) (← listNext e)

/-- What `list_max` and `list_min` have in common. -/
def listBest (better : E → E → Bool) (fuel : ℕ) (l : KList E) : Op (Links E) E := do
  let best ← listBegin l
  if best = listEnd l then pure best else do listBestLoop better l fuel best (← listNext best)

/-- `list_max`. -/
def listMax (fuel : ℕ) (l : KList E) : Op (Links E) E := listBest (fun e max => less max e) fuel l

/-- `list_min`. -/
def listMin (fuel : ℕ) (l : KList E) : Op (Links E) E := listBest (fun e min => less e min) fuel l

end Ordered

variable {m m' m'' : Links E} {l : KList E} {xs ys P A B S : List E} {a b b' e p s x y : E}

/-! ### What is not written -/

/-- Only links of the elements `ys` are different. -/
def Confined (ys : List E) (m m' : Links E) : Prop := ∀ x ∉ ys, m'.next x = m.next x ∧ m'.prev x = m.prev x

omit [DecidableEq E] in
theorem Confined.refl (ys : List E) (m : Links E) : Confined ys m m := fun _ _ => ⟨rfl, rfl⟩

omit [DecidableEq E] in
theorem Confined.trans (h : Confined ys m m') (h' : Confined ys m' m'') : Confined ys m m'' := fun x hx =>
  ⟨(h' x hx).1.trans (h x hx).1, (h' x hx).2.trans (h x hx).2⟩

omit [DecidableEq E] in
theorem Confined.mono (h : Confined xs m m') (hsub : xs ⊆ ys) : Confined ys m m' := fun x hx =>
  h x fun hx' => hx (hsub hx')

omit [DecidableEq E] in
/-- A chain none of whose links is written. -/
theorem chained_frame (h : Chained m ys) (hc : Confined xs m m') (hd : ∀ x ∈ ys, x ∉ xs) : Chained m' ys where
  nodup := h.nodup
  chain := isChain_link_frame h.nodup h.chain (fun x hx _ => (hc x (hd x hx)).1) fun x hx _ => (hc x (hd x hx)).2
  first x hx := ((hc x (hd x (List.mem_of_mem_head? hx))).2).trans (h.first x hx)
  last x hx := ((hc x (hd x (List.mem_of_mem_getLast? hx))).1).trans (h.last x hx)

/-! ### Segments -/

/-- The memory in which `s` follows `p`. -/
def cutOut (m : Links E) (p s : E) : Links E where
  next := Function.update m.next p (some s)
  prev := Function.update m.prev s (some p)

/-- The memory in which the segment from `b` to `b'` stands between `p` and `s`. -/
def putIn (m : Links E) (p b b' s : E) : Links E where
  next := Function.update (Function.update m.next b' (some s)) p (some b)
  prev := Function.update (Function.update m.prev b (some p)) s (some b')

theorem confined_cutOut : Confined [p, s] m (cutOut m p s) := fun x hx => by
  simp only [List.mem_cons, List.not_mem_nil, or_false, not_or] at hx
  simp [cutOut, hx]

theorem confined_putIn : Confined [p, b, b', s] m (putIn m p b b' s) := fun x hx => by
  simp only [List.mem_cons, List.not_mem_nil, or_false, not_or] at hx
  simp [putIn, hx]

/-- A segment whose links between its elements stay. -/
theorem isChain_cutOut (hB : B.IsChain (Link m)) (hp : p ∉ B) (hs : s ∉ B) : B.IsChain (Link (cutOut m p s)) := by
  refine isChain_link_congr hB (fun x hx => ?_) fun x hx => ?_
  · exact Function.update_of_ne (by rintro rfl; exact hp (List.mem_of_mem_dropLast hx)) _ _
  · exact Function.update_of_ne (by rintro rfl; exact hs (List.mem_of_mem_tail hx)) _ _

/-- **A segment is cut out.** -/
theorem chained_cutOut (h : Chained m (P ++ B ++ S)) (hp : P.getLast? = some p) (hs : S.head? = some s) :
    Chained (cutOut m p s) (P ++ S) := by
  have hpP := List.mem_of_getLast? hp
  have hsS := List.mem_of_head? hs
  have hnodup := h.nodup
  simp only [List.nodup_append, List.mem_append] at hnodup
  obtain ⟨⟨hPn, -, -⟩, hSn, hPS⟩ := hnodup
  have hps : ∀ x ∈ P, ∀ y ∈ S, x ≠ y := fun x hx => hPS x (.inl hx)
  have hchain := h.chain
  simp only [List.isChain_append] at hchain
  obtain ⟨⟨hPc, -, -⟩, hSc, -⟩ := hchain
  have hnext : ∀ x, x ≠ p → (cutOut m p s).next x = m.next x := fun x hx => Function.update_of_ne hx _ _
  have hprev : ∀ x, x ≠ s → (cutOut m p s).prev x = m.prev x := fun x hx => Function.update_of_ne hx _ _
  have hlink : Link (cutOut m p s) p s := ⟨Function.update_self .., Function.update_self ..⟩
  refine ⟨?_, List.isChain_append.mpr ⟨?_, ?_, ?_⟩, fun x hx => ?_, fun x hx => ?_⟩
  · refine h.nodup.sublist ?_
    rw [List.append_assoc]
    exact List.Sublist.append_left (List.sublist_append_right B S) P
  · exact isChain_link_frame hPn hPc (fun x hx hlast => hnext x (by rintro rfl; exact hlast hp))
      fun x hx _ => hprev x (hps x hx s hsS)
  · exact isChain_link_frame hSn hSc (fun x hx _ => hnext x (hps p hpP x hx).symm)
      fun x hx hhead => hprev x (by rintro rfl; exact hhead hs)
  · rw [hp, hs]
    rintro _ ⟨⟩ _ ⟨⟩
    exact hlink
  · have hx' : x ∈ P.head? := by
      rw [List.head?_append_of_ne_nil _ (List.ne_nil_of_mem hpP)] at hx
      exact hx
    rw [hprev x (hps x (List.mem_of_mem_head? hx') s hsS)]
    refine h.first x ?_
    rw [List.append_assoc, List.head?_append_of_ne_nil _ (List.ne_nil_of_mem hpP)]
    exact hx'
  · have hx' : x ∈ S.getLast? := by
      rw [List.getLast?_append_of_ne_nil _ (List.ne_nil_of_mem hsS)] at hx
      exact hx
    rw [hnext x (hps p hpP x (List.mem_of_mem_getLast? hx')).symm]
    refine h.last x ?_
    rw [List.getLast?_append_of_ne_nil _ (List.ne_nil_of_mem hsS)]
    exact hx'

/-- **A segment is put in.** -/
theorem chained_putIn (h : Chained m (P ++ S)) (hp : P.getLast? = some p) (hs : S.head? = some s)
    (hB : B.IsChain (Link m)) (hBn : B.Nodup) (hd : ∀ x ∈ B, x ∉ P ++ S) (hb : B.head? = some b)
    (hb' : B.getLast? = some b') : Chained (putIn m p b b' s) (P ++ B ++ S) := by
  have hpP := List.mem_of_getLast? hp
  have hsS := List.mem_of_head? hs
  have hbB := List.mem_of_head? hb
  have hbB' := List.mem_of_getLast? hb'
  obtain ⟨hPn, hSn, hPS⟩ := List.nodup_append.mp h.nodup
  obtain ⟨hPc, hSc, -⟩ := List.isChain_append.mp h.chain
  have hBP : ∀ x ∈ B, ∀ y ∈ P, x ≠ y := fun x hx y hy e => hd x hx (e ▸ List.mem_append_left _ hy)
  have hBS : ∀ x ∈ B, ∀ y ∈ S, x ≠ y := fun x hx y hy e => hd x hx (e ▸ List.mem_append_right _ hy)
  set m' := putIn m p b b' s with hm'
  have hnext : ∀ x, x ≠ p → x ≠ b' → m'.next x = m.next x := fun x h1 h2 => by simp [hm', putIn, h1, h2]
  have hprev : ∀ x, x ≠ b → x ≠ s → m'.prev x = m.prev x := fun x h1 h2 => by simp [hm', putIn, h1, h2]
  have hpb : Link m' p b := by simp [hm', Link, putIn, hBS b hbB s hsS]
  have hbs : Link m' b' s := by simp [hm', Link, putIn, hBP b' hbB' p hpP]
  have hPc' : P.IsChain (Link m') := isChain_link_frame hPn hPc
    (fun x hx hlast => hnext x (by rintro rfl; exact hlast hp) (hBP b' hbB' x hx).symm)
    fun x hx _ => hprev x (hBP b hbB x hx).symm (hPS x hx s hsS)
  have hBc' : B.IsChain (Link m') := isChain_link_frame hBn hB
    (fun x hx hlast => hnext x (hBP x hx p hpP) (by rintro rfl; exact hlast hb'))
    fun x hx hhead => hprev x (by rintro rfl; exact hhead hb) (hBS x hx s hsS)
  have hSc' : S.IsChain (Link m') := isChain_link_frame hSn hSc
    (fun x hx _ => hnext x (hPS p hpP x hx).symm (hBS b' hbB' x hx).symm)
    fun x hx hhead => hprev x (hBS b hbB x hx).symm (by rintro rfl; exact hhead hs)
  refine ⟨?_, ?_, fun x hx => ?_, fun x hx => ?_⟩
  · simp only [List.nodup_append, List.mem_append]
    refine ⟨⟨hPn, hBn, fun x hx y hy => (hBP y hy x hx).symm⟩, hSn, ?_⟩
    rintro x (hx | hx) y hy
    · exact hPS x hx y hy
    · exact hBS x hx y hy
  · simp only [List.isChain_append, List.getLast?_append, hb', Option.some_or, hb, hs, hp]
    simp [hPc', hBc', hSc', hpb, hbs]
  · have hx' : x ∈ P.head? := by
      rw [List.append_assoc, List.head?_append_of_ne_nil _ (List.ne_nil_of_mem hpP)] at hx
      exact hx
    have hxP := List.mem_of_mem_head? hx'
    rw [hprev x (hBP b hbB x hxP).symm (hPS x hxP s hsS)]
    refine h.first x ?_
    rw [List.head?_append_of_ne_nil _ (List.ne_nil_of_mem hpP)]
    exact hx'
  · have hx' : x ∈ S.getLast? := by
      rw [List.getLast?_append_of_ne_nil _ (List.ne_nil_of_mem hsS)] at hx
      exact hx
    have hxS := List.mem_of_mem_getLast? hx'
    rw [hnext x (hPS p hpP x hxS).symm (hBS b' hbB' x hxS).symm]
    refine h.last x ?_
    rw [List.getLast?_append_of_ne_nil _ (List.ne_nil_of_mem hsS)]
    exact hx'

/-! ### Places in a list -/

/-- The elements of a list and its headers. -/
def nodes (l : KList E) (xs : List E) : List E := l.head :: (xs ++ [l.tail])

/-- The element at which the part `P` of the list `l` ends. -/
def cursorBack (l : KList E) (P : List E) : E := P.getLast?.getD l.head

omit [DecidableEq E] in
theorem nodes_append : nodes l (P ++ S) = (l.head :: P) ++ (S ++ [l.tail]) := by simp [nodes]

omit [DecidableEq E] in
theorem getLast?_head (l : KList E) (P : List E) : (l.head :: P).getLast? = some (cursorBack l P) :=
  List.getLast?_cons

omit [DecidableEq E] in
theorem head?_tail (l : KList E) (S : List E) : (S ++ [l.tail]).head? = some (cursor l S) := by
  cases S <;> rfl

omit [DecidableEq E] in
theorem cursor_mem (l : KList E) (P S : List E) : cursor l S ∈ nodes l (P ++ S) := by
  rw [nodes_append]
  exact List.mem_append_right _ (List.mem_of_head? (head?_tail l S))

omit [DecidableEq E] in
theorem cursorBack_mem (l : KList E) (P S : List E) : cursorBack l P ∈ nodes l (P ++ S) := by
  rw [nodes_append]
  exact List.mem_append_left _ (List.mem_of_getLast? (getLast?_head l P))

omit [DecidableEq E] in
theorem mem_nodes (h : x ∈ xs) : x ∈ nodes l xs := List.mem_cons_of_mem _ (List.mem_append_left _ h)

omit [DecidableEq E] in
theorem chained_of_linked (h : Linked m l (P ++ S)) : Chained m ((l.head :: P) ++ (S ++ [l.tail])) := by
  rw [← nodes_append]
  exact h

omit [DecidableEq E] in
theorem chained_segment (h : Linked m l (P ++ B ++ S)) : Chained m ((l.head :: P) ++ B ++ (S ++ [l.tail])) := by
  simpa [Linked] using h

/-- A segment is cut out of a list. -/
theorem linked_cutOut (h : Linked m l (P ++ B ++ S)) :
    Linked (cutOut m (cursorBack l P) (cursor l S)) l (P ++ S) := by
  have hcut := chained_cutOut (chained_segment h) (getLast?_head l P) (head?_tail l S)
  simpa [Linked] using hcut

omit [DecidableEq E] in
theorem linked_link (h : Linked m l (P ++ S)) : Link m (cursorBack l P) (cursor l S) :=
  (List.isChain_append.mp (chained_of_linked h).chain).2.2 _ (getLast?_head l P) _ (head?_tail l S)

omit [DecidableEq E] in
@[simp] theorem cursorBack_snoc : cursorBack l (P ++ [x]) = x := by simp [cursorBack]

omit [DecidableEq E] in
theorem linked_next (h : Linked m l (P ++ x :: S)) : Link m x (cursor l S) := by
  have h' : Linked m l ((P ++ [x]) ++ S) := by rwa [List.append_assoc]
  simpa using linked_link h'

omit [DecidableEq E] in
theorem linked_isInterior (h : Linked m l (P ++ x :: S)) : isInterior m x = true := by
  have h1 : m.prev x = some _ := (linked_link h).2
  simp [isInterior, h1, (linked_next h).1]

omit [DecidableEq E] in
theorem linked_before (h : Linked m l (P ++ S)) : (isInterior m (cursor l S) || isTail m (cursor l S)) = true := by
  have h1 := (linked_link h).2
  cases h2 : m.next (cursor l S) <;> simp [isInterior, isTail, h1, h2]

omit [DecidableEq E] in
theorem cursorBack_ne (h : Linked m l (P ++ x :: S)) : cursorBack l P ≠ x := by
  have hn := (List.nodup_append.mp (chained_of_linked h).nodup).2.2
  exact hn _ (List.mem_of_getLast? (getLast?_head l P)) x (by simp)

omit [DecidableEq E] in
theorem listNext_of_link {Q : E → Links E → Prop} (h : Link m x y) (hQ : Q y m) : Yields (listNext x) m Q := by
  refine Yields.bind (Yields.get (Yields.bind (Yields.assert ?_ (Yields.deref h.1 hQ))))
  cases hx : m.prev x <;> simp [isHead, isInterior, h.1, hx]

/-! ### Elements that come and go -/

/-- **`list_init`** of any memory. -/
theorem listInit_yields (hne : l.head ≠ l.tail) :
    Yields (listInit l) m fun _ m' => Linked m' l [] ∧ Confined [l.head, l.tail] m m' := by
  refine Yields.bind (setPrev_yields rfl (Yields.bind (setNext_yields rfl (Yields.bind (setPrev_yields rfl
    (setNext_yields rfl ⟨⟨?_, ?_, ?_, ?_⟩, fun x hx => ?_⟩))))))
  · simpa using hne
  · simp [Link, hne]
  · simp [hne]
  · simp
  · simp only [List.mem_cons, List.not_mem_nil, or_false, not_or] at hx
    simp [hx]

/-- **`list_insert`** before any element or the tail. -/
theorem listInsert_yields (h : Linked m l (P ++ S)) (hx : x ∉ nodes l (P ++ S)) :
    Yields (listInsert (cursor l S) x) m fun _ m' => Linked m' l (P ++ x :: S) ∧
      Confined (x :: nodes l (P ++ S)) m m' := by
  have hlink := linked_link h
  have hne : cursor l S ≠ x := fun e => hx (e ▸ cursor_mem l P S)
  have hmem : Yields (listInsert (cursor l S) x) m fun _ m' =>
      m' = putIn m (cursorBack l P) x x (cursor l S) := by
    refine Yields.bind (Yields.get (Yields.bind (Yields.assert (linked_before h) (Yields.bind ?_))))
    refine setPrev_yields rfl (Yields.bind (setNext_yields rfl (Yields.bind (Yields.get (Yields.bind ?_)))))
    refine setNext_yields (x := cursorBack l P) ?_ (setPrev_yields rfl ?_)
    · simp only [Function.update_of_ne hne, hlink.2]
    · rw [hlink.2]
      rfl
  refine hmem.mono fun _ _ he => he ▸ ⟨?_, confined_putIn.mono ?_⟩
  · have hput := chained_putIn (B := [x]) (chained_of_linked h) (getLast?_head l P) (head?_tail l S)
      (List.isChain_singleton x) (List.nodup_singleton x) (by simpa [nodes] using hx) rfl rfl
    simpa [Linked] using hput
  · simp [List.subset_def, cursor_mem l P S, cursorBack_mem l P S]

theorem listPushFront_yields (h : Linked m l xs) (hx : x ∉ nodes l xs) : Yields (listPushFront l x) m fun _ m' =>
    Linked m' l (x :: xs) ∧ Confined (x :: nodes l xs) m m' :=
  Yields.bind (h.listBegin_yields (listInsert_yields (P := []) h hx))

theorem listPushBack_yields (h : Linked m l xs) (hx : x ∉ nodes l xs) : Yields (listPushBack l x) m fun _ m' =>
    Linked m' l (xs ++ [x]) ∧ Confined (x :: nodes l xs) m m' := by
  have hins := listInsert_yields (P := xs) (S := []) (by rwa [List.append_nil]) (by rwa [List.append_nil])
  rw [List.append_nil] at hins
  exact hins

/-- **`list_remove`.** -/
theorem listRemove_yields (h : Linked m l (P ++ x :: S)) :
    Yields (listRemove x) m fun r m' => r = cursor l S ∧ Linked m' l (P ++ S) ∧
      Confined (nodes l (P ++ x :: S)) m m' := by
  have h1 : Link m (cursorBack l P) x := linked_link h
  have h2 := linked_next h
  have hne := cursorBack_ne h
  have hmem : Yields (listRemove x) m fun r m' => r = cursor l S ∧
      m' = cutOut m (cursorBack l P) (cursor l S) := by
    refine Yields.bind (Yields.get (Yields.bind (Yields.assert (linked_isInterior h) (Yields.bind ?_))))
    refine setNext_yields h1.2 (Yields.bind (Yields.get (Yields.bind (setPrev_yields (x := cursor l S) ?_ ?_))))
    · simp only [Function.update_of_ne hne.symm, h2.1]
    refine Yields.bind (Yields.get (Yields.deref (a := cursor l S) ?_ ⟨rfl, ?_⟩))
    · simp only [Function.update_of_ne hne.symm, h2.1]
    · rw [h1.2, h2.1]
      rfl
  refine hmem.mono fun r m' he => ?_
  obtain ⟨hr, rfl⟩ := he
  refine ⟨hr, ?_, confined_cutOut.mono ?_⟩
  · exact linked_cutOut (B := [x]) (by simpa using h)
  · have hp := cursorBack_mem l P (x :: S)
    have hs : cursor l S ∈ nodes l (P ++ x :: S) := by simpa using cursor_mem l (P ++ [x]) S
    simp [List.subset_def, hp, hs]

/-! ### The ends -/

theorem listEmpty_yields {Q : Bool → Links E → Prop} (h : Linked m l xs) (hQ : Q xs.isEmpty m) :
    Yields (listEmpty l) m Q := by
  refine Yields.bind (h.listBegin_yields (Yields.pure ?_))
  cases xs with
  | nil => simpa [listEnd] using hQ
  | cons x xs =>
    have hne : x ≠ l.tail := Linked.ne_tail (P := []) h
    simpa [listEnd, beq_eq_false_iff_ne.mpr hne] using hQ

theorem listFront_yields {Q : E → Links E → Prop} (h : Linked m l (x :: S)) (hQ : Q x m) :
    Yields (listFront l) m Q :=
  Yields.bind (listEmpty_yields h (Yields.bind (Yields.assert rfl (h.listBegin_yields hQ))))

omit [DecidableEq E] in
theorem listRbegin_yields {Q : E → Links E → Prop} (h : Linked m l xs) (hQ : Q (cursorBack l xs) m) :
    Yields (listRbegin l) m Q := by
  rw [← List.append_nil xs] at h
  exact Yields.bind (Yields.get (Yields.deref (linked_link h).2 hQ))

theorem listBack_yields {Q : E → Links E → Prop} (h : Linked m l (P ++ [x])) (hQ : Q x m) :
    Yields (listBack l) m Q := by
  refine Yields.bind (listEmpty_yields h (Yields.bind (Yields.assert (by simp) ?_)))
  exact listRbegin_yields h (by simpa using hQ)

/-- **`list_pop_front`.** -/
theorem listPopFront_yields (h : Linked m l (x :: S)) : Yields (listPopFront l) m fun r m' => r = x ∧
    Linked m' l S ∧ Confined (nodes l (x :: S)) m m' :=
  Yields.bind (listFront_yields h (Yields.bind ((listRemove_yields (P := []) h).mono fun _ _ hr =>
    Yields.pure ⟨rfl, hr.2⟩)))

/-- **`list_pop_back`.** -/
theorem listPopBack_yields (h : Linked m l (P ++ [x])) : Yields (listPopBack l) m fun r m' => r = x ∧
    Linked m' l P ∧ Confined (nodes l (P ++ [x])) m m' := by
  refine Yields.bind (listBack_yields h (Yields.bind ((listRemove_yields h).mono fun r m' hr => ?_)))
  exact Yields.pure ⟨rfl, by simpa using hr.2⟩

/-! ### Walks -/

omit [DecidableEq E] in
theorem cursor_eq_end (l : KList E) : cursor l [] = listEnd l := rfl

omit [DecidableEq E] in
theorem cursor_ne_end (h : Linked m l (P ++ x :: S)) : cursor l (x :: S) ≠ listEnd l := h.ne_tail

theorem listSizeLoop_yields : ∀ {fuel cnt : ℕ} {P S : List E}, Linked m l (P ++ S) → S.length < fuel →
    Yields (listSizeLoop l fuel (cursor l S) cnt) m fun r m' => r = cnt + S.length ∧ m' = m
  | fuel + 1, _, _, [], _, _ => by
    unfold listSizeLoop
    rw [if_pos (cursor_eq_end l)]
    exact Yields.pure ⟨rfl, rfl⟩
  | fuel + 1, cnt, P, x :: S, h, hfuel => by
    have hnext : Linked m l ((P ++ [x]) ++ S) := by simpa using h
    have hlen : (x :: S).length = S.length + 1 := rfl
    unfold listSizeLoop
    rw [if_neg (cursor_ne_end h)]
    refine Yields.bind (h.listNext_yields ?_)
    refine (listSizeLoop_yields hnext (by omega)).mono fun r m' hr => ⟨?_, hr.2⟩
    rw [hr.1, hlen]
    omega

theorem listSize_yields {fuel : ℕ} (h : Linked m l xs) (hfuel : xs.length < fuel) :
    Yields (listSize fuel l) m fun r m' => r = xs.length ∧ m' = m :=
  Yields.bind (h.listBegin_yields ((listSizeLoop_yields (P := []) h hfuel).mono fun _ _ hr =>
    ⟨hr.1.trans (Nat.zero_add _), hr.2⟩))

section Ordered

variable {less : E → E → Bool}

theorem insertOrderedLoop_yields : ∀ {fuel : ℕ} {P S : List E}, Linked m l (P ++ S) → S.length < fuel →
    Yields (insertOrderedLoop less l x fuel (cursor l S)) m fun r m' =>
      r = cursor l (S.dropWhile fun y => !less x y) ∧ m' = m
  | fuel + 1, _, [], _, _ => by
    unfold insertOrderedLoop
    rw [if_pos (cursor_eq_end l)]
    exact Yields.pure ⟨rfl, rfl⟩
  | fuel + 1, P, y :: S, h, hfuel => by
    have hnext : Linked m l ((P ++ [y]) ++ S) := by simpa using h
    unfold insertOrderedLoop
    rw [if_neg (cursor_ne_end h)]
    cases hless : less x y with
    | true =>
      rw [if_pos (by simpa using hless), List.dropWhile_cons_of_neg (by simp [hless])]
      exact Yields.pure ⟨rfl, rfl⟩
    | false =>
      rw [if_neg (by simp [hless]), List.dropWhile_cons_of_pos (by simp [hless])]
      refine Yields.bind (h.listNext_yields ?_)
      exact insertOrderedLoop_yields hnext (Nat.lt_of_succ_lt_succ hfuel)

/-- **`list_insert_ordered`** inserts before the first element that is greater. -/
theorem listInsertOrdered_yields {fuel : ℕ} (h : Linked m l xs) (hx : x ∉ nodes l xs) (hfuel : xs.length < fuel) :
    Yields (listInsertOrdered less fuel l x) m fun _ m' =>
      Linked m' l (xs.orderedInsert (fun a b => less a b = true) x) ∧ Confined (x :: nodes l xs) m m' := by
  have hsplit := List.takeWhile_append_dropWhile (p := fun y => !less x y) (l := xs)
  refine Yields.bind (h.listBegin_yields (Yields.bind ((insertOrderedLoop_yields (P := []) h hfuel).mono ?_)))
  rintro _ _ ⟨rfl, rfl⟩
  have hins := listInsert_yields (P := xs.takeWhile fun y => !less x y) (by rwa [hsplit]) (by rwa [hsplit])
  rw [hsplit] at hins
  refine hins.mono fun _ m' hm => ⟨?_, hm.2⟩
  rw [List.orderedInsert_eq_take_drop]
  simpa using hm.1

/-- What `list_max` and `list_min` compute. -/
def best (better : E → E → Bool) (x : E) (xs : List E) : E :=
  xs.foldl (fun best e => if better e best then e else best) x

theorem listBestLoop_yields {better : E → E → Bool} : ∀ {fuel : ℕ} {P S : List E} {x : E}, Linked m l (P ++ S) →
    S.length < fuel → Yields (listBestLoop better l fuel x (cursor l S)) m fun r m' => r = best better x S ∧ m' = m
  | fuel + 1, _, [], _, _, _ => by
    unfold listBestLoop
    rw [if_pos (cursor_eq_end l)]
    exact Yields.pure ⟨rfl, rfl⟩
  | fuel + 1, P, y :: S, x, h, hfuel => by
    have hnext : Linked m l ((P ++ [y]) ++ S) := by simpa using h
    unfold listBestLoop
    rw [if_neg (cursor_ne_end h)]
    refine Yields.bind (h.listNext_yields ?_)
    exact listBestLoop_yields hnext (Nat.lt_of_succ_lt_succ hfuel)

/-- The best of a list, its tail if there is none. -/
def bestOf (better : E → E → Bool) (l : KList E) : List E → E
  | [] => l.tail
  | x :: xs => best better x xs

/-- **`list_max`, `list_min`.** -/
theorem listBest_yields {better : E → E → Bool} {fuel : ℕ} (h : Linked m l xs) (hfuel : xs.length < fuel) :
    Yields (listBest better fuel l) m fun r m' => r = bestOf better l xs ∧ m' = m := by
  refine Yields.bind (h.listBegin_yields ?_)
  cases xs with
  | nil =>
    rw [if_pos (cursor_eq_end l)]
    exact Yields.pure ⟨rfl, rfl⟩
  | cons x xs =>
    have hnext : Linked m l ([x] ++ xs) := h
    rw [if_neg (cursor_ne_end (P := []) h)]
    refine Yields.bind (Linked.listNext_yields (P := []) h ?_)
    exact listBestLoop_yields hnext (Nat.lt_of_succ_lt hfuel)

end Ordered

/-! ### Reversal -/

/-- The memory with `next` and `prev` exchanged. -/
def mirror (m : Links E) : Links E := ⟨m.prev, m.next⟩

omit [DecidableEq E] in
theorem chained_of_mirror (h : Chained (mirror m) ys) : Chained m ys.reverse where
  nodup := List.nodup_reverse.mpr h.nodup
  chain := List.isChain_reverse.mpr (h.chain.imp fun _ _ hab => ⟨hab.2, hab.1⟩)
  first x hx := h.last x (by rwa [List.head?_reverse] at hx)
  last x hx := h.first x (by rwa [List.getLast?_reverse] at hx)

/-- The memory with the links of the elements `xs` exchanged. -/
def flipped (m : Links E) (xs : List E) : Links E where
  next := fun x => if x ∈ xs then m.prev x else m.next x
  prev := fun x => if x ∈ xs then m.next x else m.prev x

theorem flipped_snoc : (⟨Function.update (flipped m P).next x (m.prev x),
    Function.update (flipped m P).prev x (m.next x)⟩ : Links E) = flipped m (P ++ [x]) := by
  unfold flipped
  simp only [List.mem_append, List.mem_singleton, Links.mk.injEq]
  constructor <;> funext y <;> by_cases hy : y = x <;> simp [hy]

theorem listReverseLoop_yields : ∀ {fuel : ℕ} {P S : List E}, Linked m l (P ++ S) → S.length < fuel →
    Yields (listReverseLoop l fuel (cursor l S)) (flipped m P) fun _ m' => m' = flipped m (P ++ S)
  | fuel + 1, P, [], _, _ => by
    unfold listReverseLoop
    rw [if_pos (cursor_eq_end l), List.append_nil]
    exact Yields.pure rfl
  | fuel + 1, P, x :: S, h, hfuel => by
    have hnext : Linked m l ((P ++ [x]) ++ S) := by simpa using h
    have hx : x ∉ P := fun hx => by
      have hn := (List.nodup_append.mp (chained_of_linked h).nodup).2.2
      exact hn x (List.mem_cons_of_mem _ hx) x (by simp) rfl
    unfold listReverseLoop
    rw [if_neg (cursor_ne_end h), cursor_cons]
    refine Yields.bind (Yields.get (Yields.bind (setPrev_yields rfl (Yields.bind (setNext_yields rfl ?_)))))
    have h1 : (flipped m P).next x = m.next x := if_neg hx
    have h2 : (flipped m P).prev x = m.prev x := if_neg hx
    rw [h1, h2]
    rw [flipped_snoc]
    refine Yields.bind (Yields.get (Yields.bind (Yields.deref (a := cursor l S) ?_ ?_)))
    · simp only [flipped, List.mem_append, List.mem_singleton, or_true, if_true]
      exact (linked_next h).1
    · rw [List.append_cons P x S]
      exact listReverseLoop_yields hnext (Nat.lt_of_succ_lt_succ hfuel)

omit [DecidableEq E] in
/-- The ends of a list that is not empty. -/
theorem exists_ends (hne : xs ≠ []) : ∃ w z R Q, xs = w :: R ∧ xs = Q ++ [z] := by
  obtain ⟨w, R, hw⟩ := List.exists_cons_of_ne_nil hne
  obtain ⟨Q, z, hz⟩ := List.eq_nil_or_concat xs |>.resolve_left hne
  exact ⟨w, z, R, Q, hw, by rw [hz, List.concat_eq_append]⟩

/-- The memory after the ends of a list were exchanged whose elements were. -/
def turned (m : Links E) (l : KList E) (xs : List E) (w z : E) : Links E where
  next := Function.update (Function.update (flipped m xs).next l.head (some z)) w (some l.tail)
  prev := Function.update (Function.update (flipped m xs).prev l.tail (some w)) z (some l.head)

theorem linked_turned {w z : E} {R Q : List E} (h : Linked m l xs) (hw : xs = w :: R) (hz : xs = Q ++ [z]) :
    Linked (turned m l xs w z) l xs.reverse := by
  have hnodup := h.nodup
  simp only [List.nodup_cons, List.nodup_append, List.mem_append, List.mem_singleton, not_or] at hnodup
  obtain ⟨⟨hhead, hht⟩, hxs, -, htail⟩ := hnodup
  have hwx : w ∈ xs := by simp [hw]
  have hzx : z ∈ xs := by simp [hz]
  have hne : ∀ x ∈ xs, x ≠ l.head ∧ x ≠ l.tail := fun x hx => ⟨fun e => hhead (e ▸ hx), fun e => htail x hx _ rfl e⟩
  have hlinks : xs.IsChain (Link m) := by
    have hc := h.chain
    rw [← List.singleton_append, List.isChain_append, List.isChain_append] at hc
    exact hc.2.1.1
  have hnext : ∀ x ∈ xs, x ≠ w → (turned m l xs w z).next x = m.prev x := fun x hx hxw => by
    simp [turned, flipped, hx, hxw, (hne x hx).1]
  have hprev : ∀ x ∈ xs, x ≠ z → (turned m l xs w z).prev x = m.next x := fun x hx hxz => by
    simp [turned, flipped, hx, hxz, (hne x hx).2]
  have hinner : xs.IsChain (Link (mirror (turned m l xs w z))) := by
    refine isChain_link_frame hxs hlinks (fun x hx hlast => hprev x hx ?_) fun x hx hfirst => hnext x hx ?_
    · rintro rfl
      exact hlast (by simp [hz])
    · rintro rfl
      exact hfirst (by simp [hw])
  have hheadNext : (turned m l xs w z).next l.head = some z := by simp [turned, (hne w hwx).1.symm]
  have hfront : (turned m l xs w z).next w = some l.tail := by simp [turned]
  have htailPrev : (turned m l xs w z).prev l.tail = some w := by simp [turned, (hne z hzx).2.symm]
  have hback : (turned m l xs w z).prev z = some l.head := by simp [turned]
  have hturn : Chained (mirror (turned m l xs w z)) (l.tail :: (xs ++ [l.head])) := by
    refine ⟨?_, ?_, ?_, ?_⟩
    · simp only [List.nodup_cons, List.nodup_append, List.mem_append, List.mem_singleton, not_or]
      exact ⟨⟨fun hx => (hne _ hx).2 rfl, Ne.symm hht⟩, hxs, by simp, fun x hx y hy => hy ▸ (hne x hx).1⟩
    · refine List.isChain_cons.mpr ⟨?_, List.isChain_append.mpr ⟨hinner, List.isChain_singleton _, ?_⟩⟩
      · rw [show (xs ++ [l.head]).head? = some w by simp [hw]]
        rintro _ ⟨⟩
        exact ⟨htailPrev, hfront⟩
      · rw [show xs.getLast? = some z by simp [hz]]
        rintro _ ⟨⟩ _ ⟨⟩
        exact ⟨hback, hheadNext⟩
    · rintro _ ⟨⟩
      have hlast : m.next l.tail = none := h.last l.tail (by rw [← List.cons_append, List.getLast?_concat]; rfl)
      have hwt : l.tail ≠ w := (hne w hwx).2.symm
      have hmem : l.tail ∉ xs := fun hx => (hne _ hx).2 rfl
      simpa [mirror, turned, flipped, hwt, hmem, Ne.symm hht] using hlast
    · intro x hx
      rw [← List.cons_append, List.getLast?_concat] at hx
      obtain rfl : l.head = x := Option.some.inj hx
      have hfirst : m.prev l.head = none := h.first l.head rfl
      have hzh : l.head ≠ z := (hne z hzx).1.symm
      simpa [mirror, turned, flipped, hzh, hhead, hht] using hfirst
  have hrev := chained_of_mirror hturn
  unfold Linked
  simpa using hrev

/-- **`list_reverse`.** -/
theorem listReverse_yields {fuel : ℕ} (h : Linked m l xs) (hfuel : xs.length < fuel) :
    Yields (listReverse fuel l) m fun _ m' => Linked m' l xs.reverse ∧ Confined (nodes l xs) m m' := by
  refine Yields.bind (listEmpty_yields h ?_)
  rcases eq_or_ne xs [] with rfl | hne
  · exact Yields.pure ⟨h, .refl _ _⟩
  rw [if_neg (by simpa using hne)]
  obtain ⟨w, z, R, Q, hw, hz⟩ := exists_ends hne
  have hnil : flipped m [] = m := rfl
  have hloop := listReverseLoop_yields (P := []) h hfuel
  rw [hnil, List.nil_append] at hloop
  have hwh : w ≠ l.head := fun e => by
    have hn := h.nodup
    simp [hw, e] at hn
  have hzt : z ≠ l.tail := Linked.ne_tail (A := []) (P := Q) (hz ▸ h)
  have hxh : l.head ∉ xs := fun hx => (List.nodup_cons.mp h.nodup).1 (List.mem_append_left _ hx)
  have hxt : l.tail ∉ xs := fun hx => by
    have hn := (List.nodup_cons.mp h.nodup).2
    exact (List.nodup_append.mp hn).2.2 _ hx _ (List.mem_singleton_self _) rfl
  have hwx : w ∈ xs := by simp [hw]
  have hzx : z ∈ xs := by simp [hz]
  have hfirst : Link m l.head w := by simpa [hw, cursorBack] using linked_link (P := []) h
  have hlast : Link m z l.tail := by
    have hl := linked_link (S := []) (by rwa [List.append_nil])
    simpa [hz] using hl
  have h1 : (flipped m xs).prev l.tail = some z := (if_neg hxt).trans hlast.2
  have h2 : (flipped m xs).next l.head = some w := (if_neg hxh).trans hfirst.1
  have h3 : (flipped m xs).next w = some l.head := (if_pos hwx).trans hfirst.2
  have h4 : (flipped m xs).prev z = some l.tail := (if_pos hzx).trans hlast.1
  have hmem : Yields (listReverseLoop l fuel (cursor l xs) >>= fun _ => do
      let m ← get
      setNext (some l.head) (m.prev l.tail)
      setPrev (some l.tail) (m.next l.head)
      let m ← get
      let back ← deref (m.next l.head)
      let front ← deref (m.prev l.tail)
      setPrev (some back) (m.next front)
      setNext (some front) (m.prev back)) m fun _ m' => m' = turned m l xs w z := by
    refine Yields.bind (hloop.mono ?_)
    rintro _ _ rfl
    refine Yields.bind (Yields.get (Yields.bind (setNext_yields rfl (Yields.bind (setPrev_yields rfl ?_)))))
    simp only [h1, h2]
    refine Yields.bind (Yields.get (Yields.bind (Yields.deref (a := z) (by simp) ?_)))
    refine Yields.bind (Yields.deref (a := w) (by simp) (Yields.bind (setPrev_yields rfl (setNext_yields rfl ?_))))
    simp only [Function.update_of_ne hwh, Function.update_of_ne hzt, h3, h4]
    rfl
  refine Yields.bind (h.listBegin_yields (hmem.mono ?_))
  rintro _ _ rfl
  refine ⟨linked_turned h hw hz, fun x hx => ?_⟩
  have hne : ∀ y ∈ nodes l xs, x ≠ y := fun y hy e => hx (e ▸ hy)
  have hxx : x ∉ xs := fun hxx => hx (mem_nodes hxx)
  have h5 := hne l.head (by simp [nodes])
  have h6 := hne l.tail (by simp [nodes])
  simp [turned, flipped, hxx, h5, h6, hne w (mem_nodes hwx), hne z (mem_nodes hzx)]

/-! ### Duplicates -/

section Unique

variable (less : E → E → Bool)

/-- One of two elements is less than the other. -/
def Differ (a b : E) : Prop := less a b = true ∨ less b a = true

instance : DecidableRel (Differ less) := fun _ _ => inferInstanceAs (Decidable (_ ∨ _))

/-- The elements that `destutter'` leaves out. -/
def stuttered : E → List E → List E
  | _, [] => []
  | a, b :: xs => if Differ less a b then stuttered b xs else b :: stuttered a xs

/-- The elements that `destutter` leaves out. -/
def duplicatesOf : List E → List E
  | [] => []
  | x :: xs => stuttered less x xs

variable {less}

omit [DecidableEq E] in
theorem perm_stuttered : ∀ (a : E) (xs : List E),
    (xs.destutter' (Differ less) a ++ stuttered less a xs).Perm (a :: xs)
  | a, [] => List.Perm.refl _
  | a, b :: xs => by
    rw [List.destutter', stuttered]
    split_ifs with h
    · exact (perm_stuttered b xs).cons a
    · exact List.perm_middle.trans (((perm_stuttered a xs).cons b).trans (List.Perm.swap a b xs))

omit [DecidableEq E] in
theorem perm_duplicatesOf (less : E → E → Bool) (xs : List E) : (xs.destutter (Differ less) ++ duplicatesOf less xs).Perm xs := by
  cases xs with
  | nil => exact List.Perm.refl _
  | cons x xs => exact perm_stuttered x xs

/-- The list that takes the duplicates, if there is one. -/
def Takes (m : Links E) (d : Option (KList E)) (ds : List E) : Prop := ∀ k ∈ d, Linked m k ds

/-- Its elements and headers. -/
def takerNodes (d : Option (KList E)) (ds : List E) : List E := d.elim [] fun k => nodes k ds

omit [DecidableEq E] in
theorem Takes.frame {d : Option (KList E)} {ds : List E} (h : Takes m d ds) (hc : Confined xs m m')
    (hd : ∀ x ∈ takerNodes d ds, x ∉ xs) : Takes m' d ds := by
  rintro k ⟨⟩
  exact chained_frame (h k rfl) hc hd

theorem giveTo_yields {d : Option (KList E)} {ds : List E} (hd : Takes m d ds) (hy : y ∉ takerNodes d ds) :
    Yields (giveTo d y) m fun _ m' => Takes m' d (ds ++ [y]) ∧ Confined (y :: takerNodes d ds) m m' := by
  cases d with
  | none => exact Yields.pure ⟨fun k hk => (by cases hk), .refl _ _⟩
  | some k =>
    refine (listPushBack_yields (hd k rfl) hy).mono fun _ m' hm => ⟨?_, hm.2⟩
    rintro _ ⟨⟩
    exact hm.1

omit [DecidableEq E] in
theorem mem_takerNodes_snoc {d : Option (KList E)} {ds : List E} (h : x ∈ takerNodes d (ds ++ [y])) :
    x = y ∨ x ∈ takerNodes d ds := by
  cases d with
  | none => cases h
  | some k =>
    simp only [takerNodes, Option.elim_some, nodes, List.mem_cons, List.mem_append, List.not_mem_nil,
      or_false] at h ⊢
    tauto

theorem listUniqueLoop_yields {d : Option (KList E)} : ∀ {fuel : ℕ} {m : Links E} {P S ds : List E} {x : E},
    Linked m l (P ++ x :: S) → Takes m d ds → (∀ y ∈ takerNodes d ds, y ∉ nodes l (P ++ x :: S)) →
    S.length < fuel → Yields (listUniqueLoop less l d fuel x) m fun _ m' =>
      Linked m' l (P ++ S.destutter' (Differ less) x) ∧ Takes m' d (ds ++ stuttered less x S) ∧
        Confined (nodes l (P ++ x :: S) ++ takerNodes d ds) m m'
  | fuel + 1, m, P, [], ds, x, h, hd, _, _ => by
    unfold listUniqueLoop
    refine Yields.bind (h.listNext_yields ?_)
    rw [if_pos (cursor_eq_end l)]
    exact Yields.pure ⟨h, by simpa [stuttered] using hd, .refl _ _⟩
  | fuel + 1, m, P, y :: S, ds, x, h, hd, hapart, hfuel => by
    have hsnoc : Linked m l ((P ++ [x]) ++ y :: S) := by simpa using h
    have hlen : S.length < fuel := Nat.lt_of_succ_lt_succ hfuel
    unfold listUniqueLoop
    refine Yields.bind (h.listNext_yields ?_)
    rw [if_neg (cursor_ne_end hsnoc), cursor_cons]
    by_cases hdiff : Differ less x y
    · have hb : (!less x y && !less y x) = false := by
        rcases hdiff with h1 | h1 <;> simp [h1]
      rw [if_neg (by simp [hb])]
      refine (listUniqueLoop_yields hsnoc hd (by simpa using hapart) hlen).mono fun _ m' hm => ?_
      rw [List.destutter', if_pos hdiff, stuttered, if_pos hdiff]
      simpa using hm
    have hb : (!less x y && !less y x) = true := by simpa [Differ] using hdiff
    rw [if_pos hb, List.destutter', if_neg hdiff, stuttered, if_neg hdiff]
    refine Yields.bind ((listRemove_yields hsnoc).mono ?_)
    rintro _ m₁ ⟨-, h1, hc1⟩
    have hsub : nodes l (P ++ x :: S) ⊆ nodes l (P ++ x :: y :: S) := fun z hz => by
      simp only [nodes, List.mem_cons, List.mem_append] at hz ⊢
      tauto
    have h1 : Linked m₁ l (P ++ x :: S) := by simpa using h1
    have hc1 : Confined (nodes l (P ++ x :: y :: S)) m m₁ := by simpa using hc1
    have hy : y ∈ nodes l (P ++ x :: y :: S) := mem_nodes (by simp)
    have hynew : y ∉ nodes l (P ++ x :: S) := fun hmem => by
      have hn := hsnoc.nodup
      have hperm : (nodes l ((P ++ [x]) ++ y :: S)).Perm (y :: nodes l (P ++ x :: S)) := by
        unfold nodes
        rw [List.append_assoc, List.cons_append, ← List.cons_append]
        refine List.perm_middle.trans ?_
        simp
      exact (List.nodup_cons.mp (hperm.nodup_iff.mp hn)).1 hmem
    refine Yields.bind ((giveTo_yields (hd.frame hc1 hapart) fun hmem => hapart y hmem hy).mono ?_)
    rintro _ m₂ ⟨hd2, hc2⟩
    have h2 : Linked m₂ l (P ++ x :: S) := chained_frame h1 hc2 fun z hz hmem => by
      rcases List.mem_cons.mp hmem with rfl | hmem
      · exact hynew hz
      · exact hapart z hmem (hsub hz)
    refine (listUniqueLoop_yields h2 hd2 (fun z hz hmem => ?_) hlen).mono fun _ m' hm => ⟨hm.1, ?_, ?_⟩
    · rcases mem_takerNodes_snoc hz with rfl | hz
      · exact hynew hmem
      · exact hapart z hz (hsub hmem)
    · simpa using hm.2.1
    · refine (hc1.mono (List.subset_append_left _ _)).trans ((hc2.mono ?_).trans (hm.2.2.mono ?_))
      · exact List.cons_subset.mpr ⟨List.mem_append_left _ hy, List.subset_append_right _ _⟩
      · refine List.append_subset.mpr ⟨fun z hz => List.mem_append_left _ (hsub hz), fun z hz => ?_⟩
        rcases mem_takerNodes_snoc hz with rfl | hz
        · exact List.mem_append_left _ hy
        · exact List.mem_append_right _ hz

/-- **`list_unique`** keeps the first of every run of elements that tie with their predecessor. -/
theorem listUnique_yields {fuel : ℕ} (d : Option (KList E)) (ds : List E) (h : Linked m l xs) (hd : Takes m d ds)
    (hapart : ∀ y ∈ takerNodes d ds, y ∉ nodes l xs) (hfuel : xs.length < fuel) :
    Yields (listUnique less fuel l d) m fun _ m' => Linked m' l (xs.destutter (Differ less)) ∧
      Takes m' d (ds ++ duplicatesOf less xs) ∧ Confined (nodes l xs ++ takerNodes d ds) m m' := by
  refine Yields.bind (listEmpty_yields h ?_)
  cases xs with
  | nil => exact Yields.pure ⟨h, by simpa [duplicatesOf] using hd, .refl _ _⟩
  | cons x xs =>
    rw [if_neg (by simp)]
    refine Yields.bind (h.listBegin_yields ?_)
    exact listUniqueLoop_yields (P := []) h hd hapart (Nat.lt_of_succ_lt hfuel)

end Unique

/-! ### Segments that move -/

section Splice

variable {k : KList E} {P' S' : List E} {p' s' : E}

omit [DecidableEq E] in
/-- The ends of a segment that is not empty, and its neighbours. -/
theorem linked_segment (h : Linked m l (P ++ B ++ S)) (hB : B ≠ []) : ∃ b b', B.head? = some b ∧
    B.getLast? = some b' ∧ cursor l (B ++ S) = b ∧ Link m (cursorBack l P) b ∧ Link m b' (cursor l S) := by
  obtain ⟨b, b', R, Q, hb, hb'⟩ := exists_ends hB
  refine ⟨b, b', by simp [hb], by simp [hb'], by simp [hb], ?_, ?_⟩
  · have hl := linked_link (P := P) (S := B ++ S) (by rwa [← List.append_assoc])
    simpa [hb] using hl
  · have hl := linked_link h
    rwa [hb', ← List.append_assoc, cursorBack_snoc] at hl

omit [DecidableEq E] in
theorem not_mem_nodes_of_segment (h : Linked m l (P ++ B ++ S)) : ∀ x ∈ B, x ∉ nodes l (P ++ S) := fun x hx hmem => by
  have hn := List.nodup_append.mp (chained_segment h).nodup
  rw [nodes_append, List.mem_append] at hmem
  rcases hmem with hmem | hmem
  · exact (List.nodup_append.mp hn.1).2.2 _ hmem _ hx rfl
  · exact hn.2.2 _ (List.mem_append_right _ hx) _ hmem rfl

/-- **What `list_splice` writes**, between any two places. -/
theorem listSplice_moves (h : Linked m l (P ++ B ++ S)) {b b' : E} (hb : B.head? = some b)
    (hb' : B.getLast? = some b') (h1 : Link m (cursorBack l P) b) (h2 : Link m b' (cursor l S))
    (hlink : Link m p' s') (hs : s' ≠ cursor l S) (hsB : s' ∉ B) : Yields (listSplice s' b (cursor l S)) m fun _ m' =>
      m' = putIn (cutOut m (cursorBack l P) (cursor l S)) p' b b' s' := by
  have hbB := List.mem_of_head? hb
  have hbB' := List.mem_of_getLast? hb'
  have h' := chained_segment h
  have hn := List.nodup_append.mp h'.nodup
  have hPB := (List.nodup_append.mp hn.1).2.2
  refine (ListLinks.listSplice_yields hlink h1 h2 ?_ ?_ ?_ hs ?_ ?_).mono fun _ m' hm => hm
  · exact h'.isSome_next (List.mem_append_right _ hbB) (by simp)
  · rw [List.append_assoc] at h'
    exact h'.isSome_prev (List.mem_append_left _ hbB') (by simp)
  · exact hn.2.2 b (List.mem_append_right _ hbB) _ (List.mem_of_head? (head?_tail l S))
  · rintro rfl
    exact hsB hbB
  · exact fun e => hPB _ (List.mem_of_getLast? (getLast?_head l P)) b' hbB' e.symm

/-- The segment in its new place, where it was cut out. -/
theorem linked_putIn (h : Linked m l (P ++ B ++ S)) {b b' : E} (hb : B.head? = some b) (hb' : B.getLast? = some b')
    (hk : Linked (cutOut m (cursorBack l P) (cursor l S)) k (P' ++ S')) (hd : ∀ x ∈ B, x ∉ nodes k (P' ++ S')) :
    Linked (putIn (cutOut m (cursorBack l P) (cursor l S)) (cursorBack k P') b b' (cursor k S')) k
      (P' ++ B ++ S') := by
  have h' := chained_segment h
  have hn := List.nodup_append.mp h'.nodup
  have hPB := List.nodup_append.mp hn.1
  have hchain : B.IsChain (Link m) := by
    have hc := h'.chain
    simp only [List.isChain_append] at hc
    exact hc.1.2.1
  have hB := isChain_cutOut (p := cursorBack l P) (s := cursor l S) hchain
    (fun hx => hPB.2.2 _ (List.mem_of_getLast? (getLast?_head l P)) _ hx rfl)
    fun hx => hn.2.2 _ (List.mem_append_right _ hx) _ (List.mem_of_head? (head?_tail l S)) rfl
  have hput := chained_putIn (chained_of_linked hk) (getLast?_head k P') (head?_tail k S') hB hPB.2.1
    (by simpa [nodes] using hd) hb hb'
  simpa [Linked] using hput

/-- **`list_splice`** from one list to another. -/
theorem listSplice_between (h : Linked m l (P ++ B ++ S)) (hk : Linked m k (P' ++ S')) (hB : B ≠ [])
    (hd : ∀ y ∈ nodes l (P ++ B ++ S), y ∉ nodes k (P' ++ S')) :
    Yields (listSplice (cursor k S') (cursor l (B ++ S)) (cursor l S)) m fun _ m' => Linked m' l (P ++ S) ∧
      Linked m' k (P' ++ B ++ S') ∧ Confined (nodes l (P ++ B ++ S) ++ nodes k (P' ++ S')) m m' := by
  obtain ⟨b, b', hb, hb', hbcur, h1, h2⟩ := linked_segment h hB
  have hs' := cursor_mem k P' S'
  have hp' := cursorBack_mem k P' S'
  have hs : cursor l S ∈ nodes l (P ++ B ++ S) := cursor_mem l (P ++ B) S
  have hp : cursorBack l P ∈ nodes l (P ++ B ++ S) := by
    rw [List.append_assoc]
    exact cursorBack_mem l P (B ++ S)
  have hbn : ∀ x ∈ B, x ∈ nodes l (P ++ B ++ S) := fun x hx =>
    mem_nodes (List.mem_append_left _ (List.mem_append_right _ hx))
  rw [hbcur]
  refine (listSplice_moves h hb hb' h1 h2 (linked_link hk) (fun e => hd _ hs (e ▸ hs')) fun hx => hd _ (hbn _ hx)
    hs').mono ?_
  rintro _ _ rfl
  have hkcut : Linked (cutOut m (cursorBack l P) (cursor l S)) k (P' ++ S') :=
    chained_frame hk confined_cutOut fun x hx hmem => by
      simp only [List.mem_cons, List.not_mem_nil, or_false] at hmem
      rcases hmem with rfl | rfl
      · exact hd _ hp hx
      · exact hd _ hs hx
  have hsub : ∀ x ∈ nodes l (P ++ S), x ∈ nodes l (P ++ B ++ S) := fun x hx => by
    simp only [nodes, List.mem_cons, List.mem_append] at hx ⊢
    tauto
  have hnot := not_mem_nodes_of_segment h
  refine ⟨chained_frame (linked_cutOut h) confined_putIn fun x hx hmem => ?_,
    linked_putIn h hb hb' hkcut fun x hx => hd x (hbn x hx), ?_⟩
  · simp only [List.mem_cons, List.not_mem_nil, or_false] at hmem
    rcases hmem with rfl | rfl | rfl | rfl
    · exact hd _ (hsub _ hx) hp'
    · exact hnot _ (List.mem_of_head? hb) hx
    · exact hnot _ (List.mem_of_getLast? hb') hx
    · exact hd _ (hsub _ hx) hs'
  · refine (confined_cutOut.mono ?_).trans (confined_putIn.mono ?_)
    · simp only [List.cons_subset, List.mem_append, hp, hs, true_or, List.nil_subset, and_self]
    · simp only [List.cons_subset, List.mem_append, hp', hs', hbn _ (List.mem_of_head? hb),
        hbn _ (List.mem_of_getLast? hb'), true_or, or_true, List.nil_subset, and_self]

/-- **`list_splice`** within a list, to a place that is not where the segment already is. -/
theorem listSplice_within (h : Linked m l (P ++ B ++ S)) (he : P ++ S = P' ++ S') (hne : P ≠ P') (hB : B ≠ []) :
    Yields (listSplice (cursor l S') (cursor l (B ++ S)) (cursor l S)) m fun _ m' =>
      Linked m' l (P' ++ B ++ S') ∧ Confined (nodes l (P ++ B ++ S)) m m' := by
  obtain ⟨b, b', hb, hb', hbcur, h1, h2⟩ := linked_segment h hB
  have hnot := not_mem_nodes_of_segment h
  have hcut := linked_cutOut h
  rw [he] at hcut hnot
  have hsub : ∀ x ∈ nodes l (P' ++ S'), x ∈ nodes l (P ++ B ++ S) := fun x hx => by
    rw [← he] at hx
    simp only [nodes, List.mem_cons, List.mem_append] at hx ⊢
    tauto
  have hp := cursorBack_mem l P' S'
  have hs := cursor_mem l P' S'
  have hs0 : cursor l S ∈ nodes l (P' ++ S') := he ▸ cursor_mem l P S
  have hp0 : cursorBack l P ∈ nodes l (P' ++ S') := he ▸ cursorBack_mem l P S
  have hbn : ∀ x ∈ B, x ∈ nodes l (P ++ B ++ S) := fun x hx =>
    mem_nodes (List.mem_append_left _ (List.mem_append_right _ hx))
  have hplace : Link m (cursorBack l P') (cursor l S') ∧ cursor l S' ≠ cursor l S := by
    rcases List.append_eq_append_iff.mp he with ⟨R, hR, rfl⟩ | ⟨R, rfl, hR⟩
    · -- behind the segment
      have hnil : R ≠ [] := fun hnil => hne (by rw [hR, hnil, List.append_nil])
      obtain ⟨w, z, R', Q, hw, hz⟩ := exists_ends hnil
      have hl := linked_link (P := P ++ B ++ R) (S := S') (by simpa using h)
      have hz' : cursorBack l P' = z := by rw [hR, hz, ← List.append_assoc, cursorBack_snoc]
      have hw' : cursor l (R ++ S') = w := by simp [hw]
      rw [hz, ← List.append_assoc, cursorBack_snoc] at hl
      rw [hz', hw']
      exact ⟨hl, (Linked.cursor_ne (P := P ++ B) (A := R') (by simpa [hw] using h)).symm⟩
    · -- before it
      have hnil : R ≠ [] := fun hnil => hne (by rw [hnil, List.append_nil])
      obtain ⟨w, z, R', Q, hw, -⟩ := exists_ends hnil
      have hl := linked_link (P := P') (S := R ++ B ++ S) (by simpa using h)
      have hw' : cursor l S' = w := by simp [hR, hw]
      rw [hw', show cursor l (R ++ B ++ S) = w by simp [hw]] at *
      exact ⟨hl, Linked.cursor_ne (P := P') (A := R' ++ B) (by simpa [hw] using h)⟩
  rw [hbcur]
  refine (listSplice_moves h hb hb' h1 h2 hplace.1 hplace.2 fun hx => hnot _ hx hs).mono ?_
  rintro _ _ rfl
  refine ⟨linked_putIn h hb hb' hcut hnot, (confined_cutOut.mono ?_).trans (confined_putIn.mono ?_)⟩
  · simp only [List.cons_subset, hsub _ hp0, hsub _ hs0, List.nil_subset, and_self]
  · simp only [List.cons_subset, hsub _ hp, hsub _ hs, hbn _ (List.mem_of_head? hb),
      hbn _ (List.mem_of_getLast? hb'), List.nil_subset, and_self]

theorem listSplice_nothing {Q : Unit → Links E → Prop} (h : Linked m l (P ++ S)) (hQ : Q () m) :
    Yields (listSplice (cursor l S) x x) m Q := by
  unfold listSplice
  rw [if_pos rfl]
  exact Yields.bind (Yields.get (Yields.bind (Yields.assert (linked_before h) (Yields.pure hQ))))

end Splice

/-! ### What sorting does not write -/

section Confining

/-- The links of the elements `ys` lead to such elements. -/
def Closed (ys : List E) (m : Links E) : Prop := ∀ x ∈ ys, (∀ y ∈ m.next x, y ∈ ys) ∧ ∀ y ∈ m.prev x, y ∈ ys

omit [DecidableEq E] in
theorem closed_of_chained (h : Chained m ys) : Closed ys m := by
  intro x hx
  obtain ⟨A, B, rfl⟩ := List.append_of_mem hx
  constructor
  · intro y hy
    cases B with
    | nil =>
      rw [h.last x (by simp)] at hy
      cases hy
    | cons z B =>
      obtain rfl : z = y := Option.some.inj (h.link.1.symm.trans hy)
      simp
  · intro y hy
    rcases List.eq_nil_or_concat A with rfl | ⟨A, z, rfl⟩
    · rw [h.first x rfl] at hy
      cases hy
    · rw [List.concat_eq_append, List.append_assoc, List.singleton_append] at h
      obtain rfl : z = y := Option.some.inj (h.link.2.symm.trans hy)
      simp

/-- Of the memory `m` only the links of the elements `ys` were written, and they still lead to such elements. -/
structure Within (ys : List E) (m m' : Links E) : Prop where
  closed : Closed ys m'
  confined : Confined ys m m'

variable {o v : Option E} {less : E → E → Bool}

omit [DecidableEq E] in
theorem within_listNext (h : Within ys m m') (hx : x ∈ ys) :
    Ensures (listNext x) m' fun y m'' => y ∈ ys ∧ Within ys m m'' :=
  Ensures.bind (Ensures.get (Ensures.bind (Ensures.assert fun _ => Ensures.deref fun y hy =>
    ⟨(h.closed x hx).1 y hy, h⟩)))

omit [DecidableEq E] in
theorem within_listPrev (h : Within ys m m') (hx : x ∈ ys) :
    Ensures (listPrev x) m' fun y m'' => y ∈ ys ∧ Within ys m m'' :=
  Ensures.bind (Ensures.get (Ensures.bind (Ensures.assert fun _ => Ensures.deref fun y hy =>
    ⟨(h.closed x hx).2 y hy, h⟩)))

theorem within_setNext (h : Within ys m m') (ho : ∀ x ∈ o, x ∈ ys) (hv : ∀ y ∈ v, y ∈ ys) :
    Ensures (setNext o v) m' fun _ m'' => Within ys m m'' := by
  refine Ensures.bind (Ensures.deref fun e he => Ensures.modify ⟨fun x hx => ⟨?_, (h.closed x hx).2⟩, fun x hx => ?_⟩)
  · rcases eq_or_ne x e with rfl | hne
    · simpa using hv
    · simpa [hne] using (h.closed x hx).1
  · have hne : x ≠ e := fun hxe => hx (hxe ▸ ho e he)
    simpa [hne] using h.confined x hx

theorem within_setPrev (h : Within ys m m') (ho : ∀ x ∈ o, x ∈ ys) (hv : ∀ y ∈ v, y ∈ ys) :
    Ensures (setPrev o v) m' fun _ m'' => Within ys m m'' := by
  refine Ensures.bind (Ensures.deref fun e he => Ensures.modify ⟨fun x hx => ⟨(h.closed x hx).1, ?_⟩, fun x hx => ?_⟩)
  · rcases eq_or_ne x e with rfl | hne
    · simpa using hv
    · simpa [hne] using (h.closed x hx).2
  · have hne : x ≠ e := fun hxe => hx (hxe ▸ ho e he)
    simpa [hne] using h.confined x hx

theorem within_listSplice {before first last : E} (h : Within ys m m') (hb : before ∈ ys) (hf : first ∈ ys)
    (hl : last ∈ ys) : Ensures (listSplice before first last) m' fun _ m'' => Within ys m m'' := by
  have hsome : ∀ {e : E}, e ∈ ys → ∀ x ∈ some e, x ∈ ys := fun he x hx => Option.some.inj hx ▸ he
  refine Ensures.bind (Ensures.get (Ensures.bind (Ensures.assert fun _ => ?_)))
  refine Ensures.ite (fun _ => Ensures.pure h) fun _ => Ensures.bind ((within_listPrev h hl).mono ?_)
  rintro last' m₁ ⟨hl', h1⟩
  refine Ensures.bind (Ensures.get (Ensures.bind (Ensures.assert fun _ => Ensures.bind (Ensures.assert fun _ => ?_))))
  have h1n := within_setNext h1 (h1.closed _ hf).2 (h1.closed _ hl').1
  refine Ensures.bind (Ensures.get (Ensures.bind (h1n.mono ?_)))
  intro _ m₂ h2
  have h2p := within_setPrev h2 (h2.closed _ hl').1 (h2.closed _ hf).2
  refine Ensures.bind (Ensures.get (Ensures.bind (h2p.mono ?_)))
  intro _ m₃ h3
  refine Ensures.bind (Ensures.get (Ensures.bind ((within_setPrev h3 (hsome hf) (h3.closed _ hb).2).mono ?_)))
  intro _ m₄ h4
  refine Ensures.bind ((within_setNext h4 (hsome hl') (hsome hb)).mono fun _ m₅ h5 => ?_)
  refine Ensures.bind (Ensures.get (Ensures.bind ((within_setNext h5 (h5.closed _ hb).2 (hsome hf)).mono ?_)))
  exact fun _ m₆ h6 => within_setPrev h6 (hsome hb) (hsome hl')

theorem within_isSortedLoop : ∀ {fuel : ℕ} {m' : Links E} {a : E}, Within ys m m' → a ∈ ys →
    Ensures (isSortedLoop less b fuel a) m' fun _ m'' => Within ys m m''
  | 0, _, _, _, _ => Ensures.halt
  | fuel + 1, m', a, h, ha => by
    refine Ensures.bind ((within_listNext h ha).mono fun a₁ m₁ h1 => ?_)
    refine Ensures.ite (fun _ => Ensures.pure h1.2) fun _ => ?_
    refine Ensures.bind ((within_listPrev h1.2 h1.1).mono fun p₁ m₂ h2 => ?_)
    exact Ensures.ite (fun _ => Ensures.pure h2.2) fun _ => within_isSortedLoop h2.2 h1.1

theorem within_isSorted {fuel : ℕ} (h : Within ys m m') (ha : a ∈ ys) :
    Ensures (isSorted less fuel a b) m' fun _ m'' => Within ys m m'' :=
  Ensures.ite (fun _ => within_isSortedLoop h ha) fun _ => Ensures.pure h

theorem within_findEndOfRunLoop : ∀ {fuel : ℕ} {m' : Links E} {a : E}, Within ys m m' → a ∈ ys →
    Ensures (findEndOfRunLoop less b fuel a) m' fun r m'' => r ∈ ys ∧ Within ys m m''
  | 0, _, _, _, _ => Ensures.halt
  | fuel + 1, m', a, h, ha => by
    refine Ensures.bind ((within_listNext h ha).mono fun a₁ m₁ h1 => ?_)
    refine Ensures.ite (fun _ => Ensures.pure h1) fun _ => ?_
    refine Ensures.bind ((within_listPrev h1.2 h1.1).mono fun p₁ m₂ h2 => ?_)
    exact Ensures.ite (fun _ => Ensures.pure ⟨h1.1, h2.2⟩) fun _ => within_findEndOfRunLoop h2.2 h1.1

theorem within_inplaceMergeLoop : ∀ {fuel : ℕ} {m' : Links E} {a b : E}, Within ys m m' → a ∈ ys → b ∈ ys →
    Ensures (inplaceMergeLoop less s fuel a b) m' fun _ m'' => Within ys m m''
  | 0, _, _, _, _, _, _ => Ensures.halt
  | fuel + 1, m', a, b, h, ha, hb => by
    refine Ensures.ite (fun _ => Ensures.ite (fun _ => ?_) fun _ => ?_) fun _ => Ensures.pure h
    · exact Ensures.bind ((within_listNext h ha).mono fun a₁ m₁ h1 => within_inplaceMergeLoop h1.2 h1.1 hb)
    · refine Ensures.bind ((within_listNext h hb).mono fun b₁ m₁ h1 => ?_)
      refine Ensures.bind ((within_listPrev h1.2 h1.1).mono fun p₁ m₂ h2 => ?_)
      refine Ensures.bind ((within_listSplice h2.2 ha h2.1 h1.1).mono fun _ m₃ h3 => ?_)
      exact within_inplaceMergeLoop h3 ha h1.1

theorem within_inplaceMerge {fuel : ℕ} (h : Within ys m m') (ha : a ∈ ys) (hb : b ∈ ys) :
    Ensures (inplaceMerge less fuel a b s) m' fun _ m'' => Within ys m m'' := by
  refine Ensures.bind ((within_isSorted h ha).mono fun _ m₁ h1 => Ensures.bind (Ensures.assert fun _ => ?_))
  refine Ensures.bind ((within_isSorted h1 hb).mono fun _ m₂ h2 => Ensures.bind (Ensures.assert fun _ => ?_))
  exact within_inplaceMergeLoop h2 ha hb

theorem within_passLoop {fuel : ℕ} : ∀ {rounds cnt : ℕ} {m' : Links E} {a : E}, Within ys m m' → a ∈ ys →
    Ensures (passLoop less l fuel rounds a cnt) m' fun _ m'' => Within ys m m''
  | 0, _, _, _, _, _ => Ensures.halt
  | rounds + 1, cnt, m', a, h, ha => by
    refine Ensures.ite (fun _ => Ensures.bind (Ensures.bind (Ensures.assert fun _ => ?_))) fun _ => Ensures.pure h
    refine (within_findEndOfRunLoop h ha).mono fun b₁ m₁ h1 => Ensures.ite (fun _ => Ensures.pure h1.2) fun _ => ?_
    refine Ensures.bind (Ensures.bind (Ensures.assert fun _ => ?_))
    refine (within_findEndOfRunLoop h1.2 h1.1).mono fun b₂ m₂ h2 => ?_
    exact Ensures.bind ((within_inplaceMerge h2.2 ha h1.1).mono fun _ m₃ h3 => within_passLoop h3 h2.1)

omit [DecidableEq E] in
theorem within_listBegin (h : Within ys m m') (hl : l.head ∈ ys) :
    Ensures (listBegin l) m' fun a m'' => a ∈ ys ∧ Within ys m m'' :=
  Ensures.bind (Ensures.get (Ensures.deref fun a ha => ⟨(h.closed _ hl).1 a ha, h⟩))

theorem within_listSortLoop {fuel : ℕ} (hl : l.head ∈ ys) : ∀ {passes : ℕ} {m' : Links E}, Within ys m m' →
    Ensures (listSortLoop less l fuel passes) m' fun _ m'' => Within ys m m''
  | 0, _, _ => Ensures.halt
  | passes + 1, m', h => by
    refine Ensures.bind ((within_listBegin h hl).mono fun a m₁ h1 => ?_)
    refine Ensures.bind ((within_passLoop h1.2 h1.1).mono fun cnt m₂ h2 => ?_)
    exact Ensures.ite (fun _ => within_listSortLoop hl h2) fun _ => Ensures.pure h2

/-- **`list_sort`** writes no links but those of the list. -/
theorem confined_listSort {fuel : ℕ} (h : Linked m l xs) :
    Ensures (listSort less fuel l) m fun _ m' => Confined (nodes l xs) m m' := by
  have hl : l.head ∈ nodes l xs := List.mem_cons_self
  have h0 : Within (nodes l xs) m m := ⟨closed_of_chained h, .refl _ _⟩
  refine Ensures.bind ((within_listSortLoop hl h0).mono fun _ m₁ h1 => ?_)
  refine Ensures.bind ((within_listBegin h1 hl).mono fun a m₂ h2 => ?_)
  refine Ensures.bind ((within_isSorted h2.2 h2.1).mono fun _ m₃ h3 => Ensures.assert fun _ => h3.confined)

end Confining

end Pintos.Kernel.ListOps
