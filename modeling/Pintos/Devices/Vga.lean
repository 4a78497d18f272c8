import Pintos.Lib.Scrolling

/-! # The text display

`vga_putc` draws on a framebuffer of 25 lines and scrolls it. What it shows is the end of a page that has no end,
and the cursor never leaves the screen, neither the one in memory nor that of the hardware. -/

namespace Pintos.Devices.Vga

open Pintos.Lib.Scrolling

/-- `COL_CNT`. -/
def colCnt : ℕ := 80

/-- `ROW_CNT`. -/
def rowCnt : ℕ := 25

/-- `GRAY_ON_BLACK`. -/
def grayOnBlack : UInt8 := 0x07

/-- A character and its attribute. -/
abbrev Cell := UInt8 × UInt8

def space : Cell := (32, grayOnBlack)

/-- The registers of the display behind the ports `0x3d4` and `0x3d5`. -/
structure Crtc where
  index : BitVec 8
  reg : BitVec 8 → BitVec 8

/-- `outw (0x3d4, value)`: the low byte selects a register, and the high byte goes there. -/
def Crtc.outw (c : Crtc) (value : BitVec 16) : Crtc where
  index := value.extractLsb' 0 8
  reg := Function.update c.reg (value.extractLsb' 0 8) (value.extractLsb' 8 8)

/-- `outb (0x3d4, index)` and `inb (0x3d5)`. -/
def Crtc.read (c : Crtc) (index : BitVec 8) : Crtc × BitVec 8 := ({ c with index := index }, c.reg index)

structure Display where
  inited : Bool
  cx : ℕ
  cy : ℕ
  fb : ℕ → ℕ → Cell
  crtc : Crtc

/-- `find_cursor`. -/
def findCursor (c : Crtc) : Crtc × ℕ × ℕ :=
  let (c, high) := c.read 0x0e
  let (c, low) := c.read 0x0f
  let cp : BitVec 16 := (high.zeroExtend 16 <<< 8) ||| low.zeroExtend 16
  (c, cp.toNat % colCnt, cp.toNat / colCnt)

/-- `move_cursor`. -/
def Display.moveCursor (s : Display) : Display :=
  let cp := BitVec.ofNat 16 (s.cx + colCnt * s.cy)
  { s with crtc := (s.crtc.outw (0x0e ||| (cp &&& 0xff00))).outw (0x0f ||| (cp <<< 8)) }

/-- `init`. -/
def Display.init (s : Display) : Display :=
  if s.inited then s
  else
    let (crtc, x, y) := findCursor s.crtc
    { s with inited := true, cx := x, cy := y, crtc := crtc }

/-- `clear_row`. -/
def Display.clearRow (s : Display) (y : ℕ) : Display := { s with fb := Function.update s.fb y fun _ => space }

/-- `cls`. -/
def Display.cls (s : Display) : Display :=
  { (List.range rowCnt).foldl Display.clearRow s with cx := 0, cy := 0 }.moveCursor

/-- The `memmove` in `newline`. -/
def Display.scroll (s : Display) : Display := { s with fb := fun y => if y < rowCnt - 1 then s.fb (y + 1) else s.fb y }

/-- `newline`. -/
def Display.newline (s : Display) : Display :=
  if rowCnt ≤ s.cy + 1 then { s with cx := 0, cy := rowCnt - 1 }.scroll.clearRow (rowCnt - 1)
  else { s with cx := 0, cy := s.cy + 1 }

/-- The stores to `fb[cy][cx]`, which must lie on the screen. -/
def Display.draw (s : Display) (c : UInt8) : Option Display :=
  if s.cy < rowCnt ∧ s.cx < colCnt then
    some { s with fb := Function.update s.fb s.cy (Function.update (s.fb s.cy) s.cx (c, grayOnBlack)) }
  else none

/-- The cursor moves right, to the next line at the end of one. -/
def Display.advance (s : Display) (x : ℕ) : Display := if colCnt ≤ x then { s with cx := x }.newline else { s with cx := x }

/-- The `switch` of `vga_putc`. The beep is left out. -/
def Display.interpret (s : Display) (c : UInt8) : Option Display :=
  if c = 10 then some s.newline
  else if c = 12 then some s.cls
  else if c = 8 then some (if 0 < s.cx then { s with cx := s.cx - 1 } else s)
  else if c = 13 then some { s with cx := 0 }
  else if c = 9 then some (s.advance ((s.cx + 1 + 7) / 8 * 8))
  else if c = 7 then some s
  else (s.draw c).map fun s => s.advance (s.cx + 1)

/-- `vga_putc`. -/
def vgaPutc (s : Display) (c : UInt8) : Option Display := (s.init.interpret c).map Display.moveCursor

/-! ### The page -/

/-- What a character does to the page. -/
def pagePutc (p : Page Cell) (c : UInt8) : Page Cell :=
  if c = 10 then p.newline rowCnt
  else if c = 12 then p.clear space
  else if c = 8 then { p with col := p.col - 1 }
  else if c = 13 then { p with col := 0 }
  else if c = 9 then p.moveTo colCnt rowCnt (p.col / 8 * 8 + 8)
  else if c = 7 then p
  else p.put colCnt rowCnt (c, grayOnBlack)

/-- The screen is what is in view of the page, the cursor is in view, and nothing has been written below. -/
structure Shows (s : Display) (p : Page Cell) : Prop where
  cx : s.cx = p.col
  cy : p.row = p.top + s.cy
  col : p.col < colCnt
  row : s.cy < rowCnt
  cell : ∀ y < rowCnt, ∀ x < colCnt, s.fb y x = p.cell (p.top + y) x
  below : ∀ y, p.top + rowCnt ≤ y → ∀ x < colCnt, p.cell y x = space

variable {s : Display} {p : Page Cell}

theorem Shows.moveCursor (h : Shows s p) : Shows s.moveCursor p := ⟨h.cx, h.cy, h.col, h.row, h.cell, h.below⟩

/-- **`newline`.** -/
theorem Shows.newline (h : Shows s p) : Shows s.newline (p.newline rowCnt) := by
  have hcy := h.cy
  have hrow : s.cy < 25 := h.row
  unfold Display.newline Page.newline
  by_cases hlast : rowCnt ≤ s.cy + 1
  · have htop : max p.top (p.row + 2 - rowCnt) = p.top + 1 := by
      unfold rowCnt at *
      omega
    rw [if_pos hlast, htop]
    refine ⟨rfl, ?_, Nat.zero_lt_succ _, Nat.lt_succ_self _, fun y hy x hx => ?_, fun y hy x hx => ?_⟩
    · show p.row + 1 = p.top + 1 + 24
      have : 25 ≤ s.cy + 1 := hlast
      omega
    · show Function.update (fun y => if y < 24 then s.fb (y + 1) else s.fb y) 24 (fun _ => space) y x = _
      have hy' : y < 25 := hy
      by_cases hy24 : y = 24
      · subst hy24
        rw [Function.update_self]
        exact (h.below _ (by show p.top + 25 ≤ p.top + 1 + 24; omega) x hx).symm
      · rw [Function.update_of_ne hy24, if_pos (by omega), h.cell (y + 1) (by show y + 1 < 25; omega) x hx]
        show p.cell (p.top + (y + 1)) x = p.cell (p.top + 1 + y) x
        rw [Nat.add_comm y, Nat.add_assoc]
    · exact h.below y (by have : p.top + 1 + rowCnt ≤ y := hy; omega) x hx
  · have htop : max p.top (p.row + 2 - rowCnt) = p.top := by
      unfold rowCnt at *
      omega
    rw [if_neg hlast, htop]
    exact ⟨rfl, congrArg (· + 1) hcy, Nat.zero_lt_succ _, not_le.mp hlast, h.cell, h.below⟩

/-- The cursor moves to a column. -/
theorem Shows.moveTo {x : ℕ} (h : Shows s p) (hx : x < colCnt) : Shows { s with cx := x } { p with col := x } :=
  ⟨rfl, h.cy, hx, h.row, h.cell, h.below⟩

theorem Shows.advance (h : Shows s p) (x : ℕ) : Shows (s.advance x) (p.moveTo colCnt rowCnt x) := by
  unfold Display.advance Page.moveTo
  by_cases hx : x < colCnt
  · rw [if_neg (not_le.mpr hx), if_pos hx]
    exact h.moveTo hx
  · rw [if_pos (not_lt.mp hx), if_neg hx]
    -- `newline` does not look at the column
    exact h.newline

theorem foldl_clearRow (n : ℕ) (s : Display) : (List.range n).foldl Display.clearRow s =
    { s with fb := fun y => if y < n then fun _ => space else s.fb y } := by
  induction n with
  | zero => rfl
  | succ n ih =>
    rw [List.range_succ, List.foldl_append, ih]
    show Display.clearRow _ n = _
    unfold Display.clearRow
    congr 1
    funext y
    rcases Nat.lt_trichotomy y n with hy | rfl | hy
    · rw [Function.update_of_ne (by omega), if_pos (by omega)]
      exact if_pos hy
    · rw [Function.update_self, if_pos (Nat.lt_succ_self y)]
    · rw [Function.update_of_ne (by omega), if_neg (by omega)]
      exact if_neg (by omega)

/-- **`cls`.** -/
theorem shows_cls (s : Display) (p : Page Cell) : Shows s.cls (p.clear space) := by
  unfold Display.cls Page.clear
  rw [foldl_clearRow]
  refine Shows.moveCursor ⟨rfl, rfl, Nat.zero_lt_succ _, Nat.zero_lt_succ _, fun y hy x _ => ?_, fun y hy x _ => ?_⟩
  · show (if y < rowCnt then fun _ => space else s.fb y) x = if p.top ≤ p.top + y then space else _
    rw [if_pos hy, if_pos (Nat.le_add_right _ _)]
  · exact if_pos (by have : p.top + rowCnt ≤ y := hy; omega)

/-- A character is drawn. -/
theorem Shows.draw (h : Shows s p) (c : UInt8) : ∃ s', s.draw c = some s' ∧ Shows s' (p.write (c, grayOnBlack)) ∧
    s'.cx = s.cx := by
  refine ⟨_, if_pos ⟨h.row, by rw [h.cx]; exact h.col⟩, ⟨h.cx, h.cy, h.col, h.row, fun y hy x hx => ?_,
    fun y hy x hx => ?_⟩, rfl⟩
  · show Function.update s.fb s.cy (Function.update (s.fb s.cy) s.cx (c, grayOnBlack)) y x =
      (p.write (c, grayOnBlack)).cell (p.top + y) x
    rw [Page.write_cell, h.cy, h.cx.symm]
    by_cases hyc : y = s.cy
    · subst hyc
      rw [Function.update_self]
      by_cases hxc : x = s.cx
      · rw [hxc, Function.update_self, if_pos ⟨rfl, rfl⟩]
      · rw [Function.update_of_ne hxc, if_neg fun hc => hxc hc.2]
        exact h.cell _ hy x hx
    · rw [Function.update_of_ne hyc, if_neg fun hc => hyc (by omega)]
      exact h.cell y hy x hx
  · rw [Page.write_cell, if_neg]
    · exact h.below y hy x hx
    · rintro ⟨rfl, -⟩
      have hrow := h.row
      have hcy := h.cy
      have hy' : p.top + rowCnt ≤ p.row := hy
      omega

/-- **A character.** -/
theorem Shows.interpret (h : Shows s p) (c : UInt8) : ∃ s', s.interpret c = some s' ∧ Shows s' (pagePutc p c) := by
  have hcol : s.cx < 80 := by rw [h.cx]; exact h.col
  unfold Display.interpret pagePutc
  split_ifs with h10 h12 h8 hcx h13 h9 h7
  · exact ⟨_, rfl, h.newline⟩
  · exact ⟨_, rfl, shows_cls s p⟩
  · refine ⟨_, rfl, ?_⟩
    rw [← h.cx]
    exact h.moveTo (by show s.cx - 1 < 80; omega)
  · refine ⟨_, rfl, ?_⟩
    have h0 : p.col - 1 = p.col := by
      have := h.cx
      omega
    rw [h0]
    exact h
  · exact ⟨_, rfl, h.moveTo (Nat.zero_lt_succ _)⟩
  · refine ⟨_, rfl, ?_⟩
    have htab : (s.cx + 1 + 7) / 8 * 8 = p.col / 8 * 8 + 8 := by
      have := h.cx
      omega
    rw [htab]
    exact h.advance _
  · exact ⟨_, rfl, h⟩
  · obtain ⟨s', h1, h2, hcx⟩ := h.draw c
    refine ⟨s'.advance (s'.cx + 1), by rw [h1]; rfl, ?_⟩
    rw [hcx, h.cx]
    exact h2.advance _

/-! ### The hardware cursor -/

/-- The bytes that `move_cursor` sends, and the position that `find_cursor` makes of them. -/
theorem cursor_bytes (cp : BitVec 16) : (0x0e ||| (cp &&& 0xff00)).extractLsb' 0 8 = (0x0e : BitVec 8) ∧
    (0x0e ||| (cp &&& 0xff00)).extractLsb' 8 8 = cp.extractLsb' 8 8 ∧
    (0x0f ||| (cp <<< 8)).extractLsb' 0 8 = (0x0f : BitVec 8) ∧
    (0x0f ||| (cp <<< 8)).extractLsb' 8 8 = cp.extractLsb' 0 8 ∧
    ((cp.extractLsb' 8 8).zeroExtend 16 <<< 8) ||| (cp.extractLsb' 0 8).zeroExtend 16 = cp := by
  refine ⟨?_, ?_, ?_, ?_, ?_⟩ <;>
    (ext i hi
     interval_cases i <;> simp)

/-- **`find_cursor` finds what `move_cursor` has set.** -/
theorem findCursor_moveCursor (hx : s.cx < colCnt) (hy : s.cy < rowCnt) :
    (findCursor s.moveCursor.crtc).2 = (s.cx, s.cy) := by
  have hx' : s.cx < 80 := hx
  have hy' : s.cy < 25 := hy
  obtain ⟨h1, h2, h3, h4, h5⟩ := cursor_bytes (BitVec.ofNat 16 (s.cx + 80 * s.cy))
  have hhigh : s.moveCursor.crtc.reg 0x0e = (BitVec.ofNat 16 (s.cx + 80 * s.cy)).extractLsb' 8 8 := by
    simp only [Display.moveCursor, Crtc.outw, colCnt, h1, h3]
    rw [Function.update_of_ne (by decide), Function.update_self, h2]
  have hlow : s.moveCursor.crtc.reg 0x0f = (BitVec.ofNat 16 (s.cx + 80 * s.cy)).extractLsb' 0 8 := by
    simp only [Display.moveCursor, Crtc.outw, colCnt, h1, h3]
    rw [Function.update_self, h4]
  have hcp : (BitVec.ofNat 16 (s.cx + 80 * s.cy)).toNat = s.cx + 80 * s.cy := by
    rw [BitVec.toNat_ofNat]
    omega
  simp only [findCursor, Crtc.read, hhigh, hlow, h5, hcp]
  show ((s.cx + 80 * s.cy) % 80, (s.cx + 80 * s.cy) / 80) = _
  rw [Nat.add_mul_mod_self_left, Nat.mod_eq_of_lt hx', Nat.add_mul_div_left _ _ (by decide), Nat.div_eq_of_lt hx',
    Nat.zero_add]

/-! ### Text -/

/-- The page when the display is first used. -/
def startPage (s : Display) : Page Cell where
  cell y x := if y < rowCnt then s.fb y x else space
  top := 0
  row := (findCursor s.crtc).2.2
  col := (findCursor s.crtc).2.1

/-- The first use. -/
theorem shows_init (h : s.inited = false) (hy : (findCursor s.crtc).2.2 < rowCnt) :
    s.init.inited = true ∧ Shows s.init (startPage s) := by
  unfold Display.init
  rw [if_neg (by rw [h]; decide)]
  refine ⟨rfl, rfl, (Nat.zero_add _).symm, Nat.mod_lt _ (by decide), hy, fun y hy x _ => ?_, fun y hy x _ => ?_⟩
  · show s.fb y x = if 0 + y < rowCnt then s.fb (0 + y) x else space
    rw [Nat.zero_add, if_pos hy]
  · exact if_neg (by have : 0 + rowCnt ≤ y := hy; omega)

theorem interpret_inited {s' : Display} {c : UInt8} (h : s.interpret c = some s') : s'.inited = s.inited := by
  have hadvance : ∀ (s : Display) x, (s.advance x).inited = s.inited := by
    intro s x
    unfold Display.advance Display.newline
    split_ifs <;> rfl
  unfold Display.interpret at h
  split_ifs at h
  · cases h
    unfold Display.newline
    split_ifs <;> rfl
  · cases h
    unfold Display.cls
    rw [foldl_clearRow]
    rfl
  · cases h
    rfl
  · cases h
    rfl
  · cases h
    rfl
  · cases h
    exact hadvance _ _
  · cases h
    rfl
  · obtain ⟨s₁, h1, rfl⟩ := Option.map_eq_some_iff.mp h
    unfold Display.draw at h1
    split_ifs at h1
    cases h1
    exact hadvance _ _

/-- **One character** on a display that is in use. -/
theorem shows_putc (hi : s.inited = true) (h : Shows s p) (c : UInt8) : ∃ s', vgaPutc s c = some s' ∧
    s'.inited = true ∧ Shows s' (pagePutc p c) ∧ (findCursor s'.crtc).2 = (s'.cx, s'.cy) := by
  obtain ⟨s', h1, h2⟩ := h.interpret c
  have hinit : s.init = s := if_pos hi
  refine ⟨s'.moveCursor, by rw [vgaPutc, hinit, h1]; rfl, ?_, h2.moveCursor, ?_⟩
  · show s'.inited = true
    rw [interpret_inited h1, hi]
  · exact findCursor_moveCursor (by rw [h2.cx]; exact h2.col) h2.row

theorem shows_foldlM : ∀ (text : List UInt8) {s : Display} {p : Page Cell}, s.inited = true → Shows s p →
    (findCursor s.crtc).2 = (s.cx, s.cy) → ∃ s', text.foldlM vgaPutc s = some s' ∧ Shows s' (text.foldl pagePutc p) ∧
      (findCursor s'.crtc).2 = (s'.cx, s'.cy)
  | [], s, _, _, h, hc => ⟨s, rfl, h, hc⟩
  | c :: text, s, p, hi, h, _ => by
    obtain ⟨s₁, h1, hi1, h2, hc1⟩ := shows_putc hi h c
    obtain ⟨s₂, h3, h4, hc2⟩ := shows_foldlM text hi1 h2 hc1
    exact ⟨s₂, by rw [List.foldlM_cons, h1]; exact h3, h4, hc2⟩

/-- **The display refines the page**: whatever text is printed from the first use on, with the hardware cursor on the
screen, `vga_putc` never draws outside of the screen, the screen shows the part of the page in view, and the cursor
of the hardware is where the page has its own. -/
theorem shows_text (h : s.inited = false) (hy : (findCursor s.crtc).2.2 < rowCnt) (c : UInt8) (text : List UInt8) :
    ∃ s', (c :: text).foldlM vgaPutc s = some s' ∧ Shows s' ((c :: text).foldl pagePutc (startPage s)) ∧
      (findCursor s'.crtc).2 = (s'.cx, s'.cy) := by
  obtain ⟨hi, hs⟩ := shows_init h hy
  obtain ⟨s₁, h1, hi1, h2, hc1⟩ := shows_putc hi hs c
  obtain ⟨s₂, h3, h4, hc2⟩ := shows_foldlM text hi1 h2 hc1
  have hfirst : vgaPutc s c = some s₁ := by
    rw [← h1, vgaPutc, vgaPutc, show s.init.init = s.init from if_pos hi]
  exact ⟨s₂, by rw [List.foldlM_cons, hfirst]; exact h3, h4, hc2⟩

/-- A character that is none of the control characters. -/
def Plain (c : UInt8) : Prop := c ≠ 10 ∧ c ≠ 12 ∧ c ≠ 8 ∧ c ≠ 13 ∧ c ≠ 9 ∧ c ≠ 7

theorem pagePutc_plain {c : UInt8} (h : Plain c) : pagePutc p c = p.put colCnt rowCnt (c, grayOnBlack) := by
  obtain ⟨h1, h2, h3, h4, h5, h6⟩ := h
  unfold pagePutc
  rw [if_neg h1, if_neg h2, if_neg h3, if_neg h4, if_neg h5, if_neg h6]

theorem foldl_plain {text : List UInt8} (h : ∀ c ∈ text, Plain c) (p : Page Cell) :
    text.foldl pagePutc p = (text.map fun c => (c, grayOnBlack)).foldl (Page.put colCnt rowCnt) p := by
  induction text generalizing p with
  | nil => rfl
  | cons c text ih =>
    obtain ⟨hc, ht⟩ := List.forall_mem_cons.mp h
    rw [List.foldl_cons, pagePutc_plain hc, ih ht]
    rfl

def blankDisplay : Display := ⟨false, 0, 0, fun _ _ => space, ⟨0, fun _ => 0⟩⟩

/-- `h`, a tabulator and `i`. -/
theorem shows_text_tab : ∃ s', [104, 9, 105].foldlM vgaPutc blankDisplay = some s' ∧
    Shows s' ([104, 9, 105].foldl pagePutc (startPage blankDisplay)) ∧ (findCursor s'.crtc).2 = (s'.cx, s'.cy) :=
  shows_text rfl (by decide) 104 [9, 105]

end Pintos.Devices.Vga
