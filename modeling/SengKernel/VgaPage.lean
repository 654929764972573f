import SengKernel.VgaText

/- The screen as a window of a page. The page is what the same characters write on a
   terminal of 80 columns with endlessly many rows, which never scrolls; the driver
   shows the 25 rows of it that end at the cursor. -/
namespace SengKernel.Vga
open BoundedLoop Transition

/-- A page and the place of its cursor. -/
structure Page where
  cells : Nat → Nat → UInt8
  row : Nat
  col : Nat

namespace Page

/-- `' '` everywhere. -/
def empty : Page := ⟨fun _ _ => 32, 0, 0⟩

/-- A character at the cursor. -/
def store (p : Page) (c : UInt8) : Page :=
  { p with cells := Function.update p.cells p.row (Function.update (p.cells p.row) p.col c) }

def newline (p : Page) : Page := { p with row := p.row + 1, col := 0 }

/-- The cursor in another column; past the last one it goes to the next row. -/
def moveTo (p : Page) (col : Nat) : Page := if col ≥ 80 then p.newline else { p with col := col }

/-- The rules of `vga_putchar`, with no last row. -/
def put (p : Page) (c : UInt8) : Page :=
  if c = 10 then p.newline
  else if c = 13 then { p with col := 0 }
  else if c = 9 then p.moveTo ((p.col + 8) / 8 * 8)
  else if c = 8 then { p with col := p.col - 1 }.store 32
  else (p.store c).moveTo (p.col + 1)

def write (p : Page) (cs : List UInt8) : Page := cs.foldl put p

theorem store_cells (p : Page) (c : UInt8) (r k : Nat) :
    (p.store c).cells r k = if r = p.row ∧ k = p.col then c else p.cells r k := by
  rw [store]
  by_cases hr : r = p.row
  · subst hr
    simp only [Function.update_self, Function.update_apply, true_and]
  · rw [if_neg (fun hboth => hr hboth.1)]
    exact congrFun (Function.update_of_ne hr ..) k

end Page

section Scrolling

variable {μ : Type*} {M : CellMemory μ}

theorem read_moveRow (r : Nat) (m : μ) (k : Nat) :
    M.read (moveRow M r m) k = if r * 80 ≤ k ∧ k < r * 80 + 80 then M.read m (k + 80) else M.read m k := by
  have hloop : ∀ k, M.read (moveRow M r m) k =
      if r * 80 ≤ k ∧ k < r * 80 + (0 + 80) then M.read m (k + 80) else M.read m k := by
    refine forRange_invariant (fun c m' => ∀ k, M.read m' k =
      if r * 80 ≤ k ∧ k < r * 80 + c then M.read m (k + 80) else M.read m k) (fun k => ?_) (fun c m' _ _ hm k => ?_)
    · rw [if_neg (by omega)]
    · -- the source lies in the next row, which this pass has not touched
      have hsource : M.read m' ((r + 1) * 80 + c) = M.read m ((r + 1) * 80 + c) := by
        rw [hm, if_neg (by omega)]
      change M.read (M.write m' (r * 80 + c) (M.read m' ((r + 1) * 80 + c))) k = _
      rw [hsource, M.read_write, hm]
      by_cases hk : k = r * 80 + c
      · rw [if_pos hk, if_pos (by omega), show k + 80 = (r + 1) * 80 + c by omega]
      · rw [if_neg hk]
        by_cases hin : r * 80 ≤ k ∧ k < r * 80 + c
        · rw [if_pos hin, if_pos (by omega)]
        · rw [if_neg hin, if_neg (by omega)]
  rw [hloop, Nat.zero_add]

theorem read_moved (m : μ) (k : Nat) :
    M.read (forRange (moveRow M) 0 24 m) k = if k < 24 * 80 then M.read m (k + 80) else M.read m k := by
  have hloop : ∀ k, M.read (forRange (moveRow M) 0 24 m) k =
      if k < (0 + 24) * 80 then M.read m (k + 80) else M.read m k := by
    refine forRange_invariant (fun r m' => ∀ k, M.read m' k =
      if k < r * 80 then M.read m (k + 80) else M.read m k) (fun k => ?_) (fun r m' _ _ hm k => ?_)
    · rw [if_neg (by omega)]
    · rw [read_moveRow, hm, hm]
      by_cases hrow : r * 80 ≤ k ∧ k < r * 80 + 80
      · rw [if_pos hrow, if_neg (by omega), if_pos (by omega)]
      · rw [if_neg hrow]
        by_cases hlow : k < r * 80
        · rw [if_pos hlow, if_pos (by omega)]
        · rw [if_neg hlow, if_neg (by omega)]
  rw [hloop, Nat.zero_add]

theorem read_lastRow (b : Cell) (m : μ) (k : Nat) :
    M.read (forRange (fun c m => M.write m (24 * 80 + c) b) 0 80 m) k =
      if 24 * 80 ≤ k ∧ k < 24 * 80 + 80 then b else M.read m k := by
  have hloop : ∀ k, M.read (forRange (fun c m => M.write m (24 * 80 + c) b) 0 80 m) k =
      if 24 * 80 ≤ k ∧ k < 24 * 80 + (0 + 80) then b else M.read m k := by
    refine forRange_invariant (fun c m' => ∀ k, M.read m' k =
      if 24 * 80 ≤ k ∧ k < 24 * 80 + c then b else M.read m k) (fun k => ?_) (fun c m' _ _ hm k => ?_)
    · rw [if_neg (by omega)]
    · rw [M.read_write, hm]
      by_cases hk : k = 24 * 80 + c
      · rw [if_pos hk, if_pos (by omega)]
      · rw [if_neg hk]
        by_cases hin : 24 * 80 ≤ k ∧ k < 24 * 80 + c
        · rw [if_pos hin, if_pos (by omega)]
        · rw [if_neg hin, if_neg (by omega)]
  rw [hloop, Nat.zero_add]

/-- Every row moves up by one, and the last one is blank. -/
theorem read_scrollUp (v : Screen μ) {r c : Nat} (hr : r < 25) (hc : c < 80) :
    M.read (scrollUp M v).memory (r * 80 + c) =
      if r < 24 then M.read v.memory ((r + 1) * 80 + c) else blank v := by
  change M.read (forRange (fun c m => M.write m (24 * 80 + c) (blank v)) 0 80
    (forRange (moveRow M) 0 24 v.memory)) (r * 80 + c) = _
  rw [read_lastRow, read_moved]
  by_cases hlast : r < 24
  · rw [if_neg (by omega), if_pos (by omega), if_pos hlast, show r * 80 + c + 80 = (r + 1) * 80 + c by omega]
  · rw [if_pos (by omega), if_neg hlast]

end Scrolling

/-- The 25 rows from `top` on are the rows of the screen, and nothing is below them. -/
structure Shows {μ : Type*} (M : CellMemory μ) (top : Nat) (v : Screen μ) (p : Page) : Prop where
  row : v.cursorRow + top = p.row
  col : v.cursorCol = p.col
  cells : ∀ r k, r < 25 → k < 80 → (M.read v.memory (r * 80 + k)).char = p.cells (top + r) k
  below : ∀ r k, top + 25 ≤ r → p.cells r k = 32
  full : 0 < top → 24 ≤ v.cursorRow

section Steps

variable {μ : Type*} {M : CellMemory μ} {v : Screen μ} {p : Page} {top : Nat}

theorem Shows.store (h : Shows M top v p) (hon : OnScreen v) (c : UInt8) :
    Shows M top (vgaWriteCell M v v.cursorRow v.cursorCol c v.curAttr) (p.store c) := by
  obtain ⟨hrow, hcol⟩ := hon
  refine ⟨h.row, h.col, fun r k hr hk => ?_, fun r k hr => ?_, h.full⟩
  · change (M.read (M.write v.memory (v.cursorRow * 80 + v.cursorCol) ⟨c, v.curAttr⟩) (r * 80 + k)).char = _
    rw [M.read_write, Page.store_cells, ← h.row, ← h.col]
    by_cases hplace : r = v.cursorRow ∧ k = v.cursorCol
    · rw [if_pos (by omega), if_pos (by omega)]
    · rw [if_neg (by omega), if_neg (by omega)]
      exact h.cells r k hr hk
  · rw [Page.store_cells, if_neg, h.below r k hr]
    have := h.row
    omega

theorem Shows.newline (h : Shows M top v p) :
    Shows M top { v with cursorCol := 0, cursorRow := v.cursorRow + 1 } p.newline := by
  refine ⟨?_, rfl, h.cells, h.below, fun htop => Nat.le_succ_of_le (h.full htop)⟩
  change v.cursorRow + 1 + top = p.row + 1
  rw [← h.row]
  omega

theorem Shows.moveTo (h : Shows M top v p) (col : Nat) :
    Shows M top (wrapLine { v with cursorCol := col }) (p.moveTo col) := by
  by_cases hwide : col ≥ 80
  · rw [Page.moveTo, if_pos hwide, wrapLine, if_pos hwide]
    exact h.newline
  · rw [Page.moveTo, if_neg hwide, wrapLine, if_neg hwide]
    exact ⟨h.row, rfl, h.cells, h.below, h.full⟩

/-- One character, before the test for the last row. -/
theorem Shows.placeChar (h : Shows M top v p) (hon : OnScreen v) (c : UInt8) :
    Shows M top (placeChar M v c) (p.put c) := by
  rw [Vga.placeChar, Page.put]
  by_cases hlf : c = 10
  · rw [if_pos hlf, if_pos hlf]
    exact h.newline
  rw [if_neg hlf, if_neg hlf]
  by_cases hcr : c = 13
  · rw [if_pos hcr, if_pos hcr]
    exact ⟨h.row, rfl, h.cells, h.below, h.full⟩
  rw [if_neg hcr, if_neg hcr]
  by_cases htab : c = 9
  · rw [if_pos htab, if_pos htab, ← h.col]
    exact h.moveTo _
  rw [if_neg htab, if_neg htab]
  by_cases hbs : c = 8
  · rw [if_pos hbs, if_pos hbs]
    -- in column 0 the cursor stays, as truncated subtraction does
    have hback : Shows M top { v with cursorCol := v.cursorCol - 1 } { p with col := p.col - 1 } :=
      ⟨h.row, congrArg (· - 1) h.col, h.cells, h.below, h.full⟩
    have hmoved : (if v.cursorCol > 0 then { v with cursorCol := v.cursorCol - 1 } else v) =
        { v with cursorCol := v.cursorCol - 1 } := by
      split
      · rfl
      · rename_i hzero
        rw [show v.cursorCol - 1 = v.cursorCol by omega]
    rw [hmoved]
    exact hback.store ⟨hon.row, Nat.lt_of_le_of_lt (Nat.sub_le ..) hon.col⟩ 32
  · rw [if_neg hbs, if_neg hbs, ← h.col]
    exact (h.store hon c).moveTo _

/-- The page does not move; the window goes down by one row, which was blank. -/
theorem Shows.scrollUp (h : Shows M top v p) (hrow : v.cursorRow = 25) :
    Shows M (top + 1) (scrollUp M v) p := by
  refine ⟨?_, h.col, fun r k hr hk => ?_, fun r k hr => h.below r k (by omega), fun _ => Nat.le_refl 24⟩
  · change 24 + (top + 1) = p.row
    rw [← h.row, hrow]
    omega
  · rw [read_scrollUp v hr hk]
    split
    · rw [h.cells (r + 1) k (by omega) hk, show top + (r + 1) = top + 1 + r by omega]
    · rw [h.below (top + 1 + r) k (by omega)]
      rfl

theorem Shows.vgaPutchar (h : Shows M top v p) (hon : OnScreen v) (c : UInt8) :
    ∃ top', Shows M top' (vgaPutchar M v c) (p.put c) := by
  have hplace := h.placeChar hon c
  obtain ⟨_, hrow, _⟩ := hon.placeChar (M := M) c
  rw [Vga.vgaPutchar]
  split
  · rename_i hlast
    exact ⟨top + 1, hplace.scrollUp (Nat.le_antisymm hrow hlast)⟩
  · exact ⟨top, hplace⟩

end Steps

/-- The window that a page of that length is seen through: its first 25 rows until
the cursor is below them, then the 25 rows that end at the cursor. -/
structure Window {μ : Type*} (M : CellMemory μ) (v : Screen μ) (p : Page) : Prop where
  onScreen : OnScreen v
  cursor : v.cursorRow = p.row - (p.row - 24) ∧ v.cursorCol = p.col
  cells : ∀ r k, r < 25 → k < 80 → (M.read v.memory (r * 80 + k)).char = p.cells (p.row - 24 + r) k
  below : ∀ r k, p.row - 24 + 25 ≤ r → p.cells r k = 32

section Runs

variable {μ : Type*} {M : CellMemory μ} {v : Screen μ} {p : Page}

/-- The window starts where the cursor asks for. -/
theorem Shows.window {top : Nat} (h : Shows M top v p) (hon : OnScreen v) : Window M v p := by
  have hrow := h.row
  have hfull := h.full
  have hlast := hon.row
  have htop : top = p.row - 24 := by omega
  subst htop
  exact ⟨hon, ⟨by omega, h.col⟩, h.cells, h.below⟩

theorem Window.shows (h : Window M v p) : Shows M (p.row - 24) v p := by
  have hcursor := h.cursor.1
  exact ⟨by omega, h.cursor.2, h.cells, h.below, fun htop => by omega⟩

theorem window_vgaClear (v : Screen μ) (bg : VgaColor) : Window M (vgaClear M v bg) Page.empty := by
  refine ⟨onScreen_vgaClear v bg, ⟨rfl, rfl⟩, fun r k hr hk => ?_, fun r k _ => rfl⟩
  rw [read_vgaClear v bg (show r * 80 + k < 2000 by omega)]
  rfl

theorem Window.vgaPutchar (h : Window M v p) (c : UInt8) : Window M (vgaPutchar M v c) (p.put c) := by
  obtain ⟨top', hshows⟩ := h.shows.vgaPutchar h.onScreen c
  exact hshows.window (h.onScreen.vgaPutchar (M := M) c).2

theorem Window.run (h : Window M v p) (cs : List UInt8) : Window M (cs.foldl (Vga.vgaPutchar M) v) (p.write cs) := by
  induction cs generalizing v p with
  | nil => exact h
  | cons c cs ih => exact ih (h.vgaPutchar c)

end Runs

/-- After `vga_clear` and any characters the screen is the window of their page, and
the next character stores to the 2000 cells only. -/
theorem screen_shows_page {μ : Type*} (M : CellMemory μ) (v : Screen μ) (bg : VgaColor) (cs : List UInt8) :
    Window M (cs.foldl (vgaPutchar M) (vgaClear M v bg)) (Page.empty.write cs) ∧
    Reachable (Paint M) v.memory (vgaClear M v bg).memory ∧
    ∀ c, Reachable (Paint M) (cs.foldl (vgaPutchar M) (vgaClear M v bg)).memory
      (vgaPutchar M (cs.foldl (vgaPutchar M) (vgaClear M v bg)) c).memory := by
  have hwindow := (window_vgaClear v bg (M := M)).run cs
  exact ⟨hwindow, painted_vgaClear v bg, fun c => (hwindow.onScreen.vgaPutchar (M := M) c).1⟩

end SengKernel.Vga
