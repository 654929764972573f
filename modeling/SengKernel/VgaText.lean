import SengKernel.LoopBasics
import SengKernel.RunBasics

/- The text-mode driver of kernel/vga.c over any memory that holds the cells. The
   hardware cursor, which it sets through ports, is left out. -/
namespace SengKernel.Vga
open BoundedLoop Transition

@[simp] abbrev vgaCols : Nat := 80
@[simp] abbrev vgaRows : Nat := 25

inductive VgaColor where
  | black | blue | green | cyan | red | magenta | brown | lightGrey | darkGrey | lightBlue | lightGreen | lightCyan
  | lightRed | lightMagenta | yellow | white
  deriving DecidableEq, Repr

def VgaColor.code : VgaColor → Nat
  | .black => 0
  | .blue => 1
  | .green => 2
  | .cyan => 3
  | .red => 4
  | .magenta => 5
  | .brown => 6
  | .lightGrey => 7
  | .darkGrey => 8
  | .lightBlue => 9
  | .lightGreen => 10
  | .lightCyan => 11
  | .lightRed => 12
  | .lightMagenta => 13
  | .yellow => 14
  | .white => 15

/-- `VGA_ATTR` -/
def vgaAttr (fg bg : VgaColor) : UInt8 := UInt8.ofNat ((bg.code <<< 4) ||| fg.code)

/-- The 16-bit cell: the character in the low byte, the attribute in the high byte. -/
structure Cell where
  char : UInt8
  attr : UInt8
  deriving DecidableEq, Repr

/-- A memory of cells, numbered from `VGA_ADDR` on. -/
structure CellMemory (μ : Type*) where
  read : μ → Nat → Cell
  write : μ → Nat → Cell → μ
  read_write : ∀ m k c j, read (write m k c) j = if j = k then c else read m j

/-- The memory and the statics of the driver. -/
structure Screen (μ : Type*) where
  memory : μ
  cursorRow : Nat
  cursorCol : Nat
  curAttr : UInt8

section Driver

variable {μ : Type*} (M : CellMemory μ)

def vgaWriteCell (v : Screen μ) (row col : Nat) (c attr : UInt8) : Screen μ :=
  { v with memory := M.write v.memory (row * vgaCols + col) ⟨c, attr⟩ }

/-- `' '` in the current attribute. -/
def blank (v : Screen μ) : Cell := ⟨32, v.curAttr⟩

def moveRow (r : Nat) (m : μ) : μ :=
  forRange (fun c m => M.write m (r * vgaCols + c) (M.read m ((r + 1) * vgaCols + c))) 0 vgaCols m

def scrollUp (v : Screen μ) : Screen μ :=
  let moved := forRange (moveRow M) 0 (vgaRows - 1) v.memory
  { v with
    memory := forRange (fun c m => M.write m ((vgaRows - 1) * vgaCols + c) (blank v)) 0 vgaCols moved
    cursorRow := vgaRows - 1 }

def vgaClear (v : Screen μ) (bg : VgaColor) : Screen μ :=
  let v := { v with curAttr := vgaAttr .lightGrey bg }
  { v with
    memory := forRange (fun i m => M.write m i (blank v)) 0 (vgaRows * vgaCols) v.memory
    cursorRow := 0
    cursorCol := 0 }

/-- `if (cursor_col >= VGA_COLS) { cursor_col = 0; cursor_row++; }` -/
def wrapLine (v : Screen μ) : Screen μ :=
  if v.cursorCol ≥ vgaCols then { v with cursorCol := 0, cursorRow := v.cursorRow + 1 } else v

/-- `vga_putchar` up to the test for the last row. -/
def placeChar (v : Screen μ) (c : UInt8) : Screen μ :=
  if c = 10 then { v with cursorCol := 0, cursorRow := v.cursorRow + 1 }
  else if c = 13 then { v with cursorCol := 0 }
  else if c = 9 then wrapLine { v with cursorCol := (v.cursorCol + 8) / 8 * 8 }
  else if c = 8 then
    let v := if v.cursorCol > 0 then { v with cursorCol := v.cursorCol - 1 } else v
    vgaWriteCell M v v.cursorRow v.cursorCol 32 v.curAttr
  else
    let v := vgaWriteCell M v v.cursorRow v.cursorCol c v.curAttr
    wrapLine { v with cursorCol := v.cursorCol + 1 }

def vgaPutchar (v : Screen μ) (c : UInt8) : Screen μ :=
  let v := placeChar M v c
  if v.cursorRow ≥ vgaRows then scrollUp M v else v

/-- `while (*str) vga_putchar(*str++);` -/
def putsLoop (v : Screen μ) : List UInt8 → Screen μ
  | [] => v
  | c :: cs => if c = 0 then v else putsLoop (vgaPutchar M v c) cs

/-- A null pointer is `none`. -/
def vgaPuts (v : Screen μ) : Option (List UInt8) → Screen μ
  | none => v
  | some str => putsLoop M v str

/-- One store to one of the 2000 cells. -/
def Paint (m : μ) (x : Nat × Cell) (m' : μ) : Prop := x.1 < 2000 ∧ m' = M.write m x.1 x.2

/-- The cursor is on the screen. -/
structure OnScreen (v : Screen μ) : Prop where
  row : v.cursorRow < 25
  col : v.cursorCol < 80

variable {M}

theorem painted_trans {l m n : μ} (h : Reachable (Paint M) l m) (h' : Reachable (Paint M) m n) :
    Reachable (Paint M) l n := by
  obtain ⟨as, h⟩ := h
  obtain ⟨bs, h'⟩ := h'
  exact ⟨as ++ bs, h.append h'⟩

theorem painted_write {m : μ} {k : Nat} (hk : k < 2000) (c : Cell) : Reachable (Paint M) m (M.write m k c) :=
  ⟨[(k, c)], .cons ⟨hk, rfl⟩ (.nil _)⟩

/-- A loop whose passes store to cells. -/
theorem painted_forRange {f : Nat → μ → μ} {start n : Nat} {m : μ}
    (h : ∀ i m', start ≤ i → i < start + n → Reachable (Paint M) m' (f i m')) :
    Reachable (Paint M) m (forRange f start n m) :=
  forRange_invariant (fun _ m' => Reachable (Paint M) m m') ⟨[], .nil m⟩
    (fun i m' hi hlt hm => painted_trans hm (h i m' hi hlt))

variable {v : Screen μ}

theorem cell_lt {r c : Nat} (hr : r < 25) (hc : c < 80) : r * vgaCols + c < 2000 := by
  change r * 80 + c < 2000
  omega

theorem painted_scrollUp (v : Screen μ) : Reachable (Paint M) v.memory (scrollUp M v).memory := by
  refine painted_trans (m := forRange (moveRow M) 0 24 v.memory) ?_ ?_
  · refine painted_forRange (fun r m _ hr => painted_forRange (fun c m' _ hc => painted_write (cell_lt ?_ ?_) _))
    · omega
    · exact Nat.lt_of_lt_of_eq hc (Nat.zero_add 80)
  · refine painted_forRange (fun c m _ hc => painted_write (cell_lt (Nat.lt_succ_self 24) ?_) _)
    exact Nat.lt_of_lt_of_eq hc (Nat.zero_add 80)

theorem painted_fill {n : Nat} (hn : n ≤ 2000) (c : Cell) (m : μ) :
    Reachable (Paint M) m (forRange (fun i m => M.write m i c) 0 n m) :=
  painted_forRange (fun i _ _ hi => painted_write (by omega) c)

theorem read_fill (n : Nat) (c : Cell) (m : μ) {k : Nat} (hk : k < n) :
    M.read (forRange (fun i m => M.write m i c) 0 n m) k = c := by
  have hall : ∀ k, k < 0 + n → M.read (forRange (fun i m => M.write m i c) 0 n m) k = c := by
    refine forRange_invariant (fun i m => ∀ k, k < i → M.read m k = c)
      (fun k hk => absurd hk (Nat.not_lt_zero k)) (fun i m _ _ hm k hk => ?_)
    rw [M.read_write]
    split
    · rfl
    · exact hm k (by omega)
  exact hall k (by omega)

theorem painted_vgaClear (v : Screen μ) (bg : VgaColor) : Reachable (Paint M) v.memory (vgaClear M v bg).memory := by
  unfold vgaClear
  dsimp only
  refine painted_fill ?_ _ _
  norm_num

/-- What one character does: stores on the screen, and the cursor at most one row
below it. -/
theorem OnScreen.placeChar (h : OnScreen v) (c : UInt8) :
    Reachable (Paint M) v.memory (placeChar M v c).memory ∧
    (Vga.placeChar M v c).cursorRow ≤ 25 ∧ (Vga.placeChar M v c).cursorCol < 80 := by
  obtain ⟨hrow, hcol⟩ := h
  have hwrap : ∀ w : Screen μ, w.cursorRow < 25 → (wrapLine w).memory = w.memory ∧
      (wrapLine w).cursorRow ≤ 25 ∧ (wrapLine w).cursorCol < 80 := by
    intro w hw
    rw [wrapLine]
    split
    · exact ⟨rfl, hw, Nat.zero_lt_succ 79⟩
    · rename_i hwide
      exact ⟨rfl, Nat.le_of_lt hw, Nat.lt_of_not_le hwide⟩
  have hstay : Reachable (Paint M) v.memory v.memory := ⟨[], .nil _⟩
  rw [Vga.placeChar]
  split
  · exact ⟨hstay, hrow, Nat.zero_lt_succ 79⟩
  · split
    · exact ⟨hstay, Nat.le_of_lt hrow, Nat.zero_lt_succ 79⟩
    · split
      · obtain ⟨hsame, hplace⟩ := hwrap { v with cursorCol := (v.cursorCol + 8) / 8 * 8 } hrow
        rw [hsame]
        exact ⟨hstay, hplace⟩
      · split
        · dsimp only
          split
          · exact ⟨painted_write (cell_lt hrow (by dsimp only; omega)) _, Nat.le_of_lt hrow, by dsimp only [vgaWriteCell]; omega⟩
          · exact ⟨painted_write (cell_lt hrow hcol) _, Nat.le_of_lt hrow, hcol⟩
        · obtain ⟨hsame, hplace⟩ := hwrap { vgaWriteCell M v v.cursorRow v.cursorCol c v.curAttr with
            cursorCol := v.cursorCol + 1 } hrow
          dsimp only [vgaWriteCell] at hsame hplace ⊢
          rw [hsame]
          exact ⟨painted_write (cell_lt hrow hcol) _, hplace⟩

theorem OnScreen.vgaPutchar (h : OnScreen v) (c : UInt8) :
    Reachable (Paint M) v.memory (vgaPutchar M v c).memory ∧ OnScreen (Vga.vgaPutchar M v c) := by
  obtain ⟨hpaint, hrow, hcol⟩ := h.placeChar (M := M) c
  simp only [Vga.vgaPutchar]
  split
  · exact ⟨painted_trans hpaint (painted_scrollUp _), Nat.lt_succ_self 24, hcol⟩
  · rename_i hshort
    exact ⟨hpaint, Nat.lt_of_not_le hshort, hcol⟩

theorem OnScreen.vgaPuts (h : OnScreen v) (str : Option (List UInt8)) :
    Reachable (Paint M) v.memory (vgaPuts M v str).memory ∧ OnScreen (Vga.vgaPuts M v str) := by
  cases str with
  | none => exact ⟨⟨[], .nil _⟩, h⟩
  | some s =>
      rw [Vga.vgaPuts]
      induction s generalizing v with
      | nil => exact ⟨⟨[], .nil _⟩, h⟩
      | cons c cs ih =>
          rw [putsLoop]
          split
          · exact ⟨⟨[], .nil _⟩, h⟩
          · obtain ⟨hpaint, hon⟩ := h.vgaPutchar (M := M) c
            obtain ⟨hrest, hend⟩ := ih hon
            exact ⟨painted_trans hpaint hrest, hend⟩

theorem onScreen_vgaClear (v : Screen μ) (bg : VgaColor) : OnScreen (vgaClear M v bg) :=
  ⟨Nat.zero_lt_succ 24, Nat.zero_lt_succ 79⟩

/-- After `vga_clear` every cell is blank. -/
theorem read_vgaClear (v : Screen μ) (bg : VgaColor) {k : Nat} (hk : k < 2000) :
    M.read (vgaClear M v bg).memory k = ⟨32, vgaAttr .lightGrey bg⟩ := by
  unfold vgaClear
  dsimp only
  refine read_fill _ _ _ ?_
  simpa using hk

end Driver

end SengKernel.Vga
