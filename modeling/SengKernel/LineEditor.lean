import SengKernel.VgaPage

/- kb_readline of kernel/keyboard.c against what the console shows. The editor and the
   console each keep their own position; both are compared on the page that the
   screen is a window of, with its places numbered along the rows. -/
namespace SengKernel.Kbd
open Vga

/-- The locals of `kb_readline` and the console that it writes to. -/
structure Line (κ : Type*) where
  buf : Nat → UInt8
  i : Nat
  console : κ

section Editor

variable {κ : Type*} (put : κ → UInt8 → κ) (len : Int)

/-- What is in `buf[0..i)`. -/
def Line.text (x : Line κ) : List UInt8 := (List.range x.i).map x.buf

/-- A character that is not Enter. -/
def editKey (x : Line κ) (c : UInt8) : Line κ :=
  if c = 8 then
    if x.i > 0 then { x with i := x.i - 1, console := put x.console 8 } else x
  else ⟨Function.update x.buf x.i c, x.i + 1, put x.console c⟩

/-- The loop on the characters that come; when they run out it waits for the next. -/
def readlineLoop (x : Line κ) : List UInt8 → Line κ
  | [] => x
  | c :: cs =>
      if (x.i : Int) < len - 1 then
        if c = 10 ∨ c = 13 then { x with console := put x.console 10 }
        else readlineLoop (editKey put x c) cs
      else x

/-- `kb_readline` from the position of the console on: the buffer, the length that
is returned, and the console. -/
def kbReadline (stack : Nat → UInt8) (console : κ) (keys : List UInt8) : Line κ :=
  let x := readlineLoop put len ⟨stack, 0, console⟩ keys
  { x with buf := Function.update x.buf x.i 0 }

/-- The text after one more character. -/
def typeKey (s : List UInt8) (c : UInt8) : List UInt8 :=
  if (s.length : Int) < len - 1 then (if c = 8 then s.dropLast else s ++ [c]) else s

def typed (keys : List UInt8) : List UInt8 := keys.foldl (typeKey len) []

end Editor

/-- The cells that a character takes at place `q`: its own, or those up to the next
tab stop, which get no character. -/
def cellsOf (q : Nat) (c : UInt8) : List (Option UInt8) := if c = 9 then List.replicate (8 - q % 8) none else [some c]

def render (q : Nat) : List UInt8 → List (Option UInt8)
  | [] => []
  | c :: cs => cellsOf q c ++ render (q + (cellsOf q c).length) cs

/-- The place after a text that starts at `q`. -/
def endOf (q : Nat) (s : List UInt8) : Nat := q + (render q s).length

def pos (p : Page) : Nat := p.row * 80 + p.col

def charAt (p : Page) (q : Nat) : UInt8 := p.cells (q / 80) (q % 80)

/-- A place shows a rendered cell. Under a tab nothing of the input is left: the
place is blank or as it was. -/
def Drawn (start p : Page) (q : Nat) : Option UInt8 → Prop
  | some c => charAt p q = c
  | none => charAt p q = 32 ∨ charAt p q = charAt start q

/-- From the place where the input began up to the cursor the page shows the text. -/
structure InStep (start p : Page) (s : List UInt8) : Prop where
  cursor : pos p = endOf (pos start) s
  drawn : ∀ j o, (render (pos start) s)[j]? = some o → Drawn start p (pos start + j) o

section Rendering

theorem render_append (q : Nat) (s t : List UInt8) :
    render q (s ++ t) = render q s ++ render (endOf q s) t := by
  induction s generalizing q with
  | nil => rfl
  | cons c cs ih =>
      rw [List.cons_append, render, ih, render, List.append_assoc, endOf, endOf, render, List.length_append,
        Nat.add_assoc]

theorem render_concat (q : Nat) (s : List UInt8) (c : UInt8) :
    render q (s ++ [c]) = render q s ++ cellsOf (endOf q s) c := by
  rw [render_append, render, render, List.append_nil]

theorem endOf_concat (q : Nat) (s : List UInt8) (c : UInt8) :
    endOf q (s ++ [c]) = endOf q s + (cellsOf (endOf q s) c).length := by
  rw [endOf, render_concat, List.length_append, ← Nat.add_assoc]
  rfl

theorem cellsOf_tab (q : Nat) : cellsOf q 9 = List.replicate (8 - q % 8) none := if_pos rfl

theorem cellsOf_of_ne {c : UInt8} (q : Nat) (h : c ≠ 9) : cellsOf q c = [some c] := if_neg h

theorem cellsOf_pos (q : Nat) (c : UInt8) : 0 < (cellsOf q c).length := by
  by_cases hc : c = 9
  · rw [hc, cellsOf_tab, List.length_replicate]
    omega
  · rw [cellsOf_of_ne q hc]
    exact Nat.zero_lt_one

end Rendering

section Cursor

variable {p : Page}

theorem moveTo_spec {col : Nat} (hlt : p.col < col) (hle : col ≤ 80) :
    (p.moveTo col).col < 80 ∧ pos (p.moveTo col) = pos p + (col - p.col) ∧ (p.moveTo col).cells = p.cells := by
  rw [Page.moveTo]
  split
  · refine ⟨Nat.zero_lt_succ 79, ?_, rfl⟩
    change (p.row + 1) * 80 + 0 = p.row * 80 + p.col + (col - p.col)
    omega
  · refine ⟨by dsimp only; omega, ?_, rfl⟩
    change p.row * 80 + col = p.row * 80 + p.col + (col - p.col)
    omega

theorem store_charAt (hcol : p.col < 80) (c : UInt8) (q : Nat) :
    charAt (p.store c) q = if q = pos p then c else charAt p q := by
  rw [charAt, Page.store_cells, charAt]
  by_cases hq : q = pos p
  · rw [if_pos hq, if_pos]
    rw [pos] at hq
    omega
  · rw [if_neg hq, if_neg]
    rw [pos] at hq
    omega

/-- A character of its own takes the place of the cursor. -/
theorem put_char (hcol : p.col < 80) {c : UInt8} (hc : c ≠ 8 ∧ c ≠ 9 ∧ c ≠ 10 ∧ c ≠ 13) :
    (p.put c).col < 80 ∧ pos (p.put c) = pos p + 1 ∧
      ∀ q, charAt (p.put c) q = if q = pos p then c else charAt p q := by
  obtain ⟨hbs, htab, hlf, hcr⟩ := hc
  rw [Page.put, if_neg hlf, if_neg hcr, if_neg htab, if_neg hbs]
  obtain ⟨hcol', hpos, hcells⟩ := moveTo_spec (p := p.store c) (Nat.lt_succ_self p.col) hcol
  refine ⟨hcol', ?_, fun q => ?_⟩
  · rw [hpos]
    change pos p + (p.col + 1 - p.col) = pos p + 1
    omega
  · rw [charAt, hcells]
    exact store_charAt hcol c q

/-- A tab goes to the next stop and writes nothing. -/
theorem put_tab (hcol : p.col < 80) :
    (p.put 9).col < 80 ∧ pos (p.put 9) = pos p + (8 - pos p % 8) ∧ ∀ q, charAt (p.put 9) q = charAt p q := by
  have hput : p.put 9 = p.moveTo ((p.col + 8) / 8 * 8) := by
    rw [Page.put, if_neg (by decide), if_neg (by decide), if_pos rfl]
  obtain ⟨hcol', hpos, hcells⟩ := moveTo_spec (show p.col < (p.col + 8) / 8 * 8 by omega) (by omega)
  rw [hput]
  refine ⟨hcol', ?_, fun q => ?_⟩
  · rw [hpos, pos]
    omega
  · rw [charAt, hcells, charAt]

/-- A backspace stays on its row: it blanks the place before the cursor, or that of
the cursor in column 0. -/
theorem put_backspace (hcol : p.col < 80) :
    (p.put 8).col < 80 ∧ pos (p.put 8) = (if pos p % 80 = 0 then pos p else pos p - 1) ∧
      ∀ q, charAt (p.put 8) q = if q = pos (p.put 8) then 32 else charAt p q := by
  have hput : p.put 8 = { p with col := p.col - 1 }.store 32 := by
    rw [Page.put, if_neg (by decide), if_neg (by decide), if_neg (by decide), if_pos rfl]
  have hback : pos { p with col := p.col - 1 } = if pos p % 80 = 0 then pos p else pos p - 1 := by
    change p.row * 80 + (p.col - 1) = if (p.row * 80 + p.col) % 80 = 0 then p.row * 80 + p.col else p.row * 80 + p.col - 1
    split
    · omega
    · omega
  rw [hput]
  refine ⟨Nat.lt_of_le_of_lt (Nat.sub_le ..) hcol, hback, fun q => ?_⟩
  exact store_charAt (p := { p with col := p.col - 1 }) (Nat.lt_of_le_of_lt (Nat.sub_le ..) hcol) 32 q

end Cursor

section Keys

variable {κ : Type*} {put : κ → UInt8 → κ} {len : Int}

theorem Line.text_length (x : Line κ) : x.text.length = x.i := by
  rw [Line.text, List.length_map, List.length_range]

/-- One character of the input before Enter, or nothing when the buffer is full. -/
def readKey (put : κ → UInt8 → κ) (len : Int) (x : Line κ) (c : UInt8) : Line κ :=
  if (x.i : Int) < len - 1 then editKey put x c else x

theorem foldl_readKey_full {x : Line κ} (h : ¬ (x.i : Int) < len - 1) (keys : List UInt8) :
    keys.foldl (readKey put len) x = x := by
  induction keys with
  | nil => rfl
  | cons c cs ih => rw [List.foldl_cons, readKey, if_neg h, ih]

/-- Without Enter the loop takes the characters one by one. -/
theorem readlineLoop_eq {keys : List UInt8} (h : ∀ c, c ∈ keys → c ≠ 10 ∧ c ≠ 13) (x : Line κ) :
    readlineLoop put len x keys = keys.foldl (readKey put len) x := by
  induction keys generalizing x with
  | nil => rfl
  | cons c cs ih =>
      have hc : ¬ (c = 10 ∨ c = 13) := not_or.mpr (h c List.mem_cons_self)
      by_cases hroom : (x.i : Int) < len - 1
      · rw [readlineLoop, if_pos hroom, if_neg hc, ih (fun d hd => h d (List.mem_cons_of_mem c hd)), List.foldl_cons,
          readKey, if_pos hroom]
      · rw [readlineLoop, if_neg hroom, foldl_readKey_full hroom]

/-- The buffer holds the text as typed and edited. -/
theorem readKey_text (x : Line κ) (c : UInt8) : (readKey put len x c).text = typeKey len x.text c := by
  rw [readKey, typeKey, x.text_length]
  by_cases hroom : (x.i : Int) < len - 1
  · rw [if_pos hroom, if_pos hroom, editKey]
    by_cases hc : c = 8
    · rw [if_pos hc, if_pos hc]
      split
      · rename_i hpos
        obtain ⟨n, hn⟩ := Nat.exists_eq_succ_of_ne_zero (Nat.ne_of_gt hpos)
        rw [Line.text, Line.text, hn, List.range_succ, List.map_append, List.map_singleton, List.dropLast_concat]
        rfl
      · rename_i hzero
        have hempty : x.text = [] := List.length_eq_zero_iff.mp (by rw [x.text_length]; omega)
        rw [hempty]
        rfl
    · rw [if_neg hc, if_neg hc, Line.text, Line.text, List.range_succ, List.map_append, List.map_singleton]
      change List.map (Function.update x.buf x.i c) (List.range x.i) ++ [Function.update x.buf x.i c x.i] = _
      rw [Function.update_self]
      refine congrArg (· ++ [c]) (List.map_congr_left (fun j hj => ?_))
      exact Function.update_of_ne (Nat.ne_of_lt (List.mem_range.mp hj)) ..
  · rw [if_neg hroom, if_neg hroom]

theorem foldl_readKey_text (keys : List UInt8) (x : Line κ) :
    (keys.foldl (readKey put len) x).text = keys.foldl (typeKey len) x.text := by
  induction keys generalizing x with
  | nil => rfl
  | cons c cs ih => rw [List.foldl_cons, ih, readKey_text, List.foldl_cons]

end Keys

section Screens

variable {μ : Type*} {M : CellMemory μ} {len : Int}

/-- The line on the screen and the line on the page. -/
structure Mirrors (M : CellMemory μ) (x : Line (Screen μ)) (y : Line Page) : Prop where
  buf : x.buf = y.buf
  i : x.i = y.i
  window : Window M x.console y.console

theorem Mirrors.readKey {x : Line (Screen μ)} {y : Line Page} (h : Mirrors M x y) (c : UInt8) :
    Mirrors M (readKey (vgaPutchar M) len x c) (Kbd.readKey Page.put len y c) := by
  obtain ⟨hbuf, hi, hwindow⟩ := h
  rw [Kbd.readKey, Kbd.readKey, hi]
  split
  · rw [editKey, editKey, hi, hbuf]
    split
    · split
      · exact ⟨rfl, rfl, hwindow.vgaPutchar 8⟩
      · exact ⟨hbuf, hi, hwindow⟩
    · exact ⟨rfl, rfl, hwindow.vgaPutchar c⟩
  · exact ⟨hbuf, hi, hwindow⟩

theorem Mirrors.run {x : Line (Screen μ)} {y : Line Page} (h : Mirrors M x y) (keys : List UInt8) :
    Mirrors M (keys.foldl (Kbd.readKey (vgaPutchar M) len) x) (keys.foldl (Kbd.readKey Page.put len) y) := by
  induction keys generalizing x y with
  | nil => exact h
  | cons c cs ih => exact ih (h.readKey c)

end Screens

/-- The last character of the text takes one cell, and not the last one of a row. -/
def Narrow (q : Nat) (s : List UInt8) : Prop :=
  ∃ t c, s = t ++ [c] ∧ (cellsOf (endOf q t) c).length = 1 ∧ endOf q s % 80 ≠ 0

/-- Every backspace that takes a character away finds a narrow one. -/
def NarrowDeletes (len : Int) (q : Nat) (keys : List UInt8) : Prop :=
  ∀ before after, keys = before ++ 8 :: after → ((typed len before).length : Int) < len - 1 →
    typed len before ≠ [] → Narrow q (typed len before)

section Following

variable {start p : Page} {s : List UInt8}

/-- The page shows the text, and beyond the cursor nothing of the input. -/
structure Tidy (start p : Page) (s : List UInt8) : Prop where
  column : p.col < 80
  inStep : InStep start p s
  ahead : ∀ q, pos p ≤ q → charAt p q = 32 ∨ charAt p q = charAt start q

theorem tidy_start (h : start.col < 80) : Tidy start start [] :=
  ⟨h, ⟨rfl, fun _ _ hj => by cases hj⟩, fun _ _ => Or.inr rfl⟩

/-- What is drawn stays drawn under changes beyond it. -/
theorem Drawn.congr {q : Nat} {o : Option UInt8} {p' : Page} (h : Drawn start p q o) (hsame : charAt p' q = charAt p q) :
    Drawn start p' q o := by
  cases o with
  | none => exact h.imp (fun hb => hsame.trans hb) (fun hb => hsame.trans hb)
  | some c => exact hsame.trans h

theorem InStep.mono {p' : Page} {t : List UInt8} {e : List (Option UInt8)} (h : InStep start p s)
    (hrender : render (pos start) t = render (pos start) s ++ e) (hcursor : pos p' = endOf (pos start) t)
    (hsame : ∀ q, q < pos p → charAt p' q = charAt p q)
    (hnew : ∀ j o, e[j]? = some o → Drawn start p' (pos p + j) o) : InStep start p' t := by
  refine ⟨hcursor, fun j o hj => ?_⟩
  rw [hrender] at hj
  by_cases hold : j < (render (pos start) s).length
  · rw [List.getElem?_append_left hold] at hj
    refine (h.drawn j o hj).congr (hsame _ ?_)
    rw [h.cursor, endOf]
    omega
  · rw [List.getElem?_append_right (Nat.le_of_not_lt hold)] at hj
    have hplace : pos p + (j - (render (pos start) s).length) = pos start + j := by
      rw [h.cursor, endOf]
      omega
    rw [← hplace]
    exact hnew _ o hj

theorem Tidy.char (h : Tidy start p s) {c : UInt8} (hc : c ≠ 8 ∧ c ≠ 9 ∧ c ≠ 10 ∧ c ≠ 13) :
    Tidy start (p.put c) (s ++ [c]) := by
  obtain ⟨hcol, hpos, hchar⟩ := put_char h.column hc
  have hcells : cellsOf (endOf (pos start) s) c = [some c] := cellsOf_of_ne _ hc.2.1
  refine ⟨hcol, h.inStep.mono (render_concat ..) ?_ (fun q hq => ?_) (fun j o hj => ?_), fun q hq => ?_⟩
  · rw [hpos, endOf_concat, hcells, h.inStep.cursor]
    rfl
  · rw [hchar, if_neg (Nat.ne_of_lt hq)]
  · rw [hcells] at hj
    cases j with
    | zero =>
        obtain rfl := Option.some.inj hj
        exact (hchar (pos p)).trans (if_pos rfl)
    | succ j => cases hj
  · rw [hpos] at hq
    rw [hchar, if_neg (by omega)]
    exact h.ahead q (by omega)

theorem Tidy.tab (h : Tidy start p s) : Tidy start (p.put 9) (s ++ [9]) := by
  obtain ⟨hcol, hpos, hchar⟩ := put_tab h.column
  have hcells := cellsOf_tab (endOf (pos start) s)
  refine ⟨hcol, h.inStep.mono (render_concat ..) ?_ (fun q _ => hchar q) (fun j o hj => ?_), fun q hq => ?_⟩
  · rw [hpos, endOf_concat, hcells, List.length_replicate, h.inStep.cursor]
  · rw [hcells] at hj
    obtain rfl : o = none := List.eq_of_mem_replicate (List.mem_of_getElem? hj)
    change charAt _ _ = 32 ∨ charAt _ _ = charAt start _
    rw [hchar]
    exact h.ahead _ (Nat.le_add_right ..)
  · rw [hchar]
    exact h.ahead q (by omega)

/-- A narrow character is erased by one backspace. -/
theorem Tidy.backspace (h : Tidy start p s) (hnarrow : Narrow (pos start) s) : Tidy start (p.put 8) s.dropLast := by
  obtain ⟨t, c, rfl, hone, hrow⟩ := hnarrow
  obtain ⟨hcol, hpos, hchar⟩ := put_backspace h.column
  rw [List.dropLast_concat]
  have hcursor := h.inStep.cursor
  rw [if_neg (by rw [hcursor]; exact hrow)] at hpos
  rw [endOf_concat, hone] at hcursor
  have hback : pos (p.put 8) = endOf (pos start) t := by omega
  refine ⟨hcol, ⟨hback, fun j o hj => ?_⟩, fun q hq => ?_⟩
  · obtain ⟨hlt, _⟩ := List.getElem?_eq_some_iff.mp hj
    have hold := h.inStep.drawn j o (by rw [render_concat, List.getElem?_append_left hlt]; exact hj)
    refine hold.congr ?_
    rw [hchar, if_neg]
    rw [hback, endOf]
    omega
  · rw [hchar]
    split
    · exact Or.inl rfl
    · exact h.ahead q (by omega)

theorem Tidy.readKey {len : Int} {y : Line Page} (h : Tidy start y.console y.text) {c : UInt8} (hc : c ≠ 10 ∧ c ≠ 13)
    (hdelete : c = 8 → (y.text.length : Int) < len - 1 → y.text ≠ [] → Narrow (pos start) y.text) :
    Tidy start (readKey Page.put len y c).console (Kbd.readKey Page.put len y c).text := by
  rw [readKey_text, typeKey, Kbd.readKey, y.text_length]
  by_cases hroom : (y.i : Int) < len - 1
  · rw [if_pos hroom, if_pos hroom, editKey]
    by_cases hbs : c = 8
    · rw [if_pos hbs, if_pos hbs]
      split
      · rename_i hpos
        have hne : y.text ≠ [] := by
          rw [← List.length_pos_iff, y.text_length]
          exact hpos
        exact h.backspace (hdelete hbs (by rw [y.text_length]; exact hroom) hne)
      · rename_i hzero
        have hempty : y.text = [] := List.length_eq_zero_iff.mp (by rw [y.text_length]; omega)
        rw [hempty] at h ⊢
        exact h
    · rw [if_neg hbs, if_neg hbs]
      by_cases htab : c = 9
      · subst htab
        exact h.tab
      · exact h.char ⟨hbs, htab, hc⟩
  · rw [if_neg hroom, if_neg hroom]
    exact h

end Following

section Input

variable {len : Int} {q : Nat} {keys : List UInt8}

theorem NarrowDeletes.init {c : UInt8} (h : NarrowDeletes len q (keys ++ [c])) : NarrowDeletes len q keys := by
  rintro before after rfl
  exact h before (after ++ [c]) (by rw [List.append_assoc, List.cons_append])

theorem NarrowDeletes.last (h : NarrowDeletes len q (keys ++ [8])) :
    ((typed len keys).length : Int) < len - 1 → typed len keys ≠ [] → Narrow q (typed len keys) :=
  h keys [] rfl

theorem NarrowDeletes.of_prefix {pre : List UInt8} (h : NarrowDeletes len q keys) (hpre : pre <+: keys) :
    NarrowDeletes len q pre := by
  obtain ⟨rest, rfl⟩ := hpre
  rintro before after rfl
  exact h before (after ++ rest) (by rw [List.append_assoc, List.cons_append])

/-- A delete that leaves the editor and the console in step was a narrow one. -/
theorem narrow_of_inStep {start p : Page} {s : List UInt8} (hcol : p.col < 80) (hne : s ≠ [])
    (hbefore : InStep start p s) (hafter : InStep start (p.put 8) s.dropLast) : Narrow (pos start) s := by
  refine ⟨s.dropLast, s.getLast hne, (List.dropLast_append_getLast hne).symm, ?_⟩
  obtain ⟨_, hpos, _⟩ := put_backspace hcol
  have hlast := endOf_concat (pos start) s.dropLast (s.getLast hne)
  rw [List.dropLast_append_getLast hne] at hlast
  have hwidth := cellsOf_pos (endOf (pos start) s.dropLast) (s.getLast hne)
  have hcursor := hbefore.cursor
  have hcursor' := hafter.cursor
  rw [hpos] at hcursor'
  split at hcursor'
  · omega
  · rename_i hrow
    refine ⟨by omega, ?_⟩
    rw [← hcursor]
    exact hrow

end Input

section Pages

variable {start : Page} {len : Int} {stack : Nat → UInt8} {keys : List UInt8}

/-- The line after some keys, on the page. -/
def pageLine (len : Int) (stack : Nat → UInt8) (start : Page) (keys : List UInt8) : Line Page :=
  keys.foldl (readKey Page.put len) ⟨stack, 0, start⟩

theorem pageLine_text (keys : List UInt8) : (pageLine len stack start keys).text = typed len keys :=
  foldl_readKey_text keys _

theorem pageLine_concat (keys : List UInt8) (c : UInt8) :
    pageLine len stack start (keys ++ [c]) = readKey Page.put len (pageLine len stack start keys) c := by
  rw [pageLine, List.foldl_append]
  rfl

theorem put_col {p : Page} (h : p.col < 80) (c : UInt8) : (p.put c).col < 80 := by
  have hmove : ∀ (p : Page) col, (p.moveTo col).col < 80 := by
    intro p col
    rw [Page.moveTo]
    split
    · exact Nat.zero_lt_succ 79
    · rename_i hwide
      exact Nat.lt_of_not_le hwide
  rw [Page.put]
  split
  · exact Nat.zero_lt_succ 79
  · split
    · exact Nat.zero_lt_succ 79
    · split
      · exact hmove _ _
      · split
        · exact Nat.lt_of_le_of_lt (Nat.sub_le ..) h
        · exact hmove _ _

theorem pageLine_col (hcol : start.col < 80) (keys : List UInt8) :
    (pageLine len stack start keys).console.col < 80 := by
  induction keys using List.reverseRecOn with
  | nil => exact hcol
  | append_singleton keys c ih =>
      rw [pageLine_concat, readKey]
      split
      · rw [editKey]
        split
        · split
          · exact put_col ih 8
          · exact ih
        · exact put_col ih c
      · exact ih

/-- With narrow deletes only, every point of the input is tidy. -/
theorem tidy_run (hcol : start.col < 80) (hkeys : ∀ c, c ∈ keys → c ≠ 10 ∧ c ≠ 13)
    (h : NarrowDeletes len (pos start) keys) :
    Tidy start (pageLine len stack start keys).console (pageLine len stack start keys).text := by
  induction keys using List.reverseRecOn with
  | nil => exact tidy_start hcol
  | append_singleton keys c ih =>
      have hbefore := ih (fun d hd => hkeys d (List.mem_append_left [c] hd)) h.init
      rw [pageLine_concat]
      refine hbefore.readKey (hkeys c (List.mem_append_right keys List.mem_cons_self)) ?_
      rintro rfl
      rw [pageLine_text]
      exact h.last

/-- A delete takes the last character from the buffer and sends a backspace. -/
theorem pageLine_delete (hroom : ((typed len keys).length : Int) < len - 1) (hne : typed len keys ≠ []) :
    (pageLine len stack start (keys ++ [8])).console = (pageLine len stack start keys).console.put 8 ∧
    (pageLine len stack start (keys ++ [8])).text = (typed len keys).dropLast := by
  have htext : (pageLine len stack start keys).text = typed len keys := pageLine_text keys
  have hi : (pageLine len stack start keys).i = (typed len keys).length := by rw [← htext, Line.text_length]
  constructor
  · rw [pageLine_concat, readKey, hi, if_pos hroom, editKey, if_pos rfl, hi, if_pos (List.length_pos_iff.mpr hne)]
  · rw [pageLine_concat, readKey_text, htext, typeKey, if_pos hroom, if_pos rfl]

theorem page_inStep_iff (hcol : start.col < 80) (hkeys : ∀ c, c ∈ keys → c ≠ 10 ∧ c ≠ 13) :
    (∀ pre, pre <+: keys → InStep start (pageLine len stack start pre).console (pageLine len stack start pre).text) ↔
      NarrowDeletes len (pos start) keys := by
  constructor
  · rintro hsteps before after rfl hroom hne
    have hsplit : before ++ 8 :: after = (before ++ [8]) ++ after := by
      rw [List.append_assoc, List.singleton_append]
    have hbefore := hsteps before (List.prefix_append _ _)
    have hafter := hsteps (before ++ [8]) (by rw [hsplit]; exact List.prefix_append _ _)
    obtain ⟨hconsole, htext⟩ := @pageLine_delete start len stack before hroom hne
    rw [pageLine_text] at hbefore
    rw [hconsole, htext] at hafter
    exact narrow_of_inStep (pageLine_col hcol before) hne hbefore hafter
  · intro hnarrow pre hpre
    exact (tidy_run hcol (fun c hc => hkeys c (hpre.subset hc)) (hnarrow.of_prefix hpre)).inStep

end Pages

section Lines

variable {μ : Type*}

/-- The line on the screen, the same line on the page, and the text: the screen is
the window of the page, and the page shows the text from `start` on. -/
structure Follows (M : CellMemory μ) (start : Page) (x : Line (Screen μ)) (y : Line Page) : Prop where
  mirrors : Mirrors M x y
  inStep : InStep start y.console x.text

theorem Mirrors.text {M : CellMemory μ} {x : Line (Screen μ)} {y : Line Page} (h : Mirrors M x y) : x.text = y.text := by
  rw [Line.text, Line.text, h.buf, h.i]

/-- The screen after `vga_clear` and the text `shown`. -/
def screenOf (M : CellMemory μ) (v : Screen μ) (bg : VgaColor) (shown : List UInt8) : Screen μ :=
  shown.foldl (vgaPutchar M) (vgaClear M v bg)

/-- However the console got where the input begins: at every point before Enter the
screen shows what is in the buffer, exactly when all deletes are narrow. -/
theorem line_follows_iff (M : CellMemory μ) (v : Screen μ) (bg : VgaColor) (shown : List UInt8) (stack : Nat → UInt8)
    (len : Int) (keys : List UInt8) (hkeys : ∀ c, c ∈ keys → c ≠ 10 ∧ c ≠ 13) :
    (∀ pre, pre <+: keys →
      Follows M (Page.empty.write shown)
        (readlineLoop (vgaPutchar M) len ⟨stack, 0, screenOf M v bg shown⟩ pre)
        (readlineLoop Page.put len ⟨stack, 0, Page.empty.write shown⟩ pre)) ↔
      NarrowDeletes len (pos (Page.empty.write shown)) keys := by
  have hwindow := (window_vgaClear v bg (M := M)).run shown
  have hcol : (Page.empty.write shown).col < 80 := hwindow.cursor.2 ▸ hwindow.onScreen.col
  have hsteps := @page_inStep_iff (Page.empty.write shown) len stack keys hcol hkeys
  rw [← hsteps]
  refine forall_congr' (fun pre => forall_congr' (fun hpre => ?_))
  have hin : ∀ c, c ∈ pre → c ≠ 10 ∧ c ≠ 13 := fun c hc => hkeys c (hpre.subset hc)
  have hmirrors : Mirrors M (pre.foldl (readKey (vgaPutchar M) len) ⟨stack, 0, screenOf M v bg shown⟩)
      (pageLine len stack (Page.empty.write shown) pre) := Mirrors.run ⟨rfl, rfl, hwindow⟩ pre
  rw [readlineLoop_eq hin, readlineLoop_eq hin]
  constructor
  · intro hfollows
    rw [← hmirrors.text]
    exact hfollows.inStep
  · intro hstep
    exact ⟨hmirrors, by rw [hmirrors.text]; exact hstep⟩

/-- A screen of its own cells. -/
def cellArray : CellMemory (Nat → Cell) where
  read m k := m k
  write := Function.update
  read_write m k c j := Function.update_apply m k c j

def darkScreen : Screen (Nat → Cell) := ⟨fun _ => ⟨0, 0⟩, 0, 0, 0⟩

/-- One character typed and deleted at the left margin. -/
theorem line_follows_sample :
    Follows cellArray Page.empty
      (readlineLoop (vgaPutchar cellArray) 128 ⟨fun _ => 0, 0, screenOf cellArray darkScreen .black []⟩ [97, 8])
      (readlineLoop Page.put 128 ⟨fun _ => 0, 0, Page.empty⟩ [97, 8]) := by
  refine (line_follows_iff cellArray darkScreen .black [] (fun _ => 0) 128 [97, 8] (by simp)).mpr ?_ [97, 8]
    (List.prefix_refl _)
  intro before after hkeys _ _
  rcases before with _ | ⟨b, before⟩
  · cases hkeys
  · obtain ⟨rfl, hrest⟩ := List.cons.inj hkeys
    rcases before with _ | ⟨b, before⟩
    · exact ⟨[], 97, rfl, rfl, by decide⟩
    · obtain ⟨_, hnil⟩ := List.cons.inj hrest
      exact absurd hnil.symm (List.append_ne_nil_of_right_ne_nil _ (List.cons_ne_nil _ _))

/-- The same in the last column: the character wraps the line, the backspace does not
come back to it, and it stays on the screen. -/
theorem wrapped_character_stays :
    (¬ ∀ pre, pre <+: [97, 8] →
      Follows cellArray (Page.empty.write (List.replicate 79 46))
        (readlineLoop (vgaPutchar cellArray) 128
          ⟨fun _ => 0, 0, screenOf cellArray darkScreen .black (List.replicate 79 46)⟩ pre)
        (readlineLoop Page.put 128 ⟨fun _ => 0, 0, Page.empty.write (List.replicate 79 46)⟩ pre)) ∧
    charAt (readlineLoop Page.put 128 ⟨fun _ => 0, 0, Page.empty.write (List.replicate 79 46)⟩ [97, 8]).console 79 = 97 := by
  refine ⟨fun hfollows => ?_, by decide +kernel⟩
  have hcursor := (hfollows [97, 8] (List.prefix_refl _)).inStep.cursor
  revert hcursor
  decide +kernel

end Lines

end SengKernel.Kbd
