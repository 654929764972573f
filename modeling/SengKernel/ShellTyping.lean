import SengKernel.ShellSession
import SengKernel.LineTyping

/- From the keyboard to the files: `shell_run` over scancodes, fed by someone who types
   lines. -/
namespace SengKernel.Ksh
open Str Vga Fs Splice Transition Kbd

/-- The shell, the flag of the keyboard driver and the codes still to come. -/
structure Terminal where
  shell : Shell
  shiftHeld : Bool
  codes : List UInt8

/-- One turn of `shell_run`: a line is read into `shell_buf` and served. Each turn finds in
the buffer what it may. -/
inductive Served : Terminal → TypedLine → Terminal → Prop
  | line {x : Terminal} {l : TypedLine} {stack : Nat → UInt8} {read : Line Unit} {held : Bool} {rest : List UInt8}
      {sh : Shell} : readCodes (fun u _ => u) 256 ⟨stack, 0, ()⟩ x.shiftHeld x.codes = some (read, held, rest) →
      l.line.chars = text (window read.buf 0 256) → Turn x.shell l sh → Served x l ⟨sh, held, rest⟩

/-- Keys for one line, with their corrections; there is room for each in `shell_buf`. -/
structure TypedKeys where
  keys : List UInt8
  typeable : ∀ c ∈ keys, Typeable c
  noEnter : ∀ c ∈ keys, c ≠ 10 ∧ c ≠ 13
  fits : ∀ pre, pre <+: keys → ((typed 256 pre).length : Int) < 256 - 1

theorem typeKey_subset (len : Int) (s : List UInt8) (c : UInt8) : typeKey len s c ⊆ c :: s := by
  intro d hd
  rw [typeKey] at hd
  split at hd
  · split at hd
    · exact List.mem_cons_of_mem c (List.dropLast_subset s hd)
    · rcases List.mem_append.mp hd with hold | hnew
      · exact List.mem_cons_of_mem c hold
      · exact List.mem_singleton.mp hnew ▸ List.mem_cons_self
  · exact List.mem_cons_of_mem c hd

theorem typed_subset (len : Int) (keys : List UInt8) : typed len keys ⊆ keys := by
  have hrun : ∀ s : List UInt8, keys.foldl (typeKey len) s ⊆ s ++ keys := by
    induction keys with
    | nil =>
        intro s
        rw [List.append_nil]
        exact List.Subset.refl s
    | cons c keys ih =>
        intro s d hd
        rw [List.foldl_cons] at hd
        rw [List.mem_append, List.mem_cons]
        rcases List.mem_append.mp (ih _ hd) with hold | hnew
        · rcases List.mem_cons.mp (typeKey_subset len s c hold) with hc | hs
          · exact Or.inr (Or.inl hc)
          · exact Or.inl hs
        · exact Or.inr (Or.inr hnew)
  exact hrun []

/-- The line that the keys leave. -/
def TypedKeys.line (k : TypedKeys) : TypedLine where
  line := ⟨typed 256 k.keys, fun h => (k.typeable 0 (typed_subset 256 k.keys h)).1 rfl⟩
  short := by
    have := k.fits k.keys List.prefix_rfl
    dsimp only
    omega

/-- The codes of the keys, with Enter pressed and let go after each line. -/
def stream (ks : List TypedKeys) : List UInt8 := ks.flatMap (fun k => typing k.keys ++ [0x1C, 0x9C])

/-- Between two lines: Enter may still have to be let go. -/
structure Waiting (ks : List TypedKeys) (x : Terminal) : Prop where
  shift : x.shiftHeld = false
  codes : x.codes = stream ks ∨ x.codes = 0x9C :: stream ks

section Lines

variable {κ : Type*} {k : TypedKeys} {ks : List TypedKeys} {x y : Terminal} {l : TypedLine}

/-- The code for letting go of Enter is passed over. -/
theorem readCodes_release {put : κ → UInt8 → κ} {len : Int} {line : Line κ} (hroom : (line.i : Int) < len - 1)
    (codes : List UInt8) : readCodes put len line false (0x9C :: codes) = readCodes put len line false codes := by
  have hcode : kbCode false 0x9C = (false, none) := by decide
  rw [readCodes, if_pos hroom, hcode]

theorem Waiting.read_eq (h : Waiting ks x) (put : κ → UInt8 → κ) (stack : Nat → UInt8) (console : κ) :
    readCodes put 256 ⟨stack, 0, console⟩ x.shiftHeld x.codes = readCodes put 256 ⟨stack, 0, console⟩ false (stream ks) := by
  rw [h.shift]
  rcases h.codes with hcodes | hcodes
  · rw [hcodes]
  · rw [hcodes]
    apply readCodes_release
    dsimp only
    omega

theorem Waiting.read_none (h : Waiting [] x) (put : κ → UInt8 → κ) (stack : Nat → UInt8) (console : κ) :
    readCodes put 256 ⟨stack, 0, console⟩ x.shiftHeld x.codes = none := by
  have hroom : ((0 : Nat) : Int) < 256 - 1 := by decide
  rw [h.read_eq put stack, stream, List.flatMap_nil, readCodes, if_pos hroom]

theorem Waiting.read_line (h : Waiting (k :: ks) x) (put : κ → UInt8 → κ) (stack : Nat → UInt8) (console : κ) :
    readCodes put 256 ⟨stack, 0, console⟩ x.shiftHeld x.codes =
      some (kbReadline put 256 stack console (k.keys ++ [10]), false, 0x9C :: stream ks) := by
  have hstream : stream (k :: ks) = typing k.keys ++ 0x1C :: (0x9C :: stream ks) := by
    rw [stream, List.flatMap_cons, List.append_assoc]
    rfl
  rw [h.read_eq put stack, hstream]
  exact readCodes_typing k.typeable k.noEnter k.fits stack console _

/-- The buffer holds the line, ended by its NUL. -/
theorem TypedKeys.buffer (k : TypedKeys) (put : κ → UInt8 → κ) (stack : Nat → UInt8) (console : κ) :
    text (window (kbReadline put 256 stack console (k.keys ++ [10])).buf 0 256) = k.line.line.chars := by
  obtain ⟨htext, hend⟩ := kbReadline_enter put k.noEnter k.fits stack console
  generalize kbReadline put 256 stack console (k.keys ++ [10]) = read at htext hend
  have hlength := k.line.short
  have hline : k.line.line.chars = typed 256 k.keys := rfl
  rw [hline] at hlength ⊢
  have hi : read.i = (typed 256 k.keys).length := by
    rw [← htext, Line.text_length]
  have hchars : window read.buf 0 (typed 256 k.keys).length = typed 256 k.keys := by
    rw [← hi]
    refine Eq.trans (List.map_congr_left fun j _ => ?_) htext
    rw [Nat.zero_add]
  have hcut := window_append read.buf 0 (typed 256 k.keys).length (255 - (typed 256 k.keys).length + 1)
  have hsize : (typed 256 k.keys).length + (255 - (typed 256 k.keys).length + 1) = 256 := by omega
  rw [hsize, hchars, Nat.zero_add, window_succ, hend] at hcut
  have hnul : (0 : UInt8) ∉ typed 256 k.keys := k.line.line.noNul
  rw [← hcut, text_append hnul, text_cons, if_pos rfl, List.append_nil]

theorem Waiting.served_nil (h : Waiting [] x) : ¬ Served x l y := by
  rintro ⟨hread, _, _⟩
  rw [h.read_none] at hread
  cases hread

/-- What was read is the line typed. -/
theorem TypedKeys.line_eq (k : TypedKeys) {put : κ → UInt8 → κ} {stack : Nat → UInt8} {console : κ}
    (h : l.line.chars = text (window (kbReadline put 256 stack console (k.keys ++ [10])).buf 0 256)) : l = k.line := by
  obtain ⟨line, hshort⟩ := l
  obtain ⟨chars, hnul⟩ := line
  have hline : chars = k.line.line.chars := h.trans (k.buffer put stack console)
  subst hline
  rfl

/-- The next line to be served is the next line typed. -/
theorem Waiting.served (h : Waiting (k :: ks) x) (step : Served x l y) :
    l = k.line ∧ Turn x.shell l y.shell ∧ Waiting ks y := by
  cases step with
  | line hread hchars turn =>
      cases Option.some.inj (hread.symm.trans (h.read_line _ _ _))
      exact ⟨k.line_eq hchars, turn, rfl, Or.inr rfl⟩

theorem Waiting.serve (h : Waiting (k :: ks) x) {sh : Shell} (turn : Turn x.shell k.line sh) :
    ∃ y, Served x k.line y ∧ y.shell = sh ∧ Waiting ks y := by
  have hread := h.read_line (fun (u : Unit) _ => u) (fun _ => 0) ()
  exact ⟨_, .line hread (k.buffer _ _ _).symm turn, rfl, rfl, Or.inr rfl⟩

/-- The lines served are the first of those typed. -/
theorem Waiting.run (h : Waiting ks x) {ls : List TypedLine} (run : Run Served x ls y) :
    ls <+: ks.map TypedKeys.line ∧ Run Turn x.shell ls y.shell := by
  induction run generalizing ks with
  | nil => exact ⟨List.nil_prefix, .nil _⟩
  | cons step _ ih =>
      cases ks with
      | nil => exact (h.served_nil step).elim
      | cons k ks =>
          obtain ⟨rfl, turn, hrest⟩ := h.served step
          obtain ⟨hstart, run'⟩ := ih hrest
          exact ⟨(List.prefix_cons_inj _).mpr hstart, .cons turn run'⟩

theorem Waiting.run_all (h : Waiting ks x) {sh : Shell} (run : Run Turn x.shell (ks.map TypedKeys.line) sh) :
    ∃ y, Run Served x (ks.map TypedKeys.line) y ∧ y.shell = sh := by
  induction ks generalizing x with
  | nil =>
      cases run
      exact ⟨x, .nil x, rfl⟩
  | cons k ks ih =>
      cases run with
      | cons turn run =>
          obtain ⟨y, step, rfl, hrest⟩ := h.serve turn
          obtain ⟨z, run', hz⟩ := ih hrest run
          exact ⟨z, .cons step run', hz⟩

end Lines

/-- The kernel before the first line. -/
def bootTerminal (s : State) (ks : List TypedKeys) : Terminal := ⟨⟨fsInit s, []⟩, false, stream ks⟩

/-- What is served is what was typed, and is answered as the directory of files answers. -/
structure TypedSession (s : State) (ks : List TypedKeys) : Prop where
  served : ∀ ls y, Run Served (bootTerminal s ks) ls y → ls <+: ks.map TypedKeys.line ∧
    ∃ x, Run Answered ⟨Volume.empty, []⟩ ls x ∧ InStep y.shell x
  all : ∀ x, Run Answered ⟨Volume.empty, []⟩ (ks.map TypedKeys.line) x →
    ∃ y, Run Served (bootTerminal s ks) (ks.map TypedKeys.line) y ∧ InStep y.shell x

/-- Whatever is typed at the keyboard, with Shift, Backspace and Enter, reaches the files
as the lines that were meant, and what comes back is what the files answer. -/
theorem typed_session (s : State) (ks : List TypedKeys) : TypedSession s ks := by
  have hwaiting : Waiting ks (bootTerminal s ks) := ⟨rfl, Or.inl rfl⟩
  constructor
  · intro ls y run
    obtain ⟨hstart, turns⟩ := hwaiting.run run
    obtain ⟨x, run', hx⟩ := turns.simulation (R := InStep) id (fun _ _ _ _ h step => h.forth step) (inStep_init s)
    rw [List.map_id] at run'
    exact ⟨hstart, x, run', hx⟩
  · intro x run
    obtain ⟨sh, turns, hsh⟩ := run.simulation (R := fun x sh => InStep sh x) id (fun _ _ _ _ h step => h.back step)
      (inStep_init s)
    rw [List.map_id] at turns
    obtain ⟨y, run', rfl⟩ := hwaiting.run_all turns
    exact ⟨y, run', hsh⟩

end SengKernel.Ksh
