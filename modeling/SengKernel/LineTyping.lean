import SengKernel.LineEditor
import SengKernel.KeyboardDriver
import SengKernel.LoopBasics

/- kb_readline of kernel/keyboard.c on the scancodes themselves, and the codes that
   someone sends who types a text: they come back as that text. -/
namespace SengKernel.Kbd
open BoundedLoop

section Reading

variable {κ : Type*} (put : κ → UInt8 → κ) (len : Int)

/-- `buf[i] = '\0'; return i;` -/
def Line.finish (x : Line κ) : Line κ := { x with buf := Function.update x.buf x.i 0 }

/-- `kb_readline` from a place in its loop on, code by code; nothing while `kb_getchar`
waits for one. -/
def readCodes (x : Line κ) (shiftHeld : Bool) : List UInt8 → Option (Line κ × Bool × List UInt8)
  | [] => if (x.i : Int) < len - 1 then none else some (x.finish, shiftHeld, [])
  | sc :: codes =>
      if (x.i : Int) < len - 1 then
        match kbCode shiftHeld sc with
        | (held, none) => readCodes x held codes
        | (held, some (_, c)) =>
            if c = 10 ∨ c = 13 then some (Line.finish { x with console := put x.console 10 }, held, codes)
            else readCodes (editKey put x c) held codes
      else some (x.finish, shiftHeld, sc :: codes)

/-- The characters of some codes, and the flag that they leave. -/
def charsOf (shiftHeld : Bool) : List UInt8 → Bool × List UInt8
  | [] => (shiftHeld, [])
  | sc :: codes =>
      match kbCode shiftHeld sc with
      | (held, none) => charsOf held codes
      | (held, some (_, c)) => ((charsOf held codes).1, c :: (charsOf held codes).2)

/-- The key of a character. -/
def keyOf (l : Layout) (c : UInt8) : Option Nat := scan (fun sc => character l (UInt8.ofNat sc) == c) 0 128

/-- What is pressed and let go for a character, with Shift where it needs it. -/
def strokes (c : UInt8) : List UInt8 :=
  match keyOf .plain c, keyOf .shifted c with
  | some sc, _ => [UInt8.ofNat sc, UInt8.ofNat sc ||| 0x80]
  | none, some sc => [0x2A, UInt8.ofNat sc, UInt8.ofNat sc ||| 0x80, 0xAA]
  | none, none => []

/-- The keyboard has the character. -/
def Typeable (c : UInt8) : Prop := c ≠ 0 ∧ ((keyOf .plain c).isSome ∨ (keyOf .shifted c).isSome)

instance (c : UInt8) : Decidable (Typeable c) := inferInstanceAs (Decidable (_ ∧ _))

def typing (keys : List UInt8) : List UInt8 := keys.flatMap strokes

section Loop

variable {put len} {x : Line κ} {held : Bool} {codes : List UInt8}

/-- The loop as it is written, on the characters that `kb_getchar` returns. -/
theorem readCodes_loop (x : Line κ) (held : Bool) (codes : List UInt8) : readCodes put len x held codes =
    if (x.i : Int) < len - 1 then
      (kbGetchar held codes).bind (fun r =>
        if r.char = 10 ∨ r.char = 13 then
          some (Line.finish { x with console := put x.console 10 }, r.shiftHeld, r.rest)
        else readCodes put len (editKey put x r.char) r.shiftHeld r.rest)
    else some (x.finish, held, codes) := by
  induction codes generalizing held with
  | nil => rfl
  | cons sc codes ih =>
      rw [readCodes]
      by_cases hroom : (x.i : Int) < len - 1
      · rw [if_pos hroom, if_pos hroom, kbGetchar]
        rcases kbCode held sc with ⟨held', _ | ⟨layout, c⟩⟩
        · dsimp only
          rw [ih, if_pos hroom, Option.bind_map]
          rfl
        · rfl
      · rw [if_neg hroom, if_neg hroom]

theorem charsOf_append (held : Bool) (codes more : List UInt8) : charsOf held (codes ++ more) =
    ((charsOf (charsOf held codes).1 more).1, (charsOf held codes).2 ++ (charsOf (charsOf held codes).1 more).2) := by
  induction codes generalizing held with
  | nil => rfl
  | cons sc codes ih =>
      rw [List.cons_append, charsOf, charsOf]
      rcases kbCode held sc with ⟨held', _ | ⟨layout, c⟩⟩
      · exact ih held'
      · dsimp only
        rw [ih held']
        rfl

/-- Codes whose characters all find room and are not Enter. -/
theorem readCodes_append (henter : ∀ c ∈ (charsOf held codes).2, c ≠ 10 ∧ c ≠ 13)
    (hroom : ∀ pre, pre <+: (charsOf held codes).2 → ((pre.foldl (readKey put len) x).i : Int) < len - 1)
    (rest : List UInt8) : readCodes put len x held (codes ++ rest) =
      readCodes put len ((charsOf held codes).2.foldl (readKey put len) x) (charsOf held codes).1 rest := by
  induction codes generalizing x held with
  | nil => rfl
  | cons sc codes ih =>
      have hnow : (x.i : Int) < len - 1 := hroom [] List.nil_prefix
      rw [List.cons_append, readCodes, if_pos hnow]
      rw [charsOf] at henter hroom ⊢
      generalize kbCode held sc = round at henter hroom ⊢
      rcases round with ⟨held', _ | ⟨layout, c⟩⟩
      · exact ih henter hroom
      · have hc : ¬ (c = 10 ∨ c = 13) := not_or.mpr (henter c List.mem_cons_self)
        have hread : readKey put len x c = editKey put x c := if_pos hnow
        dsimp only
        rw [if_neg hc, List.foldl_cons, hread]
        refine ih (fun d hd => henter d (List.mem_cons_of_mem c hd)) (fun pre hpre => ?_)
        have hlater := hroom (c :: pre) ((List.prefix_cons_inj c).mpr hpre)
        rw [List.foldl_cons, hread] at hlater
        exact hlater

end Loop

/-- What `kb_readline` shows of the characters after a text, Enter apart. -/
def echoFrom (s : List UInt8) : List UInt8 → List UInt8
  | [] => []
  | c :: cs =>
      (if (s.length : Int) < len - 1 then (if c = 8 then (if s = [] then [] else [8]) else [c]) else []) ++
        echoFrom (typeKey len s c) cs

section Typing

variable {put len} {keys : List UInt8}

theorem readKey_console (x : Line κ) (c : UInt8) : (readKey put len x c).console =
    (if (x.text.length : Int) < len - 1 then (if c = 8 then (if x.text = [] then [] else [8]) else [c]) else []).foldl put
      x.console := by
  have hempty : x.text = [] ↔ ¬ x.i > 0 := by
    rw [← List.length_eq_zero_iff, x.text_length]
    omega
  rw [readKey, x.text_length]
  by_cases hroom : (x.i : Int) < len - 1
  · rw [if_pos hroom, if_pos hroom, editKey]
    by_cases hback : c = 8
    · rw [if_pos hback, if_pos hback]
      by_cases hpos : x.i > 0
      · rw [if_pos hpos, if_neg (fun h => hempty.mp h hpos)]
        rfl
      · rw [if_neg hpos, if_pos (hempty.mpr hpos)]
        rfl
    · rw [if_neg hback, if_neg hback]
      rfl
  · rw [if_neg hroom, if_neg hroom]
    rfl

theorem foldl_readKey_console (keys : List UInt8) (x : Line κ) :
    (keys.foldl (readKey put len) x).console = (echoFrom len x.text keys).foldl put x.console := by
  induction keys generalizing x with
  | nil => rfl
  | cons c cs ih => rw [List.foldl_cons, ih, readKey_text, readKey_console, echoFrom, List.foldl_append]

/-- Letting go of a key that is not Shift. -/
theorem kbCode_release (held : Bool) {sc : UInt8} (h : isShiftCode sc = false) :
    kbCode held (sc ||| 0x80) = (held, none) := by
  revert h
  let P : UInt8 → Prop := fun sc => isShiftCode sc = false → kbCode held (sc ||| 0x80) = (held, none)
  refine forall_byte (P := P) ?_ sc
  cases held with
  | true => decide +kernel
  | false => decide +kernel

/-- One key, pressed and let go. -/
theorem charsOf_press (held : Bool) {l : Layout} (hl : l = if held then .shifted else .plain) {sc c : UInt8}
    (hchar : character l sc = c) (hc : c ≠ 0) : charsOf held [sc, sc ||| 0x80] = (held, [c]) := by
  have hplain : isShiftCode sc = false := by
    by_contra hshift
    exact hc (hchar ▸ character_of_shift l sc (Bool.not_eq_false _ ▸ hshift))
  have hpress : kbCode held sc = (held, some (l, c)) := by
    have hflag : ¬ (sc = 0x2A ∨ sc = 0x36) ∧ ¬ (sc = 0xAA ∨ sc = 0xB6) := by
      simp only [isShiftCode, Bool.or_eq_false_iff, decide_eq_false_iff_not] at hplain
      tauto
    refine Prod.ext ?_ ?_
    · rw [kbCode_flag, if_neg hflag.1, if_neg hflag.2]
    · rw [kbCode_char]
      dsimp only
      rw [← hl, if_pos (hchar ▸ hc), hchar]
  simp only [charsOf, hpress, kbCode_release held hplain]

theorem keyOf_spec {l : Layout} {c : UInt8} {sc : Nat} (h : keyOf l c = some sc) : character l (UInt8.ofNat sc) = c := by
  obtain ⟨_, _, hp, _⟩ := scan_some h
  exact beq_iff_eq.mp hp

theorem charsOf_strokes {c : UInt8} (h : Typeable c) : charsOf false (strokes c) = (false, [c]) := by
  obtain ⟨hc, hkey⟩ := h
  rw [strokes]
  cases hplain : keyOf .plain c with
  | some sc => exact charsOf_press false rfl (keyOf_spec hplain) hc
  | none =>
      cases hshifted : keyOf .shifted c with
      | some sc =>
          have hpress := charsOf_press true rfl (keyOf_spec hshifted) hc
          have hcodes : charsOf true ([UInt8.ofNat sc, UInt8.ofNat sc ||| 0x80] ++ [0xAA]) = (false, [c]) := by
            rw [charsOf_append, hpress]
            rfl
          exact hcodes
      | none =>
          rw [hplain, hshifted] at hkey
          exact absurd hkey (by decide)

/-- Every printable character of ASCII, Tab, Enter and Backspace have a key. -/
theorem typeable_ascii {c : UInt8} (h : 32 ≤ c.toNat ∧ c.toNat ≤ 126 ∨ c = 8 ∨ c = 9 ∨ c = 10) : Typeable c := by
  revert h
  refine forall_byte (P := fun c => 32 ≤ c.toNat ∧ c.toNat ≤ 126 ∨ c = 8 ∨ c = 9 ∨ c = 10 → Typeable c) ?_ c
  decide +kernel

theorem charsOf_typing (h : ∀ c ∈ keys, Typeable c) : charsOf false (typing keys) = (false, keys) := by
  induction keys with
  | nil => rfl
  | cons c keys ih =>
      have hfirst := charsOf_strokes (h c List.mem_cons_self)
      have hrest := ih (fun d hd => h d (List.mem_cons_of_mem c hd))
      rw [typing, List.flatMap_cons, charsOf_append, hfirst]
      change ((charsOf false (typing keys)).1, [c] ++ (charsOf false (typing keys)).2) = _
      rw [hrest]
      rfl

/-- Enter after characters that all found room. -/
theorem readlineLoop_enter {x : Line κ} (henter : ∀ c ∈ keys, c ≠ 10 ∧ c ≠ 13)
    (hroom : ∀ pre, pre <+: keys → ((pre.foldl (readKey put len) x).i : Int) < len - 1) :
    readlineLoop put len x (keys ++ [10]) =
      { keys.foldl (readKey put len) x with console := put (keys.foldl (readKey put len) x).console 10 } := by
  induction keys generalizing x with
  | nil =>
      have hnow : (x.i : Int) < len - 1 := hroom [] List.nil_prefix
      rw [List.nil_append, readlineLoop, if_pos hnow, if_pos (Or.inl rfl)]
      rfl
  | cons c keys ih =>
      have hnow : (x.i : Int) < len - 1 := hroom [] List.nil_prefix
      have hc : ¬ (c = 10 ∨ c = 13) := not_or.mpr (henter c List.mem_cons_self)
      have hread : readKey put len x c = editKey put x c := if_pos hnow
      rw [List.cons_append, readlineLoop, if_pos hnow, if_neg hc, List.foldl_cons, hread]
      refine ih (fun d hd => henter d (List.mem_cons_of_mem c hd)) (fun pre hpre => ?_)
      have hlater := hroom (c :: pre) ((List.prefix_cons_inj c).mpr hpre)
      rw [List.foldl_cons, hread] at hlater
      exact hlater

variable (put) in
theorem typed_room (hfits : ∀ pre, pre <+: keys → ((typed len pre).length : Int) < len - 1) (stack : Nat → UInt8)
    (console : κ) : ∀ pre, pre <+: keys → ((pre.foldl (readKey put len) ⟨stack, 0, console⟩).i : Int) < len - 1 := by
  intro pre hpre
  have htext : (pre.foldl (readKey put len) ⟨stack, 0, console⟩).text = typed len pre := foldl_readKey_text pre _
  have hlength := congrArg List.length htext
  rw [Line.text_length] at hlength
  rw [hlength]
  exact hfits pre hpre

/-- A text typed with its corrections and ended with Enter is read as `kb_readline` reads
those characters. -/
theorem readCodes_typing (htypeable : ∀ c ∈ keys, Typeable c) (henter : ∀ c ∈ keys, c ≠ 10 ∧ c ≠ 13)
    (hfits : ∀ pre, pre <+: keys → ((typed len pre).length : Int) < len - 1) (stack : Nat → UInt8) (console : κ)
    (rest : List UInt8) : readCodes put len ⟨stack, 0, console⟩ false (typing keys ++ 0x1C :: rest) =
      some (kbReadline put len stack console (keys ++ [10]), false, rest) := by
  have hchars := charsOf_typing htypeable
  have hroom := typed_room put hfits stack console
  have hread : readCodes put len ⟨stack, 0, console⟩ false (typing keys ++ 0x1C :: rest) =
      readCodes put len ((charsOf false (typing keys)).2.foldl (readKey put len) ⟨stack, 0, console⟩)
        (charsOf false (typing keys)).1 (0x1C :: rest) :=
    readCodes_append (by rw [hchars]; exact henter) (by rw [hchars]; exact hroom) _
  have hnow := hroom keys List.prefix_rfl
  have hcode : kbCode false 0x1C = (false, some (.plain, 10)) := by decide
  rw [hread, hchars, readCodes, if_pos hnow, hcode]
  dsimp only
  rw [if_pos (Or.inl rfl), kbReadline, readlineLoop_enter henter hroom]
  rfl

variable (put) in
/-- What the buffer then holds. -/
theorem kbReadline_enter (henter : ∀ c ∈ keys, c ≠ 10 ∧ c ≠ 13)
    (hfits : ∀ pre, pre <+: keys → ((typed len pre).length : Int) < len - 1) (stack : Nat → UInt8) (console : κ) :
    (kbReadline put len stack console (keys ++ [10])).text = typed len keys ∧
    (kbReadline put len stack console (keys ++ [10])).buf (typed len keys).length = 0 := by
  have hroom := typed_room put hfits stack console
  have htext : (keys.foldl (readKey put len) ⟨stack, 0, console⟩).text = typed len keys := foldl_readKey_text keys _
  have hlength := congrArg List.length htext
  rw [Line.text_length] at hlength
  have hlength : (keys.foldl (readKey put len) ⟨stack, 0, console⟩).i = (typed len keys).length := hlength
  rw [kbReadline, readlineLoop_enter henter hroom]
  constructor
  · refine Eq.trans (List.map_congr_left fun j hj => ?_) htext
    exact Function.update_of_ne (Nat.ne_of_lt (List.mem_range.mp hj)) ..
  · dsimp only
    rw [hlength, Function.update_self]

theorem kbReadline_console (henter : ∀ c ∈ keys, c ≠ 10 ∧ c ≠ 13)
    (hfits : ∀ pre, pre <+: keys → ((typed len pre).length : Int) < len - 1) (stack : Nat → UInt8) (console : κ) :
    (kbReadline put len stack console (keys ++ [10])).console = (echoFrom len [] keys ++ [10]).foldl put console := by
  have hroom := typed_room put hfits stack console
  rw [kbReadline, readlineLoop_enter henter hroom]
  dsimp only
  rw [foldl_readKey_console, List.foldl_append]
  rfl

end Typing

end Reading

end SengKernel.Kbd
