import SengKernel.NumberText

/- vga_printf of kernel/vga.c: the loop over the format, and what a format means as a
   list of pieces that take their arguments in order. -/
namespace SengKernel.Vga
open Str Ksh

/-- The letters that take an argument: `s`, `c`, `d`, `u` and `x`. -/
def directives : List UInt8 := [115, 99, 100, 117, 120]

section Driver

variable {μ : Type*} (M : CellMemory μ) (stack : Nat → UInt8)

/-- The characters of `print_uint` on the screen. -/
def putUint (v : Screen μ) (n base : UInt32) : Option (Screen μ) :=
  (printUint stack n base).map (fun cs => cs.foldl (vgaPutchar M) v)

/-- `case 'd'`; `-v` is taken in 32 bits. -/
def putInt (v : Screen μ) (n : UInt32) : Option (Screen μ) :=
  if n.toNat ≥ 2 ^ 31 then putUint M stack (vgaPutchar M v 45) (-n) 10 else putUint M stack v n 10

/-- The `switch`, with the arguments that are left; `none` where `va_arg` finds another
type or nothing. -/
def putDirective (v : Screen μ) (d : UInt8) (args : List Argument) : Option (Screen μ × List Argument) :=
  if d = 115 then
    match args with
    | .str s :: rest => some (vgaPuts M v (some s), rest)
    | _ => none
  else if d = 99 then
    match args with
    | .int n :: rest => some (vgaPutchar M v (UInt8.ofInt n), rest)
    | _ => none
  else if d = 100 then
    match args with
    | .int n :: rest => (putInt M stack v (UInt32.ofInt n)).map (fun v => (v, rest))
    | _ => none
  else if d = 117 then
    match args with
    | .int n :: rest => (putUint M stack v (UInt32.ofInt n) 10).map (fun v => (v, rest))
    | _ => none
  else if d = 120 then
    match args with
    | .int n :: rest => (putUint M stack v (UInt32.ofInt n) 16).map (fun v => (v, rest))
    | _ => none
  else some (vgaPutchar M v d, args)

/-- `vga_printf`. After a `%` that ends the format it goes on behind the NUL: `none`. -/
def vgaPrintf (v : Screen μ) : List UInt8 → List Argument → Option (Screen μ)
  | [], _ => some v
  | c :: cs, args =>
      if c = 0 then some v
      else if c ≠ 37 then vgaPrintf (vgaPutchar M v c) cs args
      else match cs with
        | [] => none
        | d :: ds =>
            if d = 0 then none
            else (putDirective M stack v d args).bind (fun r => vgaPrintf r.1 ds r.2)

end Driver

/-- A part of a format. -/
inductive Piece where
  | plain (c : UInt8) (h : c ≠ 0 ∧ c ≠ 37)
  | escaped (c : UInt8) (h : c ≠ 0 ∧ c ∉ directives)
  | string | character | signed | unsigned | hex

/-- How it is written. -/
def Piece.source : Piece → List UInt8
  | .plain c _ => [c]
  | .escaped c _ => [37, c]
  | .string => [37, 115]
  | .character => [37, 99]
  | .signed => [37, 100]
  | .unsigned => [37, 117]
  | .hex => [37, 120]

def source (ps : List Piece) : List UInt8 := ps.flatMap Piece.source

/-- What is written after a `%`. -/
def afterPercent (d : UInt8) (hd : d ≠ 0) : Piece :=
  if d = 115 then .string
  else if d = 99 then .character
  else if d = 100 then .signed
  else if d = 117 then .unsigned
  else if d = 120 then .hex
  else if h : d ∉ directives then .escaped d ⟨hd, h⟩
  else .string

def parse : List UInt8 → Option (List Piece)
  | [] => some []
  | c :: cs =>
      if hnul : c = 0 then some []
      else if hpercent : c ≠ 37 then (parse cs).map (fun ps => .plain c ⟨hnul, hpercent⟩ :: ps)
      else match cs with
        | [] => none
        | d :: ds => if hd : d = 0 then none else (parse ds).map (fun ps => afterPercent d hd :: ps)

/-- The numeral of a number below the base to the 32nd. -/
def digits (b n : Nat) : List UInt8 := (numeral b n).map digitChar

/-- The numeral of an `int`, with its sign. -/
def signedDigits (n : Int) : List UInt8 := if n < 0 then 45 :: digits 10 n.natAbs else digits 10 n.natAbs

/-- The text of a piece and the arguments that it leaves. -/
def Piece.text : Piece → List Argument → Option (List UInt8 × List Argument)
  | .plain c _, args => some ([c], args)
  | .escaped c _, args => some ([c], args)
  | .string, .str s :: rest => some (Str.text s, rest)
  | .character, .int n :: rest => some ([UInt8.ofInt n], rest)
  | .signed, .int n :: rest => some (signedDigits (n.bmod (2 ^ 32)), rest)
  | .unsigned, .int n :: rest => some (digits 10 (n % 2 ^ 32).toNat, rest)
  | .hex, .int n :: rest => some (digits 16 (n % 2 ^ 32).toNat, rest)
  | _, _ => none

def expand : List Piece → List Argument → Option (List UInt8)
  | [], _ => some []
  | p :: ps, args => (p.text args).bind (fun r => (expand ps r.2).map (r.1 ++ ·))

/-- Whether a piece takes a string or a number, if it takes an argument. -/
def Piece.kind : Piece → Option Bool
  | .plain .. | .escaped .. => none
  | .string => some true
  | .character | .signed | .unsigned | .hex => some false

def isString : Argument → Bool
  | .str _ => true
  | .int _ => false

/-- Arguments of the right kinds give every piece its text. -/
theorem expand_of_kinds {ps : List Piece} {args : List Argument} (h : ps.filterMap Piece.kind = args.map isString) :
    ∃ t, expand ps args = some t := by
  induction ps generalizing args with
  | nil => exact ⟨[], rfl⟩
  | cons p ps ih =>
      have hnext : ∃ s rest, p.text args = some (s, rest) ∧ ps.filterMap Piece.kind = rest.map isString := by
        cases hkind : p.kind with
        | none =>
            rw [List.filterMap_cons_none hkind] at h
            cases p with
            | plain c hc => exact ⟨_, _, rfl, h⟩
            | escaped c hc => exact ⟨_, _, rfl, h⟩
            | _ => cases hkind
        | some b =>
            rw [List.filterMap_cons_some hkind] at h
            cases args with
            | nil => cases h
            | cons a rest =>
                obtain ⟨rfl, hrest⟩ := List.cons.inj h
                cases p with
                | plain c hc => cases hkind
                | escaped c hc => cases hkind
                | _ =>
                    cases a with
                    | str s => first | exact ⟨_, _, rfl, hrest⟩ | cases hkind
                    | int n => first | exact ⟨_, _, rfl, hrest⟩ | cases hkind
      obtain ⟨s, rest, htext, hrest⟩ := hnext
      obtain ⟨t, ht⟩ := ih hrest
      exact ⟨s ++ t, by rw [expand, htext, Option.bind_some, ht]; rfl⟩

section Meaning

variable {μ : Type*} {M : CellMemory μ} {stack : Nat → UInt8} {v : Screen μ}

theorem putsLoop_eq (v : Screen μ) (s : List UInt8) : putsLoop M v s = (Str.text s).foldl (vgaPutchar M) v := by
  induction s generalizing v with
  | nil => rfl
  | cons c cs ih =>
      rw [putsLoop, text_cons]
      split
      · rfl
      · rw [ih, List.foldl_cons]

theorem ofInt_toNat (n : Int) : (UInt32.ofInt n).toNat = (n % 2 ^ 32).toNat := by
  have hmod : 0 ≤ n % 2 ^ 32 ∧ n % 2 ^ 32 < 2 ^ 32 := ⟨Int.emod_nonneg n (by decide), Int.emod_lt_of_pos n (by decide)⟩
  rw [UInt32.ofInt, UInt32.toNat_ofNat']
  omega

theorem putUint_eq (v : Screen μ) (n : UInt32) {base : UInt32} (hbase : 1 < base.toNat) :
    putUint M stack v n base = some ((digits base.toNat n.toNat).foldl (vgaPutchar M) v) := by
  rw [putUint, printUint_eq hbase]
  rfl

theorem putInt_eq (v : Screen μ) (n : Int) :
    putInt M stack v (UInt32.ofInt n) = some ((signedDigits (n.bmod (2 ^ 32))).foldl (vgaPutchar M) v) := by
  have hword := ofInt_toNat n
  have hmod : 0 ≤ n % 2 ^ 32 ∧ n % 2 ^ 32 < 2 ^ 32 := ⟨Int.emod_nonneg n (by decide), Int.emod_lt_of_pos n (by decide)⟩
  have hsign : n.bmod (2 ^ 32) = if n % 2 ^ 32 < 2 ^ 31 then n % 2 ^ 32 else n % 2 ^ 32 - 2 ^ 32 := Int.bmod_def n _
  have hbase : 1 < (10 : UInt32).toNat := by decide
  rw [putInt, hsign]
  by_cases hsmall : n % 2 ^ 32 < 2 ^ 31
  · rw [if_neg (by omega), if_pos hsmall, putUint_eq v _ hbase, hword, signedDigits, if_neg (by omega)]
    have habs : (n % 2 ^ 32).toNat = (n % 2 ^ 32).natAbs := by omega
    rw [habs]
    rfl
  · have hneg : (-UInt32.ofInt n).toNat = (n % 2 ^ 32 - 2 ^ 32).natAbs := by
      rw [UInt32.toNat_neg, hword]
      change (4294967296 - (n % 2 ^ 32).toNat) % 4294967296 = _
      omega
    rw [if_pos (by omega), if_neg hsmall, putUint_eq _ _ hbase, hneg, signedDigits, if_pos (by omega)]
    rfl

/-- One directive prints its piece. -/
theorem putDirective_eq (v : Screen μ) {d : UInt8} (hd : d ≠ 0) (args : List Argument) :
    putDirective M stack v d args =
      ((afterPercent d hd).text args).map (fun r => (r.1.foldl (vgaPutchar M) v, r.2)) := by
  have hten : 1 < (10 : UInt32).toNat := by decide
  have hsixteen : 1 < (16 : UInt32).toNat := by decide
  unfold putDirective afterPercent
  by_cases hs : d = 115
  · rw [if_pos hs, if_pos hs]
    rcases args with _ | ⟨a, rest⟩
    · rfl
    cases a with
    | int n => rfl
    | str s =>
        dsimp only [Piece.text, Option.map_some, vgaPuts]
        rw [putsLoop_eq]
  rw [if_neg hs, if_neg hs]
  by_cases hc : d = 99
  · rw [if_pos hc, if_pos hc]
    rcases args with _ | ⟨a, rest⟩
    · rfl
    cases a with
    | int n => rfl
    | str s => rfl
  rw [if_neg hc, if_neg hc]
  by_cases hi : d = 100
  · rw [if_pos hi, if_pos hi]
    rcases args with _ | ⟨a, rest⟩
    · rfl
    cases a with
    | str s => rfl
    | int n =>
        dsimp only [Piece.text]
        rw [putInt_eq]
        rfl
  rw [if_neg hi, if_neg hi]
  by_cases hu : d = 117
  · rw [if_pos hu, if_pos hu]
    rcases args with _ | ⟨a, rest⟩
    · rfl
    cases a with
    | str s => rfl
    | int n =>
        dsimp only [Piece.text]
        rw [putUint_eq v _ hten, ofInt_toNat]
        rfl
  rw [if_neg hu, if_neg hu]
  by_cases hx : d = 120
  · rw [if_pos hx, if_pos hx]
    rcases args with _ | ⟨a, rest⟩
    · rfl
    cases a with
    | str s => rfl
    | int n =>
        dsimp only [Piece.text]
        rw [putUint_eq v _ hsixteen, ofInt_toNat]
        rfl
  rw [if_neg hx, if_neg hx]
  have hother : d ∉ directives := by
    simp only [directives, List.mem_cons, List.not_mem_nil, or_false]
    tauto
  rw [dif_pos hother]
  rfl

/-- `vga_printf` prints the text of its format, and goes wrong where that has none. -/
theorem vgaPrintf_eq (v : Screen μ) (fmt : List UInt8) (args : List Argument) : vgaPrintf M stack v fmt args =
    (parse fmt).bind (fun ps => (expand ps args).map (fun t => t.foldl (vgaPutchar M) v)) := by
  fun_induction parse fmt generalizing v args with
  | case1 => rfl
  | case2 cs =>
      rw [vgaPrintf.eq_def]
      exact if_pos rfl
  | case3 c cs hnul hplain ih =>
      rw [vgaPrintf.eq_def]
      dsimp only
      rw [if_neg hnul, if_pos hplain, ih]
      cases parse cs with
      | none => rfl
      | some ps =>
          change (expand ps args).map _ = ((expand ps args).map ([c] ++ ·)).map _
          rw [Option.map_map]
          rfl
  | case4 c hnul hpercent => rw [vgaPrintf, if_neg hnul, if_neg hpercent, Option.bind_none]
  | case5 c hnul hpercent cs =>
      rw [vgaPrintf, if_neg hnul, if_neg hpercent, Option.bind_none]
      exact if_pos rfl
  | case6 c hnul hpercent d ds hd ih =>
      rw [vgaPrintf, if_neg hnul, if_neg hpercent, if_neg hd, putDirective_eq v hd args]
      cases hparse : parse ds with
      | none =>
          cases (afterPercent d hd).text args with
          | none => rfl
          | some r =>
              rw [hparse] at ih
              exact ih _ _
      | some ps =>
          change _ = (((afterPercent d hd).text args).bind (fun r => (expand ps r.2).map (r.1 ++ ·))).map _
          cases (afterPercent d hd).text args with
          | none => rfl
          | some r =>
              rw [hparse] at ih
              refine (ih _ _).trans ?_
              change (expand ps r.2).map _ = ((expand ps r.2).map (r.1 ++ ·)).map _
              rw [Option.map_map]
              refine congrArg (fun f => (expand ps r.2).map f) (funext fun t => ?_)
              exact List.foldl_append.symm

end Meaning

section Sources

/-- Every list of pieces is read back from the format that writes it. -/
theorem parse_source (ps : List Piece) : parse (source ps) = some ps := by
  induction ps with
  | nil => rfl
  | cons p ps ih =>
      cases p with
      | plain c h =>
          change parse (c :: source ps) = _
          rw [parse.eq_def]
          dsimp only
          rw [dif_neg h.1, dif_pos h.2, ih]
          rfl
      | escaped c h =>
          change parse (37 :: c :: source ps) = _
          have hletters := h.2
          simp only [directives, List.mem_cons, List.not_mem_nil, or_false, not_or] at hletters
          obtain ⟨hs, hc, hd, hu, hx⟩ := hletters
          have hpiece : afterPercent c h.1 = .escaped c h := by
            rw [afterPercent, if_neg hs, if_neg hc, if_neg hd, if_neg hu, if_neg hx, dif_pos h.2]
          rw [parse, dif_neg (by decide), dif_neg (by decide), dif_neg h.1, ih, hpiece]
          rfl
      | _ =>
          change (parse (source ps)).map _ = _
          rw [ih]
          rfl

theorem afterPercent_source (d : UInt8) (hd : d ≠ 0) : (afterPercent d hd).source = [37, d] := by
  unfold afterPercent
  split
  · rename_i h
    rw [h]
    rfl
  split
  · rename_i h
    rw [h]
    rfl
  split
  · rename_i h
    rw [h]
    rfl
  split
  · rename_i h
    rw [h]
    rfl
  split
  · rename_i h
    rw [h]
    rfl
  split
  · rfl
  · rename_i hs hc hi hu hx hother
    simp only [directives, List.mem_cons, List.not_mem_nil, or_false, not_not] at hother
    tauto

/-- What is read is what was written, up to the NUL. -/
theorem source_parse {fmt : List UInt8} {ps : List Piece} (h : parse fmt = some ps) : source ps = Str.text fmt := by
  fun_induction parse fmt generalizing ps with
  | case1 =>
      obtain rfl := Option.some.inj h
      rfl
  | case2 cs =>
      obtain rfl := Option.some.inj h
      rw [text_cons, if_pos rfl]
      rfl
  | case3 c cs hnul hplain ih =>
      obtain ⟨qs, hqs, rfl⟩ := Option.map_eq_some_iff.mp h
      rw [text_cons, if_neg hnul, ← ih hqs]
      rfl
  | case4 => cases h
  | case5 => cases h
  | case6 c hnul hpercent d ds hd ih =>
      obtain ⟨qs, hqs, rfl⟩ := Option.map_eq_some_iff.mp h
      rw [text_cons, if_neg hnul, text_cons, if_neg hd, ← ih hqs, not_not.mp hpercent]
      change (afterPercent d hd).source ++ source qs = _
      rw [afterPercent_source]
      rfl

end Sources

/-- `vga_printf` on the formats of all lists of pieces, and on all others. -/
structure PrintfMeaning {μ : Type*} (M : CellMemory μ) (stack : Nat → UInt8) (v : Screen μ) : Prop where
  prints : ∀ ps args, vgaPrintf M stack v (source ps) args = (expand ps args).map (fun t => t.foldl (vgaPutchar M) v)
  only : ∀ fmt args w, vgaPrintf M stack v fmt args = some w →
    ∃ ps t, source ps = Str.text fmt ∧ expand ps args = some t ∧ w = t.foldl (vgaPutchar M) v

/-- `vga_printf` prints the pieces of its format, one after the other with their
arguments; it comes to its end for no other format and no other arguments. -/
theorem printf_meaning {μ : Type*} (M : CellMemory μ) (stack : Nat → UInt8) (v : Screen μ) :
    PrintfMeaning M stack v := by
  constructor
  · intro ps args
    rw [vgaPrintf_eq, parse_source]
    rfl
  · intro fmt args w h
    rw [vgaPrintf_eq] at h
    obtain ⟨ps, hparse, hexpand⟩ := Option.bind_eq_some_iff.mp h
    obtain ⟨t, ht, rfl⟩ := Option.map_eq_some_iff.mp hexpand
    exact ⟨ps, t, source_parse hparse, ht, rfl⟩

end SengKernel.Vga
