import SengKernel.ShellText

/- Numbers as text: print_uint of kernel/vga.c writes them, k_atoi of
   kernel/kernel.c reads them. -/
namespace SengKernel.Vga

/-- `(r < 10) ? ('0' + r) : ('a' + r - 10)` -/
def digitChar (r : Nat) : UInt8 := UInt8.ofNat (if r < 10 then 48 + r else 97 + r - 10)

/-- `while (n > 0)` with `i` digits stored and `room` bytes of `buf` left; nothing
when a digit is stored past the end. -/
def digitLoop (base : UInt32) (buf : Nat → UInt8) (i : Nat) (n : UInt32) : Nat → Option ((Nat → UInt8) × Nat)
  | 0 => if n = 0 then some (buf, i) else none
  | room+1 =>
      if n = 0 then some (buf, i)
      else digitLoop base (Function.update buf i (digitChar (n % base).toNat)) (i + 1) (n / base) room

/-- `while (i > 0) vga_putchar(buf[--i]);` -/
def drain (buf : Nat → UInt8) : Nat → List UInt8
  | 0 => []
  | i+1 => buf i :: drain buf i

/-- The characters that `print_uint` sends to the console. Its buffer of 32 bytes
lies on a stack with any contents. -/
def printUint (stack : Nat → UInt8) (n base : UInt32) : Option (List UInt8) :=
  if n = 0 then some [48] else (digitLoop base stack 0 n 32).map (fun r => drain r.1 r.2)

/-- The digits `ds` write `n` in base `b`, the most significant first and none of
them idle. -/
structure Canonical (b n : Nat) (ds : List Nat) : Prop where
  inBase : ∀ d, d ∈ ds → d < b
  value : Nat.ofDigits b ds.reverse = n
  written : ds ≠ []
  leading : ds.head? = some 0 → ds = [0]

def numeral (b n : Nat) : List Nat := if n = 0 then [0] else (Nat.digits b n).reverse

theorem canonical_numeral {b : Nat} (hb : 1 < b) (n : Nat) : Canonical b n (numeral b n) := by
  by_cases hn : n = 0
  · subst n
    refine ⟨fun d hd => ?_, rfl, List.cons_ne_nil 0 [], fun _ => rfl⟩
    rw [numeral, if_pos rfl, List.mem_singleton] at hd
    omega
  · have hdigits : Nat.digits b n ≠ [] := Nat.digits_ne_nil_iff_ne_zero.mpr hn
    rw [numeral, if_neg hn]
    constructor
    · intro d hd
      exact Nat.digits_lt_base hb (List.mem_reverse.mp hd)
    · rw [List.reverse_reverse, Nat.ofDigits_digits]
    · exact fun hnil => hdigits (List.reverse_eq_nil_iff.mp hnil)
    · intro hzero
      rw [List.head?_reverse, List.getLast?_eq_some_getLast hdigits] at hzero
      exact absurd (Option.some.inj hzero) (Nat.getLast_digit_ne_zero b hn)

section Printing

variable {base : UInt32}

theorem drain_update (buf : Nat → UInt8) {i k : Nat} (c : UInt8) (h : i ≤ k) :
    drain (Function.update buf k c) i = drain buf i := by
  induction i with
  | zero => rfl
  | succ i ih => rw [drain, drain, Function.update_of_ne (by omega), ih (by omega)]

/-- The digits come out above those already stored, the last division first. -/
theorem digitLoop_drain (hbase : 1 < base.toNat) {buf : Nat → UInt8} {i : Nat} {n : UInt32} {room : Nat}
    (hroom : (Nat.digits base.toNat n.toNat).length ≤ room) :
    (digitLoop base buf i n room).map (fun r => drain r.1 r.2) =
      some ((Nat.digits base.toNat n.toNat).reverse.map digitChar ++ drain buf i) := by
  induction room generalizing buf i n with
  | zero =>
      have hnil := List.length_eq_zero_iff.mp (Nat.le_zero.mp hroom)
      have hn : n = 0 := UInt32.toNat_inj.mp (Nat.digits_eq_nil_iff_eq_zero.mp hnil)
      subst n
      rw [digitLoop, if_pos rfl, UInt32.toNat_zero, Nat.digits_zero]
      rfl
  | succ room ih =>
      by_cases hn : n = 0
      · subst n
        rw [digitLoop, if_pos rfl, UInt32.toNat_zero, Nat.digits_zero]
        rfl
      · have hpos : 0 < n.toNat := Nat.pos_of_ne_zero (fun hzero => hn (UInt32.toNat_inj.mp hzero))
        have hsplit := Nat.digits_def' hbase hpos
        rw [← UInt32.toNat_mod, ← UInt32.toNat_div] at hsplit
        rw [hsplit, List.length_cons] at hroom
        rw [digitLoop, if_neg hn, ih (Nat.le_of_succ_le_succ hroom), hsplit, drain, Function.update_self,
          drain_update buf _ (Nat.le_refl i), List.reverse_cons, List.map_append, List.append_assoc]
        rfl

/-- From base 2 on the 32 bytes hold every number. -/
theorem printUint_eq (hbase : 1 < base.toNat) (stack : Nat → UInt8) (n : UInt32) :
    printUint stack n base = some ((numeral base.toNat n.toNat).map digitChar) := by
  by_cases hn : n = 0
  · subst n
    rfl
  · have hroom : (Nat.digits base.toNat n.toNat).length ≤ 32 :=
      (Nat.digits_length_le_iff hbase n.toNat).mpr
        (n.toNat_lt.trans_le (Nat.pow_le_pow_left hbase 32))
    have hpos : n.toNat ≠ 0 := fun hzero => hn (UInt32.toNat_inj.mp hzero)
    rw [printUint, if_neg hn, digitLoop_drain hbase hroom, numeral, if_neg hpos]
    exact congrArg some (List.append_nil _)

end Printing

end SengKernel.Vga

namespace SengKernel.Ksh
open Str Vga

section Reading

variable {ds : List Nat}

theorem digitChar_toNat {d : Nat} (h : d < 10) : (digitChar d).toNat = 48 + d := by
  rw [digitChar, if_pos h, UInt8.toNat_ofNat']
  omega

theorem isDigit_digitChar {d : Nat} (h : d < 10) : isDigit (digitChar d) = true := by
  rw [isDigit, digitChar_toNat h, Bool.and_eq_true, decide_eq_true_iff, decide_eq_true_iff]
  omega

/-- The loop stops where the digits stop. -/
theorem leadingDigits_append (hds : ∀ d, d ∈ ds → d < 10) {t : List UInt8} (ht : isDigit (deref t) = false) :
    leadingDigits (ds.map digitChar ++ t) = ds.map digitChar := by
  induction ds with
  | nil =>
      cases t with
      | nil => rfl
      | cons c cs => exact List.takeWhile_cons_of_neg (fun hc => Bool.noConfusion (ht.symm.trans hc))
  | cons d ds ih =>
      have hd := isDigit_digitChar (hds d List.mem_cons_self)
      have hrest := ih (fun e he => hds e (List.mem_cons_of_mem d he))
      rw [leadingDigits] at hrest
      rw [leadingDigits, List.map_cons, List.cons_append, List.takeWhile_cons_of_pos hd, hrest]

theorem decimal_concat (s : List UInt8) (c : UInt8) : decimal (s ++ [c]) = decimal s * 10 + (c.toNat - 48) := by
  rw [decimal, List.foldl_append, decimal]
  rfl

/-- The digits are read with the value that they write. -/
theorem decimal_digits (hds : ∀ d, d ∈ ds → d < 10) : decimal (ds.map digitChar) = Nat.ofDigits 10 ds.reverse := by
  induction ds using List.reverseRecOn with
  | nil => rfl
  | append_singleton ds d ih =>
      have hd := digitChar_toNat (hds d (List.mem_append_right ds List.mem_cons_self))
      rw [List.map_append, List.map_singleton, decimal_concat, ih (fun e he => hds e (List.mem_append_left [d] he)), hd,
        List.reverse_append, List.reverse_singleton, List.singleton_append, Nat.ofDigits_cons]
      omega

theorem decimal_le_append (p q : List UInt8) : decimal p ≤ decimal (p ++ q) := by
  induction q using List.reverseRecOn with
  | nil => rw [List.append_nil]
  | append_singleton q c ih =>
      rw [← List.append_assoc, decimal_concat]
      omega

end Reading

/-- `print_uint` writes the canonical numeral of every 32-bit number and stays inside
its buffer. `k_atoi` reads an `int` back from the decimal one, whatever follows it
but a digit; no value that it comes through is too large for an `int`. -/
theorem printed_number (stack : Nat → UInt8) (n base : UInt32) (hbase : base = 10 ∨ base = 16) :
    ∃ ds, Canonical base.toNat n.toNat ds ∧ printUint stack n base = some (ds.map digitChar) ∧
      (base = 10 → n.toNat < 2 ^ 31 → ∀ t, isDigit (deref t) = false →
        (kAtoi (ds.map digitChar ++ t)).toNat = n.toNat ∧
        ∀ p, p <+: ds.map digitChar → decimal p < 2 ^ 31) := by
  have hone : 1 < base.toNat := by rcases hbase with rfl | rfl <;> decide
  have hcanonical := canonical_numeral hone n.toNat
  refine ⟨numeral base.toNat n.toNat, hcanonical, printUint_eq hone stack n, ?_⟩
  intro hten hint t ht
  subst hten
  have hvalue : decimal ((numeral (10 : UInt32).toNat n.toNat).map digitChar) = n.toNat :=
    (decimal_digits hcanonical.inBase).trans hcanonical.value
  constructor
  · rw [kAtoi_toNat, leadingDigits_append hcanonical.inBase ht]
    exact (congrArg (· % 4294967296) hvalue).trans (Nat.mod_eq_of_lt n.toNat_lt)
  · rintro p ⟨q, hq⟩
    have hle := decimal_le_append p q
    rw [hq, hvalue] at hle
    exact hle.trans_lt hint

/-- The largest `int`, before a space. -/
theorem printed_number_sample :
    ∃ ds : List Nat, printUint (fun _ => 0xCC) 2147483647 10 = some (ds.map digitChar) ∧
      (kAtoi (ds.map digitChar ++ [space])).toNat = 2147483647 := by
  obtain ⟨ds, _, hprint, hparse⟩ := printed_number (fun _ => 0xCC) 2147483647 10 (Or.inl rfl)
  exact ⟨ds, hprint, (hparse rfl (by decide) [space] (by decide)).1⟩

end SengKernel.Ksh
