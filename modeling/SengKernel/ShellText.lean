import SengKernel.KernelString
import SengKernel.VgaText

/- The text helpers of kernel/kernel.c, and what the shell hands to the console. -/
namespace SengKernel.Ksh
open Str Vga

inductive Argument where
  | str (s : List UInt8)
  | int (d : Int)
  deriving DecidableEq, Repr

/-- A call of the console with what it prints. -/
inductive Printed where
  | puts (s : List UInt8)
  | putsColor (s : String) (fg bg : VgaColor)
  | printf (fmt : String) (args : List Argument)
  deriving DecidableEq, Repr

/-- `' '` -/
@[simp] abbrev space : UInt8 := 32

/-- The bytes of a string literal, without its NUL. -/
def ascii (s : String) : List UInt8 := s.toList.map (fun c => UInt8.ofNat c.toNat)

def kLtrim : List UInt8 → List UInt8
  | [] => []
  | c :: cs => if c = space then kLtrim cs else c :: cs

/-- The loop leaves `n` at `(size_t)-1` when it ends by the count. -/
def kStrncmp : List UInt8 → List UInt8 → Nat → Int
  | _, _, 0 => 0
  | a, b, n+1 =>
      if deref a ≠ 0 ∧ deref a = deref b then kStrncmp a.tail b.tail n
      else ((deref a).toNat : Int) - (deref b).toNat

/-- The characters before the first space or NUL. -/
def firstWord (s : List UInt8) : List UInt8 := s.takeWhile (fun c => c != 0 && c != space)

/-- `*s >= '0' && *s <= '9'` -/
def isDigit (c : UInt8) : Bool := 48 ≤ c.toNat && c.toNat ≤ 57

/-- The loop of `k_atoi`; the `int` is held by its 32 bits, which wrap. -/
def atoiFrom (result : UInt32) : List UInt8 → UInt32
  | [] => result
  | c :: cs => if isDigit c then atoiFrom (result * 10 + UInt32.ofNat (c.toNat - 48)) cs else result

def kAtoi (s : List UInt8) : UInt32 := atoiFrom 0 s

/-- The digits that a string starts with. -/
def leadingDigits (s : List UInt8) : List UInt8 := s.takeWhile isDigit

/-- The number that a list of digits writes. -/
def decimal (s : List UInt8) : Nat := s.foldl (fun n c => n * 10 + (c.toNat - 48)) 0

section Words

variable {c : UInt8} {s t : List UInt8}

theorem kLtrim_of_head (h : deref s ≠ space) : kLtrim s = s := by
  cases s with
  | nil => rfl
  | cons c cs =>
      have hc : c ≠ space := h
      rw [kLtrim, if_neg hc]

theorem kLtrim_subset (s : List UInt8) : kLtrim s ⊆ s := by
  induction s with
  | nil => exact List.Subset.refl []
  | cons c cs ih =>
      rw [kLtrim]
      split
      · exact fun x hx => List.mem_cons_of_mem c (ih hx)
      · exact List.Subset.refl _

/-- A prefix that the string has is found. -/
theorem kStrncmp_append {p : List UInt8} (hp : 0 ∉ p) (s : List UInt8) : kStrncmp (p ++ s) p p.length = 0 := by
  induction p with
  | nil =>
      cases s with
      | nil => rfl
      | cons c cs => rfl
  | cons c cs ih =>
      obtain ⟨hc, hcs⟩ := List.ne_and_not_mem_of_not_mem_cons hp
      have hd : deref ((c :: cs) ++ s) ≠ 0 ∧ deref ((c :: cs) ++ s) = deref (c :: cs) := ⟨Ne.symm hc, rfl⟩
      rw [List.length_cons, kStrncmp, if_pos hd]
      exact ih hcs

theorem kStrncmp_head (n : Nat) (h : deref s ≠ deref t) : kStrncmp s t (n+1) ≠ 0 := by
  rw [kStrncmp, if_neg (fun hsame => h hsame.2), ne_eq, Int.sub_eq_zero]
  intro heq
  exact h (UInt8.toNat_inj.mp (Int.ofNat_inj.mp heq))

theorem strcmp_head (h : deref s ≠ deref t) : strcmp s t ≠ 0 := by
  intro heq
  rw [strcmp_eq_zero] at heq
  refine h ?_
  by_cases hs : deref s = 0
  · rw [deref_eq_zero] at hs
    rw [deref_eq_zero.mpr hs, deref_eq_zero.mpr (heq.symm.trans hs)]
  · have ht : deref t ≠ 0 := fun ht => hs (deref_eq_zero.mpr (heq.trans (deref_eq_zero.mp ht)))
    rw [text_of_deref hs, text_of_deref ht] at heq
    exact (List.cons.inj heq).1

theorem firstWord_subset (s : List UInt8) : firstWord s ⊆ s := (List.takeWhile_prefix _).subset

theorem word_char (hc : c ≠ 0) (hblank : c ≠ space) : (c != 0 && c != space) = true := by
  rw [Bool.and_eq_true, bne_iff_ne, bne_iff_ne]
  exact ⟨hc, hblank⟩

theorem space_notMem_firstWord (s : List UInt8) : space ∉ firstWord s := by
  intro hmem
  have hkeep := List.mem_takeWhile_imp hmem
  exact absurd hkeep (by decide)

/-- The first word of a line that starts with it. -/
theorem firstWord_append (hnul : 0 ∉ s) (hspace : space ∉ s) (t : List UInt8) : firstWord (s ++ space :: t) = s := by
  induction s with
  | nil => rfl
  | cons c cs ih =>
      obtain ⟨hc, hcs⟩ := List.ne_and_not_mem_of_not_mem_cons hnul
      obtain ⟨hb, hbs⟩ := List.ne_and_not_mem_of_not_mem_cons hspace
      have hrest := ih hcs hbs
      rw [firstWord] at hrest
      rw [firstWord, List.cons_append, List.takeWhile_cons, if_pos (word_char (Ne.symm hc) (Ne.symm hb)), hrest]

/-- A text with a space is its first word and what follows. -/
theorem firstWord_split (hnul : 0 ∉ s) (hspace : space ∈ s) : ∃ rest, s = firstWord s ++ space :: rest := by
  induction s with
  | nil => cases hspace
  | cons c cs ih =>
      obtain ⟨hc, hcs⟩ := List.ne_and_not_mem_of_not_mem_cons hnul
      by_cases hblank : c = space
      · subst hblank
        exact ⟨cs, rfl⟩
      · obtain ⟨rest, hrest⟩ := ih hcs ((List.mem_cons.mp hspace).resolve_left (Ne.symm hblank))
        refine ⟨rest, ?_⟩
        rw [firstWord] at hrest
        rw [firstWord, List.takeWhile_cons, if_pos (word_char (Ne.symm hc) hblank), List.cons_append, ← hrest]

theorem atoiFrom_toNat (result : UInt32) (s : List UInt8) :
    (atoiFrom result s).toNat =
      (leadingDigits s).foldl (fun n c => n * 10 + (c.toNat - 48)) result.toNat % 4294967296 := by
  -- only the residue of the start matters
  have hmod : ∀ (ds : List UInt8) (a b : Nat), a % 4294967296 = b % 4294967296 →
      ds.foldl (fun n c => n * 10 + (c.toNat - 48)) a % 4294967296 =
        ds.foldl (fun n c => n * 10 + (c.toNat - 48)) b % 4294967296 := by
    intro ds
    induction ds with
    | nil => exact fun a b h => h
    | cons d ds ih =>
        intro a b h
        refine ih _ _ ?_
        beta_reduce
        omega
  induction s generalizing result with
  | nil => exact (Nat.mod_eq_of_lt result.toNat_lt).symm
  | cons c cs ih =>
      rw [atoiFrom, leadingDigits, List.takeWhile_cons]
      split
      · rw [ih, List.foldl_cons]
        refine hmod _ _ _ ?_
        rw [UInt32.toNat_add, UInt32.toNat_mul, UInt32.toNat_ofNat']
        change ((result.toNat * 10 % 4294967296 + (c.toNat - 48) % 4294967296) % 4294967296) % 4294967296 = _
        omega
      · exact (Nat.mod_eq_of_lt result.toNat_lt).symm

/-- The number read is that of the leading digits, as far as 32 bits hold it. -/
theorem kAtoi_toNat (s : List UInt8) : (kAtoi s).toNat = decimal (leadingDigits s) % 4294967296 := atoiFrom_toNat 0 s

end Words

end SengKernel.Ksh
