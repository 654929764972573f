import SengKernel.ShellText

/- The two pairs of string comparisons: strcmp and strncmp of kernel/string.c,
   k_strcmp and k_strncmp of kernel/kernel.c. Counts are machine words, and each
   loop returns the two pointers where it stops. -/
namespace SengKernel.Str

/-- `*(const uint8_t *)a - *(const uint8_t *)b` -/
def byteDiff (a b : List UInt8) : Int := ((deref a).toNat : Int) - (deref b).toNat

/-- `while (n && *s1 && (*s1 == *s2)) { s1++; s2++; n--; }` -/
def strncmpLoop : List UInt8 → List UInt8 → UInt32 → List UInt8 × List UInt8 × UInt32
  | [], s2, n => ([], s2, n)
  | c :: cs, s2, n =>
      if n ≠ 0 ∧ c ≠ 0 ∧ c = deref s2 then strncmpLoop cs s2.tail (n - 1) else (c :: cs, s2, n)

def strncmp (s1 s2 : List UInt8) (n : UInt32) : Int :=
  let (s1, s2, n) := strncmpLoop s1 s2 n
  if n = 0 then 0 else byteDiff s1 s2

theorem byteDiff_eq_zero {a b : List UInt8} : byteDiff a b = 0 ↔ deref a = deref b := by
  rw [byteDiff, Int.sub_eq_zero, Int.ofNat_inj, UInt8.toNat_inj]

end SengKernel.Str

namespace SengKernel.Ksh
open Str

/-- `while (*a && (*a == *b)) { a++; b++; }` -/
def kStrcmpLoop : List UInt8 → List UInt8 → List UInt8 × List UInt8
  | [], b => ([], b)
  | c :: cs, b => if c ≠ 0 ∧ c = deref b then kStrcmpLoop cs b.tail else (c :: cs, b)

def kStrcmp (a b : List UInt8) : Int :=
  let (a, b) := kStrcmpLoop a b
  byteDiff a b

/-- `while (n-- && *a && (*a == *b)) { a++; b++; }`: the test takes one off `n`
also when it ends the loop. -/
def kStrncmpLoop : List UInt8 → List UInt8 → UInt32 → List UInt8 × List UInt8 × UInt32
  | [], b, n => ([], b, n - 1)
  | c :: cs, b, n =>
      if n ≠ 0 ∧ c ≠ 0 ∧ c = deref b then kStrncmpLoop cs b.tail (n - 1) else (c :: cs, b, n - 1)

/-- `k_strncmp` with its `size_t`; `kStrncmp` is the same with a number. -/
def kStrncmpWord (a b : List UInt8) (n : UInt32) : Int :=
  let (a, b, n) := kStrncmpLoop a b n
  if n = 0 - 1 then 0 else byteDiff a b

/-- The texts that `shell_run` compares the start of a line with, and the lengths
that it compares. -/
def linePrefixes : List (String × UInt32) :=
  [("echo ", 5), ("colour ", 7), ("kill ", 5), ("touch ", 6), ("cat ", 4), ("write ", 6), ("rm ", 3)]

theorem kStrcmp_eq (a b : List UInt8) : kStrcmp a b = strcmp a b := by
  induction a generalizing b with
  | nil => rfl
  | cons c cs ih =>
      by_cases hsame : c ≠ 0 ∧ c = deref b
      · rw [kStrcmp, kStrcmpLoop, strcmp, if_pos hsame, if_pos hsame]
        exact ih b.tail
      · rw [kStrcmp, kStrcmpLoop, strcmp, if_neg hsame, if_neg hsame]
        rfl

/-- The loops stop at the same place; `k_strncmp` has counted once more. -/
theorem kStrncmpLoop_eq (a b : List UInt8) (n : UInt32) :
    kStrncmpLoop a b n =
      ((strncmpLoop a b n).1, (strncmpLoop a b n).2.1, (strncmpLoop a b n).2.2 - 1) := by
  induction a generalizing b n with
  | nil => rfl
  | cons c cs ih =>
      rw [kStrncmpLoop, strncmpLoop]
      split
      · exact ih b.tail (n - 1)
      · rfl

theorem kStrncmpWord_eq (a b : List UInt8) (n : UInt32) : kStrncmpWord a b n = strncmp a b n := by
  -- the wrapped count says that none was left
  have hwrapped : (strncmpLoop a b n).2.2 - 1 = 0 - 1 ↔ (strncmpLoop a b n).2.2 = 0 := UInt32.sub_left_inj 1
  simp only [kStrncmpWord, strncmp, kStrncmpLoop_eq, hwrapped]

/-- The machine word counts as the number does. -/
theorem strncmp_eq (a b : List UInt8) (n : UInt32) : strncmp a b n = kStrncmp a b n.toNat := by
  induction a generalizing b n with
  | nil =>
      rw [strncmp, strncmpLoop]
      by_cases hn : n = 0
      · subst n
        rfl
      · obtain ⟨k, hk⟩ := Nat.exists_eq_succ_of_ne_zero (fun hzero => hn (UInt32.toNat_inj.mp hzero))
        rw [hk, kStrncmp, if_neg (fun hsame => hsame.1 rfl)]
        exact if_neg hn
  | cons c cs ih =>
      by_cases hn : n = 0
      · subst n
        rw [strncmp, strncmpLoop, if_neg (fun hsame => hsame.1 rfl)]
        rfl
      · obtain ⟨k, hk⟩ := Nat.exists_eq_succ_of_ne_zero (fun hzero => hn (UInt32.toNat_inj.mp hzero))
        have hpred : (n - 1).toNat = k := by
          rw [UInt32.toNat_sub_of_le _ _ (UInt32.le_iff_toNat_le.mpr (by rw [hk]; exact Nat.succ_pos k)), hk]
          rfl
        rw [hk]
        by_cases hsame : c ≠ 0 ∧ c = deref b
        · have hsame' : deref (c :: cs) ≠ 0 ∧ deref (c :: cs) = deref b := hsame
          rw [kStrncmp, if_pos hsame', List.tail_cons, ← hpred, ← ih, strncmp, strncmpLoop, if_pos ⟨hn, hsame⟩]
          rfl
        · have hsame' : ¬ (deref (c :: cs) ≠ 0 ∧ deref (c :: cs) = deref b) := hsame
          rw [kStrncmp, if_neg hsame', strncmp, strncmpLoop, if_neg (fun hall => hsame hall.2)]
          exact if_neg hn

/-- Zero says that the first `n` characters agree, as far as the strings go. -/
theorem kStrncmp_eq_zero (a b : List UInt8) (n : Nat) :
    kStrncmp a b n = 0 ↔ (text a).take n = (text b).take n := by
  induction n generalizing a b with
  | zero => exact iff_of_true rfl rfl
  | succ n ih =>
      rw [kStrncmp]
      split
      · rename_i hsame
        have hb : deref b ≠ 0 := hsame.2 ▸ hsame.1
        rw [ih, text_of_deref hsame.1, text_of_deref hb, List.take_succ_cons, List.take_succ_cons, hsame.2,
          List.cons_inj_right]
      · rename_i hdiff
        change byteDiff a b = 0 ↔ _
        rw [byteDiff_eq_zero]
        constructor
        · intro heq
          -- equal and not both a character: both strings end here
          have ha : deref a = 0 := not_not.mp (fun ha => hdiff ⟨ha, heq⟩)
          rw [deref_eq_zero.mp ha, deref_eq_zero.mp (heq ▸ ha)]
        · intro htake
          by_cases ha : deref a = 0
          · rw [deref_eq_zero.mp ha, List.take_nil] at htake
            rw [ha, eq_comm, deref_eq_zero]
            exact (List.take_eq_nil_iff.mp htake.symm).resolve_left (Nat.succ_ne_zero n)
          · by_cases hb : deref b = 0
            · rw [deref_eq_zero.mp hb, List.take_nil] at htake
              exact absurd (deref_eq_zero.mpr ((List.take_eq_nil_iff.mp htake).resolve_left (Nat.succ_ne_zero n))) ha
            · rw [text_of_deref ha, text_of_deref hb, List.take_succ_cons, List.take_succ_cons] at htake
              exact (List.cons.inj htake).1

/-- Compared over the whole of a text, a line agrees exactly when it starts with it. -/
theorem kStrncmp_prefix (cmd : List UInt8) {p : List UInt8} (hp : 0 ∉ p) :
    kStrncmp cmd p p.length = 0 ↔ p <+: text cmd := by
  have htext : text p = p := (⟨p, hp⟩ : CString).text_chars
  rw [kStrncmp_eq_zero, htext, List.take_length, List.prefix_iff_eq_take, eq_comm]

theorem linePrefixes_length {e : String × UInt32} (he : e ∈ linePrefixes) :
    (ascii e.1).length = e.2.toNat ∧ 0 ∉ ascii e.1 := by
  have hall : ∀ e ∈ linePrefixes, (ascii e.1).length = e.2.toNat ∧ 0 ∉ ascii e.1 := by decide
  exact hall e he

/-- The shell's helpers compute what the library computes; `strncmp` is zero exactly
when the strings agree so far, and so each prefix that the shell tests for is found
in exactly the lines that start with it. -/
theorem shell_comparisons_agree (a b : List UInt8) (n : UInt32) :
    kStrcmp a b = strcmp a b ∧ kStrncmpWord a b n = strncmp a b n ∧
    (strncmp a b n = 0 ↔ (text a).take n.toNat = (text b).take n.toNat) ∧
    ∀ e ∈ linePrefixes, kStrncmpWord a (ascii e.1) e.2 = 0 ↔ ascii e.1 <+: text a := by
  refine ⟨kStrcmp_eq a b, kStrncmpWord_eq a b n, ?_, fun e he => ?_⟩
  · rw [strncmp_eq]
    exact kStrncmp_eq_zero a b n.toNat
  · obtain ⟨hlength, hnul⟩ := linePrefixes_length he
    rw [kStrncmpWord_eq, strncmp_eq, ← hlength]
    exact kStrncmp_prefix a hnul

end SengKernel.Ksh
