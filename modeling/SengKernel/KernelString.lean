import Mathlib

/- kernel/string.c on the bytes that its pointers reach. A byte list that ends
   stands for the NUL that ends its array; memory is a function of the address. -/
namespace SengKernel.Str

/-- `*s` -/
def deref (s : List UInt8) : UInt8 := s.headD 0

def strlen : List UInt8 → Nat
  | [] => 0
  | c :: cs => if c = 0 then 0 else strlen cs + 1

def strcmp : List UInt8 → List UInt8 → Int
  | [], s2 => 0 - (deref s2).toNat
  | c :: cs, s2 =>
      if c ≠ 0 ∧ c = deref s2 then strcmp cs s2.tail else (c.toNat : Int) - (deref s2).toNat

/-- The `n` bytes that `strncpy` stores at its destination. -/
def strncpy : List UInt8 → Nat → List UInt8
  | _, 0 => []
  | src, n+1 => if deref src = 0 then List.replicate (n+1) 0 else deref src :: strncpy src.tail n

/-- `while (n--) *d++ = *s++;` -/
def memcpy (dest : Nat → UInt8) (d : Nat) (src : Nat → UInt8) (s : Nat) : Nat → Nat → UInt8
  | 0 => dest
  | n+1 => memcpy (Function.update dest d (src s)) (d+1) src (s+1) n

theorem memcpy_apply (dest : Nat → UInt8) (d : Nat) (src : Nat → UInt8) (s n a : Nat) :
    memcpy dest d src s n a = if d ≤ a ∧ a < d + n then src (s + (a - d)) else dest a := by
  induction n generalizing dest d s with
  | zero =>
      rw [if_neg (by omega)]
      rfl
  | succ n ih =>
      rw [memcpy, ih]
      by_cases hlater : d + 1 ≤ a ∧ a < d + 1 + n
      · rw [if_pos hlater, if_pos (by omega), show s + 1 + (a - (d + 1)) = s + (a - d) by omega]
      · rw [if_neg hlater]
        by_cases hfirst : a = d
        · subst a
          rw [Function.update_self, if_pos (by omega), Nat.sub_self, Nat.add_zero]
        · rw [Function.update_of_ne hfirst, if_neg (by omega)]

/-- The characters before the NUL. -/
def text (s : List UInt8) : List UInt8 := s.takeWhile (fun c => c != 0)

/-- A string that its NUL ends, as a caller passes it. -/
structure CString where
  chars : List UInt8
  noNul : 0 ∉ chars
  deriving DecidableEq, Repr

@[simp] theorem text_nil : text [] = [] := rfl

theorem text_cons (c : UInt8) (cs : List UInt8) : text (c :: cs) = if c = 0 then [] else c :: text cs := by
  rw [text, List.takeWhile_cons]
  by_cases hc : c = 0
  · rw [if_pos hc, hc]
    rfl
  · rw [if_neg hc, if_pos (by simpa using hc)]
    rfl

theorem nul_notMem_text (s : List UInt8) : 0 ∉ text s := by
  induction s with
  | nil => exact List.not_mem_nil
  | cons c cs ih =>
      rw [text_cons]
      split
      · exact List.not_mem_nil
      · rename_i hc
        exact fun hmem => (List.mem_cons.mp hmem).elim (fun h => hc h.symm) ih

def ofBytes (s : List UInt8) : CString := ⟨text s, nul_notMem_text s⟩

theorem text_append {s : List UInt8} (h : 0 ∉ s) (t : List UInt8) : text (s ++ t) = s ++ text t := by
  induction s with
  | nil => rfl
  | cons c cs ih =>
      obtain ⟨hc, hcs⟩ := List.ne_and_not_mem_of_not_mem_cons h
      rw [List.cons_append, text_cons, if_neg (Ne.symm hc), ih hcs, List.cons_append]

@[simp] theorem CString.text_chars (f : CString) : text f.chars = f.chars := by
  have := text_append f.noNul []
  rwa [List.append_nil, text_nil, List.append_nil] at this

theorem strlen_eq (s : List UInt8) : strlen s = (text s).length := by
  induction s with
  | nil => rfl
  | cons c cs ih =>
      rw [strlen, text_cons]
      split
      · rfl
      · rw [ih, List.length_cons]

theorem deref_eq_zero {s : List UInt8} : deref s = 0 ↔ text s = [] := by
  cases s with
  | nil => exact iff_of_true rfl rfl
  | cons c cs =>
      rw [text_cons, deref, List.headD_cons]
      split
      · rename_i hc
        exact iff_of_true hc rfl
      · rename_i hc
        exact iff_of_false hc (List.cons_ne_nil c _)

theorem text_of_deref {s : List UInt8} (h : deref s ≠ 0) : text s = deref s :: text s.tail := by
  cases s with
  | nil => exact (h rfl).elim
  | cons c cs =>
      have hc : c ≠ 0 := h
      rw [text_cons, if_neg hc]
      rfl

/-- Two strings compare equal exactly when their characters are the same. -/
theorem strcmp_eq_zero (s1 s2 : List UInt8) : strcmp s1 s2 = 0 ↔ text s1 = text s2 := by
  induction s1 generalizing s2 with
  | nil =>
      have hzero : strcmp [] s2 = 0 ↔ deref s2 = 0 := by
        rw [strcmp, UInt8.ext_iff]
        simp only [UInt8.toNat_zero]
        omega
      rw [hzero, deref_eq_zero, text_nil]
      exact eq_comm
  | cons c cs ih =>
      rw [strcmp]
      split
      · rename_i hsame
        obtain ⟨hc, hd⟩ := hsame
        have hd' : deref s2 ≠ 0 := hd ▸ hc
        rw [ih, text_cons, if_neg hc, text_of_deref hd', ← hd, List.cons_inj_right]
      · rename_i hdiff
        have hzero : (c.toNat : Int) - (deref s2).toNat = 0 ↔ c = deref s2 := by
          rw [UInt8.ext_iff]
          omega
        rw [hzero, text_cons]
        by_cases hc : c = 0
        · rw [if_pos hc, hc, eq_comm, deref_eq_zero]
          exact eq_comm
        · rw [if_neg hc]
          refine iff_of_false (fun hd => hdiff ⟨hc, hd⟩) (fun htext => ?_)
          have hd : deref s2 ≠ 0 := fun h => by
            rw [deref_eq_zero.mp h] at htext
            cases htext
          rw [text_of_deref hd] at htext
          exact hdiff ⟨hc, (List.cons.inj htext).1⟩

/-- A string that fits is copied and padded with NULs. -/
theorem strncpy_eq {s : List UInt8} {n : Nat} (hnul : 0 ∉ s) (hn : s.length ≤ n) :
    strncpy s n = s ++ List.replicate (n - s.length) 0 := by
  induction s generalizing n with
  | nil =>
      cases n with
      | zero => rfl
      | succ n => rfl
  | cons c cs ih =>
      obtain ⟨hc, hcs⟩ := List.ne_and_not_mem_of_not_mem_cons hnul
      cases n with
      | zero => exact (Nat.not_succ_le_zero _ hn).elim
      | succ n =>
          have hd : deref (c :: cs) ≠ 0 := Ne.symm hc
          rw [strncpy, if_neg hd, List.tail_cons, ih hcs (Nat.le_of_succ_le_succ hn), List.length_cons,
            Nat.add_sub_add_right]
          rfl

theorem strncpy_length (s : List UInt8) (n : Nat) : (strncpy s n).length = n := by
  induction n generalizing s with
  | zero => rfl
  | succ n ih =>
      rw [strncpy]
      split
      · exact List.length_replicate
      · rw [List.length_cons, ih]

end SengKernel.Str
