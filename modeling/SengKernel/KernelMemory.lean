import SengKernel.CopyBasics

/- memmove of kernel/string.c on a memory with 32-bit addresses. Its pointers and
   its count are machine words. -/
namespace SengKernel.Str

open ByteCopy

/-- A byte for every address. -/
abbrev Memory := UInt32 → UInt8

/-- `while (n--) *d++ = *s++;` -/
def copyUp (m : Memory) (d s : UInt32) : Nat → Memory
  | 0 => m
  | n+1 => copyUp (Function.update m d (m s)) (d + 1) (s + 1) n

/-- `while (n--) *--d = *--s;` -/
def copyDown (m : Memory) (d s : UInt32) : Nat → Memory
  | 0 => m
  | n+1 => copyDown (Function.update m (d - 1) (m (s - 1))) (d - 1) (s - 1) n

/-- The memory after the call, and what the call returns. -/
def memmove (m : Memory) (dest src n : UInt32) : Memory × UInt32 :=
  if dest < src then (copyUp m dest src n.toNat, dest)
  else (copyDown m (dest + n) (src + n) n.toNat, dest)

/-- The address `i` bytes on. -/
def offset (p : UInt32) (i : Nat) : UInt32 := p + UInt32.ofNat i

@[simp] theorem offset_zero (p : UInt32) : offset p 0 = p := UInt32.add_zero p

theorem offset_succ (p : UInt32) (i : Nat) : offset p (i + 1) = offset (p + 1) i := by
  rw [offset, offset, UInt32.ofNat_add, UInt32.add_assoc, UInt32.add_comm 1]
  rfl

theorem offset_pred (p : UInt32) (i : Nat) : offset p (i + 1) - 1 = offset p i := by
  rw [offset, offset, UInt32.ofNat_add, ← UInt32.add_assoc]
  exact UInt32.add_sub_cancel _ 1

theorem offset_toNat_self (p n : UInt32) : offset p n.toNat = p + n := by
  rw [offset, UInt32.ofNat_toNat]

/-- Inside a range that does not wrap, addresses are numbers. -/
theorem toNat_offset {p : UInt32} {n i : Nat} (hwrap : p.toNat + n ≤ 2 ^ 32) (hi : i < n) :
    (offset p i).toNat = p.toNat + i := by
  rw [offset, UInt32.toNat_add, UInt32.toNat_ofNat']
  omega

theorem offset_ne {p q : UInt32} {n i j : Nat} (hp : p.toNat + n ≤ 2 ^ 32) (hq : q.toNat + n ≤ 2 ^ 32)
    (hi : i < n) (hj : j < n) (hne : p.toNat + i ≠ q.toNat + j) : offset p i ≠ offset q j := by
  intro heq
  apply hne
  rw [← toNat_offset hp hi, ← toNat_offset hq hj, heq]

theorem copyUp_eq (m : Memory) (d s : UInt32) (n : Nat) :
    copyUp m d s n = copy (offset d) (offset s) m (List.range n) := by
  induction n generalizing m d s with
  | zero => rfl
  | succ n ih =>
      rw [copyUp, ih, List.range_succ_eq_map, copy_cons, copy_map]
      simp only [offset_zero, Nat.succ_eq_add_one, offset_succ]

theorem copyDown_eq (m : Memory) (d s : UInt32) (n : Nat) :
    copyDown m (offset d n) (offset s n) n = copy (offset d) (offset s) m (List.range n).reverse := by
  induction n generalizing m with
  | zero => rfl
  | succ n ih =>
      rw [copyDown, offset_pred, offset_pred, ih, List.range_succ, List.reverse_append]
      rfl

/-- The order that a copy takes over the offsets decides which stores come before
which reads. -/
theorem range_pairwise {n : Nat} {R : Nat → Nat → Prop} (h : ∀ i j, i < j → j < n → R i j) :
    (List.range n).Pairwise R := by
  refine List.pairwise_lt_range.imp_of_mem (fun _ hj hlt => ?_)
  exact h _ _ hlt (List.mem_range.mp hj)

theorem range_reverse_pairwise {n : Nat} {R : Nat → Nat → Prop} (h : ∀ i j, j < i → i < n → R i j) :
    (List.range n).reverse.Pairwise R :=
  List.pairwise_reverse.mpr (range_pairwise (fun i j hij hj => h j i hij hj))

section Ranges

variable {dest src : UInt32} {n : Nat} (hdest : dest.toNat + n ≤ 2 ^ 32) (hsrc : src.toNat + n ≤ 2 ^ 32)
include hdest

theorem copy_outside (m : Memory) {ks : List Nat} (hks : ∀ k, k ∈ ks → k < n) {a : UInt32}
    (ha : a.toNat < dest.toNat ∨ dest.toNat + n ≤ a.toNat) : copy (offset dest) (offset src) m ks a = m a := by
  refine copy_other _ m (fun k hk heq => ?_)
  have := toNat_offset hdest (hks k hk)
  rw [heq] at this
  have := hks k hk
  omega

include hsrc

/-- Upwards, a destination below the source is never ahead of the reads. -/
theorem copyUp_stored (m : Memory) (hlt : dest.toNat < src.toNat) {i : Nat} (hi : i < n) :
    copyUp m dest src n (offset dest i) = m (offset src i) := by
  rw [copyUp_eq]
  apply copy_stored
  · exact range_pairwise (fun i j hij hj => offset_ne hdest hdest (by omega) hj (by omega))
  · exact range_pairwise (fun i j hij hj => offset_ne hdest hsrc (by omega) hj (by omega))
  · exact List.mem_range.mpr hi

/-- Downwards, the same of a destination at or above the source. -/
theorem copyDown_stored (m : Memory) (hle : src.toNat ≤ dest.toNat) {i : Nat} (hi : i < n) :
    copyDown m (offset dest n) (offset src n) n (offset dest i) = m (offset src i) := by
  rw [copyDown_eq]
  apply copy_stored
  · exact range_reverse_pairwise (fun i j hij hi => offset_ne hdest hdest hi (by omega) (by omega))
  · exact range_reverse_pairwise (fun i j hij hi => offset_ne hdest hsrc hi (by omega) (by omega))
  · exact List.mem_reverse.mpr (List.mem_range.mpr hi)

end Ranges

/-- After `memmove` the range at `dest` holds what the range at `src` held, and
every other byte is as it was. -/
theorem memmove_moves (m : Memory) (dest src n : UInt32) (hdest : dest.toNat + n.toNat ≤ 2 ^ 32)
    (hsrc : src.toNat + n.toNat ≤ 2 ^ 32) :
    (∀ i, i < n.toNat → (memmove m dest src n).1 (offset dest i) = m (offset src i)) ∧
    (∀ a : UInt32, a.toNat < dest.toNat ∨ dest.toNat + n.toNat ≤ a.toNat → (memmove m dest src n).1 a = m a) ∧
    (memmove m dest src n).2 = dest := by
  rw [memmove]
  split
  · rename_i hlt
    refine ⟨fun i hi => copyUp_stored hdest hsrc m (UInt32.lt_iff_toNat_lt.mp hlt) hi, fun a ha => ?_, rfl⟩
    rw [copyUp_eq]
    exact copy_outside hdest m (fun k hk => List.mem_range.mp hk) ha
  · rename_i hge
    have hle : src.toNat ≤ dest.toNat := Nat.le_of_not_lt (fun hlt => hge (UInt32.lt_iff_toNat_lt.mpr hlt))
    rw [← offset_toNat_self, ← offset_toNat_self]
    refine ⟨fun i hi => copyDown_stored hdest hsrc m hle hi, fun a ha => ?_, rfl⟩
    rw [copyDown_eq]
    exact copy_outside hdest m (fun k hk => List.mem_range.mp (List.mem_reverse.mp hk)) ha

/-- An overlap that ends at the last byte of the address space. -/
theorem memmove_moves_sample :
    (memmove (fun a => a.toUInt8) 0xFFFFFFFB 0xFFFFFFFA 5).1 0xFFFFFFFF = 0xFE ∧
    (memmove (fun a => a.toUInt8) 0xFFFFFFFB 0xFFFFFFFA 5).1 0xFFFFFFFA = 0xFA := by
  have hmoved := memmove_moves (fun a => a.toUInt8) 0xFFFFFFFB 0xFFFFFFFA 5 (by decide) (by decide)
  exact ⟨hmoved.1 4 (by decide), hmoved.2.1 0xFFFFFFFA (by decide)⟩

end SengKernel.Str
