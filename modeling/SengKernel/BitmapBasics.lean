import Mathlib

/- Bitmaps held in an array of bytes: bit `i` is bit `i % 8` of byte `i / 8`.
   Tests, updates and the number of clear bits, for any such array. -/
namespace ByteBitmap

/-- The one-bit mask of a bit inside its byte. -/
def mask (i : Nat) : UInt8 := 1 <<< UInt8.ofNat (i % 8)

def test (bm : Nat → UInt8) (i : Nat) : Bool := (bm (i / 8) &&& mask i) != 0

def set (bm : Nat → UInt8) (i : Nat) : Nat → UInt8 :=
  Function.update bm (i / 8) (bm (i / 8) ||| mask i)

def clear (bm : Nat → UInt8) (i : Nat) : Nat → UInt8 :=
  Function.update bm (i / 8) (bm (i / 8) &&& ~~~ mask i)

/-- Bit `k` of one byte of the array. -/
def byteBit (b : UInt8) (k : Nat) : Bool := b.toBitVec.getLsbD k

private theorem and_mask_ne_zero (b : UInt8) (k : Fin 8) :
    ((b &&& (1 <<< UInt8.ofNat k.val)) != 0) = byteBit b k.val := by
  revert b k
  decide +kernel

private theorem mask_byteBit (k j : Fin 8) :
    byteBit (1 <<< UInt8.ofNat k.val) j.val = decide (j.val = k.val) := by
  revert k j
  decide +kernel

theorem test_eq_byteBit (bm : Nat → UInt8) (i : Nat) :
    test bm i = byteBit (bm (i / 8)) (i % 8) :=
  and_mask_ne_zero (bm (i / 8)) ⟨i % 8, Nat.mod_lt i (by omega)⟩

theorem byteBit_mask (i j : Nat) : byteBit (mask i) (j % 8) = decide (j % 8 = i % 8) :=
  mask_byteBit ⟨i % 8, Nat.mod_lt i (by omega)⟩ ⟨j % 8, Nat.mod_lt j (by omega)⟩

/-- Inside one byte the bit number decides; another byte is left as it was. -/
theorem test_set (bm : Nat → UInt8) (i j : Nat) :
    test (set bm i) j = (decide (j = i) || test bm j) := by
  rw [test_eq_byteBit, test_eq_byteBit, set]
  by_cases hbyte : j / 8 = i / 8
  · have hbit : (j % 8 = i % 8) ↔ j = i := by omega
    have hor : byteBit (bm (i / 8) ||| mask i) (j % 8) =
        (byteBit (bm (i / 8)) (j % 8) || byteBit (mask i) (j % 8)) := by
      simp only [byteBit, UInt8.toBitVec_or, BitVec.getLsbD_or]
    rw [hbyte, Function.update_self, hor, byteBit_mask, Bool.or_comm]
    simp only [hbit]
  · have hne : j ≠ i := fun h => hbyte (by rw [h])
    rw [Function.update_of_ne hbyte]
    simp only [hne, decide_false, Bool.false_or]

theorem test_clear (bm : Nat → UInt8) (i j : Nat) :
    test (clear bm i) j = (decide (j ≠ i) && test bm j) := by
  rw [test_eq_byteBit, test_eq_byteBit, clear]
  by_cases hbyte : j / 8 = i / 8
  · have hbit : (j % 8 = i % 8) ↔ j = i := by omega
    have hlt : j % 8 < 8 := Nat.mod_lt j (by omega)
    have hand : byteBit (bm (i / 8) &&& ~~~ mask i) (j % 8) =
        (byteBit (bm (i / 8)) (j % 8) && !byteBit (mask i) (j % 8)) := by
      simp only [byteBit, UInt8.toBitVec_and, UInt8.toBitVec_not, BitVec.getLsbD_and,
        BitVec.getLsbD_not, hlt, decide_true, Bool.true_and]
    rw [hbyte, Function.update_self, hand, byteBit_mask, Bool.and_comm]
    simp only [hbit, ne_eq, decide_not]
  · have hne : j ≠ i := fun h => hbyte (by rw [h])
    rw [Function.update_of_ne hbyte]
    simp only [ne_eq, hne, not_false_eq_true, decide_true, Bool.true_and]

@[simp] theorem test_set_self (bm : Nat → UInt8) (i : Nat) : test (set bm i) i = true := by
  simp [test_set]

@[simp] theorem test_clear_self (bm : Nat → UInt8) (i : Nat) : test (clear bm i) i = false := by
  simp [test_clear]

/-- Arrays with the same bits hold the same bytes. -/
theorem eq_of_test {a b : Nat → UInt8} (h : ∀ i, test a i = test b i) : a = b := by
  funext j
  refine UInt8.toBitVec_inj.mp (BitVec.eq_of_getLsbD_eq (fun k hk => ?_))
  have hbit := h (8 * j + k)
  have hbyte : (8 * j + k) / 8 = j := by omega
  have hmod : (8 * j + k) % 8 = k := by omega
  rwa [test_eq_byteBit, test_eq_byteBit, hbyte, hmod] at hbit

/-- The clear bits among the first `n`. -/
def clearBits (bm : Nat → UInt8) (n : Nat) : Finset Nat :=
  (Finset.range n).filter (fun i => test bm i = false)

def clearCount (bm : Nat → UInt8) (n : Nat) : Nat := (clearBits bm n).card

@[simp] theorem mem_clearBits {bm : Nat → UInt8} {n i : Nat} :
    i ∈ clearBits bm n ↔ i < n ∧ test bm i = false := by simp [clearBits]

theorem clearCount_le (bm : Nat → UInt8) (n : Nat) : clearCount bm n ≤ n := by
  have := Finset.card_filter_le (Finset.range n) (fun i => test bm i = false)
  simpa only [clearCount, clearBits, Finset.card_range] using this

theorem clearCount_set {bm : Nat → UInt8} {i n : Nat} (hi : i < n) (hclear : test bm i = false) :
    clearCount (set bm i) n + 1 = clearCount bm n := by
  have hsplit : clearBits (set bm i) n = (clearBits bm n).erase i := by
    ext j
    simp only [mem_clearBits, Finset.mem_erase, test_set, Bool.or_eq_false_iff, decide_eq_false_iff_not]
    tauto
  rw [clearCount, hsplit]
  exact Finset.card_erase_add_one (mem_clearBits.mpr ⟨hi, hclear⟩)

theorem clearCount_clear {bm : Nat → UInt8} {i n : Nat} (hi : i < n) (hset : test bm i = true) :
    clearCount (clear bm i) n = clearCount bm n + 1 := by
  have hsplit : clearBits (clear bm i) n = insert i (clearBits bm n) := by
    ext j
    by_cases h : j = i
    · subst j; simp [hi]
    · simp [h, test_clear]
  rw [clearCount, hsplit]
  exact Finset.card_insert_of_notMem (fun h => by simp [hset] at h)

theorem clearCount_pos {bm : Nat → UInt8} {i n : Nat} (hi : i < n) (hclear : test bm i = false) :
    0 < clearCount bm n :=
  Finset.card_pos.mpr ⟨i, mem_clearBits.mpr ⟨hi, hclear⟩⟩

theorem exists_clear_of_pos {bm : Nat → UInt8} {n : Nat} (h : 0 < clearCount bm n) :
    ∃ i, i < n ∧ test bm i = false := by
  obtain ⟨i, hi⟩ := Finset.card_pos.mp h
  exact ⟨i, mem_clearBits.mp hi⟩

end ByteBitmap
