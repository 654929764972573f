import Mathlib

/- Numbers in a memory of bytes, the low byte first. -/
namespace ByteOrder

abbrev Memory := Nat → UInt8

/-- The `k` low bytes of a number. -/
def bytes : Nat → Nat → List UInt8
  | 0, _ => []
  | k+1, n => UInt8.ofNat n :: bytes k (n / 256)

/-- The number in the `k` bytes from an address on. -/
def read (m : Memory) (a : Nat) : Nat → Nat
  | 0 => 0
  | k+1 => (m a).toNat + 256 * read m (a + 1) k

def store (m : Memory) (a : Nat) (bs : List UInt8) : Memory :=
  fun x => if h : a ≤ x ∧ x < a + bs.length then bs[x - a] else m x

/-- The bytes lie at the address. -/
def Holds (m : Memory) (a : Nat) (bs : List UInt8) : Prop := ∀ i, (hi : i < bs.length) → m (a + i) = bs[i]

section Bytes

variable {m m' : Memory} {a k n : Nat} {bs cs : List UInt8}

@[simp] theorem bytes_length (k n : Nat) : (bytes k n).length = k := by
  induction k generalizing n with
  | zero => rfl
  | succ k ih => rw [bytes, List.length_cons, ih]

theorem holds_cons {b : UInt8} : Holds m a (b :: bs) ↔ m a = b ∧ Holds m (a + 1) bs := by
  constructor
  · intro h
    refine ⟨h 0 (Nat.zero_lt_succ _), fun i hi => ?_⟩
    have := h (i + 1) (Nat.succ_lt_succ hi)
    rw [← Nat.add_assoc, Nat.add_right_comm] at this
    exact this
  · rintro ⟨hfirst, hrest⟩ i hi
    cases i with
    | zero => exact hfirst
    | succ i =>
        have := hrest i (Nat.lt_of_succ_lt_succ hi)
        rw [Nat.add_right_comm] at this
        exact this

theorem holds_append : Holds m a (bs ++ cs) ↔ Holds m a bs ∧ Holds m (a + bs.length) cs := by
  induction bs generalizing a with
  | nil => exact ⟨fun h => ⟨fun i hi => absurd hi (Nat.not_lt_zero i), h⟩, fun h => h.2⟩
  | cons b bs ih =>
      have hshift : a + (b :: bs).length = a + 1 + bs.length := by
        rw [List.length_cons]
        omega
      rw [List.cons_append, holds_cons, ih, holds_cons, and_assoc, hshift]

/-- What a number's bytes are read as. -/
theorem Holds.read_eq (h : Holds m a (bytes k n)) : read m a k = n % 256 ^ k := by
  induction k generalizing a n with
  | zero => exact (Nat.mod_one n).symm
  | succ k ih =>
      obtain ⟨hfirst, hrest⟩ := holds_cons.mp h
      have hbyte : (m a).toNat = n % 256 := by
        rw [hfirst]
        exact UInt8.toNat_ofNat'
      have hsplit : n % 256 ^ (k + 1) = n % 256 + 256 * (n / 256 % 256 ^ k) := by
        rw [Nat.pow_succ', Nat.mod_mul]
      rw [read, hbyte, ih hrest, hsplit]

theorem Holds.congr (h : Holds m a bs) (hsame : ∀ x, a ≤ x → x < a + bs.length → m' x = m x) : Holds m' a bs := by
  intro i hi
  rw [hsame (a + i) (Nat.le_add_right a i) (Nat.add_lt_add_left hi a)]
  exact h i hi

theorem holds_store (m : Memory) (a : Nat) (bs : List UInt8) : Holds (store m a bs) a bs := by
  intro i hi
  have hin : a ≤ a + i ∧ a + i < a + bs.length := ⟨Nat.le_add_right a i, Nat.add_lt_add_left hi a⟩
  rw [store, dif_pos hin]
  congr 1
  exact Nat.add_sub_cancel_left a i

theorem store_outside {x : Nat} (h : x < a ∨ a + bs.length ≤ x) : store m a bs x = m x := by
  apply dif_neg
  omega

end Bytes

end ByteOrder
