import Mathlib

/- Strings that are overwritten from an offset on, windows of a memory, and a memory
   overlaid with a string. -/
namespace Splice

variable {α : Type*}

/-- `ys` written over `xs` from the offset `o` on. -/
def splice (xs : List α) (o : Nat) (ys : List α) : List α := xs.take o ++ ys ++ xs.drop (o + ys.length)

theorem length_splice {xs ys : List α} {o : Nat} (h : o ≤ xs.length) :
    (splice xs o ys).length = max xs.length (o + ys.length) := by
  simp only [splice, List.length_append, List.length_take, List.length_drop]
  omega

theorem splice_nil {xs : List α} {o : Nat} : splice xs o [] = xs := by
  rw [splice, List.append_nil, List.length_nil, Nat.add_zero, List.take_append_drop]

theorem getElem?_splice {xs ys : List α} {o : Nat} (h : o ≤ xs.length) (i : Nat) :
    (splice xs o ys)[i]? = if o ≤ i ∧ i < o + ys.length then ys[i - o]? else xs[i]? := by
  have htake : (xs.take o).length = o := by
    rw [List.length_take]
    omega
  rw [splice, List.append_assoc, List.getElem?_append, List.getElem?_append, htake]
  by_cases hlow : i < o
  · rw [if_pos hlow, if_neg (by omega), List.getElem?_take_of_lt hlow]
  · rw [if_neg hlow]
    by_cases hmid : i - o < ys.length
    · rw [if_pos hmid, if_pos (by omega)]
    · rw [if_neg hmid, if_neg (by omega), List.getElem?_drop]
      congr 1
      omega

/-- Two writes in a row are one. -/
theorem splice_splice {xs ys zs : List α} {o : Nat} (h : o ≤ xs.length) :
    splice (splice xs o ys) (o + ys.length) zs = splice xs o (ys ++ zs) := by
  have hmid : o + ys.length ≤ (splice xs o ys).length := by
    rw [length_splice h]
    exact Nat.le_max_right ..
  refine List.ext_getElem? (fun i => ?_)
  rw [getElem?_splice hmid, getElem?_splice h, getElem?_splice h, List.length_append, List.getElem?_append]
  by_cases hlast : o + ys.length ≤ i ∧ i < o + ys.length + zs.length
  · rw [if_pos hlast, if_pos (by omega), if_neg (by omega)]
    congr 1
    omega
  · rw [if_neg hlast]
    by_cases hfirst : o ≤ i ∧ i < o + ys.length
    · rw [if_pos hfirst, if_pos (by omega), if_pos (by omega)]
    · rw [if_neg hfirst, if_neg (by omega)]

/-- The `n` values of a memory from the address `i` on. -/
def window (m : Nat → α) (i n : Nat) : List α := (List.range n).map (fun j => m (i + j))

@[simp] theorem length_window (m : Nat → α) (i n : Nat) : (window m i n).length = n := by
  rw [window, List.length_map, List.length_range]

theorem getElem?_window (m : Nat → α) (i n j : Nat) :
    (window m i n)[j]? = if j < n then some (m (i + j)) else none := by
  rw [window, List.getElem?_map]
  split
  · rename_i hj
    rw [List.getElem?_range hj]
    rfl
  · rename_i hj
    rw [List.getElem?_eq_none (by rw [List.length_range]; omega)]
    rfl

theorem window_append (m : Nat → α) (i a b : Nat) : window m i a ++ window m (i + a) b = window m i (a + b) := by
  refine List.ext_getElem? (fun j => ?_)
  rw [List.getElem?_append, length_window, getElem?_window, getElem?_window, getElem?_window]
  by_cases hj : j < a
  · rw [if_pos hj, if_pos hj, if_pos (by omega)]
  · rw [if_neg hj]
    by_cases hb : j < a + b
    · rw [if_pos (by omega), if_pos hb, show i + a + (j - a) = i + j by omega]
    · rw [if_neg (by omega), if_neg hb]

theorem window_congr {m m' : Nat → α} {i n : Nat} (h : ∀ j < n, m (i + j) = m' (i + j)) : window m i n = window m' i n :=
  List.map_congr_left (fun j hj => h j (List.mem_range.mp hj))

theorem window_succ (m : Nat → α) (i n : Nat) : window m i (n+1) = m i :: window m (i+1) n := by
  rw [window, List.range_succ_eq_map, List.map_cons, List.map_map, Nat.add_zero]
  refine congrArg (List.cons (m i)) (List.map_congr_left (fun j _ => ?_))
  exact congrArg m (Nat.add_right_comm i j 1)

/-- A memory whose first values are replaced by a string. -/
def overlay (ys : List α) (m : Nat → α) : Nat → α := fun i => (ys[i]?).getD (m i)

theorem overlay_nil (m : Nat → α) : overlay [] m = m := rfl

theorem window_overlay (ys : List α) (m : Nat → α) : window (overlay ys m) 0 ys.length = ys := by
  refine List.ext_getElem? (fun j => ?_)
  rw [getElem?_window]
  split
  · rename_i hj
    rw [Nat.zero_add, overlay, List.getElem?_eq_getElem hj]
    rfl
  · rename_i hj
    rw [List.getElem?_eq_none (Nat.le_of_not_lt hj)]

/-- The pieces of `n` values that a string is cut into; the last one may be shorter. -/
def pieces (n : Nat) (xs : List α) : List (List α) :=
  (List.range ((xs.length + (n - 1)) / n)).map (fun i => (xs.drop (n * i)).take n)

theorem pieces_nil {n : Nat} (hn : 0 < n) : pieces n ([] : List α) = [] := by
  rw [pieces, List.length_nil, Nat.zero_add, Nat.div_eq_of_lt (by omega)]
  rfl

theorem pieces_cons {n : Nat} (hn : 0 < n) {xs : List α} (h : xs ≠ []) :
    pieces n xs = xs.take n :: pieces n (xs.drop n) := by
  have hpos : 0 < xs.length := List.length_pos_iff.mpr h
  have hcount : (xs.length + (n - 1)) / n = ((xs.drop n).length + (n - 1)) / n + 1 := by
    rw [List.length_drop]
    by_cases hshort : xs.length ≤ n
    · have hnone : (xs.length - n + (n - 1)) / n = 0 := Nat.div_eq_of_lt (by omega)
      have hone : (xs.length + (n - 1)) / n = 1 := Nat.div_eq_of_lt_le (by omega) (by omega)
      rw [hnone, hone]
    · rw [← Nat.add_div_right _ hn]
      congr 1
      omega
  rw [pieces, hcount, List.range_succ_eq_map, List.map_cons, List.map_map]
  refine congrArg (List.cons (xs.take n)) (List.map_congr_left (fun i _ => ?_))
  rw [Function.comp_apply, List.drop_drop, Nat.mul_succ, Nat.add_comm]

/-- Nothing is dropped or repeated. -/
theorem flatten_pieces {n : Nat} (hn : 0 < n) (xs : List α) : (pieces n xs).flatten = xs := by
  generalize hlen : xs.length = len
  induction len using Nat.strong_induction_on generalizing xs with
  | _ len ih =>
      by_cases h : xs = []
      · rw [h, pieces_nil hn]
        rfl
      · have hpos : 0 < xs.length := List.length_pos_iff.mpr h
        rw [pieces_cons hn h, List.flatten_cons, ih (xs.drop n).length (by rw [List.length_drop]; omega) _ rfl,
          List.take_append_drop]

end Splice
