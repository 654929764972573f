import Mathlib

/- Bounded counting loops: the first index that passes a test, and a body run
   over an index range. A while loop with a break carries fuel, and its rules say
   when the fuel does not matter. All are structural, so that a closed run computes. -/
namespace BoundedLoop

/-- `for (i = start; i < start + n; i++) if (p i) return i;` -/
def scan (p : Nat → Bool) : Nat → Nat → Option Nat
  | _, 0 => none
  | i, n+1 => if p i then some i else scan p (i+1) n

theorem scan_some {p : Nat → Bool} {start n i : Nat} (h : scan p start n = some i) :
    start ≤ i ∧ i < start + n ∧ p i = true ∧ ∀ j, start ≤ j → j < i → p j = false := by
  induction n generalizing start with
  | zero => cases h
  | succ n ih =>
      simp only [scan] at h
      split at h
      · rename_i hp
        cases h
        exact ⟨Nat.le_refl _, by omega, hp, fun j _ _ => by omega⟩
      · rename_i hp
        obtain ⟨hle, hlt, hi, hbefore⟩ := ih h
        refine ⟨by omega, by omega, hi, ?_⟩
        intro j hj hji
        rcases Nat.eq_or_lt_of_le hj with rfl | hlater
        · exact Bool.not_eq_true _ ▸ hp
        · exact hbefore j hlater hji

theorem scan_none {p : Nat → Bool} {start n : Nat} (h : scan p start n = none) :
    ∀ j, start ≤ j → j < start + n → p j = false := by
  induction n generalizing start with
  | zero => intro j hj hlt; omega
  | succ n ih =>
      simp only [scan] at h
      split at h
      · cases h
      · rename_i hp
        intro j hj hlt
        rcases Nat.eq_or_lt_of_le hj with rfl | hlater
        · exact Bool.not_eq_true _ ▸ hp
        · exact ih h j hlater (by omega)

/-- The first index that passes decides the whole scan. -/
theorem scan_eq_some {p : Nat → Bool} {start n i : Nat} (hle : start ≤ i) (hlt : i < start + n)
    (hi : p i = true) (hbefore : ∀ j, start ≤ j → j < i → p j = false) :
    scan p start n = some i := by
  cases hs : scan p start n with
  | none =>
      have := scan_none hs i hle hlt
      rw [hi] at this
      cases this
  | some k =>
      obtain ⟨hk, _, hpk, hk'⟩ := scan_some hs
      have hki : ¬ k < i := fun h => by rw [hbefore k hk h] at hpk; cases hpk
      have hik : ¬ i < k := fun h => by rw [hk' i hle h] at hi; cases hi
      exact congrArg some (by omega)

theorem scan_eq_none {p : Nat → Bool} {start n : Nat}
    (h : ∀ j, start ≤ j → j < start + n → p j = false) : scan p start n = none := by
  cases hs : scan p start n with
  | none => rfl
  | some k =>
      obtain ⟨hk, hkn, hpk, _⟩ := scan_some hs
      rw [h k hk hkn] at hpk
      cases hpk

theorem scan_congr {p q : Nat → Bool} {start n : Nat} (h : ∀ j, start ≤ j → j < start + n → p j = q j) :
    scan p start n = scan q start n := by
  induction n generalizing start with
  | zero => rfl
  | succ n ih =>
      rw [scan, scan, h start (Nat.le_refl start) (by omega), ih (fun j hj hlt => h j (by omega) (by omega))]

/-- `for (i = start; i < start + n; i++) s = f(i, s);` -/
def forRange {σ : Type*} (f : Nat → σ → σ) : Nat → Nat → σ → σ
  | _, 0, s => s
  | i, n+1, s => forRange f (i+1) n (f i s)

/-- The loop rule: an invariant indexed by the next index to be visited. -/
theorem forRange_invariant {σ : Type*} {f : Nat → σ → σ} (P : Nat → σ → Prop) {start n : Nat} {s : σ}
    (h0 : P start s) (hstep : ∀ i t, start ≤ i → i < start + n → P i t → P (i+1) (f i t)) :
    P (start + n) (forRange f start n s) := by
  induction n generalizing start s with
  | zero => exact h0
  | succ n ih =>
      have h1 := hstep start s (Nat.le_refl _) (by omega) h0
      have := ih h1 (fun i t hi hlt => hstep i t (by omega) (by omega))
      simpa only [forRange, Nat.add_right_comm, Nat.add_assoc] using this

/-- A loop whose passes commute with a map. -/
theorem forRange_map {σ τ : Type*} {f : Nat → σ → σ} {g : Nat → τ → τ} (h : σ → τ)
    (hstep : ∀ i s, g i (h s) = h (f i s)) {start n : Nat} {s : σ} :
    forRange g start n (h s) = h (forRange f start n s) := by
  induction n generalizing start s with
  | zero => rfl
  | succ n ih => rw [forRange, forRange, hstep, ih]

section While

variable {σ : Type*}

/-- `while (more s) { s = body(s); }`, where `none` is a break that changes nothing. -/
def loopWhile (more : σ → Bool) (body : σ → Option σ) : Nat → σ → σ
  | 0, s => s
  | fuel+1, s =>
      if more s then
        match body s with
        | some t => loopWhile more body fuel t
        | none => s
      else s

theorem loopWhile_invariant {more : σ → Bool} {body : σ → Option σ} (P : σ → Prop)
    (hbody : ∀ s t, P s → more s = true → body s = some t → P t) {fuel : Nat} {s : σ} (h : P s) :
    P (loopWhile more body fuel s) := by
  induction fuel generalizing s with
  | zero => exact h
  | succ fuel ih =>
      rw [loopWhile]
      split
      · rename_i hmore
        cases hs : body s with
        | none => exact h
        | some t => exact ih (hbody s t h hmore hs)
      · exact h

/-- Where every pass decreases a measure that the fuel covers, the loop has ended. -/
theorem loopWhile_ends {more : σ → Bool} {body : σ → Option σ} (measure : σ → Nat)
    (hdec : ∀ s t, more s = true → body s = some t → measure t < measure s) {fuel : Nat} {s : σ}
    (hfuel : measure s < fuel) :
    more (loopWhile more body fuel s) = false ∨ body (loopWhile more body fuel s) = none := by
  induction fuel generalizing s with
  | zero => exact (Nat.not_lt_zero _ hfuel).elim
  | succ fuel ih =>
      rw [loopWhile]
      split
      · rename_i hmore
        cases hs : body s with
        | none => exact Or.inr hs
        | some t => exact ih (by have := hdec s t hmore hs; omega)
      · rename_i hmore
        exact Or.inl (Bool.not_eq_true _ ▸ hmore)

/-- A loop that has ended takes no notice of more fuel. -/
theorem loopWhile_more_fuel {more : σ → Bool} {body : σ → Option σ} (measure : σ → Nat)
    (hdec : ∀ s t, more s = true → body s = some t → measure t < measure s) {fuel k : Nat} {s : σ}
    (hfuel : measure s < fuel) : loopWhile more body (fuel + k) s = loopWhile more body fuel s := by
  induction fuel generalizing s with
  | zero => exact (Nat.not_lt_zero _ hfuel).elim
  | succ fuel ih =>
      rw [Nat.add_right_comm, loopWhile, loopWhile]
      split
      · rename_i hmore
        cases hs : body s with
        | none => rfl
        | some t => exact ih (by have := hdec s t hmore hs; omega)
      · rfl

/-- A loop whose passes commute with a map commutes with it as a whole. -/
theorem loopWhile_map {τ : Type*} {more : σ → Bool} {body : σ → Option σ} {more' : τ → Bool} {body' : τ → Option τ}
    (f : σ → τ) (P : σ → Prop) (hP : ∀ s t, P s → more s = true → body s = some t → P t)
    (hmore : ∀ s, P s → more' (f s) = more s)
    (hbody : ∀ s, P s → more s = true → body' (f s) = (body s).map f) {fuel : Nat} {s : σ} (h : P s) :
    loopWhile more' body' fuel (f s) = f (loopWhile more body fuel s) := by
  induction fuel generalizing s with
  | zero => rfl
  | succ fuel ih =>
      rw [loopWhile, loopWhile, hmore s h]
      split
      · rename_i hs
        rw [hbody s h hs]
        cases hb : body s with
        | none => rfl
        | some t => exact ih (hP s t h hs hb)
      · rfl

/-- Two loops that run in step: their passes break together and keep the relation. -/
theorem loopWhile_relate {τ : Type*} {more : σ → Bool} {body : σ → Option σ} {more' : τ → Bool} {body' : τ → Option τ}
    (R : σ → τ → Prop) (hmore : ∀ s t, R s t → more' t = more s)
    (hbody : ∀ s t, R s t → more s = true → body s = none ∧ body' t = none ∨
      ∃ u v, body s = some u ∧ body' t = some v ∧ R u v) {fuel : Nat} {s : σ} {t : τ} (h : R s t) :
    R (loopWhile more body fuel s) (loopWhile more' body' fuel t) := by
  induction fuel generalizing s t with
  | zero => exact h
  | succ fuel ih =>
      rw [loopWhile, loopWhile, hmore s t h]
      split
      · rename_i hs
        rcases hbody s t h hs with ⟨hb, hb'⟩ | ⟨u, v, hb, hb', huv⟩
        · rw [hb, hb']
          exact h
        · rw [hb, hb']
          exact ih huv
      · exact h

end While

end BoundedLoop
