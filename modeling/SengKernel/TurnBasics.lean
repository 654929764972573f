import SengKernel.RunBasics
import SengKernel.RingBasics

/- Taking turns. Sums along a run are bounded by a potential; in a ring that is searched
   from the node after the last one found, who waits is not overtaken twice. -/
namespace Transition

variable {σ α : Type*}

/-- The sum of a weight over the steps of a run. -/
def total (step : σ → α → Option σ) (w : σ → α → Nat) : σ → List α → Nat
  | _, [] => 0
  | s, a :: as => w s a + match step s a with
      | none => 0
      | some t => total step w t as

section Sums

variable {step : σ → α → Option σ} {w v : σ → α → Nat} {s t : σ} {a : α} {as : List α}

theorem total_cons (h : step s a = some t) : total step w s (a :: as) = w s a + total step w t as := by
  rw [total, h]

theorem total_mul (k : Nat) (s : σ) (as : List α) :
    total step (fun s a => k * w s a) s as = k * total step w s as := by
  induction as generalizing s with
  | nil => rfl
  | cons a as ih =>
      rw [total, total, Nat.mul_add]
      cases step s a with
      | none => rfl
      | some t => exact congrArg (k * w s a + ·) (ih t)

theorem total_countP (p : α → Bool) (run : Run (fun s a t => step s a = some t) s as t) :
    total step (fun _ a => if p a then 1 else 0) s as = as.countP p := by
  induction run with
  | nil => rfl
  | cons now _ ih => rw [total_cons now, ih, List.countP_cons, Nat.add_comm]

/-- What every step pays out of a potential, the whole run pays. -/
theorem Run.total_le {ok : σ → α → Prop} {I : σ → Prop} {φ : σ → Int}
    (hstep : ∀ s a t, I s → ok s a → step s a = some t → I t ∧ (w s a : Int) + φ t ≤ v s a + φ s)
    (run : Run (When ok (fun s a t => step s a = some t)) s as t) (hs : I s) :
    (total step w s as : Int) + φ t ≤ total step v s as + φ s := by
  induction run with
  | nil => exact Int.le_refl _
  | cons now _ ih =>
      obtain ⟨hkeep, hpay⟩ := hstep _ _ _ hs now.1 now.2
      have hrest := ih hkeep
      rw [total_cons now.2, total_cons now.2]
      push_cast
      omega

/-- What every step takes out of one account and puts into another, the whole run does. -/
theorem Run.total_eq {ok : σ → α → Prop} {I : σ → Prop} {φ : σ → Int}
    (hstep : ∀ s a t, I s → ok s a → step s a = some t → I t ∧ (w s a : Int) + φ t = v s a + φ s)
    (run : Run (When ok (fun s a t => step s a = some t)) s as t) (hs : I s) :
    (total step w s as : Int) + φ t = total step v s as + φ s := by
  have hpaid := run.total_le (fun s a t h hok now => ⟨(hstep s a t h hok now).1, (hstep s a t h hok now).2.le⟩) hs
  have howed := run.total_le (w := v) (v := w) (φ := fun s => -φ s) (fun s a t h hok now => by
    obtain ⟨hkeep, heq⟩ := hstep s a t h hok now
    exact ⟨hkeep, by omega⟩) hs
  omega

/-- Every step is paid for by one of those who are there; who is there stays. -/
theorem Run.total_le_sum {β : Type*} {I : σ → Prop} {J : σ → β → Prop} {v : β → σ → α → Nat}
    (hstep : ∀ s a t, I s → step s a = some t →
      I t ∧ (∀ b, J s b → J t b) ∧ (w s a = 0 ∨ ∃ b, J s b ∧ w s a ≤ v b s a))
    (run : Run (fun s a t => step s a = some t) s as t) (hs : I s) {l : List β} (hl : ∀ b, J t b → b ∈ l) :
    total step w s as ≤ (l.map (fun b => total step (v b) s as)).sum := by
  have hrun : total step w s as ≤ (l.map (fun b => total step (v b) s as)).sum ∧ ∀ b, J s b → b ∈ l := by
    induction run with
    | nil => exact ⟨Nat.zero_le _, hl⟩
    | cons now _ ih =>
        obtain ⟨hkeep, hstay, hpaid⟩ := hstep _ _ _ hs now
        obtain ⟨hrest, hthere⟩ := ih hkeep hl
        refine ⟨?_, fun b hb => hthere b (hstay b hb)⟩
        simp only [total_cons now, List.sum_map_add]
        apply Nat.add_le_add _ hrest
        rcases hpaid with hnothing | ⟨b, hb, hle⟩
        · rw [hnothing]
          exact Nat.zero_le _
        · exact hle.trans (List.single_le_sum (by simp) _ (List.mem_map_of_mem (hthere b (hstay b hb))))
  exact hrun.1

end Sums

end Transition

namespace LinkedRing
open List (Sublist)

variable {α : Type*}

/-- The links from `start` on pass `x` before `z`. -/
def Ahead (next : α → α) (start x z : α) : Prop := ∃ l, IsRing next start l ∧ Sublist [x, z] l

/-- Those who may still be found once before `x` is. -/
noncomputable def arrears (next : α → α) (start x z : α) : Int :=
  open Classical in if Ahead next start x z then 0 else 1

section Turns

variable {next : α → α} {start x y z : α} {l u v : List α} {ready : α → Bool}

theorem IsRing.ahead_iff (h : IsRing next start l) : Ahead next start x z ↔ Sublist [x, z] l := by
  constructor
  · rintro ⟨l', hring, hpair⟩
    exact h.unique hring ▸ hpair
  · exact fun hpair => ⟨l, h, hpair⟩

theorem arrears_bounds (next : α → α) (start x z : α) : 0 ≤ arrears next start x z ∧ arrears next start x z ≤ 1 := by
  rw [arrears]
  split
  · decide
  · decide

theorem IsRing.arrears_zero (h : IsRing next start l) (hpair : Sublist [x, z] l) : arrears next start x z = 0 :=
  if_pos (h.ahead_iff.mpr hpair)

theorem IsRing.arrears_one (h : IsRing next start l) (hpair : ¬ Sublist [x, z] l) : arrears next start x z = 1 :=
  if_neg (mt h.ahead_iff.mp hpair)

/-- More nodes between those there are change no order. -/
theorem IsRing.arrears_mono {next' : α → α} {start' : α} {l' : List α} (h : IsRing next start l)
    (h' : IsRing next' start' l') (hsub : Sublist l l') : arrears next' start' x z ≤ arrears next start x z := by
  by_cases hpair : Sublist [x, z] l
  · rw [h.arrears_zero hpair, h'.arrears_zero (hpair.trans hsub)]
  · rw [h.arrears_one hpair]
    exact (arrears_bounds next' start' x z).2

theorem pair_after (hx : x ∉ u) (h : Sublist [x, z] (u ++ v)) : Sublist [x, z] v := by
  induction u with
  | nil => exact h
  | cons a u ih =>
      apply ih (fun hmem => hx (List.mem_cons_of_mem a hmem))
      cases h with
      | cons _ hrest => exact hrest
      | cons_cons => exact absurd List.mem_cons_self hx

/-- A search passes over none that is ready: whoever it finds was ahead of `x`, or is
`x`, and stands last thereafter. -/
theorem IsRing.arrears_serve {next' : α → α} {start' : α} [DecidableEq α] (h : IsRing next start (u ++ y :: v))
    (h' : IsRing next' start' (v ++ u ++ [y])) (hx : x ∈ u ++ y :: v) (hu : x ∉ u) (hne : x ≠ z) :
    (if y = z then 1 else 0) + arrears next' start' x z ≤ (if y = x then 1 else 0) + arrears next start x z := by
  have hbefore := arrears_bounds next start x z
  have hafter := arrears_bounds next' start' x z
  by_cases hfound : y = x
  · rw [if_pos hfound, if_neg (hfound ▸ hne)]
    omega
  · have hv : x ∈ v := by
      rcases List.mem_append.mp hx with hmem | hmem
      · exact absurd hmem hu
      · exact (List.mem_cons.mp hmem).resolve_left (Ne.symm hfound)
    rw [if_neg hfound]
    by_cases hz : y = z
    · have hlate : ¬ Sublist [x, z] (u ++ y :: v) := by
        intro hpair
        have hzv : Sublist [x, z] v := pair_after (u := [y]) (by simp [Ne.symm hfound]) (pair_after hu hpair)
        have hnodup := (List.nodup_append.mp h.nodup).2.1
        exact (List.nodup_cons.mp hnodup).1 (hz ▸ hzv.subset (by simp))
      have hearly : Sublist [x, z] (v ++ u ++ [y]) := by
        rw [List.append_assoc]
        exact (List.singleton_sublist.mpr hv).append (List.singleton_sublist.mpr (by simp [hz]))
      rw [if_pos hz, h.arrears_one hlate, h'.arrears_zero hearly]
      decide
    · rw [if_neg hz]
      by_cases hpair : Sublist [x, z] (u ++ y :: v)
      · have hrest : Sublist [x, z] v := pair_after (u := [y]) (by simp [Ne.symm hfound]) (pair_after hu hpair)
        have hearly : Sublist [x, z] (v ++ u ++ [y]) := by
          rw [List.append_assoc]
          exact hrest.trans (List.sublist_append_left v _)
        rw [h'.arrears_zero hearly]
        omega
      · rw [h.arrears_one hpair]
        omega

/-- The node found last is ahead of none, and all others are ahead of it. -/
theorem IsRing.arrears_last (h : IsRing next start (u ++ [y])) : arrears next start y z = 1 := by
  apply h.arrears_one
  intro hpair
  have hu : y ∉ u := by
    intro hmem
    exact (List.nodup_append.mp h.nodup).2.2 y hmem y (List.mem_singleton_self y) rfl
  have := (pair_after hu hpair).length_le
  simp at this

theorem IsRing.arrears_to_last (h : IsRing next start (u ++ [y])) (hx : x ∈ u) : arrears next start x y = 0 :=
  h.arrears_zero ((List.singleton_sublist.mpr hx).append (Sublist.refl [y]))

end Turns

section Rounds

variable [DecidableEq α] {next : α → α} {head x y : α} {l u v : List α}

theorem roundFrom_append_cons (hy : y ∉ u) : roundFrom (u ++ y :: v) y = v ++ u ++ [y] := by
  have hindex : (u ++ y :: v).idxOf y + 1 = (u ++ [y]).length := by
    rw [List.idxOf_append_of_notMem hy, List.idxOf_cons_self, List.length_append, List.length_singleton]
  have hsplit : u ++ y :: v = (u ++ [y]) ++ v := by rw [List.append_assoc, List.singleton_append]
  rw [roundFrom, hindex, hsplit, List.rotate_append_length_eq, List.append_assoc]

/-- A round ends with the node from which it starts. -/
theorem roundFrom_last (hnodup : l.Nodup) (hy : y ∈ l) : ∃ w, roundFrom l y = w ++ [y] := by
  obtain ⟨u, v, rfl⟩ := List.append_of_mem hy
  refine ⟨v ++ u, roundFrom_append_cons ?_⟩
  intro hmem
  exact (List.nodup_append.mp hnodup).2.2 y hmem y List.mem_cons_self rfl

theorem roundFrom_sublist (hnodup : l.Nodup) (hy : y ∈ l) (w : List α) :
    Sublist (roundFrom l y) (roundFrom (l ++ w) y) := by
  obtain ⟨u, v, rfl⟩ := List.append_of_mem hy
  have hu : y ∉ u := by
    intro hmem
    exact (List.nodup_append.mp hnodup).2.2 y hmem y List.mem_cons_self rfl
  rw [List.append_assoc, List.cons_append, roundFrom_append_cons hu, roundFrom_append_cons hu]
  exact ((List.sublist_append_left v w).append (Sublist.refl u)).append (Sublist.refl [y])

end Rounds

end LinkedRing
