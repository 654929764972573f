import Mathlib

/- Copying inside one memory, byte by byte and in any order. Step `k` reads the
   place `src k` and stores at `dst k`. The copy is right when no store hits a
   place that is still to be read. -/
namespace ByteCopy

variable {α β κ : Type} [DecidableEq α]

def copy (dst src : κ → α) (m : α → β) (ks : List κ) : α → β :=
  ks.foldl (fun m k => Function.update m (dst k) (m (src k))) m

theorem copy_cons (dst src : κ → α) (m : α → β) (k : κ) (ks : List κ) :
    copy dst src m (k :: ks) = copy dst src (Function.update m (dst k) (m (src k))) ks := rfl

theorem copy_map {ι : Type} (dst src : κ → α) (m : α → β) (f : ι → κ) (is : List ι) :
    copy dst src m (is.map f) = copy (fun i => dst (f i)) (fun i => src (f i)) m is := by
  rw [copy, List.foldl_map, copy]

/-- A place that no step stores at keeps its value. -/
theorem copy_other {dst : κ → α} (src : κ → α) (m : α → β) {ks : List κ} {a : α} (h : ∀ k, k ∈ ks → dst k ≠ a) :
    copy dst src m ks a = m a := by
  induction ks generalizing m with
  | nil => rfl
  | cons k ks ih =>
      rw [copy_cons, ih _ (fun j hj => h j (List.mem_cons_of_mem k hj))]
      exact Function.update_of_ne (Ne.symm (h k List.mem_cons_self)) ..

/-- Every place that is stored at gets what its source held at the start. -/
theorem copy_stored {dst src : κ → α} (m : α → β) {ks : List κ} (hdst : ks.Pairwise (fun i j => dst i ≠ dst j))
    (hsrc : ks.Pairwise (fun i j => dst i ≠ src j)) {k : κ} (hk : k ∈ ks) :
    copy dst src m ks (dst k) = m (src k) := by
  induction ks generalizing m with
  | nil => cases hk
  | cons i ks ih =>
      obtain ⟨hapart, hdst⟩ := List.pairwise_cons.mp hdst
      obtain ⟨hunread, hsrc⟩ := List.pairwise_cons.mp hsrc
      rw [copy_cons]
      rcases List.mem_cons.mp hk with rfl | hlater
      · -- the later steps store elsewhere
        rw [copy_other src _ (fun j hj => Ne.symm (hapart j hj))]
        exact Function.update_self ..
      · rw [ih _ hdst hsrc hlater]
        exact Function.update_of_ne (Ne.symm (hunread k hlater)) ..

end ByteCopy
