import SengKernel.RingBasics

/- Several first-in first-out chains that share one link field: every queue has a
   head and a tail pointer, and a node is in at most one of them. Joining at the
   tail and leaving at the head, for any nodes and any queues. -/
namespace LinkedChain
open LinkedRing

variable {ι α : Type*}

/-- The queues hold the lists `l`. -/
structure Chains (null : α) (next : α → α) (head tail : ι → α) (l : ι → List α) : Prop where
  path : ∀ q, Path next (head q) (l q) null
  last : ∀ q, tail q = (l q).getLast?.getD null
  nodup : ∀ q, (l q).Nodup
  apart : ∀ q q' x, x ∈ l q → x ∈ l q' → q = q'
  nonnull : ∀ q, null ∉ l q

variable {null : α} {next : α → α} {head tail : ι → α} {l : ι → List α}

theorem chains_nil : Chains null next (fun _ => null) (fun _ => null) (fun _ : ι => ([] : List α)) :=
  ⟨fun _ => rfl, fun _ => rfl, fun _ => List.nodup_nil, fun _ _ _ hx => absurd hx List.not_mem_nil,
    fun _ => List.not_mem_nil⟩

theorem Chains.head_cons (h : Chains null next head tail l) {q : ι} {x : α} {xs : List α} (hl : l q = x :: xs) :
    head q = x ∧ x ≠ null := by
  have hpath := h.path q
  rw [hl] at hpath
  refine ⟨hpath.1, fun hx => h.nonnull q ?_⟩
  rw [hl, hx]
  exact List.mem_cons_self ..

theorem Chains.head_eq_null (h : Chains null next head tail l) (q : ι) : head q = null ↔ l q = [] := by
  cases hl : l q with
  | nil =>
      have hpath := h.path q
      rw [hl] at hpath
      exact iff_of_true hpath rfl
  | cons x xs =>
      obtain ⟨hhead, hx⟩ := h.head_cons hl
      exact iff_of_false (hhead ▸ hx) (List.cons_ne_nil x xs)

theorem Chains.tail_eq_null (h : Chains null next head tail l) (q : ι) : tail q = null ↔ l q = [] := by
  rw [h.last q]
  cases hl : (l q).getLast? with
  | none => exact iff_of_true rfl (List.getLast?_eq_none_iff.mp hl)
  | some x =>
      have hx : x ∈ l q := List.mem_of_getLast? hl
      refine iff_of_false (fun hnull => h.nonnull q ?_) (fun hnil => ?_)
      · exact (show x = null from hnull) ▸ hx
      · rw [hnil] at hx
        cases hx

/-- Links of nodes outside the queues are free to change. -/
theorem Chains.congr {next' : α → α} (h : Chains null next head tail l)
    (hsame : ∀ q x, x ∈ l q → next' x = next x) : Chains null next' head tail l :=
  ⟨fun q => (h.path q).congr (hsame q), h.last, h.nodup, h.apart, h.nonnull⟩

section Updates

variable [DecidableEq ι] [DecidableEq α] {q : ι} {x : α}

/-- The links after a node joins a queue: its own is cleared, and the last node of
the queue, if there is one, points to it. -/
def joinLinks (null : α) (next : α → α) (head tail : ι → α) (q : ι) (x : α) : α → α :=
  if head q = null then Function.update next x null
  else Function.update (Function.update next x null) (tail q) x

omit [DecidableEq ι] in
theorem path_join {a y : α} {ys : List α} (h : Path next a (ys ++ [y]) null) (hx : x ∉ ys ++ [y])
    (hnodup : (ys ++ [y]).Nodup) :
    Path (Function.update (Function.update next x null) y x) a (ys ++ [y] ++ [x]) null := by
  obtain ⟨m, hys, hm, _⟩ := path_append.mp h
  subst hm
  have hmx : x ≠ m := fun hxm => hx (List.mem_append_right _ (hxm ▸ List.mem_singleton_self x))
  refine path_append.mpr ⟨x, path_append.mpr ⟨m, hys.congr (fun z hz => ?_), rfl, ?_⟩, rfl, ?_⟩
  · have hzm : z ≠ m := fun hzm =>
      (List.nodup_append.mp hnodup).2.2 z hz m (List.mem_singleton_self m) hzm
    have hzx : z ≠ x := fun hzx => hx (List.mem_append_left _ (hzx ▸ hz))
    rw [Function.update_of_ne hzm, Function.update_of_ne hzx]
  · rw [Function.update_self]
    rfl
  · rw [Function.update_of_ne hmx, Function.update_self]
    rfl

omit [DecidableEq α] in
theorem mem_join {q' : ι} {z : α} :
    z ∈ Function.update l q (l q ++ [x]) q' ↔ z ∈ l q' ∨ (q' = q ∧ z = x) := by
  by_cases hq : q' = q
  · subst hq
    simp
  · simp [hq]

/-- A node outside all queues joins one at its tail. -/
theorem Chains.join (h : Chains null next head tail l) (hx : ∀ q, x ∉ l q) (hnull : x ≠ null) :
    Chains null (joinLinks null next head tail q x)
      (if head q = null then Function.update head q x else head) (Function.update tail q x)
      (Function.update l q (l q ++ [x])) := by
  -- the links that change belong to the node itself and to the last node of its queue
  have hother : ∀ q' z, q' ≠ q → z ∈ l q' → joinLinks null next head tail q x z = next z := by
    intro q' z hq hz
    have hzx : z ≠ x := fun hzx => hx q' (hzx ▸ hz)
    unfold joinLinks
    split
    · rw [Function.update_of_ne hzx]
    · rename_i hhead
      have htail : tail q ∈ l q := by
        have hne : l q ≠ [] := fun hnil => hhead ((h.head_eq_null q).mpr hnil)
        rw [h.last q, List.getLast?_eq_getLast_of_ne_nil hne]
        exact List.getLast_mem hne
      have hzt : z ≠ tail q := fun hzt => hq (h.apart q' q z hz (hzt ▸ htail))
      rw [Function.update_of_ne hzt, Function.update_of_ne hzx]
  refine ⟨fun q' => ?_, fun q' => ?_, fun q' => ?_, fun q1 q2 z h1 h2 => ?_, fun q' => ?_⟩
  · by_cases hq : q' = q
    · subst hq
      rw [Function.update_self]
      rcases List.eq_nil_or_concat (l q') with hnil | ⟨ys, y, hys⟩
      · have hhead := (h.head_eq_null q').mpr hnil
        rw [hnil, if_pos hhead, Function.update_self, joinLinks, if_pos hhead]
        exact ⟨rfl, Function.update_self ..⟩
      · rw [List.concat_eq_append] at hys
        have hhead : head q' ≠ null := fun hnull => by
          have := (h.head_eq_null q').mp hnull
          rw [hys] at this
          exact List.append_ne_nil_of_right_ne_nil ys (List.cons_ne_nil y []) this
        have htail : tail q' = y := by rw [h.last q', hys, List.getLast?_concat, Option.getD_some]
        have hpath := h.path q'
        have hnodup := h.nodup q'
        have hmem := hx q'
        rw [hys] at hpath hnodup hmem ⊢
        rw [if_neg hhead, joinLinks, if_neg hhead, htail]
        exact path_join hpath hmem hnodup
    · have hhead : (if head q = null then Function.update head q x else head) q' = head q' := by
        split
        · exact Function.update_of_ne hq ..
        · rfl
      rw [hhead, Function.update_of_ne hq]
      exact (h.path q').congr (fun z hz => hother q' z hq hz)
  · by_cases hq : q' = q
    · subst hq
      rw [Function.update_self, Function.update_self, List.getLast?_concat, Option.getD_some]
    · rw [Function.update_of_ne hq, Function.update_of_ne hq]
      exact h.last q'
  · by_cases hq : q' = q
    · subst hq
      rw [Function.update_self, List.nodup_append]
      refine ⟨h.nodup q', List.nodup_singleton x, fun a ha b hb hab => ?_⟩
      rw [List.mem_singleton] at hb
      exact hx q' (hb ▸ hab ▸ ha)
    · rw [Function.update_of_ne hq]
      exact h.nodup q'
  · rw [mem_join] at h1 h2
    rcases h1 with h1 | ⟨rfl, rfl⟩
    · rcases h2 with h2 | ⟨rfl, rfl⟩
      · exact h.apart q1 q2 z h1 h2
      · exact (hx q1 h1).elim
    · rcases h2 with h2 | ⟨rfl, _⟩
      · exact (hx q2 h2).elim
      · rfl
  · rw [mem_join]
    rintro (hmem | ⟨_, hx0⟩)
    · exact h.nonnull q' hmem
    · exact hnull hx0.symm

omit [DecidableEq α] in
theorem mem_leave {xs : List α} (h : Chains null next head tail l) (hl : l q = x :: xs) {q' : ι} {z : α} :
    z ∈ Function.update l q xs q' ↔ z ∈ l q' ∧ z ≠ x := by
  by_cases hq : q' = q
  · subst hq
    have hnodup := h.nodup q'
    rw [hl, List.nodup_cons] at hnodup
    rw [Function.update_self, hl, List.mem_cons]
    constructor
    · exact fun hz => ⟨Or.inr hz, fun hzx => hnodup.1 (hzx ▸ hz)⟩
    · exact fun ⟨hz, hne⟩ => hz.resolve_left hne
  · rw [Function.update_of_ne hq]
    refine (and_iff_left_of_imp (fun hz hzx => hq ?_)).symm
    refine h.apart q' q x (hzx ▸ hz) ?_
    rw [hl]
    exact List.mem_cons_self ..

/-- The first node of a queue leaves it; its own link is cleared. -/
theorem Chains.leave {xs : List α} (h : Chains null next head tail l) (hl : l q = x :: xs) :
    Chains null (Function.update next x null) (Function.update head q (next x))
      (if next x = null then Function.update tail q null else tail) (Function.update l q xs) := by
  have hxq : x ∈ l q := by
    rw [hl]
    exact List.mem_cons_self ..
  have hpath := h.path q
  have hnodup := h.nodup q
  rw [hl] at hpath hnodup
  have hxs : x ∉ xs := (List.nodup_cons.mp hnodup).1
  have hrest : Path next (next x) xs null := hpath.2
  refine ⟨fun q' => ?_, fun q' => ?_, fun q' => ?_, fun q1 q2 z h1 h2 => ?_, fun q' => ?_⟩
  · by_cases hq : q' = q
    · subst hq
      rw [Function.update_self, Function.update_self]
      refine hrest.congr (fun z hz => Function.update_of_ne ?_ ..)
      rintro rfl
      exact hxs hz
    · rw [Function.update_of_ne hq, Function.update_of_ne hq]
      refine (h.path q').congr (fun z hz => Function.update_of_ne (fun hzx => hq ?_) ..)
      exact h.apart q' q x (hzx ▸ hz) hxq
  · by_cases hq : q' = q
    · subst hq
      rw [Function.update_self]
      cases xs with
      | nil =>
          have hnext : next x = null := hrest
          rw [if_pos hnext, Function.update_self]
          rfl
      | cons y ys =>
          have hnext : next x = y := hrest.1
          have hy : y ≠ null := fun hnull => h.nonnull q' (by rw [hl, ← hnull]; simp)
          rw [if_neg (hnext ▸ hy), h.last q', hl, List.getLast?_cons_cons]
    · have htail : (if next x = null then Function.update tail q null else tail) q' = tail q' := by
        split
        · exact Function.update_of_ne hq ..
        · rfl
      rw [htail, Function.update_of_ne hq]
      exact h.last q'
  · by_cases hq : q' = q
    · subst hq
      rw [Function.update_self]
      exact (List.nodup_cons.mp hnodup).2
    · rw [Function.update_of_ne hq]
      exact h.nodup q'
  · rw [mem_leave h hl] at h1 h2
    exact h.apart q1 q2 z h1.1 h2.1
  · rw [mem_leave h hl]
    exact fun hz => h.nonnull q' hz.1

end Updates

end LinkedChain
