import Mathlib

/- Circular singly linked lists, given by a `next` function on nodes: paths, the
   walk to the last node, the search from a node round to itself, and insertion
   before the head. Both loops carry fuel; `none` says that the loop still runs. -/
namespace LinkedRing

variable {α : Type*}

/-- Following `next` from `a` visits exactly `l` and then stands at `b`. -/
def Path (next : α → α) : α → List α → α → Prop
  | a, [], b => a = b
  | a, x :: xs, b => a = x ∧ Path next (next x) xs b

instance decidablePath [DecidableEq α] (next : α → α) : ∀ (a : α) (l : List α) (b : α), Decidable (Path next a l b)
  | a, [], b => inferInstanceAs (Decidable (a = b))
  | a, x :: xs, b =>
      have := decidablePath next (next x) xs b
      inferInstanceAs (Decidable (a = x ∧ Path next (next x) xs b))

/-- The nodes of `l`, each once, and back from the last to the head. -/
structure IsRing (next : α → α) (head : α) (l : List α) : Prop where
  nonempty : l ≠ []
  nodup : l.Nodup
  path : Path next head l head

theorem path_append {next : α → α} {a b : α} {xs ys : List α} :
    Path next a (xs ++ ys) b ↔ ∃ m, Path next a xs m ∧ Path next m ys b := by
  induction xs generalizing a with
  | nil => exact ⟨fun h => ⟨a, rfl, h⟩, fun ⟨m, ham, h⟩ => ham ▸ h⟩
  | cons x xs ih =>
      simp only [List.cons_append, Path, ih]
      constructor
      · rintro ⟨hax, m, hxs, hys⟩
        exact ⟨m, ⟨hax, hxs⟩, hys⟩
      · rintro ⟨m, ⟨hax, hxs⟩, hys⟩
        exact ⟨hax, m, hxs, hys⟩

theorem Path.congr {next next' : α → α} {a b : α} {l : List α} (h : Path next a l b)
    (hsame : ∀ x ∈ l, next' x = next x) : Path next' a l b := by
  induction l generalizing a with
  | nil => exact h
  | cons x xs ih =>
      refine ⟨h.1, ?_⟩
      rw [hsame x (List.mem_cons_self ..)]
      exact ih h.2 (fun y hy => hsame y (List.mem_cons_of_mem x hy))

theorem IsRing.congr {next next' : α → α} {head : α} {l : List α} (h : IsRing next head l)
    (hsame : ∀ x ∈ l, next' x = next x) : IsRing next' head l :=
  ⟨h.nonempty, h.nodup, h.path.congr hsame⟩

theorem IsRing.head_mem {next : α → α} {head : α} {l : List α} (h : IsRing next head l) : head ∈ l := by
  cases l with
  | nil => exact (h.nonempty rfl).elim
  | cons x xs => exact h.path.1 ▸ List.mem_cons_self ..

/-- A ring may be read from any of its nodes. -/
theorem IsRing.rotate {next : α → α} {head m : α} {l : List α} (h : IsRing next head l) (hm : m ∈ l) :
    ∃ before after, l = before ++ m :: after ∧ IsRing next m (m :: (after ++ before)) := by
  obtain ⟨before, after, rfl⟩ := List.append_of_mem hm
  obtain ⟨k, hbefore, hk⟩ := path_append.mp h.path
  obtain rfl : k = m := hk.1
  refine ⟨before, after, rfl, by simp, ?_, path_append.mpr ⟨head, hk, hbefore⟩⟩
  exact (List.perm_append_comm.nodup_iff).mp h.nodup

/-- The node after any node of the ring is on the ring. -/
theorem IsRing.next_mem {next : α → α} {head m : α} {l : List α} (h : IsRing next head l) (hm : m ∈ l) :
    next m ∈ l := by
  obtain ⟨before, after, rfl, hring⟩ := h.rotate hm
  have hpath := hring.path.2
  cases hrest : after ++ before with
  | nil =>
      rw [hrest] at hpath
      rw [show next m = m from hpath]
      exact hm
  | cons y ys =>
      rw [hrest] at hpath
      rw [show next m = y from hpath.1]
      have : y ∈ after ++ before := by rw [hrest]; exact List.mem_cons_self ..
      rcases List.mem_append.mp this with h1 | h2
      · exact List.mem_append_right _ (List.mem_cons_of_mem m h1)
      · exact List.mem_append_left _ h2

theorem Path.iterate {next : α → α} {a b : α} {l : List α} (h : Path next a l b) :
    next^[l.length] a = b ∧ ∀ k, (hk : k < l.length) → l[k] = next^[k] a := by
  induction l generalizing a with
  | nil => exact ⟨h, fun k hk => absurd hk (Nat.not_lt_zero k)⟩
  | cons x xs ih =>
      obtain ⟨rfl, hrest⟩ := h
      obtain ⟨hend, hnodes⟩ := ih hrest
      refine ⟨hend, fun k hk => ?_⟩
      cases k with
      | zero => rfl
      | succ k => exact hnodes k (Nat.lt_of_succ_lt_succ hk)

theorem IsRing.length_le {next : α → α} {head : α} {l l' : List α} (h : IsRing next head l)
    (h' : IsRing next head l') : l'.length ≤ l.length := by
  by_contra hlt
  have hpos : 0 < l.length := List.length_pos_of_ne_nil h.nonempty
  have hlong : l.length < l'.length := by omega
  have hstart : 0 < l'.length := by omega
  have hback : l'[l.length] = l'[0] := by
    rw [h'.path.iterate.2, h'.path.iterate.2, h.path.iterate.1]
    rfl
  have := (h'.nodup.getElem_inj_iff).mp hback
  omega

/-- The links determine the list of nodes. -/
theorem IsRing.unique {next : α → α} {head : α} {l l' : List α} (h : IsRing next head l)
    (h' : IsRing next head l') : l = l' := by
  refine List.ext_getElem (Nat.le_antisymm (h'.length_le h) (h.length_le h')) (fun k hk hk' => ?_)
  rw [h.path.iterate.2, h'.path.iterate.2]

/-- `p` is among the next `n` nodes from `a` on. -/
def Within (next : α → α) (a p : α) (n : Nat) : Prop := ∃ k < n, next^[k] a = p

theorem IsRing.within {next : α → α} {head a p : α} {l : List α} (h : IsRing next head l) (ha : a ∈ l)
    (hp : p ∈ l) : Within next a p l.length := by
  obtain ⟨before, after, rfl, hring⟩ := h.rotate ha
  have hlen : (a :: (after ++ before)).length = (before ++ a :: after).length := by
    simp only [List.length_cons, List.length_append]
    omega
  have hmem : p ∈ a :: (after ++ before) := by
    simp only [List.mem_cons, List.mem_append] at hp ⊢
    tauto
  obtain ⟨k, hk, hpk⟩ := List.mem_iff_getElem.mp hmem
  exact ⟨k, hlen ▸ hk, (hring.path.iterate.2 k hk).symm.trans hpk⟩

section Loops

variable [DecidableEq α]

/-- `while (cur->next != head) cur = cur->next;` -/
def walkToLast (next : α → α) (head : α) : Nat → α → Option α
  | 0, _ => none
  | fuel+1, cur => if next cur = head then some cur else walkToLast next head fuel (next cur)

/-- `do { if (ready(cur)) return cur; cur = cur->next; } while (cur && cur != start); return null;` -/
def search (next : α → α) (ready : α → Bool) (null start : α) : Nat → α → Option α
  | 0, _ => none
  | fuel+1, cur =>
      if ready cur then some cur
      else if next cur ≠ null ∧ next cur ≠ start then search next ready null start fuel (next cur)
      else some null

theorem walkToLast_path {next : α → α} {head last : α} {xs : List α} {fuel : Nat} {cur : α}
    (hpath : Path next cur (xs ++ [last]) head) (hhead : head ∉ (xs ++ [last]).tail)
    (hfuel : xs.length < fuel) : walkToLast next head fuel cur = some last := by
  induction xs generalizing fuel cur with
  | nil =>
      obtain ⟨rfl, hend⟩ := hpath
      cases fuel with
      | zero => omega
      | succ fuel => exact if_pos hend
  | cons x xs ih =>
      obtain ⟨rfl, hrest⟩ := hpath
      cases fuel with
      | zero => omega
      | succ fuel =>
          have hnext : next cur ∈ xs ++ [last] := by
            cases xs with
            | nil => exact hrest.1 ▸ List.mem_cons_self ..
            | cons y ys => exact hrest.1 ▸ List.mem_cons_self ..
          have hne : next cur ≠ head := fun h => hhead (h ▸ hnext)
          rw [walkToLast, if_neg hne]
          refine ih hrest (fun h => hhead (List.mem_of_mem_tail h)) ?_
          simpa using hfuel

/-- The search meets the nodes of the path in order and stops at the first ready
one; after the last node it is back at its start. -/
theorem search_path {next : α → α} {ready : α → Bool} {null start : α} {x : α} {xs : List α} {fuel : Nat}
    (hpath : Path next x (x :: xs) start) (hstart : start ∉ xs) (hnull : null ∉ xs)
    (hfuel : xs.length < fuel) :
    search next ready null start fuel x = some (((x :: xs).find? ready).getD null) := by
  induction xs generalizing x fuel with
  | nil =>
      cases fuel with
      | zero => omega
      | succ fuel =>
          obtain ⟨_, hend⟩ := hpath
          have hback : next x = start := hend
          simp only [search, List.find?, hback, ne_eq, not_true_eq_false, and_false, if_false]
          cases ready x <;> rfl
  | cons y ys ih =>
      cases fuel with
      | zero => omega
      | succ fuel =>
          obtain ⟨_, hxy, hrest⟩ := hpath
          have hne : next x ≠ null ∧ next x ≠ start := by
            rw [hxy]
            exact ⟨fun h => hnull (h ▸ List.mem_cons_self ..), fun h => hstart (h ▸ List.mem_cons_self ..)⟩
          rw [search, List.find?_cons]
          cases hready : ready x with
          | true => rfl
          | false =>
              simp only [Bool.false_eq_true, if_false, if_pos hne]
              rw [hxy]
              exact ih ⟨rfl, hrest⟩ (fun h => hstart (List.mem_cons_of_mem y h))
                (fun h => hnull (List.mem_cons_of_mem y h)) (by simpa using hfuel)

/-- The search returns the first ready node. -/
theorem search_first {next : α → α} {ready : α → Bool} {null start a r : α} {fuel : Nat}
    (h : search next ready null start fuel a = some r) (hr : r ≠ null) :
    ∃ i, next^[i] a = r ∧ ∀ j < i, ready (next^[j] a) = false := by
  induction fuel generalizing a with
  | zero => cases h
  | succ fuel ih =>
      rw [search] at h
      split at h
      · exact ⟨0, Option.some.inj h, fun j hj => absurd hj (Nat.not_lt_zero j)⟩
      · rename_i hready
        split at h
        · obtain ⟨i, hi, hbefore⟩ := ih h
          refine ⟨i + 1, hi, fun j hj => ?_⟩
          cases j with
          | zero => simpa using hready
          | succ j => exact hbefore j (Nat.lt_of_succ_lt_succ hj)
        · exact (hr (Option.some.inj h).symm).elim

/-- A ready node is returned, or comes nearer by at least one. -/
theorem Within.search {next : α → α} {ready : α → Bool} {null start a p r : α} {n fuel : Nat}
    (hp : Within next a p n) (hready : ready p = true)
    (h : search next ready null start fuel a = some r) (hr : r ≠ null) :
    r = p ∨ Within next (next r) p (n - 1) := by
  obtain ⟨k, hkn, hk⟩ := hp
  obtain ⟨i, hi, hbefore⟩ := search_first h hr
  rcases Nat.lt_trichotomy k i with hlt | rfl | hgt
  · have := hbefore k hlt
    rw [hk, hready] at this
    cases this
  · exact Or.inl (hi.symm.trans hk)
  · refine Or.inr ⟨k - (i + 1), by omega, ?_⟩
    rw [← hi, ← Function.iterate_succ_apply' next i a, ← Function.iterate_add_apply, ← hk]
    congr 1
    omega

/-- With as many rounds as nodes, the search from the start of a ring returns its
first ready node. -/
theorem IsRing.search_find {next : α → α} {ready : α → Bool} {null start : α} {l : List α} {fuel : Nat}
    (h : IsRing next start l) (hnull : null ∉ l) (hfuel : l.length ≤ fuel) :
    search next ready null start fuel start = some ((l.find? ready).getD null) := by
  cases l with
  | nil => exact (h.nonempty rfl).elim
  | cons x xs =>
      obtain rfl : start = x := h.path.1
      refine search_path h.path (List.nodup_cons.mp h.nodup).1 ?_ hfuel
      exact fun hmem => hnull (List.mem_cons_of_mem start hmem)

/-- What such a search returns: null exactly when no node is ready. -/
theorem IsRing.search_spec {next : α → α} {ready : α → Bool} {null m head : α} {l : List α} {fuel : Nat}
    (h : IsRing next head l) (hm : m ∈ l) (hnull : null ∉ l) (hfuel : l.length ≤ fuel) :
    ∃ r, search next ready null m fuel m = some r ∧
      ((r = null ∧ ∀ x ∈ l, ready x = false) ∨ (r ≠ null ∧ r ∈ l ∧ ready r = true)) := by
  obtain ⟨before, after, rfl, hring⟩ := h.rotate hm
  have hperm : (m :: (after ++ before)).Perm (before ++ m :: after) := @List.perm_append_comm _ (m :: after) before
  have hsearch : search next ready null m fuel m = some (((m :: (after ++ before)).find? ready).getD null) :=
    hring.search_find (fun hmem => hnull (hperm.mem_iff.mp hmem)) (hperm.length_eq.trans_le hfuel)
  refine ⟨_, hsearch, ?_⟩
  cases hfind : (m :: (after ++ before)).find? ready with
  | none =>
      left
      refine ⟨rfl, ?_⟩
      intro x hx
      simpa using List.find?_eq_none.mp hfind x (hperm.mem_iff.mpr hx)
  | some r =>
      right
      have hr := hperm.mem_iff.mp (List.mem_of_find?_eq_some hfind)
      exact ⟨fun h0 => hnull (h0 ▸ hr), hr, List.find?_some hfind⟩

/-- The walk ends at the last node, and looks at every node at most once. -/
theorem IsRing.walk {next : α → α} {head : α} {l : List α} {fuel : Nat} (h : IsRing next head l)
    (hfuel : l.length ≤ fuel) : walkToLast next head fuel head = l.getLast? := by
  obtain ⟨xs, last, rfl⟩ : ∃ xs last, l = xs ++ [last] :=
    ⟨_, _, (List.dropLast_append_getLast h.nonempty).symm⟩
  have hnodup := h.nodup
  have hhead : head ∉ (xs ++ [last]).tail := by
    cases hl : xs ++ [last] with
    | nil => simp
    | cons y ys =>
        have hpath := h.path
        rw [hl] at hpath hnodup
        rw [hpath.1]
        exact (List.nodup_cons.mp hnodup).1
  rw [List.getLast?_concat]
  exact walkToLast_path h.path hhead (by simpa using hfuel)

/-- Insertion before the head: the last node gets the new one, which closes the ring. -/
theorem IsRing.insert {next : α → α} {head new : α} {l : List α} {fuel : Nat}
    (h : IsRing next head l) (hnew : new ∉ l) (hfuel : l.length ≤ fuel) :
    ∃ last ∈ l, walkToLast next head fuel head = some last ∧
      IsRing (Function.update (Function.update next last new) new head) head (l ++ [new]) := by
  have hwalk := h.walk hfuel
  obtain ⟨xs, last, rfl⟩ : ∃ xs last, l = xs ++ [last] :=
    ⟨_, _, (List.dropLast_append_getLast h.nonempty).symm⟩
  have hlast : last ∈ xs ++ [last] := List.mem_append_right _ (List.mem_singleton_self last)
  have hnodup := h.nodup
  rw [List.getLast?_concat] at hwalk
  refine ⟨last, hlast, hwalk, by simp, ?_, ?_⟩
  · rw [List.nodup_append]
    refine ⟨hnodup, List.nodup_singleton new, ?_⟩
    intro a ha b hb hab
    rw [List.mem_singleton] at hb
    exact hnew (hb ▸ hab ▸ ha)
  · have hxs : ∀ x ∈ xs, x ≠ last := by
      intro x hx hxl
      exact (List.nodup_append.mp hnodup).2.2 x hx last (List.mem_singleton_self last) hxl
    have hnewne : ∀ x ∈ xs ++ [last], x ≠ new := fun x hx hxn => hnew (hxn ▸ hx)
    obtain ⟨k, hpathxs, hk⟩ := path_append.mp h.path
    obtain ⟨rfl, _⟩ := hk
    refine path_append.mpr ⟨new, path_append.mpr ⟨k, ?_, rfl, ?_⟩, rfl, ?_⟩
    · refine hpathxs.congr (fun x hx => ?_)
      rw [Function.update_of_ne (hnewne x (List.mem_append_left _ hx)), Function.update_of_ne (hxs x hx)]
    · rw [Function.update_of_ne (hnewne k hlast), Function.update_self]
      rfl
    · rw [Function.update_self]
      rfl

/-- The nodes from the one after `current` round to `current` itself. -/
def roundFrom (l : List α) (current : α) : List α := l.rotate (l.idxOf current + 1)

theorem roundFrom_perm (l : List α) (current : α) : (roundFrom l current).Perm l := List.rotate_perm l _

theorem IsRing.roundFrom {next : α → α} {head m : α} {l : List α} (h : IsRing next head l) (hm : m ∈ l) :
    IsRing next (next m) (LinkedRing.roundFrom l m) := by
  have hperm := roundFrom_perm l m
  refine ⟨fun hnil => h.nonempty (hnil ▸ hperm).symm.eq_nil, hperm.nodup_iff.mpr h.nodup, ?_⟩
  obtain ⟨before, after, rfl, hring⟩ := h.rotate hm
  have hout : m ∉ before := by
    intro hbefore
    exact (List.nodup_append.mp h.nodup).2.2 m hbefore m List.mem_cons_self rfl
  have hindex : (before ++ m :: after).idxOf m + 1 = (before ++ [m]).length := by
    rw [List.idxOf_append_of_notMem hout, List.idxOf_cons_self, List.length_append, List.length_singleton]
  have hsplit : before ++ m :: after = (before ++ [m]) ++ after := by
    rw [List.append_assoc, List.singleton_append]
  rw [LinkedRing.roundFrom, hindex, hsplit, List.rotate_append_length_eq, ← List.append_assoc]
  exact path_append.mpr ⟨m, hring.path.2, rfl, rfl⟩

end Loops

/-- A single node that points to itself. -/
theorem isRing_single [DecidableEq α] (next : α → α) (x : α) :
    IsRing (Function.update next x x) x [x] :=
  ⟨by simp, List.nodup_singleton x, rfl, Function.update_self ..⟩

end LinkedRing
