import SengKernel.TurnBasics
import SengKernel.SchedulerQueues
import SengKernel.SchedulerFairness
import SengKernel.ProcessDeath
import SengKernel.ContextSwitch

/- How the interrupts are shared out among the contexts of a queue, and what
   `total_ticks` says of it. -/
namespace SengKernel.Sched
open BoundedLoop MachineWord LinkedRing Transition

/-- The interrupt selects the context. -/
def Selects (c : Config) (x : Context) (s : Activity) : Act → Prop
  | .event (.irq savedEsp) => Selected c s.kernel savedEsp x
  | _ => False

/-- The interrupt takes the CPU from the context. -/
def Interrupts (x : Context) (s : Activity) (a : Act) : Prop := isIrq a = true ∧ onCpu s.kernel = some x

instance (c : Config) (x : Context) (s : Activity) (a : Act) : Decidable (Selects c x s a) := by
  unfold Selects
  split <;> infer_instance

instance (x : Context) (s : Activity) (a : Act) : Decidable (Interrupts x s a) := inferInstanceAs (Decidable (_ ∧ _))

/-- How often the context is selected. -/
def selections (c : Config) (x : Context) : Activity → List Act → Nat :=
  total (actStep c) (fun s a => if Selects c x s a then 1 else 0)

/-- How often it is interrupted. -/
def interruptions (c : Config) (x : Context) : Activity → List Act → Nat :=
  total (actStep c) (fun s a => if Interrupts x s a then 1 else 0)

/-- The contexts of the queue of `x`. -/
def members (np nt : Nat) : Context → List Nat
  | .process _ => List.range' 1 np
  | .thread _ => List.range' 1 nt

/-- The context of the same queue at a slot. -/
def sibling : Context → Nat → Context
  | .process _, p => .process p
  | .thread _, t => .thread t

noncomputable def arrearsOf (k : Kernel) (x z : Context) : Int :=
  arrears (rotation k x).next (rotation k x).start (slot x) (slot z)

section Queues

variable {c : Config} {k k' : Kernel} {np nt np' nt' : Nat} {x y z : Context}

theorem Tables.turn (h : Tables c k np nt) (x : Context) : RunQueue (rotation k x).next (rotation k x).head
    (rotation k x).last (members np nt x) (readyIn k x) (findNext c k x) := by
  cases x with
  | process p => exact h.runQueues.procs
  | thread t => exact h.runQueues.thrds

theorem mem_members : slot x ∈ members np nt x ↔ Created np nt x := by
  cases x with
  | process p => exact mem_queue
  | thread t => exact mem_queue

theorem members_grow (hnp : np ≤ np') (hnt : nt ≤ nt') (x : Context) :
    ∃ w, members np' nt' x = members np nt x ++ w := by
  have hgrow : ∀ {m n : Nat}, m ≤ n → List.range' 1 n = List.range' 1 m ++ List.range' (1 + m) (n - m) := by
    intro m n hle
    rw [List.range'_append_1, Nat.add_sub_cancel' hle]
  cases x with
  | process p => exact ⟨_, hgrow hnp⟩
  | thread t => exact ⟨_, hgrow hnt⟩

theorem Tables.turn_ring (h : Tables c k np nt) (hx : Created np nt x) :
    IsRing (rotation k x).next (rotation k x).start (searchOrder (members np nt x) (rotation k x).last) :=
  (h.turn x).order (List.ne_nil_of_mem (mem_members.mpr hx))

theorem Tables.mem_turn (h : Tables c k np nt) :
    slot x ∈ searchOrder (members np nt x) (rotation k x).last ↔ Created np nt x :=
  (h.turn x).order_perm.mem_iff.trans mem_members

theorem sibling_slot (hqueue : SameQueue x y) : sibling x (slot y) = y := by
  cases x <;> cases y <;> first | exact hqueue.elim | rfl

theorem SameQueue.trans (h : SameQueue x y) (h' : SameQueue x z) : SameQueue y z := by
  cases x <;> cases y <;> cases z <;> first | exact h.elim | exact h'.elim | exact trivial

theorem selected_iff {savedEsp : Nat} (hy : Selected c k savedEsp y) (hqueue : SameQueue y z) :
    Selected c k savedEsp z ↔ slot y = slot z := by
  constructor
  · intro hz
    exact congrArg slot (eq_of_chosen hy.1 hz.1 (Option.some.inj (hy.2.symm.trans hz.2)))
  · intro hslot
    exact eq_of_slot hqueue hslot.symm ▸ hy

/-- A selection from the queue, as the search of the ring sees it. -/
theorem Settled.irq_turn (h : Settled c k np nt) (hx : Created np nt x) (hrunnable : Runnable k x) {savedEsp : Nat}
    (hselected : Selected c k savedEsp y) (hqueue : SameQueue x y) : ∃ u v,
      IsRing (rotation k x).next (rotation k x).start (u ++ slot y :: v) ∧
      slot x ∈ u ++ slot y :: v ∧ slot x ∉ u ∧
      IsRing (rotation k x).next ((rotation k x).next (slot y)) (v ++ u ++ [slot y]) := by
  have hready := h.saved_ready hx hrunnable savedEsp
  have htables := h.tables.saved_tables savedEsp
  have hturn := htables.turn x
  have hring := htables.turn_ring hx
  have hmem := htables.mem_turn.mpr hx
  have hfirst := hturn.first
  have hsame : findNext c (savedKernel k savedEsp) x = findNext c (savedKernel k savedEsp) y := by
    cases x <;> cases y <;> first | exact hqueue.elim | rfl
  rw [hsame, (htables.chosen_found hselected.1 hselected.2).1] at hfirst
  rw [rotation_saved] at hring hmem hfirst
  generalize searchOrder (members np nt x) (rotation k x).last = order at hring hmem hfirst
  have hfind : order.find? (readyIn (savedKernel k savedEsp) x) = some (slot y) := by
    cases hsearch : order.find? (readyIn (savedKernel k savedEsp) x) with
    | none =>
        rw [hsearch] at hfirst
        exact absurd (Option.some.inj hfirst) hselected.1
    | some q =>
        rw [hsearch] at hfirst
        exact hfirst.symm
  obtain ⟨_, u, v, rfl, hu⟩ := List.find?_eq_some_iff_append.mp hfind
  have hlast : slot y ∈ u ++ slot y :: v := List.mem_append_right u List.mem_cons_self
  have hout : slot y ∉ u := by
    intro hin
    exact (List.nodup_append.mp hring.nodup).2.2 _ hin _ List.mem_cons_self rfl
  refine ⟨u, v, hring, hmem, ?_, ?_⟩
  · intro hin
    have := hu (slot x) hin
    rw [(readyIn_slot _ x).mpr hready] at this
    cases this
  · rw [← roundFrom_append_cons hout]
    exact hring.roundFrom hlast

/-- The interrupt passes over none that is ready. -/
theorem Settled.irq_arrears (h : Settled c k np nt) (hx : Created np nt x) (hrunnable : Runnable k x)
    (hqueue : SameQueue x z) (hne : x ≠ z) {savedEsp : Nat} {r : Kernel × Nat} (hirq : schedulerIrq c k savedEsp = some r) :
    (if Selected c k savedEsp z then 1 else 0) + arrearsOf r.1 x z ≤
      (if Selected c k savedEsp x then 1 else 0) + arrearsOf k x z := by
  rcases h.irq_cases savedEsp with ⟨y, hy, _, hselected, heq, _⟩ | ⟨hnone, _⟩
  · obtain rfl := Option.some.inj (heq.symm.trans hirq)
    by_cases hsame : SameQueue x y
    · obtain ⟨u, v, hring, hmem, hout, hring'⟩ := h.irq_turn hx hrunnable hselected hsame
      have hslots : slot x ≠ slot z := fun hslot => hne (eq_of_slot hqueue hslot.symm).symm
      have hserve := hring.arrears_serve hring' hmem hout hslots
      have hself : SameQueue x x := by cases x <;> exact trivial
      simp only [selected_iff hselected (hsame.trans hqueue), selected_iff hselected (hsame.trans hself)]
      rw [arrearsOf, rotation_resume_same _ hsame, rotation_toggle, rotation_saved]
      simp only [Rotation.start, ne_eq, slot_pos hy, not_false_eq_true, if_true]
      exact hserve
    · have hnot : ∀ w, SameQueue x w → ¬ Selected c k savedEsp w := by
        intro w hw hsel
        obtain rfl := eq_of_chosen hselected.1 hsel.1 (Option.some.inj (hselected.2.symm.trans hsel.2))
        exact hsame hw
      have hself : SameQueue x x := by cases x <;> exact trivial
      rw [if_neg (hnot z hqueue), if_neg (hnot x hself), arrearsOf, rotation_resume_other _ hsame, rotation_toggle,
        rotation_saved]
      exact Int.le_refl _
  · exact (hnone x hx (h.saved_ready hx hrunnable savedEsp)).elim

/-- Nothing else moves the node selected last. -/
theorem rotation_last (h : Tables c k np nt) {a : Act} (halters : Alters c k a k') (x : Context) :
    (rotation k' x).last = (rotation k x).last := by
  cases halters with
  | process free created =>
      rw [(h.process_created free created).2.2.2]
      cases x <;> rfl
  | thread given free created =>
      rw [(h.thread_created given free created).2.2.2.2]
      cases x <;> rfl
  | _ => cases x <;> rfl

/-- New contexts come last in the ring, wherever its search starts. -/
theorem Settled.alters_arrears (h : Settled c k np nt) (hx : Created np nt x) {a : Act} (halters : Alters c k a k')
    (z : Context) : arrearsOf k' x z ≤ arrearsOf k x z := by
  obtain ⟨np', nt', hnp, hnt, h'⟩ := h.alters halters
  have hring := h.tables.turn_ring hx
  have hring' := h'.tables.turn_ring (hx.mono hnp hnt)
  apply hring.arrears_mono hring'
  obtain ⟨w, hw⟩ := members_grow hnp hnt x
  rw [rotation_last h.tables halters, hw, searchOrder, searchOrder]
  split
  · rename_i hlast
    have hnodup : (members np nt x).Nodup := by
      cases x <;> exact List.nodup_range'
    exact roundFrom_sublist hnodup ((h.tables.turn x).current_mem hlast) w
  · exact List.sublist_append_left _ w

end Queues

/-- The context is in the tables. -/
def Known (c : Config) (x : Context) (s : Activity) : Prop := ∃ np nt, Settled c s.kernel np nt ∧ Created np nt x

/-- What stays runnable along a run. -/
def Stays (x : Context) (s : Activity) (_ : Act) : Prop := Runnable s.kernel x

/-- An interrupt that selects from the queue of `x`. -/
def Serves (c : Config) (x : Context) (s : Activity) (a : Act) : Prop := ∃ y, SameQueue x y ∧ Selects c y s a

/-- How often the queue is served. -/
noncomputable def served (c : Config) (x : Context) : Activity → List Act → Nat :=
  open Classical in total (actStep c) (fun s a => if Serves c x s a then 1 else 0)

section Steps

variable {c : Config} {s t : Activity} {a : Act} {x z : Context} {acts : List Act}

theorem Known.step (h : Known c x s) (step : ActStep c s a t) : Known c x t := by
  obtain ⟨np, nt, hsettled, hx⟩ := h
  obtain ⟨np', nt', hnp, hnt, hsettled'⟩ := hsettled.step step
  exact ⟨np', nt', hsettled', hx.mono hnp hnt⟩

theorem selects_irq {savedEsp : Nat} : Selects c x s (.event (.irq savedEsp)) ↔ Selected c s.kernel savedEsp x := Iff.rfl

theorem not_selects (hirq : isIrq a = false) : ¬ Selects c x s a := by
  intro hselects
  unfold Selects at hselects
  split at hselects
  · cases hirq
  · exact hselects

/-- One act: whoever is selected had not yet had the turn that was due. -/
theorem Known.step_arrears (h : Known c x s) (hrunnable : Runnable s.kernel x) (hqueue : SameQueue x z) (hne : x ≠ z)
    (step : ActStep c s a t) : ((if Selects c z s a then 1 else 0 : Nat) : Int) + arrearsOf t.kernel x z ≤
      (if Selects c x s a then 1 else 0 : Nat) + arrearsOf s.kernel x z := by
  obtain ⟨np, nt, hsettled, hx⟩ := h
  rcases actStep_cases step with ⟨savedEsp, r, rfl, hirq, rfl⟩ | ⟨hirq, _, k', halters, rfl⟩
  · have hpay := hsettled.irq_arrears hx hrunnable hqueue hne hirq
    simp only [selects_irq]
    push_cast
    exact hpay
  · rw [if_neg (not_selects hirq), if_neg (not_selects hirq)]
    exact Int.add_le_add_left (hsettled.alters_arrears hx halters z) 0

theorem paid_arrears (hx : Known c x s) (run : Run (When (Stays x) (ActStep c)) s acts t) (hqueue : SameQueue x z)
    (hne : x ≠ z) : (selections c z s acts : Int) + arrearsOf t.kernel x z ≤
      selections c x s acts + arrearsOf s.kernel x z :=
  run.total_le (I := Known c x) (φ := fun s => arrearsOf s.kernel x z)
    (fun _ _ _ hknown hrunnable step => ⟨hknown.step step, hknown.step_arrears hrunnable hqueue hne step⟩) hx

/-- While a context waits, no other of its queue has two turns more. -/
theorem overtaken_once (hx : Known c x s) (run : Run (When (Stays x) (ActStep c)) s acts t) (hqueue : SameQueue x z) :
    selections c z s acts ≤ selections c x s acts + 1 := by
  by_cases hne : x = z
  · subst hne
    exact Nat.le_succ _
  · have hpay := paid_arrears hx run hqueue hne
    have hstart := (arrears_bounds (rotation s.kernel x).next (rotation s.kernel x).start (slot x) (slot z)).2
    have hend := (arrears_bounds (rotation t.kernel x).next (rotation t.kernel x).start (slot x) (slot z)).1
    simp only [arrearsOf] at hpay
    omega

/-- A queue that is preferred is served when something in it is ready. -/
theorem Known.served (h : Known c x s) (hrunnable : Runnable s.kernel x)
    (hpreferred : (rotation s.kernel x).preferred = true) {savedEsp : Nat} : Serves c x s (.event (.irq savedEsp)) := by
  obtain ⟨np, nt, hsettled, hx⟩ := h
  have hready := hsettled.saved_ready hx hrunnable savedEsp
  have htables := hsettled.tables.saved_tables savedEsp
  rcases hsettled.irq_cases savedEsp with ⟨y, _, _, hselected, _, _⟩ | ⟨hnone, _⟩
  · refine ⟨y, ?_, hselected⟩
    by_contra hqueue
    have hidle := (htables.chosen_found hselected.1 hselected.2).2 x hqueue
    rw [rotation_saved] at hidle
    exact htables.findNext_ne_zero hx hready (hidle hpreferred)
  · exact (hnone x hx hready).elim

/-- Every interrupt turns the preference. -/
theorem Known.preferred_step (h : Known c x s) (step : ActStep c s a t) :
    (rotation t.kernel x).preferred = if isIrq a then !(rotation s.kernel x).preferred else (rotation s.kernel x).preferred := by
  obtain ⟨np, nt, hsettled, hx⟩ := h
  rcases actStep_cases step with ⟨savedEsp, r, rfl, hirq, rfl⟩ | ⟨hirq, _, k', halters, rfl⟩
  · rcases hsettled.irq_cases savedEsp with ⟨y, _, _, _, heq, _⟩ | ⟨_, heq, _⟩
    · obtain rfl := Option.some.inj (heq.symm.trans hirq)
      have hboth := rotation_saved s.kernel savedEsp x
      by_cases hqueue : SameQueue x y
      · rw [rotation_resume_same _ hqueue, rotation_toggle, hboth]
        rfl
      · rw [rotation_resume_other _ hqueue, rotation_toggle, hboth]
        rfl
    · obtain rfl := Option.some.inj (heq.symm.trans hirq)
      rw [rotation_toggle, rotation_saved]
      rfl
  · rw [hirq]
    cases halters with
    | process free created =>
        dsimp only
        rw [(hsettled.tables.process_created free created).2.2.2]
        cases x <;> rfl
    | thread given free created =>
        dsimp only
        rw [(hsettled.tables.thread_created given free created).2.2.2.2]
        cases x <;> rfl
    | _ => cases x <;> rfl

open Classical in
/-- Half of the interrupts prefer the queue. -/
theorem served_half (hx : Known c x s) (run : Run (When (Stays x) (ActStep c)) s acts t) :
    acts.countP isIrq ≤ 2 * served c x s acts + 1 := by
  have hpay : (total (actStep c) (fun _ a => if isIrq a then 1 else 0) s acts : Int) +
        (if (rotation t.kernel x).preferred then 0 else 1) ≤
      total (actStep c) (fun s a => 2 * if Serves c x s a then 1 else 0) s acts +
        (if (rotation s.kernel x).preferred then 0 else 1) := by
    refine run.total_le (I := Known c x) (φ := fun s => if (rotation s.kernel x).preferred then 0 else 1) ?_ hx
    intro s a t hknown hrunnable step
    refine ⟨hknown.step step, ?_⟩
    rw [hknown.preferred_step step]
    cases hirq : isIrq a with
    | false =>
        simp only [Bool.false_eq_true, if_false]
        omega
    | true =>
        cases hpreferred : (rotation s.kernel x).preferred with
        | false =>
            simp only [Bool.not_false, if_true, Bool.false_eq_true, if_false]
            omega
        | true =>
            have hserved : Serves c x s a := by
              cases a with
              | procExit => cases hirq
              | event e =>
                  cases e with
                  | irq savedEsp => exact hknown.served hrunnable hpreferred
                  | _ => cases hirq
            rw [if_pos hserved]
            decide
  rw [total_mul] at hpay
  have hcount : total (actStep c) (fun _ a => if isIrq a then 1 else 0) s acts = acts.countP isIrq :=
    total_countP isIrq run.of_when
  rw [hcount] at hpay
  rw [served]
  split at hpay
  · split at hpay
    · omega
    · omega
  · split at hpay
    · omega
    · omega

theorem selects_cases (h : Selects c x s a) : ∃ savedEsp, a = .event (.irq savedEsp) ∧ Selected c s.kernel savedEsp x := by
  unfold Selects at h
  split at h
  · exact ⟨_, rfl, h⟩
  · exact h.elim

theorem sibling_same (x : Context) (m : Nat) : SameQueue x (sibling x m) ∧ slot (sibling x m) = m := by
  cases x <;> exact ⟨trivial, rfl⟩

/-- Whom the queue serves is one of its members. -/
theorem served_le_sum (hx : Known c x s) (run : Run (ActStep c) s acts t) {l : List Nat} (hring : InRing t.kernel l x) :
    served c x s acts ≤ (l.map (fun m => selections c (sibling x m) s acts)).sum := by
  refine run.total_le_sum (I := fun s => ∃ np nt, Settled c s.kernel np nt) (J := fun s m => Known c (sibling x m) s)
    ?_ ⟨_, _, hx.choose_spec.choose_spec.1⟩ ?_
  · intro s a t hsettled step
    refine ⟨settled_step hsettled step, fun m hm => hm.step step, ?_⟩
    by_cases hserves : Serves c x s a
    · right
      obtain ⟨y, hqueue, hselects⟩ := hserves
      obtain ⟨savedEsp, rfl, hselected⟩ := selects_cases hselects
      obtain ⟨np, nt, hsettled⟩ := hsettled
      refine ⟨slot y, ⟨np, nt, hsettled, ?_⟩, ?_⟩
      · rw [sibling_slot hqueue]
        exact (hsettled.selected hselected).1
      · rw [sibling_slot hqueue, if_pos hselects]
        split
        · exact Nat.le_refl 1
        · exact Nat.zero_le 1
    · exact Or.inl (if_neg hserves)
  · rintro m ⟨np, nt, hsettled, hm⟩
    obtain ⟨hqueue, hslot⟩ := sibling_same x m
    have hmem := mem_members.mpr hm
    rw [hslot] at hmem
    have hmembers : members np nt (sibling x m) = members np nt x := by cases x <;> rfl
    have hcycle := (hsettled.tables.turn x).cycle.resolve_left (fun hempty => hring.1 hempty.2)
    rw [hring.2.1.unique hcycle, ← hmembers]
    exact hmem

/-- The account of the ticks: what is interrupted was selected before. -/
theorem interruptions_eq (hx : Known c x s) (run : Run (When (Stays x) (ActStep c)) s acts t) (z : Context) :
    (interruptions c z s acts : Int) + (if onCpu t.kernel = some z then 1 else 0) =
      selections c z s acts + (if onCpu s.kernel = some z then 1 else 0) := by
  refine run.total_eq (I := Known c x) (φ := fun s => if onCpu s.kernel = some z then 1 else 0) ?_ hx
  intro s a t hknown hrunnable step
  refine ⟨hknown.step step, ?_⟩
  obtain ⟨np, nt, hsettled, hx⟩ := hknown
  rcases actStep_cases step with ⟨savedEsp, r, rfl, hirq, rfl⟩ | ⟨hirq, _, k', halters, rfl⟩
  · rcases hsettled.irq_cases savedEsp with ⟨y, _, _, hselected, heq, _⟩ | ⟨hnone, _⟩
    · obtain rfl := Option.some.inj (heq.symm.trans hirq)
      have hnow : Selects c z s (.event (.irq savedEsp)) ↔ some y = some z := by
        rw [Option.some_inj]
        constructor
        · exact fun hz => eq_of_chosen hselected.1 hz.1 (Option.some.inj (hselected.2.symm.trans hz.2))
        · rintro rfl
          exact hselected
      have hthen : Interrupts z s (.event (.irq savedEsp)) ↔ onCpu s.kernel = some z := and_iff_right rfl
      simp only [resume_onCpu, hnow, hthen]
      push_cast
      exact Int.add_comm _ _
    · exact (hnone x hx (hsettled.saved_ready hx hrunnable savedEsp)).elim
  · have hnot : ¬ Interrupts z s a := fun h => absurd (hirq.symm.trans h.1) Bool.false_ne_true
    dsimp only
    rw [if_neg hnot, if_neg (not_selects hirq), hsettled.alters_onCpu halters]

/-- What is on the CPU was selected last: it is the last to be due again. -/
theorem Known.onCpu_round (h : Known c x s) {y : Context} (hy : onCpu s.kernel = some y) (hqueue : SameQueue x y)
    (hslot : slot y ≠ 0) : ∃ w, IsRing (rotation s.kernel x).next (rotation s.kernel x).start (w ++ [slot y]) ∧
      slot x ∈ w ++ [slot y] := by
  obtain ⟨np, nt, hsettled, hx⟩ := h
  have hring := hsettled.tables.turn_ring hx
  have hmem := hsettled.tables.mem_turn.mpr hx
  have hlast : (rotation s.kernel x).last = slot y := by
    unfold onCpu at hy
    cases x <;> cases y <;> cases hkind : s.kernel.currentKind <;> simp_all [rotation, slot, SameQueue]
  have hcurrent := (hsettled.tables.turn x).current_mem
  rw [hlast] at hring hmem hcurrent
  have hnodup : (members np nt x).Nodup := by
    cases x <;> exact List.nodup_range'
  rw [searchOrder, if_pos hslot] at hring hmem
  obtain ⟨w, hw⟩ := roundFrom_last hnodup (hcurrent hslot)
  rw [hw] at hring hmem
  exact ⟨w, hring, hmem⟩

theorem Known.arrears_onCpu (h : Known c x s) (hqueue : SameQueue x z) (hne : x ≠ z) (hz : onCpu s.kernel = some z)
    (hslot : slot z ≠ 0) : arrearsOf s.kernel x z = 0 := by
  obtain ⟨w, hring, hmem⟩ := h.onCpu_round hz hqueue hslot
  apply hring.arrears_to_last
  refine (List.mem_append.mp hmem).resolve_right (fun hlast => hne ?_)
  exact (eq_of_slot hqueue (List.mem_singleton.mp hlast).symm).symm

theorem Known.arrears_of_onCpu (h : Known c x s) (hx : onCpu s.kernel = some x) (z : Context) :
    arrearsOf s.kernel x z = 1 := by
  have hself : SameQueue x x := by cases x <;> exact trivial
  have hslot : slot x ≠ 0 := slot_pos h.choose_spec.choose_spec.2
  obtain ⟨w, hring, _⟩ := h.onCpu_round hx hself hslot
  exact hring.arrears_last

/-- While a context waits, no other of its queue is interrupted twice more. -/
theorem interrupted_once (hx : Known c x s) (run : Run (When (Stays x) (ActStep c)) s acts t) (hqueue : SameQueue x z)
    (hslot : slot z ≠ 0) : interruptions c z s acts ≤ interruptions c x s acts + 1 := by
  by_cases hne : x = z
  · subst hne
    exact Nat.le_succ _
  · have hpay := paid_arrears hx run hqueue hne
    have hother := interruptions_eq hx run z
    have hself := interruptions_eq hx run x
    have hlater : Known c x t := run.of_when.invariant (fun _ _ _ h step => h.step step) hx
    have hstart : arrearsOf s.kernel x z + (if onCpu s.kernel = some z then 1 else 0) ≤ 1 := by
      split
      · rename_i hz
        rw [hx.arrears_onCpu hqueue hne hz hslot]
        decide
      · rw [Int.add_zero]
        exact (arrears_bounds ..).2
    have hend : (if onCpu t.kernel = some x then 1 else 0) ≤ arrearsOf t.kernel x z := by
      split
      · rename_i hx'
        rw [hlater.arrears_of_onCpu hx' z]
      · exact (arrears_bounds ..).1
    omega

/-- An interrupt adds a tick to the process that it finds on the CPU; nothing else does. -/
theorem Known.step_ticks {q : Nat} (h : Known c (.process q) s) (step : ActStep c s a t) :
    (t.kernel.pcbTable q).totalTicks ≡
      (s.kernel.pcbTable q).totalTicks + (if Interrupts (.process q) s a then 1 else 0) [MOD 2 ^ 32] := by
  obtain ⟨np, nt, hsettled, hq⟩ := h
  have hpos : q ≠ 0 := slot_pos hq
  rcases actStep_cases step with ⟨savedEsp, r, rfl, hirq, rfl⟩ | ⟨hirq, _, k', halters, rfl⟩
  · have hsaved : (r.1.pcbTable q).totalTicks = ((savedKernel s.kernel savedEsp).pcbTable q).totalTicks := by
      rcases hsettled.irq_cases savedEsp with ⟨y, _, _, _, heq, _⟩ | ⟨_, heq, _⟩
      · obtain rfl := Option.some.inj (heq.symm.trans hirq)
        rw [resume_proc]
        split <;> rfl
      · obtain rfl := Option.some.inj (heq.symm.trans hirq)
        rfl
    have hinterrupts : Interrupts (.process q) s (.event (.irq savedEsp)) ↔ onCpu s.kernel = some (.process q) :=
      and_iff_right rfl
    dsimp only
    rw [hsaved, savedKernel_proc]
    simp only [hinterrupts]
    by_cases hon : onCpu s.kernel = some (.process q)
    · rw [if_pos ⟨hpos, hon⟩, if_pos hon]
      exact Nat.mod_modEq _ _
    · rw [if_neg (fun h => hon h.2), if_neg hon]
      exact Nat.ModEq.refl _
  · have hnot : ¬ Interrupts (.process q) s a := fun h => absurd (hirq.symm.trans h.1) Bool.false_ne_true
    have hkeep : (k'.pcbTable q).totalTicks = (s.kernel.pcbTable q).totalTicks := by
      cases halters with
      | process free created =>
          have hlt : q < np + 1 := Nat.lt_succ_of_le hq.2
          rw [(hsettled.tables.process_created free created).2.2.1 q (Nat.ne_of_lt hlt)]
      | thread given free created =>
          rw [(hsettled.tables.thread_created given free created).2.2.2.2]
      | killed =>
          rw [setProc]
          dsimp only
          rw [Function.update_apply]
          split
          · rename_i hkilled
            rw [hkilled]
          · rfl
      | exited =>
          rw [setProc]
          dsimp only
          rw [Function.update_apply]
          split
          · rename_i hexited
            rw [hexited]
          · rfl
      | _ => rfl
    rw [if_neg hnot, Nat.add_zero]
    exact hkeep ▸ Nat.ModEq.refl _

theorem ticks_counted {q : Nat} (h : Known c (.process q) s) (run : Run (ActStep c) s acts t) :
    (t.kernel.pcbTable q).totalTicks ≡
      (s.kernel.pcbTable q).totalTicks + interruptions c (.process q) s acts [MOD 2 ^ 32] := by
  induction run with
  | nil => exact Nat.ModEq.refl _
  | cons now _ ih =>
      have hrest := ih (h.step now)
      rw [interruptions, total_cons now, ← Nat.add_assoc]
      exact hrest.trans ((h.step_ticks now).add_right _)

/-- The interrupts of a run as they fall to a context that stays runnable, in a ring of `n`. -/
structure FairShare (c : Config) (x : Context) (n : Nat) (s : Activity) (acts : List Act) : Prop where
  overtaken : ∀ z, SameQueue x z → selections c z s acts ≤ selections c x s acts + 1
  quota : acts.countP isIrq ≤ 2 * n * (selections c x s acts + 1) + 1

/-- What `total_ticks` says: it counts the interrupts of each process, and of the runnable
ones no other has two more. -/
structure TickShare (c : Config) (s t : Activity) (acts : List Act) : Prop where
  counted : ∀ q, Known c (.process q) s → (t.kernel.pcbTable q).totalTicks ≡
    (s.kernel.pcbTable q).totalTicks + interruptions c (.process q) s acts [MOD 2 ^ 32]
  shared : ∀ p l, InRing s.kernel l (.process p) → Run (When (Stays (.process p)) (ActStep c)) s acts t →
    ∀ q, q ≠ 0 → interruptions c (.process q) s acts ≤ interruptions c (.process p) s acts + 1

end Steps

section Shares

variable {c : Config} {s u t : Activity} {before acts : List Act} {x : Context} {l m : List Nat}

theorem known_of_ring (start : Started c s) (run : Run (ActStep c) s before u) (hx : InRing u.kernel l x) : Known c x u := by
  obtain ⟨np, nt, hsettled⟩ := run_settled start run
  exact ⟨np, nt, hsettled, (hsettled.tables.rotation_ring hx).1⟩

/-- In every run, with contexts created, blocked, woken and killed on the way, a context
that stays runnable is overtaken by no other of its queue twice in a row, and one in
`2 n` interrupts is its own. -/
theorem fair_share (start : Started c s) (run : Run (ActStep c) s before u) (hx : InRing u.kernel l x)
    (later : Run (When (Stays x) (ActStep c)) u acts t) (hend : InRing t.kernel m x) :
    FairShare c x m.length u acts := by
  have hknown := known_of_ring start run hx
  have hover : ∀ z, SameQueue x z → selections c z u acts ≤ selections c x u acts + 1 :=
    fun z hqueue => overtaken_once hknown later hqueue
  refine ⟨hover, ?_⟩
  have hhalf := served_half hknown later
  have hsum := served_le_sum hknown later.of_when hend
  have hbound : (m.map (fun n => selections c (sibling x n) u acts)).sum ≤
      (m.map (fun n => selections c (sibling x n) u acts)).length * (selections c x u acts + 1) := by
    apply List.sum_le_card_nsmul
    intro n hn
    obtain ⟨q, _, rfl⟩ := List.mem_map.mp hn
    exact hover _ (sibling_same x q).1
  rw [List.length_map] at hbound
  calc acts.countP isIrq ≤ 2 * served c x u acts + 1 := hhalf
    _ ≤ 2 * (m.length * (selections c x u acts + 1)) + 1 := by omega
    _ = 2 * m.length * (selections c x u acts + 1) + 1 := by rw [Nat.mul_assoc]

/-- In every run `total_ticks` counts the interrupts of each process, and while a process is
runnable no other gains two ticks on it. -/
theorem tick_share (start : Started c s) (run : Run (ActStep c) s before u) (later : Run (ActStep c) u acts t) :
    TickShare c u t acts :=
  ⟨fun _ hq => ticks_counted hq later,
    fun _ _ hp stays _ hq => interrupted_once (known_of_ring start run hp) stays trivial hq⟩

end Shares

instance (x : Context) (s : Activity) (a : Act) : Decidable (Stays x s a) :=
  inferInstanceAs (Decidable (Runnable s.kernel x))

/-- Process A starts a thread and a process, the shell waits its turn, B is killed. -/
def sharedActs : List Act :=
  [.event (.irq 0), .event (.threadCreate 0x10400 0), .event (.procCreate 0x10500), .event (.irq 0), .event (.irq 0),
    .event (.kill 3), .event (.irq 0), .event (.irq 0), .event (.irq 0)]

theorem sharedActs_isSome : (execute (guarded (Stays (.process 1)) (actStep sampleConfig)) shellActivity
    sharedActs).isSome = true := by decide +kernel

theorem shellActivity_run : Run (ActStep sampleConfig) sampleActivity [.event (.irq 0)] shellActivity :=
  run_of_execute (Option.some_get firstInterrupt_isSome).symm

theorem shellActivity_ring : InRing shellActivity.kernel [1, 2, 3] (.process 1) :=
  ⟨by decide +kernel, ⟨by decide, by decide, by decide +kernel⟩, by decide⟩

/-- The shell is selected once in six interrupts, the ring has four processes at the end. -/
theorem fair_share_sample : FairShare sampleConfig (.process 1) [1, 2, 3, 4].length shellActivity sharedActs := by
  have hend : InRing ((execute (guarded (Stays (.process 1)) (actStep sampleConfig)) shellActivity
      sharedActs).get sharedActs_isSome).kernel [1, 2, 3, 4] (.process 1) :=
    ⟨by decide +kernel, ⟨by decide, by decide, by decide +kernel⟩, by decide⟩
  have later := run_of_execute_guarded (Option.some_get sharedActs_isSome).symm
  exact fair_share sampleActivity_started shellActivity_run shellActivity_ring later hend

theorem tick_share_sample : ∃ t, TickShare sampleConfig shellActivity t sharedActs ∧
    interruptions sampleConfig (.process 2) shellActivity sharedActs ≤
      interruptions sampleConfig (.process 1) shellActivity sharedActs + 1 := by
  obtain ⟨t, ht⟩ := Option.isSome_iff_exists.mp sharedActs_isSome
  have stays := run_of_execute_guarded ht
  have hshare := tick_share sampleActivity_started shellActivity_run stays.of_when
  exact ⟨t, hshare, hshare.shared 1 _ shellActivity_ring stays 2 (by decide)⟩

end SengKernel.Sched
