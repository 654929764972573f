import SengKernel.SchedulerActivity

/- Round robin is fair. A ring is seen as its links, its head, the node selected
   last and whether the next interrupt prefers it; the distance from the start of
   the search to a ready node shrinks with every pair of interrupts. -/
namespace SengKernel.Sched
open BoundedLoop MachineWord LinkedRing Transition

/-- One run queue, as an interrupt finds it. -/
structure Rotation where
  next : Nat → Nat
  head : Nat
  last : Nat
  preferred : Bool

/-- The queue that a context stands in. -/
def rotation (k : Kernel) : Context → Rotation
  | .process _ => ⟨procNext k, k.readyHead, k.current, !k.preferThread⟩
  | .thread _ => ⟨threadNext k, k.threadHead, k.currentSchedThread, k.preferThread⟩

def Rotation.start (r : Rotation) : Nat := if r.last ≠ 0 then r.next r.last else r.head

def SameQueue : Context → Context → Prop
  | .process _, .process _ => True
  | .thread _, .thread _ => True
  | _, _ => False

def readyIn (k : Kernel) : Context → Nat → Bool
  | .process _ => fun p => (k.pcbTable p).state = .ready
  | .thread _ => fun t => (k.threadTable t).state = .ready

def findNext (c : Config) (k : Kernel) : Context → Option Nat
  | .process _ => findNextProcess k
  | .thread _ => findNextThread c k

/-- READY or RUNNING: the next interrupt may select it. -/
def Runnable (k : Kernel) (x : Context) : Prop := IsReady k x ∨ IsRunning k x

/-- The context is a node of its run queue, whose nodes these are. -/
def InRing (k : Kernel) (l : List Nat) (x : Context) : Prop :=
  (rotation k x).head ≠ 0 ∧ IsRing (rotation k x).next (rotation k x).head l ∧ slot x ∈ l

section Selection

variable {c : Config} {k : Kernel} {np nt : Nat}

theorem readyIn_slot (k : Kernel) (x : Context) : readyIn k x (slot x) = true ↔ IsReady k x := by
  cases x <;> exact decide_eq_true_iff

theorem findNext_eq (c : Config) (k : Kernel) (x : Context) : ∃ fuel, findNext c k x =
    if (rotation k x).head = 0 then some 0
    else if (rotation k x).start = 0 then some 0
    else search (rotation k x).next (readyIn k x) 0 (rotation k x).start fuel (rotation k x).start := by
  cases x with
  | process p => exact ⟨maxProcesses, rfl⟩
  | thread t => exact ⟨c.maxThreads, rfl⟩

theorem findNext_search {x : Context} {q : Nat} (h : findNext c k x = some q) (hq : q ≠ 0) :
    ∃ fuel, search (rotation k x).next (readyIn k x) 0 (rotation k x).start fuel (rotation k x).start =
      some q := by
  obtain ⟨fuel, heq⟩ := findNext_eq c k x
  rw [heq] at h
  split at h
  · exact (hq (Option.some.inj h).symm).elim
  · split at h
    · exact (hq (Option.some.inj h).symm).elim
    · exact ⟨fuel, h⟩

/-- A selected context was found by the search of its own queue; the other queue,
when preferred, had nothing to offer. -/
theorem Tables.chosen_found (h : Tables c k np nt) {y : Context} (hy : slot y ≠ 0)
    (hchoose : chooseNext c k = some (chosen y)) :
    findNext c k y = some (slot y) ∧
      ∀ x, ¬ SameQueue x y → (rotation k x).preferred = true → findNext c k x = some 0 := by
  obtain ⟨p, hproc, _⟩ := h.findNextProcess_spec
  obtain ⟨t, hthread, _⟩ := h.findNextThread_spec
  unfold chooseNext at hchoose
  rw [hproc, hthread] at hchoose
  cases y with
  | process q =>
      have hq : q ≠ 0 := hy
      cases hprefer : k.preferThread with
      | true =>
          cases t with
          | succ t => simp [hprefer, chosen] at hchoose
          | zero =>
              simp only [hprefer, if_true, Option.map_some, chosen, Option.some.injEq, Prod.mk.injEq,
                true_and] at hchoose
              refine ⟨by rw [findNext, hproc, hchoose]; rfl, fun x hx _ => ?_⟩
              cases x with
              | process _ => exact (hx trivial).elim
              | thread _ => exact hthread
      | false =>
          cases p with
          | zero => simp [hprefer, chosen, Ne.symm hq] at hchoose
          | succ p =>
              simp only [hprefer, Bool.false_eq_true, if_false, chosen, Option.some.injEq, Prod.mk.injEq,
                true_and] at hchoose
              refine ⟨by rw [findNext, hproc, hchoose]; rfl, fun x hx hpreferred => ?_⟩
              cases x with
              | process _ => exact (hx trivial).elim
              | thread _ => simp [rotation, hprefer] at hpreferred
  | thread u =>
      have hu : u ≠ 0 := hy
      cases hprefer : k.preferThread with
      | false =>
          cases p with
          | succ p => simp [hprefer, chosen] at hchoose
          | zero =>
              simp only [hprefer, Bool.false_eq_true, if_false, Option.map_some, chosen, Option.some.injEq,
                Prod.mk.injEq, and_true] at hchoose
              refine ⟨by rw [findNext, hthread, hchoose]; rfl, fun x hx _ => ?_⟩
              cases x with
              | thread _ => exact (hx trivial).elim
              | process _ => exact hproc
      | true =>
          cases t with
          | zero => simp [hprefer, chosen, Ne.symm hu] at hchoose
          | succ t =>
              simp only [hprefer, if_true, chosen, Option.some.injEq, Prod.mk.injEq, and_true] at hchoose
              refine ⟨by rw [findNext, hthread, hchoose]; rfl, fun x hx hpreferred => ?_⟩
              cases x with
              | thread _ => exact (hx trivial).elim
              | process _ => simp [rotation, hprefer] at hpreferred

/-- The search of a queue with a ready context does not come back empty-handed. -/
theorem Tables.findNext_ne_zero (h : Tables c k np nt) {x : Context} (hx : Created np nt x)
    (hready : IsReady k x) : findNext c k x ≠ some 0 := by
  intro hnone
  cases x with
  | process p =>
      obtain ⟨r, hproc, hr⟩ := h.findNextProcess_spec
      obtain rfl : r = 0 := Option.some.inj (hproc.symm.trans hnone)
      rcases hr with ⟨_, hall⟩ | ⟨hpos, _⟩
      · exact hall p hx.1 hx.2 hready
      · omega
  | thread t =>
      obtain ⟨r, hthread, hr⟩ := h.findNextThread_spec
      obtain rfl : r = 0 := Option.some.inj (hthread.symm.trans hnone)
      rcases hr with ⟨_, hall⟩ | ⟨hpos, _⟩
      · exact hall t hx.1 hx.2 hready
      · omega

theorem rotation_saved (k : Kernel) (savedEsp : Nat) (x : Context) :
    rotation (savedKernel k savedEsp) x = rotation k x := by
  have hframe := savedKernel_frame k savedEsp
  cases x with
  | process p =>
      have hnext : procNext (savedKernel k savedEsp) = procNext k := by
        funext q
        rw [procNext, savedKernel_proc]
        split <;> rfl
      simp only [rotation, hnext]
      rw [hframe]
  | thread t =>
      have hnext : threadNext (savedKernel k savedEsp) = threadNext k := by
        funext u
        rw [threadNext, savedKernel_thread]
        split <;> rfl
      simp only [rotation, hnext]
      rw [hframe]

theorem rotation_toggle (k : Kernel) (x : Context) :
    rotation (togglePreference k) x = { rotation k x with preferred := !(rotation k x).preferred } := by
  cases x <;> rfl

theorem rotation_resume_same (k : Kernel) {x y : Context} (h : SameQueue x y) :
    rotation (resume k y).1 x = { rotation k x with last := slot y } := by
  cases x with
  | process p =>
      cases y with
      | thread t => exact h.elim
      | process q =>
          have hnext : procNext (resume k (.process q)).1 = procNext k := by
            funext r
            rw [procNext, resume_proc]
            split <;> rfl
          simp only [rotation, hnext]
          rfl
  | thread t =>
      cases y with
      | process q => exact h.elim
      | thread u =>
          have hnext : threadNext (resume k (.thread u)).1 = threadNext k := by
            funext r
            rw [threadNext, resume_thread]
            split <;> rfl
          simp only [rotation, hnext]
          rfl

theorem rotation_resume_other (k : Kernel) {x y : Context} (h : ¬ SameQueue x y) :
    rotation (resume k y).1 x = rotation k x := by
  cases x with
  | process p =>
      cases y with
      | process q => exact (h trivial).elim
      | thread t => rfl
  | thread t =>
      cases y with
      | thread u => exact (h trivial).elim
      | process q => rfl

end Selection

/-- The context is among the next `m` nodes of its queue, and `n` interrupts are
enough to reach the last of these: every other one prefers the queue. -/
def Due (r : Rotation) (p n : Nat) : Prop :=
  ∃ m, Within r.next r.start p m ∧ (if r.preferred then 2 * m - 1 else 2 * m) ≤ n

theorem Due.pos {r : Rotation} {p n : Nat} (h : Due r p n) : 0 < n := by
  obtain ⟨m, ⟨k, hk, _⟩, hm⟩ := h
  split at hm <;> omega

/-- The acts that add a node to the context's ring. -/
def Enlarges (c : Config) (k : Kernel) : Context → Act → Prop
  | .process _, .event (.procCreate _) => findFreePcb k ≠ 0
  | .thread _, .event (.threadCreate fn _) => fn ≠ 0 ∧ findFreeThread c k ≠ 0
  | _, _ => False

/-- The context stays runnable and its ring as it is. -/
def Undisturbed (c : Config) (x : Context) (s : Activity) (a : Act) : Prop :=
  Runnable s.kernel x ∧ ¬ Enlarges c s.kernel x a

section Fairness

variable {c : Config} {k k' : Kernel} {np nt : Nat} {x : Context}

theorem Settled.saved_ready (h : Settled c k np nt) (hx : Created np nt x) (hrunnable : Runnable k x)
    (savedEsp : Nat) : IsReady (savedKernel k savedEsp) x := by
  cases x with
  | process p =>
      rw [IsReady, h.saved_procState savedEsp hx.1 hx.2]
      split
      · rfl
      · rename_i hrun
        exact hrunnable.resolve_right hrun
  | thread t =>
      rw [IsReady, h.saved_threadState savedEsp hx.1 hx.2]
      split
      · rfl
      · rename_i hrun
        exact hrunnable.resolve_right hrun

theorem eq_of_slot {y : Context} (hqueue : SameQueue x y) (hslot : slot y = slot x) : y = x := by
  cases x <;> cases y <;> first | exact hqueue.elim | exact congrArg _ hslot

theorem rotation_same (k : Kernel) {y : Context} (hqueue : SameQueue x y) : rotation k y = rotation k x := by
  cases x <;> cases y <;> first | exact hqueue.elim | rfl

theorem readyIn_same (k : Kernel) {y : Context} (hqueue : SameQueue x y) : readyIn k y = readyIn k x := by
  cases x <;> cases y <;> first | exact hqueue.elim | rfl

/-- One interrupt selects the context or brings it nearer. -/
theorem Settled.irq_due (h : Settled c k np nt) (hx : Created np nt x) (hrunnable : Runnable k x)
    {savedEsp n : Nat} (hdue : Due (rotation k x) (slot x) n) {r : Kernel × Nat}
    (hirq : schedulerIrq c k savedEsp = some r) :
    Selected c k savedEsp x ∨ Due (rotation r.1 x) (slot x) (n - 1) := by
  have hready := h.saved_ready hx hrunnable savedEsp
  have htables := h.tables.saved_tables savedEsp
  rcases h.irq_cases savedEsp with ⟨y, hy, _, hselected, heq, _⟩ | ⟨hnone, _⟩
  · obtain rfl := Option.some.inj (heq.symm.trans hirq)
    obtain ⟨hfound, hidle⟩ := htables.chosen_found hselected.1 hselected.2
    obtain ⟨m, hwithin, hm⟩ := hdue
    by_cases hqueue : SameQueue x y
    · obtain ⟨fuel, hsearch⟩ := findNext_search hfound (slot_pos hy)
      rw [rotation_saved, rotation_same k hqueue, readyIn_same _ hqueue] at hsearch
      rcases hwithin.search ((readyIn_slot _ x).mpr hready) hsearch (slot_pos hy) with hslot | hnearer
      · rw [eq_of_slot hqueue hslot] at hselected
        exact Or.inl hselected
      · right
        rw [rotation_resume_same _ hqueue, rotation_toggle, rotation_saved]
        refine ⟨m - 1, ?_, ?_⟩
        · simp only [Rotation.start, ne_eq, slot_pos hy, not_false_eq_true, if_true]
          exact hnearer
        · cases hpreferred : (rotation k x).preferred <;>
            simp only [hpreferred, Bool.not_true, Bool.not_false, Bool.false_eq_true, if_true, if_false] at hm ⊢ <;>
            omega
    · -- the other queue was preferred, so this one is next
      have hnot : (rotation k x).preferred = false := by
        rw [← Bool.not_eq_true]
        intro hpreferred
        rw [← rotation_saved k savedEsp] at hpreferred
        exact htables.findNext_ne_zero hx hready (hidle x hqueue hpreferred)
      right
      rw [rotation_resume_other _ hqueue, rotation_toggle, rotation_saved]
      refine ⟨m, hwithin, ?_⟩
      simp only [hnot, Bool.false_eq_true, if_false, Bool.not_false, if_true] at hm ⊢
      omega
  · exact (hnone x hx hready).elim

/-- No other act moves the rings' heads or the nodes selected last. -/
theorem rotation_alters (h : Tables c k np nt) {a : Act} (halters : Alters c k a k')
    (henlarges : ¬ Enlarges c k x a) : rotation k' x = rotation k x := by
  cases halters with
  | same => rfl
  | process free created =>
      obtain ⟨_, _, _, hframe⟩ := h.process_created free created
      cases x with
      | process p => exact (henlarges free).elim
      | thread t =>
          have hthreads : k'.threadTable = k.threadTable := by rw [hframe]
          have hnext : threadNext k' = threadNext k := by
            funext u
            rw [threadNext, hthreads]
            rfl
          simp only [rotation, hnext]
          rw [hframe]
  | thread given free created =>
      obtain ⟨_, _, _, _, hframe⟩ := h.thread_created given free created
      cases x with
      | thread t => exact (henlarges ⟨given, free⟩).elim
      | process p =>
          have hprocs : k'.pcbTable = k.pcbTable := by rw [hframe]
          have hnext : procNext k' = procNext k := by
            funext q
            rw [procNext, hprocs]
            rfl
          simp only [rotation, hnext]
          rw [hframe]
  | parked =>
      cases x with
      | process p => rfl
      | thread t =>
          simp only [rotation]
          rw [threadNext_setThread]
          · rfl
          · exact fun _ => rfl
  | woken =>
      cases x with
      | process p => rfl
      | thread t =>
          simp only [rotation]
          rw [threadNext_setThread]
          · rfl
          · exact fun _ => rfl
  | killed =>
      cases x with
      | thread t => rfl
      | process p =>
          simp only [rotation]
          rw [procNext_setProc]
          · rfl
          · exact fun _ => rfl
  | exited =>
      cases x with
      | thread t => rfl
      | process p =>
          simp only [rotation]
          rw [procNext_setProc]
          · rfl
          · exact fun _ => rfl

end Fairness

/-- Some interrupt of the run selects the context. -/
def SelectedDuring (c : Config) (x : Context) (s : Activity) (acts : List Act) : Prop :=
  ∃ before savedEsp after t, acts = before ++ .event (.irq savedEsp) :: after ∧
    Run (ActStep c) s before t ∧ Selected c t.kernel savedEsp x

theorem SelectedDuring.cons {c : Config} {x : Context} {s t : Activity} {a : Act} {acts : List Act}
    (step : ActStep c s a t) (h : SelectedDuring c x t acts) : SelectedDuring c x s (a :: acts) := by
  obtain ⟨before, savedEsp, after, u, rfl, hrun, hselected⟩ := h
  exact ⟨a :: before, savedEsp, after, u, rfl, .cons step hrun, hselected⟩

/-- A context that is due within the interrupts of the run is selected. -/
theorem selected_of_due {c : Config} {x : Context} {s t : Activity} {acts : List Act} {n : Nat}
    (run : Run (When (Undisturbed c x) (ActStep c)) s acts t)
    (h : ∃ np nt, Settled c s.kernel np nt ∧ Created np nt x) (hdue : Due (rotation s.kernel x) (slot x) n)
    (hirqs : n ≤ acts.countP isIrq) : SelectedDuring c x s acts := by
  induction run generalizing n with
  | nil =>
      have := hdue.pos
      simp at hirqs
      omega
  | cons step run ih =>
      obtain ⟨⟨hrunnable, henlarges⟩, step⟩ := step
      obtain ⟨np, nt, hsettled, hx⟩ := h
      obtain ⟨np', nt', hnp, hnt, hsettled'⟩ := hsettled.step step
      have hrest := ih (n := n - 1) ⟨np', nt', hsettled', hx.mono hnp hnt⟩
      have hkeep := ih (n := n) ⟨np', nt', hsettled', hx.mono hnp hnt⟩
      rcases actStep_cases step with ⟨savedEsp, r, rfl, hirq, rfl⟩ | ⟨hirq, _, k', halters, rfl⟩
      · rcases hsettled.irq_due hx hrunnable hdue hirq with hselected | hnearer
        · exact ⟨[], savedEsp, _, _, rfl, .nil _, hselected⟩
        · refine (hrest hnearer ?_).cons step
          rw [List.countP_cons_of_pos rfl] at hirqs
          omega
      · refine (hkeep ?_ ?_).cons step
        · rw [rotation_alters hsettled.tables halters henlarges]
          exact hdue
        · rwa [List.countP_cons_of_neg (by simp [hirq])] at hirqs

theorem Tables.rotation_ring {c : Config} {k : Kernel} {np nt : Nat} (h : Tables c k np nt) {x : Context}
    {l : List Nat} (hx : InRing k l x) : Created np nt x ∧ (rotation k x).start ∈ l := by
  obtain ⟨hhead, hring, hmem⟩ := hx
  have hqueue : ∀ {n : Nat}, Queue (rotation k x).next (rotation k x).head n → (rotation k x).last ≤ n →
      (1 ≤ slot x ∧ slot x ≤ n) ∧ (rotation k x).start ∈ l := by
    intro n hqueue hlast
    have hring' := hqueue.resolve_left (fun hempty => hhead hempty.2)
    obtain rfl := hring.unique hring'.2
    refine ⟨mem_queue.mp hmem, ?_⟩
    unfold Rotation.start
    split
    · rename_i hnull
      exact hring.next_mem (mem_queue.mpr ⟨Nat.pos_of_ne_zero hnull, hlast⟩)
    · exact hring.head_mem
  cases x with
  | process p => exact hqueue h.procRing h.currentProc
  | thread t => exact hqueue h.threadRing h.currentThread

/-- In every reachable state, a context that stays runnable is selected within two
interrupts for every entry of its queue. -/
theorem selected_within_two_rounds {c : Config} {s u t : Activity} {before acts : List Act} {x : Context}
    {l : List Nat} (start : Started c s) (run : Run (ActStep c) s before u) (hx : InRing u.kernel l x)
    (later : Run (When (Undisturbed c x) (ActStep c)) u acts t)
    (hirqs : acts.countP isIrq = 2 * l.length) : SelectedDuring c x u acts := by
  obtain ⟨np, nt, hsettled⟩ := run_settled start run
  obtain ⟨hcreated, hstart⟩ := hsettled.tables.rotation_ring hx
  refine selected_of_due later ⟨np, nt, hsettled, hcreated⟩ ⟨l.length, ?_, ?_⟩ (Nat.le_of_eq hirqs.symm)
  · exact hx.2.1.within hstart hx.2.2
  · split <;> omega

instance (k : Kernel) (x : Context) : Decidable (Runnable k x) := by
  cases x <;> unfold Runnable IsReady IsRunning <;> infer_instance

instance (c : Config) (k : Kernel) (x : Context) (a : Act) : Decidable (Enlarges c k x a) := by
  unfold Enlarges
  split <;> infer_instance

instance (c : Config) (x : Context) (s : Activity) (a : Act) : Decidable (Undisturbed c x s a) := by
  unfold Undisturbed
  infer_instance

def sampleActivity : Activity := ⟨sampleSession.kernel, false⟩

theorem sampleActivity_started : Started sampleConfig sampleActivity := ⟨⟨sampleSession_boot.1, rfl⟩, rfl⟩

/-- Process A starts a thread, which runs, while process B is killed. -/
def busyActs : List Act :=
  [.event (.irq 0), .event (.threadCreate 0x10400 0), .event (.irq 0), .event (.irq 0), .event (.kill 3),
    .event (.irq 0), .event (.irq 0), .event (.irq 0)]

theorem firstInterrupt_isSome :
    (execute (actStep sampleConfig) sampleActivity [.event (.irq 0)]).isSome = true := by decide +kernel

/-- The shell has just been put on the CPU. -/
def shellActivity : Activity :=
  (execute (actStep sampleConfig) sampleActivity [.event (.irq 0)]).get firstInterrupt_isSome

theorem selected_within_two_rounds_sample :
    InRing shellActivity.kernel [1, 2, 3] (.process 2) ∧
      (∃ t, Run (When (Undisturbed sampleConfig (.process 2)) (ActStep sampleConfig)) shellActivity busyActs t) ∧
      SelectedDuring sampleConfig (.process 2) shellActivity busyActs := by
  have run : Run (ActStep sampleConfig) sampleActivity [.event (.irq 0)] shellActivity :=
    run_of_execute (Option.some_get firstInterrupt_isSome).symm
  have hring : InRing shellActivity.kernel [1, 2, 3] (.process 2) :=
    ⟨by decide +kernel, ⟨by decide, by decide, by decide +kernel⟩, by decide⟩
  have hlater : (execute (guarded (Undisturbed sampleConfig (.process 2)) (actStep sampleConfig)) shellActivity
      busyActs).isSome = true := by decide +kernel
  obtain ⟨t, ht⟩ := Option.isSome_iff_exists.mp hlater
  have later := run_of_execute_guarded ht
  exact ⟨hring, ⟨t, later⟩, selected_within_two_rounds sampleActivity_started run hring later rfl⟩

end SengKernel.Sched
