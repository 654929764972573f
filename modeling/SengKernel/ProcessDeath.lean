import SengKernel.SchedulerFairness

/- What a killed process can still do. The process itself is never selected again;
   its threads are, unless they were parked for good when it died. -/
namespace SengKernel.Sched
open BoundedLoop MachineWord LinkedRing Transition

/-- A process of the table that `proc_kill` or `proc_exit` has ended. -/
def Dead (k : Kernel) (p : Nat) : Prop :=
  1 ≤ p ∧ p ≤ 16 ∧ (k.pcbTable p).pid ≠ 0 ∧ (k.pcbTable p).state = .zombie

/-- The process's own context, or a thread whose owner it is. -/
def BelongsTo (k : Kernel) (p : Nat) : Context → Prop
  | .process q => q = p
  | .thread t => (k.threadTable t).owner = p

def ShellRunnable (k : Kernel) : Prop := Runnable k (.process 1)

/-- Every thread of the process is BLOCKED or TERMINATED. -/
def Parked (c : Config) (k : Kernel) (p : Nat) : Prop :=
  ∀ t, 1 ≤ t → t ≤ c.maxThreads → (k.threadTable t).owner = p → ¬ Runnable k (.thread t)

/-- A process dies only when its threads are parked, and the threads of a dead one
are not woken. -/
def ThreadsParked (c : Config) (k : Kernel) : Act → Prop
  | .event (.kill pid) => procFind k pid ≠ 0 → (k.pcbTable (procFind k pid)).pid ≠ 1 → Parked c k (procFind k pid)
  | .procExit => k.currentProc ≠ 0 → Parked c k k.currentProc
  | .event (.unblock t) => (k.threadTable t).state = .blocked → ¬ Dead k (k.threadTable t).owner
  | _ => True

def Careful (c : Config) (s : Activity) (a : Act) : Prop := ShellRunnable s.kernel ∧ ThreadsParked c s.kernel a

section Deaths

variable {c : Config} {k k' : Kernel} {np nt p : Nat}

theorem dead_congr (h : (k'.pcbTable p).pid = (k.pcbTable p).pid)
    (hstate : (k'.pcbTable p).state = .zombie ↔ (k.pcbTable p).state = .zombie) : Dead k' p ↔ Dead k p := by
  rw [Dead, Dead, h, hstate]

theorem dead_saved (k : Kernel) (savedEsp p : Nat) : Dead (savedKernel k savedEsp) p ↔ Dead k p := by
  refine dead_congr ?_ ?_
  · rw [savedKernel_proc]
    split <;> rfl
  · rw [savedKernel_proc]
    split
    · cases hstate : (k.pcbTable p).state <;> simp [savePcb, hstate]
    · exact Iff.rfl

theorem dead_resume (k : Kernel) {x : Context} (hready : IsReady k x) (p : Nat) :
    Dead (resume (togglePreference k) x).1 p ↔ Dead k p := by
  refine dead_congr ?_ ?_
  · rw [resume_proc]
    split <;> rfl
  · rw [resume_proc]
    split
    · rename_i hx
      subst hx
      have : (k.pcbTable p).state = .ready := hready
      simp [this]
    · exact Iff.rfl

theorem dead_setZombie {q : Nat} (h : Dead (setProc k p (fun r => { r with state := .zombie })) q) :
    q = p ∨ Dead k q := by
  by_cases hq : q = p
  · exact Or.inl hq
  · exact Or.inr ((dead_congr (by rw [setProc_of_ne k p _ hq]) (by rw [setProc_of_ne k p _ hq])).mp h)

theorem Dead.setZombie (h : Dead k p) (q : Nat) : Dead (setProc k q (fun r => { r with state := .zombie })) p := by
  by_cases hq : p = q
  · subst hq
    rw [Dead, setProc_self]
    exact ⟨h.1, h.2.1, h.2.2.1, rfl⟩
  · exact (dead_congr (by rw [setProc_of_ne k q _ hq]) (by rw [setProc_of_ne k q _ hq])).mpr h

/-- A new process is alive, and in a slot that no dead one holds. -/
theorem Tables.dead_created (h : Tables c k np nt) {entry : Nat} (free : findFreePcb k ≠ 0)
    (created : Sched.procCreate c k entry = some (k', findFreePcb k)) : Dead k' p ↔ Dead k p := by
  obtain ⟨htables, hready, hold, _⟩ := h.process_created free created
  by_cases hp : p = np + 1
  · subst hp
    refine iff_of_false (fun hdead => ?_) (fun hdead => ?_)
    · have := hdead.2.2.2
      rw [hready] at this
      cases this
    · exact hdead.2.2.1 (h.freePcb (np + 1) (Nat.lt_succ_self np) hdead.2.1).1
  · exact dead_congr (by rw [hold p hp]) (by rw [hold p hp])

/-- Nothing brings a dead process back. -/
theorem Settled.dead_step (h : Settled c k np nt) {s t : Activity} {a : Act} (hk : s.kernel = k)
    (step : ActStep c s a t) (hdead : Dead s.kernel p) : Dead t.kernel p := by
  subst hk
  rcases actStep_cases step with ⟨savedEsp, r, rfl, hirq, rfl⟩ | ⟨_, _, k', halters, rfl⟩
  · rcases h.irq_cases savedEsp with ⟨x, _, hready, _, heq, _⟩ | ⟨_, heq, _⟩
    · obtain rfl := Option.some.inj (heq.symm.trans hirq)
      exact (dead_resume _ hready p).mpr ((dead_saved _ savedEsp p).mpr hdead)
    · obtain rfl := Option.some.inj (heq.symm.trans hirq)
      exact (dead_saved s.kernel savedEsp p).mpr hdead
  · cases halters with
    | same => exact hdead
    | process free created => exact (h.tables.dead_created free created).mpr hdead
    | thread given free created =>
        obtain ⟨_, _, _, _, hframe⟩ := h.tables.thread_created given free created
        have hprocs : k'.pcbTable = s.kernel.pcbTable := by rw [hframe]
        exact (dead_congr (by rw [hprocs]) (by rw [hprocs])).mpr hdead
    | parked => exact hdead
    | woken => exact hdead
    | killed => exact hdead.setZombie _
    | exited => exact hdead.setZombie _

/-- The threads that can run, and the process that a new thread would join, are
not dead. -/
structure Buried (c : Config) (s : Activity) (np nt : Nat) : Prop where
  settled : Settled c s.kernel np nt
  owners : ∀ t, 1 ≤ t → t ≤ c.maxThreads → Runnable s.kernel (.thread t) → ¬ Dead s.kernel (s.kernel.threadTable t).owner
  current : s.yielding = false → ¬ Dead s.kernel s.kernel.currentProc

/-- Only created threads can run. -/
theorem Tables.runnable_created (h : Tables c k np nt) {t : Nat} (ht : t ≤ c.maxThreads)
    (hrunnable : Runnable k (.thread t)) : t ≤ nt := by
  by_contra hfree
  have hunused := h.freeThread t (by omega) ht
  rcases hrunnable with hstate | hstate
  · cases hunused.symm.trans hstate
  · cases hunused.symm.trans hstate

theorem Started.buried {s : Activity} (h : Started c s) : Buried c s 3 0 := by
  refine ⟨h.settled, fun t ht htm hrunnable => ?_, fun _ hdead => ?_⟩
  · have := h.settled.tables.runnable_created htm hrunnable
    omega
  have hzero : s.kernel.currentProc = 0 := h.1.currentProc
  rw [hzero] at hdead
  exact absurd hdead.1 (by decide)

theorem Settled.runnable_of_saved (h : Settled c k np nt) {savedEsp : Nat} {x : Context} (hx : Created np nt x)
    (hready : IsReady (savedKernel k savedEsp) x) : Runnable k x := by
  cases x with
  | process p =>
      rw [IsReady, h.saved_procState savedEsp hx.1 hx.2] at hready
      split at hready
      · rename_i hrun
        exact Or.inr hrun
      · exact Or.inl hready
  | thread t =>
      rw [IsReady, h.saved_threadState savedEsp hx.1 hx.2] at hready
      split at hready
      · rename_i hrun
        exact Or.inr hrun
      · exact Or.inl hready

theorem owner_saved (k : Kernel) (savedEsp t : Nat) :
    ((savedKernel k savedEsp).threadTable t).owner = (k.threadTable t).owner := by
  rw [savedKernel_thread]
  split <;> rfl

theorem owner_resume (k : Kernel) (x : Context) (t : Nat) :
    ((resume (togglePreference k) x).1.threadTable t).owner = (k.threadTable t).owner := by
  rw [resume_thread]
  split <;> rfl

theorem Buried.irq {s : Activity} (h : Buried c s np nt) (hshell : ShellRunnable s.kernel) {savedEsp : Nat}
    {r : Kernel × Nat} (hirq : schedulerIrq c s.kernel savedEsp = some r) : Buried c ⟨r.1, false⟩ np nt := by
  have hsettled := h.settled
  rcases hsettled.irq_cases savedEsp with ⟨x, hx, hready, _, heq, hsettled'⟩ | ⟨hnone, _⟩
  · obtain rfl := Option.some.inj (heq.symm.trans hirq)
    refine ⟨hsettled', fun t ht htm hrunnable => ?_, fun _ => ?_⟩
    · have htn := hsettled'.tables.runnable_created htm hrunnable
      rw [dead_resume _ hready, dead_saved, owner_resume, owner_saved]
      refine h.owners t ht htm ?_
      by_cases hxt : x = .thread t
      · exact hsettled.runnable_of_saved ⟨ht, htn⟩ (hxt ▸ hready)
      · rw [Runnable, IsReady, IsRunning, resume_thread, if_neg hxt] at hrunnable
        exact hsettled.runnable_of_saved ⟨ht, htn⟩
          (hrunnable.resolve_right (hsettled.saved_notRunning savedEsp (x := .thread t) ⟨ht, htn⟩))
    · rw [dead_resume _ hready]
      cases x with
      | process p =>
          intro hdead
          have hstate : ((savedKernel s.kernel savedEsp).pcbTable p).state = .ready := hready
          have hzombie : ((savedKernel s.kernel savedEsp).pcbTable p).state = .zombie := hdead.2.2.2
          rw [hstate] at hzombie
          cases hzombie
      | thread t =>
          have howner : (resume (togglePreference (savedKernel s.kernel savedEsp)) (.thread t)).1.currentProc =
              (s.kernel.threadTable t).owner :=
            (resume_currentIs (togglePreference (savedKernel s.kernel savedEsp)) (.thread t)).2.trans
              ((owner_resume _ _ _).trans (owner_saved _ _ _))
          rw [dead_saved, howner]
          exact h.owners t hx.1 (hx.2.trans hsettled.tables.threadCount) (hsettled.runnable_of_saved hx hready)
  · have hcreated : 1 ≤ np := by
      by_contra hempty
      have hzombie := (hsettled.tables.freePcb 1 (by omega) (by decide)).2
      rcases hshell with hstate | hstate
      · cases hzombie.symm.trans hstate
      · cases hzombie.symm.trans hstate
    exact (hnone (.process 1) ⟨Nat.le_refl 1, hcreated⟩
      (hsettled.saved_ready (x := .process 1) ⟨Nat.le_refl 1, hcreated⟩ hshell savedEsp)).elim

/-- A change of one thread's state that leaves no thread of a dead process runnable. -/
theorem Buried.setThreadState {s : Activity} (h : Buried c s np nt) {t : Nat} {state : ThreadState} {y : Bool}
    (hsettled : ∃ np' nt', Settled c (setThread s.kernel t (fun u => { u with state := state })) np' nt')
    (howner : state = .ready ∨ state = .running → ¬ Dead s.kernel (s.kernel.threadTable t).owner)
    (hyield : y = false → ¬ Dead s.kernel s.kernel.currentProc) :
    ∃ np' nt', Buried c ⟨setThread s.kernel t (fun u => { u with state := state }), y⟩ np' nt' := by
  obtain ⟨np', nt', hsettled'⟩ := hsettled
  refine ⟨np', nt', hsettled', fun u hu hum hrunnable => ?_, hyield⟩
  by_cases hut : u = t
  · subst hut
    rw [Runnable, IsReady.eq_def, IsRunning.eq_def] at hrunnable
    simp only [setThread_self] at hrunnable ⊢
    exact howner hrunnable
  · have hsame := setThread_of_ne s.kernel t (fun u => { u with state := state }) hut
    rw [Runnable, IsReady.eq_def, IsRunning.eq_def] at hrunnable
    simp only [hsame] at hrunnable ⊢
    exact h.owners u hu hum hrunnable

/-- The death of a process whose threads are parked. -/
theorem Buried.setZombie {s : Activity} (h : Buried c s np nt) (hparked : Parked c s.kernel p) {y : Bool}
    (hyield : s.kernel.currentProc = p → y = true) (hcurrent : ¬ Dead s.kernel s.kernel.currentProc) :
    Buried c ⟨setProc s.kernel p (fun q => { q with state := .zombie }), y⟩ np nt := by
  refine ⟨h.settled.setZombie p, fun t ht htm hrunnable hdead => ?_, fun hno hdead => ?_⟩
  · rcases dead_setZombie hdead with hp | hdead
    · exact hparked t ht htm hp hrunnable
    · exact h.owners t ht htm hrunnable hdead
  · rcases dead_setZombie hdead with hp | hdead
    · cases hno.symm.trans (hyield hp)
    · exact hcurrent hdead

theorem Buried.alters {s : Activity} {a : Act} (h : Buried c s np nt) (hparked : ThreadsParked c s.kernel a)
    (hyield : s.yielding = false) (halters : Alters c s.kernel a k') :
    ∃ np' nt', Buried c ⟨k', yields s.kernel a⟩ np' nt' := by
  have hcurrent := h.current hyield
  obtain ⟨np', nt', _, _, hsettled⟩ := h.settled.alters halters
  cases halters with
  | same => exact ⟨np, nt, h.settled, h.owners, fun _ => hcurrent⟩
  | process free created =>
      obtain ⟨_, _, _, hframe⟩ := h.settled.tables.process_created free created
      have hthreads : k'.threadTable = s.kernel.threadTable := by rw [hframe]
      have hproc : k'.currentProc = s.kernel.currentProc := by rw [hframe]
      refine ⟨np', nt', hsettled, fun t ht htm hrunnable => ?_, fun _ => ?_⟩
      · rw [Runnable, IsReady.eq_def, IsRunning.eq_def] at hrunnable
        simp only [hthreads] at hrunnable ⊢
        rw [h.settled.tables.dead_created free created]
        exact h.owners t ht htm hrunnable
      · rw [h.settled.tables.dead_created free created, hproc]
        exact hcurrent
  | thread given free created =>
      obtain ⟨_, _, howner, hold, hframe⟩ := h.settled.tables.thread_created given free created
      have hprocs : k'.pcbTable = s.kernel.pcbTable := by rw [hframe]
      have hproc : k'.currentProc = s.kernel.currentProc := by rw [hframe]
      have hdead : ∀ p, Dead k' p ↔ Dead s.kernel p := fun p => dead_congr (by rw [hprocs]) (by rw [hprocs])
      refine ⟨np', nt', hsettled, fun t ht htm hrunnable => ?_, fun _ => ?_⟩
      · rw [hdead]
        by_cases hnew : t = nt + 1
        · rw [hnew, howner]
          exact hcurrent
        · rw [Runnable, IsReady.eq_def, IsRunning.eq_def] at hrunnable
          simp only [hold t hnew] at hrunnable ⊢
          exact h.owners t ht htm hrunnable
      · rw [hdead, hproc]
        exact hcurrent
  | parked on parks yield =>
      refine h.setThreadState ⟨np', nt', hsettled⟩ (fun hruns => ?_) (fun hno => ?_)
      · rcases parks with rfl | rfl <;> rcases hruns with hruns | hruns <;> cases hruns
      · cases hno.symm.trans yield
  | woken nonnull blocked => exact h.setThreadState ⟨np', nt', hsettled⟩ (fun _ => hparked blocked) (fun _ => hcurrent)
  | killed found other yield =>
      exact ⟨np, nt, h.setZombie (hparked found other) (fun hcur => yield.mpr hcur) hcurrent⟩
  | exited on => exact ⟨np, nt, h.setZombie (hparked on) (fun _ => by simp [yields, on]) hcurrent⟩

theorem Buried.step {s t : Activity} {a : Act} (h : ∃ np nt, Buried c s np nt)
    (step : When (Careful c) (ActStep c) s a t) : ∃ np nt, Buried c t np nt := by
  obtain ⟨np, nt, h⟩ := h
  obtain ⟨⟨hshell, hparked⟩, step⟩ := step
  rcases actStep_cases step with ⟨savedEsp, r, rfl, hirq, rfl⟩ | ⟨_, hyield, k', halters, rfl⟩
  · exact ⟨np, nt, h.irq hshell hirq⟩
  · exact h.alters hparked hyield halters

end Deaths

theorem dead_run {c : Config} {u t : Activity} {acts : List Act} {p : Nat}
    (run : Run (When (Careful c) (ActStep c)) u acts t) (h : ∃ np nt, Buried c u np nt)
    (hdead : Dead u.kernel p) : (∃ np nt, Buried c t np nt) ∧ Dead t.kernel p :=
  run.invariant (I := fun s => (∃ np nt, Buried c s np nt) ∧ Dead s.kernel p)
    (fun _ _ _ ⟨hburied, hdead⟩ step => ⟨Buried.step hburied step,
      hburied.elim fun _ hnp => hnp.elim fun _ hnt => hnt.settled.dead_step rfl step.2 hdead⟩) ⟨h, hdead⟩

/-- As long as processes die with their threads parked, no interrupt selects a dead
process or one of its threads. -/
theorem dead_never_selected {c : Config} {s u t : Activity} {before after : List Act} {p : Nat}
    (start : Started c s) (run : Run (When (Careful c) (ActStep c)) s before u) (hdead : Dead u.kernel p)
    (later : Run (When (Careful c) (ActStep c)) u after t) {savedEsp : Nat} {x : Context}
    (hselected : Selected c t.kernel savedEsp x) : ¬ BelongsTo t.kernel p x := by
  have hburied : ∃ np nt, Buried c u np nt :=
    run.invariant (I := fun s => ∃ np nt, Buried c s np nt) (fun _ _ _ h step => Buried.step h step)
      ⟨3, 0, start.buried⟩
  obtain ⟨⟨np, nt, h⟩, hdead⟩ := dead_run later hburied hdead
  obtain ⟨hx, hready⟩ := h.settled.selected hselected
  cases x with
  | process q =>
      intro hq
      obtain rfl : q = p := hq
      have hzombie := ((dead_saved t.kernel savedEsp q).mpr hdead).2.2.2
      cases hzombie.symm.trans hready
  | thread v =>
      intro howner
      have howner : (t.kernel.threadTable v).owner = p := howner
      have hlive := h.owners v hx.1 (hx.2.trans h.settled.tables.threadCount)
        (h.settled.runnable_of_saved hx hready)
      rw [howner] at hlive
      exact hlive hdead

instance (k : Kernel) (p : Nat) : Decidable (Dead k p) := by
  unfold Dead
  infer_instance

instance (c : Config) (k : Kernel) (p : Nat) : Decidable (Parked c k p) :=
  decidable_of_iff (∀ t < c.maxThreads + 1, 1 ≤ t → (k.threadTable t).owner = p → ¬ Runnable k (.thread t))
    ⟨fun h t ht htm => h t (Nat.lt_succ_of_le htm) ht, fun h t htm ht => h t ht (Nat.le_of_lt_succ htm)⟩

instance (c : Config) (k : Kernel) (a : Act) : Decidable (ThreadsParked c k a) := by
  unfold ThreadsParked
  split <;> infer_instance

instance (k : Kernel) : Decidable (ShellRunnable k) := inferInstanceAs (Decidable (Runnable k (.process 1)))

instance (c : Config) (s : Activity) (a : Act) : Decidable (Careful c s a) :=
  inferInstanceAs (Decidable (_ ∧ _))

instance (c : Config) (k : Kernel) (savedEsp : Nat) (x : Context) : Decidable (Selected c k savedEsp x) :=
  inferInstanceAs (Decidable (_ ∧ _))

/-- Process A starts a thread, which blocks; the shell kills A. -/
def killActs : List Act :=
  [.event (.irq 0), .event (.irq 0), .event (.threadCreate 0x10400 0), .event (.irq 0), .event (.irq 0),
    .event .blockSelf, .event (.irq 0), .event (.kill 2)]

theorem killActs_isSome : (execute (guarded (Careful sampleConfig) (actStep sampleConfig)) sampleActivity
    killActs).isSome = true := by decide +kernel

def aEnded : Activity :=
  (execute (guarded (Careful sampleConfig) (actStep sampleConfig)) sampleActivity killActs).get killActs_isSome

def threeInterrupts : List Act := [.event (.irq 0), .event (.irq 0), .event (.irq 0)]

theorem threeInterrupts_isSome : (execute (guarded (Careful sampleConfig) (actStep sampleConfig)) aEnded
    threeInterrupts).isSome = true := by decide +kernel

def afterwards : Activity :=
  (execute (guarded (Careful sampleConfig) (actStep sampleConfig)) aEnded threeInterrupts).get threeInterrupts_isSome

theorem dead_never_selected_sample : (aEnded.kernel.threadTable 1).state = .blocked ∧
    (aEnded.kernel.threadTable 1).owner = 2 ∧ ¬ BelongsTo afterwards.kernel 2 (.process 1) := by
  have run : Run (When (Careful sampleConfig) (ActStep sampleConfig)) sampleActivity killActs aEnded :=
    run_of_execute_guarded (Option.some_get killActs_isSome).symm
  have later : Run (When (Careful sampleConfig) (ActStep sampleConfig)) aEnded threeInterrupts afterwards :=
    run_of_execute_guarded (Option.some_get threeInterrupts_isSome).symm
  have hdead : Dead aEnded.kernel 2 := by decide +kernel
  have hselected : Selected sampleConfig afterwards.kernel 0 (.process 1) := by decide +kernel
  exact ⟨by decide +kernel, by decide +kernel,
    dead_never_selected sampleActivity_started run hdead later hselected⟩

/-- The shell stays runnable; nothing else is asked for. -/
def ShellRuns (s : Activity) (_ : Act) : Prop := ShellRunnable s.kernel

instance (s : Activity) (a : Act) : Decidable (ShellRuns s a) := inferInstanceAs (Decidable (ShellRunnable _))

/-- Process A starts a thread; the shell then kills A while the thread is READY. -/
def orphanActs : List Act :=
  [.event (.irq 0), .event (.irq 0), .event (.threadCreate 0x10400 0), .event (.irq 0), .event (.irq 0),
    .event (.irq 0), .event (.kill 2)]

theorem orphanActs_isSome : (execute (guarded ShellRuns (actStep sampleConfig))
    sampleActivity orphanActs).isSome = true := by decide +kernel

def aKilled : Activity :=
  (execute (guarded ShellRuns (actStep sampleConfig)) sampleActivity orphanActs).get
    orphanActs_isSome

/-- The thread of a killed process is the next one on the CPU. -/
theorem orphan_selected :
    Run (When ShellRuns (ActStep sampleConfig)) sampleActivity orphanActs aKilled ∧
      ShellRunnable aKilled.kernel ∧ Dead aKilled.kernel 2 ∧
      Selected sampleConfig aKilled.kernel 0 (.thread 1) ∧ BelongsTo aKilled.kernel 2 (.thread 1) := by
  refine ⟨run_of_execute_guarded (Option.some_get orphanActs_isSome).symm, by decide +kernel, by decide +kernel,
    by decide +kernel, ?_⟩
  change (aKilled.kernel.threadTable 1).owner = 2
  decide +kernel

end SengKernel.Sched
