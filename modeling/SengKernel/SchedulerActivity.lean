import SengKernel.SchedulerSessions

/- The scheduler without the shell's protection: `proc_exit` may come from any
   context, so an interrupt can find nothing to run. A call that ends in a yield
   lets nothing but the interrupt follow. -/
namespace SengKernel.Sched
open BoundedLoop MachineWord LinkedRing Transition

/-- The kernel, and whether the running context stands before the yield that
ends its call. -/
structure Activity where
  kernel : Kernel
  yielding : Bool

inductive Act where
  | event (e : Event)
  | procExit
  deriving DecidableEq, Repr

def isIrq : Act → Bool
  | .event (.irq _) => true
  | _ => false

def change (c : Config) (k : Kernel) : Act → Option Kernel
  | .event e => (step c ⟨k, fun _ => none⟩ e).map Session.kernel
  | .procExit => some (procExit k)

/-- Whether the call goes on to `scheduler_yield`. -/
def yields (k : Kernel) : Act → Bool
  | .event .blockSelf => k.currentThread ≠ 0
  | .event .exitSelf => k.currentThread ≠ 0
  | .event (.kill pid) => (procKill k pid).2 = 1 ∧ k.currentProc = procFind k pid
  | .event _ => false
  | .procExit => k.currentProc ≠ 0

def actStep (c : Config) (s : Activity) (a : Act) : Option Activity :=
  if s.yielding ∧ isIrq a = false then none
  else (change c s.kernel a).map (fun k => ⟨k, yields s.kernel a⟩)

def ActStep (c : Config) (s : Activity) (a : Act) (t : Activity) : Prop := actStep c s a = some t

/-- The kernel as `kernel_main` hands it to the scheduler. -/
def Started (c : Config) (s : Activity) : Prop :=
  Boot c ⟨s.kernel, fun _ => none⟩ ∧ s.yielding = false

/-- What every act but the interrupt can do to the kernel. -/
inductive Alters (c : Config) (k : Kernel) : Act → Kernel → Prop
  | same (a : Act) : Alters c k a k
  | process {entry : Nat} {k' : Kernel} (free : findFreePcb k ≠ 0)
      (created : procCreate c k entry = some (k', findFreePcb k)) : Alters c k (.event (.procCreate entry)) k'
  | thread {fn arg : Nat} {k' : Kernel} (given : fn ≠ 0) (free : findFreeThread c k ≠ 0)
      (created : threadCreate c k fn arg = some (k', findFreeThread c k)) :
      Alters c k (.event (.threadCreate fn arg)) k'
  | parked {a : Act} {st : ThreadState} (on : k.currentThread ≠ 0) (parks : st = .blocked ∨ st = .terminated)
      (yield : yields k a = true) :
      Alters c k a (setThread k k.currentThread (fun u => { u with state := st }))
  | woken {t : Nat} (nonnull : t ≠ 0) (blocked : (k.threadTable t).state = .blocked) :
      Alters c k (.event (.unblock t)) (setThread k t (fun u => { u with state := .ready }))
  | killed {pid : Nat} (found : procFind k pid ≠ 0) (other : (k.pcbTable (procFind k pid)).pid ≠ 1)
      (yield : yields k (.event (.kill pid)) = true ↔ k.currentProc = procFind k pid) :
      Alters c k (.event (.kill pid)) (setProc k (procFind k pid) (fun p => { p with state := .zombie }))
  | exited (on : k.currentProc ≠ 0) :
      Alters c k .procExit (setProc k k.currentProc (fun p => { p with state := .zombie }))

theorem procCreate_slot {c : Config} {k : Kernel} {entry : Nat} {r : Kernel × Nat} (hfree : findFreePcb k ≠ 0)
    (h : procCreate c k entry = some r) : r.2 = findFreePcb k := by
  simp only [procCreate, if_neg hfree] at h
  split at h
  · cases h
  · rw [← Option.some.inj h]

theorem threadCreate_slot {c : Config} {k : Kernel} {fn arg : Nat} {r : Kernel × Nat} (hfn : fn ≠ 0)
    (hfree : findFreeThread c k ≠ 0) (h : threadCreate c k fn arg = some r) : r.2 = findFreeThread c k := by
  simp only [threadCreate, if_neg hfn, if_neg hfree] at h
  split at h
  · cases h
  · rw [← Option.some.inj h]

theorem alters_of_change {c : Config} {k k' : Kernel} {a : Act} (h : change c k a = some k')
    (hirq : isIrq a = false) : Alters c k a k' := by
  cases a with
  | procExit =>
      obtain rfl := Option.some.inj h
      unfold procExit
      split
      · exact .same _
      · rename_i hon
        exact .exited hon
  | event e =>
      cases e with
      | irq savedEsp => cases hirq
      | procCreate entry =>
          by_cases hfree : findFreePcb k = 0
          · simp only [change, step, procCreate, hfree, if_true, Option.map_some, Option.some.injEq] at h
            exact h ▸ .same _
          · cases hcreate : procCreate c k entry with
            | none => simp [change, step, hcreate] at h
            | some r =>
                simp only [change, step, hcreate, Option.map_some, Option.some.injEq] at h
                refine .process hfree ?_
                rw [hcreate, ← h, ← procCreate_slot hfree hcreate]
      | threadCreate fn arg =>
          by_cases hfn : fn = 0
          · simp only [change, step, threadCreate, hfn, if_true, Option.map_some, Option.some.injEq] at h
            exact h ▸ .same _
          by_cases hfree : findFreeThread c k = 0
          · simp only [change, step, threadCreate, hfn, hfree, if_true, if_false, Option.map_some,
              Option.some.injEq] at h
            exact h ▸ .same _
          · cases hcreate : threadCreate c k fn arg with
            | none => simp [change, step, hcreate] at h
            | some r =>
                simp only [change, step, hcreate, Option.map_some, Option.some.injEq] at h
                refine .thread hfn hfree ?_
                rw [hcreate, ← h, ← threadCreate_slot hfn hfree hcreate]
      | blockSelf =>
          obtain rfl := Option.some.inj h
          simp only [schedulerBlockThread]
          split
          · exact .same _
          · rename_i hon
            exact .parked hon (Or.inl rfl) (by simp [yields, hon])
      | exitSelf =>
          obtain rfl := Option.some.inj h
          simp only [threadExit]
          split
          · exact .same _
          · rename_i hon
            exact .parked hon (Or.inr rfl) (by simp [yields, hon])
      | unblock t =>
          obtain rfl := Option.some.inj h
          simp only [schedulerUnblockThread]
          split
          · exact .same _
          · rename_i hnonnull
            split
            · rename_i hblocked
              exact .woken hnonnull hblocked
            · exact .same _
      | kill pid =>
          obtain rfl := Option.some.inj h
          simp only [procKill]
          split
          · exact .same _
          · rename_i hfound
            split
            · exact .same _
            · rename_i hother
              refine .killed hfound hother ?_
              simp [yields, procKill, hfound, hother]

section Tables

variable {c : Config} {k k' : Kernel} {np nt : Nat}

/-- A change that sets nothing RUNNING. -/
theorem Settled.of_running (h : Settled c k np nt) {np' nt' : Nat} (htables : Tables c k' np' nt')
    (hcpu : onCpu k' = onCpu k)
    (hrun : ∀ x, Created np' nt' x → IsRunning k' x → Created np nt x ∧ IsRunning k x) :
    Settled c k' np' nt' := by
  refine ⟨htables, fun x hx hrunning => ?_⟩
  obtain ⟨hcreated, hbefore⟩ := hrun x hx hrunning
  rw [hcpu]
  exact h.running x hcreated hbefore

theorem Settled.setThreadState (h : Settled c k np nt) (t : Nat) {state : ThreadState}
    (hstate : state ≠ .running)
    (hunused : 1 ≤ t → t ≤ c.maxThreads → (state = .unused ↔ (k.threadTable t).state = .unused)) :
    Settled c (setThread k t (fun u => { u with state := state })) np nt := by
  refine h.of_running (h.tables.setThreadState t hunused) rfl (fun x hx hrun => ⟨hx, ?_⟩)
  cases x with
  | process p => exact hrun
  | thread u =>
      by_cases hu : u = t
      · subst u
        rw [IsRunning, setThread_self] at hrun
        exact (hstate hrun).elim
      · rwa [IsRunning, setThread_of_ne k t _ hu] at hrun

theorem Settled.setZombie (h : Settled c k np nt) (p : Nat) :
    Settled c (setProc k p (fun q => { q with state := .zombie })) np nt := by
  refine h.of_running (h.tables.setZombie p) rfl (fun x hx hrun => ⟨hx, ?_⟩)
  cases x with
  | thread t => exact hrun
  | process q =>
      by_cases hq : q = p
      · subst q
        rw [IsRunning, setProc_self] at hrun
        cases hrun
      · rwa [IsRunning, setProc_of_ne k p _ hq] at hrun

/-- A successful `proc_create` takes slot `np + 1`. -/
theorem Tables.process_created (h : Tables c k np nt) {entry : Nat} (free : findFreePcb k ≠ 0)
    (created : procCreate c k entry = some (k', findFreePcb k)) :
    Tables c k' (np + 1) nt ∧ (k'.pcbTable (np + 1)).state = .ready ∧
      (∀ p, p ≠ np + 1 → k'.pcbTable p = { k.pcbTable p with next := procNext k' p }) ∧
      k' = { k with pcbTable := k'.pcbTable, readyHead := k'.readyHead, nextPid := k'.nextPid,
                    memory := k'.memory } := by
  have hlt : np < 16 := by
    rw [h.findFreePcb_eq] at free
    by_contra hfull
    exact free (if_neg hfull)
  obtain ⟨k'', hcreate, htables, hready, _, hold, hframe⟩ := h.procCreate_spec hlt entry
  obtain rfl := (Prod.mk.inj (Option.some.inj (hcreate.symm.trans created))).1
  exact ⟨htables, hready, hold, hframe⟩

theorem Tables.thread_created (h : Tables c k np nt) {fn arg : Nat} (given : fn ≠ 0)
    (free : findFreeThread c k ≠ 0) (created : threadCreate c k fn arg = some (k', findFreeThread c k)) :
    Tables c k' np (nt + 1) ∧ (k'.threadTable (nt + 1)).state = .ready ∧
      (k'.threadTable (nt + 1)).owner = k.currentProc ∧
      (∀ t, t ≠ nt + 1 → k'.threadTable t = { k.threadTable t with next := threadNext k' t }) ∧
      k' = { k with threadTable := k'.threadTable, threadHead := k'.threadHead, nextTid := k'.nextTid,
                    memory := k'.memory } := by
  have hlt : nt < c.maxThreads := by
    rw [h.findFreeThread_eq] at free
    by_contra hfull
    exact free (if_neg hfull)
  obtain ⟨k'', hcreate, htables, hready, _, howner, _, hold, hframe⟩ := h.threadCreate_spec hlt given arg
  obtain rfl := (Prod.mk.inj (Option.some.inj (hcreate.symm.trans created))).1
  exact ⟨htables, hready, howner, hold, hframe⟩

theorem Settled.alters (h : Settled c k np nt) {a : Act} (halters : Alters c k a k') :
    ∃ np' nt', np ≤ np' ∧ nt ≤ nt' ∧ Settled c k' np' nt' := by
  cases halters with
  | same => exact ⟨np, nt, Nat.le_refl np, Nat.le_refl nt, h⟩
  | process free created =>
      obtain ⟨htables, hready, hold, hframe⟩ := h.tables.process_created free created
      refine ⟨np + 1, nt, Nat.le_succ np, Nat.le_refl nt, h.of_running htables (by rw [hframe]; rfl) (fun x hx hrun => ?_)⟩
      cases x with
      | thread t =>
          have hthreads : k'.threadTable = k.threadTable := by rw [hframe]
          rw [IsRunning, hthreads] at hrun
          exact ⟨hx, hrun⟩
      | process p =>
          have hp : p ≠ np + 1 := by
            rintro rfl
            rw [IsRunning, hready] at hrun
            cases hrun
          rw [IsRunning, hold p hp] at hrun
          exact ⟨⟨hx.1, by have := hx.2; omega⟩, hrun⟩
  | thread given free created =>
      obtain ⟨htables, hready, _, hold, hframe⟩ := h.tables.thread_created given free created
      refine ⟨np, nt + 1, Nat.le_refl np, Nat.le_succ nt, h.of_running htables (by rw [hframe]; rfl) (fun x hx hrun => ?_)⟩
      cases x with
      | process p =>
          have hprocs : k'.pcbTable = k.pcbTable := by rw [hframe]
          rw [IsRunning, hprocs] at hrun
          exact ⟨hx, hrun⟩
      | thread t =>
          have ht : t ≠ nt + 1 := by
            rintro rfl
            rw [IsRunning, hready] at hrun
            cases hrun
          rw [IsRunning, hold t ht] at hrun
          exact ⟨⟨hx.1, by have := hx.2; omega⟩, hrun⟩
  | parked on parks =>
      have hused := h.tables.usedThread k.currentThread (Nat.pos_of_ne_zero on) h.tables.runningThread
      rcases parks with rfl | rfl
      · exact ⟨np, nt, Nat.le_refl np, Nat.le_refl nt,
          h.setThreadState _ (by decide) (fun _ _ => iff_of_false (by decide) hused)⟩
      · exact ⟨np, nt, Nat.le_refl np, Nat.le_refl nt,
          h.setThreadState _ (by decide) (fun _ _ => iff_of_false (by decide) hused)⟩
  | woken nonnull blocked =>
      refine ⟨np, nt, Nat.le_refl np, Nat.le_refl nt,
        h.setThreadState _ (by decide) (fun _ _ => iff_of_false (by decide) ?_)⟩
      rw [blocked]
      intro hunused
      cases hunused
  | killed => exact ⟨np, nt, Nat.le_refl np, Nat.le_refl nt, h.setZombie _⟩
  | exited => exact ⟨np, nt, Nat.le_refl np, Nat.le_refl nt, h.setZombie _⟩

end Tables

/-- An interrupt, or another act of a context that need not yield. -/
theorem actStep_cases {c : Config} {s t : Activity} {a : Act} (step : ActStep c s a t) :
    (∃ savedEsp r, a = .event (.irq savedEsp) ∧ schedulerIrq c s.kernel savedEsp = some r ∧ t = ⟨r.1, false⟩) ∨
    (isIrq a = false ∧ s.yielding = false ∧
      ∃ k', Alters c s.kernel a k' ∧ t = ⟨k', yields s.kernel a⟩) := by
  unfold ActStep actStep at step
  split at step
  · cases step
  · rename_i hyield
    obtain ⟨k', hchange, rfl⟩ := Option.map_eq_some_iff.mp step
    cases hirq : isIrq a with
    | false =>
        refine Or.inr ⟨rfl, ?_, k', alters_of_change hchange hirq, rfl⟩
        simpa [hirq] using hyield
    | true =>
        left
        cases a with
        | procExit => cases hirq
        | event e =>
            cases e with
            | irq savedEsp =>
                cases heq : schedulerIrq c s.kernel savedEsp with
                | none => simp [change, Sched.step, heq] at hchange
                | some r =>
                    refine ⟨savedEsp, r, rfl, heq, ?_⟩
                    simp only [change, Sched.step, heq, Option.map_some, Option.some.injEq] at hchange
                    rw [← hchange]
                    rfl
            | _ => cases hirq

theorem Started.settled {c : Config} {s : Activity} (h : Started c s) : Settled c s.kernel 3 0 :=
  (boot_resumable h.1).coherent.settled

theorem Created.mono {np nt np' nt' : Nat} {x : Context} (h : Created np nt x) (hnp : np ≤ np')
    (hnt : nt ≤ nt') : Created np' nt' x := by
  cases x with
  | process p => exact ⟨h.1, h.2.trans hnp⟩
  | thread t => exact ⟨h.1, h.2.trans hnt⟩

/-- The tables only grow. -/
theorem Settled.step {c : Config} {s t : Activity} {a : Act} {np nt : Nat} (h : Settled c s.kernel np nt)
    (step : ActStep c s a t) : ∃ np' nt', np ≤ np' ∧ nt ≤ nt' ∧ Settled c t.kernel np' nt' := by
  rcases actStep_cases step with ⟨savedEsp, r, rfl, hirq, rfl⟩ | ⟨_, _, k', halters, rfl⟩
  · rcases h.irq_cases savedEsp with ⟨x, _, _, _, heq, hsettled⟩ | ⟨_, heq, hsettled⟩
    · obtain rfl := Option.some.inj (heq.symm.trans hirq)
      exact ⟨np, nt, Nat.le_refl np, Nat.le_refl nt, hsettled⟩
    · obtain rfl := Option.some.inj (heq.symm.trans hirq)
      exact ⟨np, nt, Nat.le_refl np, Nat.le_refl nt, hsettled⟩
  · exact h.alters halters

theorem settled_step {c : Config} {s t : Activity} {a : Act} (h : ∃ np nt, Settled c s.kernel np nt)
    (step : ActStep c s a t) : ∃ np nt, Settled c t.kernel np nt := by
  obtain ⟨np, nt, h⟩ := h
  obtain ⟨np', nt', _, _, h'⟩ := h.step step
  exact ⟨np', nt', h'⟩

theorem run_settled {c : Config} {s t : Activity} {acts : List Act} (h : Started c s)
    (run : Run (ActStep c) s acts t) : ∃ np nt, Settled c t.kernel np nt :=
  run.invariant (I := fun s => ∃ np nt, Settled c s.kernel np nt) (fun _ _ _ h step => settled_step h step)
    ⟨3, 0, h.settled⟩

end SengKernel.Sched
