import SengKernel.SyncMachine

/- What holds of every run of the statement machine, whatever the interrupts do:
   the scheduler stays coherent, the locals of a call name their thread, and the
   thread on the CPU is not BLOCKED unless it is about to yield. -/
namespace SengKernel.Sync
open Sched MachineWord Transition

/-- The local `current` of a call in progress. -/
def Pc.current : Pc → Option Nat
  | .lockNull _ cur | .lockTest _ cur | .lockTake _ cur | .lockOwn _ cur | .lockOwned _ cur => some cur
  | .waitNull _ cur | .waitTest _ cur | .waitTake _ cur => some cur
  | .linkClear _ cur | .linkTest _ cur | .linkHead _ cur | .linkNext _ cur | .linkTail _ cur => some cur
  | .blockTest _ cur | .block _ cur => some cur
  | _ => none

@[simp] theorem goto_pc_self (s : State) (t : Nat) (p : Pc) : (goto s t p).pc t = p :=
  Function.update_self ..

@[simp] theorem goto_pc_of_ne (s : State) {t u : Nat} (p : Pc) (h : u ≠ t) : (goto s t p).pc u = s.pc u :=
  Function.update_of_ne h ..

theorem setWaitNext_waitNext (s : State) (t u v : Nat) :
    waitNext (setWaitNext s t u) v = if v = t then u else waitNext s v := by
  by_cases h : v = t
  · subst v
    simp [waitNext, setWaitNext]
  · simp [waitNext, setWaitNext, setThread_of_ne, h]

theorem setWaitNext_links (s : State) (t u : Nat) :
    waitNext (setWaitNext s t u) = Function.update (waitNext s) t u := by
  funext v
  rw [setWaitNext_waitNext, Function.update_apply]

theorem setWaitNext_threadState (s : State) (t u v : Nat) :
    threadState (setWaitNext s t u) v = threadState s v := by
  by_cases h : v = t
  · subst v
    simp [threadState, setWaitNext]
  · simp [threadState, setWaitNext, setThread_of_ne, h]

theorem setThreadState_threadState (s : State) (t v : Nat) (st : ThreadState) :
    threadState (setThreadState s t st) v = if v = t then st else threadState s v := by
  by_cases h : v = t
  · subst v
    simp [threadState, setThreadState]
  · simp [threadState, setThreadState, setThread_of_ne, h]

theorem setThreadState_waitNext (s : State) (t v : Nat) (st : ThreadState) :
    waitNext (setThreadState s t st) v = waitNext s v := by
  by_cases h : v = t
  · subst v
    simp [waitNext, setThreadState]
  · simp [waitNext, setThreadState, setThread_of_ne, h]

/-- A statement moves its own thread only. -/
theorem exec_pc_of_ne (s : State) {t u : Nat} (p : Pc) (h : u ≠ t) : (exec s t p).pc u = s.pc u := by
  cases p <;> first | rfl | exact goto_pc_of_ne _ _ h

/-- The locals of the next statement are those of this one, or `thread_current()`. -/
theorem exec_current {s : State} {t cur : Nat} {p : Pc} (hp : s.pc t = p)
    (h : ((exec s t p).pc t).current = some cur) : p.current = some cur ∨ cur = s.kernel.currentThread := by
  cases p <;> simp only [exec, goto_pc_self, hp] at h <;> (try split at h) <;>
    first | exact Or.inl h | cases h <;> first | exact Or.inl rfl | exact Or.inr rfl

/-- What a statement can do to the thread table. -/
theorem exec_kernel (s : State) (t : Nat) (p : Pc) :
    (exec s t p).kernel = s.kernel ∨
    (∃ u v, (exec s t p).kernel = (setWaitNext s u v).kernel) ∨
    (∃ q cur, p = .block q cur ∧ (exec s t p).kernel = (setThreadState s cur .blocked).kernel) ∨
    (∃ q next, p = .wake q next ∧ (exec s t p).kernel = (setThreadState s next .ready).kernel) := by
  cases p <;> first
    | exact Or.inl rfl
    | exact Or.inr (Or.inl ⟨_, _, rfl⟩)
    | exact Or.inr (Or.inr (Or.inl ⟨_, _, rfl, rfl⟩))
    | exact Or.inr (Or.inr (Or.inr ⟨_, _, rfl, rfl⟩))

theorem coherent_setWaitNext {c : Config} {s : State} {np nt : Nat} (h : Coherent c s.kernel np nt)
    (t u : Nat) : Coherent c (setWaitNext s t u).kernel np nt := by
  have hsame : ∀ v, ((setWaitNext s t u).kernel.threadTable v).state = (s.kernel.threadTable v).state :=
    fun v => setWaitNext_threadState s t u v
  refine ⟨h.tables.of_update rfl rfl rfl h.tables.currentProc h.tables.currentThread h.tables.runningThread
    (fun _ => ⟨rfl, rfl⟩) (fun _ _ _ => rfl) ?_ ?_, h.shellCreated, h.shell, h.procRunning, ?_, h.noneKind,
    h.procKind, h.threadKind⟩
  · intro v
    exact congrFun (threadNext_setThread s.kernel t (f := fun r => { r with waitNext := u }) (fun _ => rfl)) v
  · intro v _ _
    rw [hsame]
  · intro v hv hvn hrun
    rw [hsame] at hrun
    exact h.threadRunning v hv hvn hrun

/-- What an interrupt can do, as far as the two files can see. -/
structure Interrupted (s s' : State) : Prop where
  frame : s' = { s with kernel := s'.kernel }
  waitNext : ∀ t, waitNext s' t = waitNext s t
  parked : ∀ t st, st ≠ .ready → st ≠ .running → (threadState s' t = st ↔ threadState s t = st)
  awake : running s' ≠ 0 → threadState s' (running s') ≠ .blocked

theorem Interrupted.blocked {s s' : State} (h : Interrupted s s') (t : Nat) :
    threadState s' t = .blocked ↔ threadState s t = .blocked := h.parked t .blocked nofun nofun

theorem Interrupted.unused {s s' : State} (h : Interrupted s s') (t : Nat) :
    threadState s' t = .unused ↔ threadState s t = .unused := h.parked t .unused nofun nofun

theorem interrupt_spec {c : Config} {s s' : State} {np nt savedEsp : Nat} (h : Coherent c s.kernel np nt)
    (hirq : interrupt c s savedEsp = some s') : Coherent c s'.kernel np nt ∧ Interrupted s s' := by
  obtain ⟨x, hx, hready, heq, hcoherent⟩ := h.irq savedEsp
  rw [interrupt, heq, Option.map_some, Option.some.injEq] at hirq
  subst s'
  refine ⟨hcoherent, rfl, fun t => ?_, fun t st hst hst' => ?_, ?_⟩
  · simp only [waitNext, resume_thread, togglePreference, savedKernel_thread]
    split <;> split <;> rfl
  · simp only [threadState, resume_thread, togglePreference]
    split
    · rename_i hxt
      subst hxt
      have hold : ((savedKernel s.kernel savedEsp).threadTable t).state = .ready := hready
      rw [h.settled.saved_threadState savedEsp hx.1 hx.2] at hold
      split at hold
      · rename_i hrun
        rw [hrun]
      · rw [hold]
        exact iff_of_false (Ne.symm hst') (Ne.symm hst)
    · rw [savedKernel_thread]
      split
      · simp only [saveThread]
        split
        · rename_i hrun
          rw [hrun]
          exact iff_of_false (Ne.symm hst) (Ne.symm hst')
        · exact Iff.rfl
      · exact Iff.rfl
  · intro hrun
    cases x with
    | process p => exact (hrun rfl).elim
    | thread t =>
        change ((resume (togglePreference (savedKernel s.kernel savedEsp)) (.thread t)).1.threadTable t).state ≠ _
        rw [resume_thread, if_pos rfl]
        intro hblocked
        cases hblocked

/-- What the creation of a thread can do. -/
structure Spawned (s s' : State) : Prop where
  frame : s' = { s with kernel := s'.kernel }
  running : running s' = running s
  waitNext : ∀ t, waitNext s' t = waitNext s t ∨ (threadState s t = .unused ∧ waitNext s' t = 0)
  blocked : ∀ t, threadState s' t = .blocked ↔ threadState s t = .blocked
  unused : ∀ t, threadState s' t = .unused → threadState s t = .unused

theorem create_spec {c : Config} {s s' : State} {np nt fn arg : Nat} (h : Coherent c s.kernel np nt)
    (hcreate : (threadCreate c s.kernel fn arg).map (fun r => { s with kernel := r.1 }) = some s') :
    ∃ nt', nt ≤ nt' ∧ Coherent c s'.kernel np nt' ∧ Spawned s s' := by
  have hsame : Spawned s s := ⟨rfl, rfl, fun _ => Or.inl rfl, fun _ => Iff.rfl, fun _ h => h⟩
  by_cases hslot : fn ≠ 0 ∧ nt < c.maxThreads
  · obtain ⟨hfn, hlt⟩ := hslot
    obtain ⟨k', hk, htables, hready, hwait, _, _, hold, hframe⟩ := h.tables.threadCreate_spec hlt hfn arg
    obtain ⟨k'', hk', hgrows⟩ := h.threadCreate_next hlt hfn arg
    rw [hk] at hk'
    cases hk'
    rw [hk, Option.map_some, Option.some.injEq] at hcreate
    subst s'
    have hfree : (s.kernel.threadTable (nt + 1)).state = .unused :=
      h.tables.freeThread (nt + 1) (Nat.lt_succ_self nt) hlt
    refine ⟨nt + 1, Nat.le_succ nt, hgrows.coherent, rfl, ?_, fun t => ?_, fun t => ?_, fun t => ?_⟩
    · change k'.currentThread = s.kernel.currentThread
      rw [hframe]
    · by_cases ht : t = nt + 1
      · subst t
        exact Or.inr ⟨hfree, hwait⟩
      · exact Or.inl (by simp only [Sync.waitNext, hold t ht])
    · by_cases ht : t = nt + 1
      · subst t
        simp only [threadState, hready, hfree, reduceCtorEq]
      · simp only [threadState, hold t ht]
    · by_cases ht : t = nt + 1
      · subst t
        exact fun _ => hfree
      · simp only [threadState, hold t ht]
        exact id
  · have hno : fn = 0 ∨ ¬ nt < c.maxThreads := by tauto
    rw [h.tables.threadCreate_refused hno arg, Option.map_some, Option.some.injEq] at hcreate
    subst s'
    exact ⟨nt, Nat.le_refl nt, h, hsame⟩

/-- The calls in progress are those of created threads, on their own records. -/
structure Calls (c : Config) (s : State) (np nt : Nat) : Prop where
  coherent : Coherent c s.kernel np nt
  created : ∀ t, (s.pc t).isIdle = false → 1 ≤ t ∧ t ≤ nt
  current : ∀ t cur, (s.pc t).current = some cur → cur = t
  waking : ∀ t q next, s.pc t = .wake q next → threadState s next ≠ .unused

/-- The invariant of every run. -/
structure Base (c : Config) (s : State) (np nt : Nat) : Prop extends Calls c s np nt where
  awake : running s ≠ 0 → threadState s (running s) = .blocked → ∃ q, s.pc (running s) = .yield q

section Steps

variable {c : Config} {s s' : State} {np nt : Nat}

theorem Base.running_created (h : Base c s np nt) (hrun : running s ≠ 0) :
    1 ≤ running s ∧ running s ≤ nt := ⟨Nat.pos_of_ne_zero hrun, h.coherent.tables.runningThread⟩

theorem Base.running_le (h : Base c s np nt) : running s ≤ c.maxThreads :=
  h.coherent.tables.runningThread.trans h.coherent.tables.threadCount

theorem Calls.interrupted (h : Calls c s np nt) (hcoherent : Coherent c s'.kernel np nt)
    (hirq : Interrupted s s') : Base c s' np nt := by
  have hpc : s'.pc = s.pc := by rw [hirq.frame]
  refine ⟨⟨hcoherent, by rw [hpc]; exact h.created, by rw [hpc]; exact h.current, ?_⟩, ?_⟩
  · intro t q next hp
    rw [hpc] at hp
    exact mt (hirq.unused next).mp (h.waking t q next hp)
  · exact fun hrun hblocked => (hirq.awake hrun hblocked).elim

theorem Base.spawned {nt' : Nat} (h : Base c s np nt) (hnt : nt ≤ nt')
    (hcoherent : Coherent c s'.kernel np nt') (hspawn : Spawned s s') : Base c s' np nt' := by
  have hpc : s'.pc = s.pc := by rw [hspawn.frame]
  refine ⟨⟨hcoherent, fun t ht => ?_, by rw [hpc]; exact h.current, ?_⟩, ?_⟩
  · rw [hpc] at ht
    exact ⟨(h.created t ht).1, (h.created t ht).2.trans hnt⟩
  · intro t q next hp
    rw [hpc] at hp
    exact mt (hspawn.unused next) (h.waking t q next hp)
  · rw [hspawn.running, hpc]
    exact fun hrun hblocked => h.awake hrun ((hspawn.blocked _).mp hblocked)

/-- The running thread may move to any place that names no other thread. -/
theorem Calls.goto (h : Calls c s np nt) {t : Nat} (ht : 1 ≤ t ∧ t ≤ nt) {p : Pc}
    (hcurrent : ∀ cur, p.current = some cur → cur = t)
    (hwake : ∀ q next, p = .wake q next → threadState s next ≠ .unused) :
    Calls c (goto s t p) np nt := by
  refine ⟨h.coherent, fun u hu => ?_, fun u cur hcur => ?_, fun u q next hp => ?_⟩
  · by_cases hut : u = t
    · exact hut ▸ ht
    · rw [goto_pc_of_ne _ _ hut] at hu
      exact h.created u hu
  · by_cases hut : u = t
    · subst u
      rw [goto_pc_self] at hcur
      exact hcurrent cur hcur
    · rw [goto_pc_of_ne _ _ hut] at hcur
      exact h.current u cur hcur
  · by_cases hut : u = t
    · subst u
      rw [goto_pc_self] at hp
      exact hwake q next hp
    · rw [goto_pc_of_ne _ _ hut] at hp
      exact h.waking u q next hp

theorem entry_current (op : Op) : (entry op).current = none := by
  cases op <;> rfl

theorem Base.call (h : Base c s np nt) (hrun : running s ≠ 0) (hidle : (s.pc (running s)).isIdle = true)
    (op : Op) : Base c (Sync.goto s (running s) (entry op)) np nt := by
  refine ⟨h.toCalls.goto (h.running_created hrun) ?_ ?_, fun _ hblocked => ?_⟩
  · intro cur hcur
    rw [entry_current] at hcur
    cases hcur
  · intro q next hp
    cases op <;> cases hp
  · obtain ⟨q, hq⟩ := h.awake hrun hblocked
    rw [hq] at hidle
    cases hidle

/-- What a statement leaves of a state that no statement may make UNUSED. -/
theorem exec_unused {t u : Nat} {p : Pc} (h : threadState s u ≠ .unused) :
    threadState (exec s t p) u ≠ .unused := by
  have hrec : threadState (exec s t p) u = ((exec s t p).kernel.threadTable u).state := rfl
  rw [hrec]
  rcases exec_kernel s t p with hk | ⟨v, w, hk⟩ | ⟨q, cur, _, hk⟩ | ⟨q, next, _, hk⟩
  · rw [hk]
    exact h
  · rw [hk]
    have := setWaitNext_threadState s v w u
    rw [threadState] at this
    rw [this]
    exact h
  · rw [hk]
    have := setThreadState_threadState s cur u .blocked
    rw [threadState] at this
    rw [this]
    split
    · exact nofun
    · exact h
  · rw [hk]
    have := setThreadState_threadState s next u .ready
    rw [threadState] at this
    rw [this]
    split
    · exact nofun
    · exact h

theorem exec_running (s : State) (t : Nat) (p : Pc) : running (exec s t p) = running s := by
  have hrec : running (exec s t p) = (exec s t p).kernel.currentThread := rfl
  rw [hrec]
  rcases exec_kernel s t p with hk | ⟨v, w, hk⟩ | ⟨q, cur, _, hk⟩ | ⟨q, next, _, hk⟩ <;> rw [hk] <;> rfl

theorem exec_coherent (h : Base c s np nt) {t : Nat} :
    Coherent c (exec s t (s.pc t)).kernel np nt := by
  rcases exec_kernel s t (s.pc t) with hk | ⟨v, w, hk⟩ | ⟨q, cur, hp, hk⟩ | ⟨q, next, hp, hk⟩
  · rw [hk]
    exact h.coherent
  · rw [hk]
    exact coherent_setWaitNext h.coherent v w
  · rw [hk]
    have hcur : cur = t := h.current t cur (by rw [hp]; rfl)
    have ht := h.created t (by rw [hp]; rfl)
    have hused : threadState s cur ≠ .unused := hcur ▸ h.coherent.tables.usedThread t ht.1 ht.2
    have hgrows : Grows c s.kernel (setThreadState s cur .blocked).kernel np nt np nt :=
      h.coherent.setThreadState cur nofun (fun _ _ => iff_of_false nofun hused)
    exact hgrows.coherent
  · rw [hk]
    have hgrows : Grows c s.kernel (setThreadState s next .ready).kernel np nt np nt :=
      h.coherent.setThreadState next nofun (fun _ _ => iff_of_false nofun (h.waking t q next hp))
    exact hgrows.coherent

/-- A statement never makes its own thread BLOCKED, except the one that blocks it. -/
theorem exec_awake (h : Base c s np nt) (hrun : running s ≠ 0)
    (hyield : ∀ q, s.pc (running s) ≠ .yield q) :
    threadState (exec s (running s) (s.pc (running s))) (running s) = .blocked →
      ∃ q, (exec s (running s) (s.pc (running s))).pc (running s) = .yield q := by
  have hnot : threadState s (running s) ≠ .blocked := fun hblocked => by
    obtain ⟨q, hq⟩ := h.awake hrun hblocked
    exact hyield q hq
  intro hblocked
  have hrec : ((exec s (running s) (s.pc (running s))).kernel.threadTable (running s)).state = .blocked :=
    hblocked
  rcases exec_kernel s (running s) (s.pc (running s)) with hk | ⟨v, w, hk⟩ | ⟨q, cur, hp, hk⟩ | ⟨q, next, hp, hk⟩
  · rw [hk] at hrec
    exact (hnot hrec).elim
  · rw [hk] at hrec
    exact (hnot ((setWaitNext_threadState s v w _).symm.trans hrec)).elim
  · exact ⟨q, by rw [hp]; exact goto_pc_self _ _ _⟩
  · rw [hk] at hrec
    have := (setThreadState_threadState s next (running s) .ready).symm.trans hrec
    split at this
    · cases this
    · exact (hnot this).elim

theorem exec_waking {t : Nat} {q : Object} {next : Nat} (hp : (exec s t (s.pc t)).pc t = .wake q next) :
    threadState s next = .blocked := by
  cases hpc : s.pc t <;> rw [hpc] at hp <;> simp only [exec, goto_pc_self, hpc] at hp <;>
    (try split at hp) <;> cases hp
  rename_i hblocked
  exact hblocked

theorem Base.exec (h : Base c s np nt) (hrun : running s ≠ 0)
    (hyield : ∀ q, s.pc (running s) ≠ .yield q) :
    Base c (exec s (running s) (s.pc (running s))) np nt := by
  refine ⟨⟨exec_coherent h, fun u hu => ?_, fun u cur hcur => ?_, fun u q next hp => ?_⟩, ?_⟩
  · by_cases hur : u = running s
    · exact hur ▸ h.running_created hrun
    · rw [exec_pc_of_ne _ _ hur] at hu
      exact h.created u hu
  · by_cases hur : u = running s
    · subst u
      rcases exec_current rfl hcur with hold | hnew
      · exact h.current _ cur hold
      · exact hnew
    · rw [exec_pc_of_ne _ _ hur] at hcur
      exact h.current u cur hcur
  · refine exec_unused ?_
    by_cases hur : u = running s
    · subst u
      rw [exec_waking hp]
      exact nofun
    · rw [exec_pc_of_ne _ _ hur] at hp
      exact h.waking u q next hp
  · rw [exec_running]
    exact fun _ => exec_awake h hrun hyield

end Steps

/-- What one step can be. -/
theorem step_cases {c : Config} {s s' : State} {l : Label} (h : step c s l = some s') :
    (∃ savedEsp, l = .irq savedEsp ∧ interrupt c s savedEsp = some s') ∨
    (∃ fn arg, l = .create fn arg ∧
      (threadCreate c s.kernel fn arg).map (fun r => { s with kernel := r.1 }) = some s') ∨
    (∃ op, l = .call op ∧ running s ≠ 0 ∧ (s.pc (running s)).isIdle = true ∧
      s' = goto s (running s) (entry op)) ∨
    (∃ savedEsp q, l = .stmt savedEsp ∧ running s ≠ 0 ∧ s.pc (running s) = .yield q ∧
      interrupt c (goto s (running s) (.resumed q)) savedEsp = some s') ∨
    (∃ savedEsp, l = .stmt savedEsp ∧ running s ≠ 0 ∧ (s.pc (running s)).isIdle = false ∧
      (∀ q, s.pc (running s) ≠ .yield q) ∧ s' = exec s (running s) (s.pc (running s))) := by
  cases l with
  | irq savedEsp => exact Or.inl ⟨savedEsp, rfl, h⟩
  | create fn arg =>
      simp only [step] at h
      split at h
      · exact Or.inr (Or.inl ⟨fn, arg, rfl, h⟩)
      · cases h
  | call op =>
      simp only [step] at h
      split at h
      · rename_i hcall
        cases h
        exact Or.inr (Or.inr (Or.inl ⟨op, rfl, hcall.1, hcall.2, rfl⟩))
      · cases h
  | stmt savedEsp =>
      simp only [step] at h
      split at h
      · cases h
      · rename_i hrun
        split at h
        · cases h
        · rename_i q hp
          exact Or.inr (Or.inr (Or.inr (Or.inl ⟨savedEsp, q, rfl, hrun, hp, h⟩)))
        · rename_i hidle hyield
          cases h
          refine Or.inr (Or.inr (Or.inr (Or.inr ⟨savedEsp, rfl, hrun, ?_, hyield, rfl⟩)))
          cases hp : s.pc (running s) with
          | idle => exact (hidle hp).elim
          | _ => rfl

theorem base_step {c : Config} {s s' : State} {l : Label} (h : ∃ np nt, Base c s np nt)
    (step : Step c s l s') : ∃ np nt, Base c s' np nt := by
  obtain ⟨np, nt, h⟩ := h
  rcases step_cases step with ⟨_, _, hirq⟩ | ⟨_, _, _, hcreate⟩ | ⟨op, _, hrun, hidle, rfl⟩ |
    ⟨_, q, _, hrun, hp, hirq⟩ | ⟨_, _, hrun, _, hyield, rfl⟩
  · obtain ⟨hcoherent, hspec⟩ := interrupt_spec h.coherent hirq
    exact ⟨np, nt, h.toCalls.interrupted hcoherent hspec⟩
  · obtain ⟨nt', hnt, hcoherent, hspawn⟩ := create_spec h.coherent hcreate
    exact ⟨np, nt', h.spawned hnt hcoherent hspawn⟩
  · exact ⟨np, nt, h.call hrun hidle op⟩
  · have hcalls : Calls c (goto s (running s) (.resumed q)) np nt :=
      h.toCalls.goto (h.running_created hrun) nofun nofun
    obtain ⟨hcoherent, hspec⟩ := interrupt_spec hcalls.coherent hirq
    exact ⟨np, nt, hcalls.interrupted hcoherent hspec⟩
  · exact ⟨np, nt, h.exec hrun hyield⟩

theorem Initial.base {c : Config} {count : Nat → Int} {s : State} (h : Initial c count s) :
    Base c s 3 0 := by
  obtain ⟨history, hboot⟩ := h.boot
  have hcoherent := (boot_resumable hboot).coherent
  refine ⟨⟨hcoherent, fun t ht => ?_, fun t cur hcur => ?_, fun t q next hp => ?_⟩, fun hrun => ?_⟩
  · rw [h.pc] at ht
    cases ht
  · rw [h.pc] at hcur
    cases hcur
  · rw [h.pc] at hp
    cases hp
  · exact (hrun (Nat.le_zero.mp hcoherent.tables.runningThread)).elim

theorem run_base {c : Config} {count : Nat → Int} {s t : State} {labels : List Label}
    (h : Initial c count s) (run : Run (Step c) s labels t) : ∃ np nt, Base c t np nt :=
  run.invariant (fun _ _ _ h step => base_step h step) ⟨3, 0, h.base⟩

end SengKernel.Sync
