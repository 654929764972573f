import SengKernel.SchedulerRings
import SengKernel.RunBasics

/- What every interrupt finds and leaves: one context on the CPU, all others with
   the stack pointer they were last switched out on. -/
namespace SengKernel.Sched
open BoundedLoop MachineWord LinkedRing Transition

inductive Context where
  | process (p : Nat)
  | thread (t : Nat)
  deriving DecidableEq, Repr

/-- The context that `current_kind` names together with `current` or
`current_sched_thread`. -/
def onCpu (k : Kernel) : Option Context :=
  match k.currentKind with
  | .none => none
  | .process => some (.process k.current)
  | .thread => some (.thread k.currentSchedThread)

def InTable (c : Config) : Context → Prop
  | .process p => 1 ≤ p ∧ p ≤ 16
  | .thread t => 1 ≤ t ∧ t ≤ c.maxThreads

def Created (np nt : Nat) : Context → Prop
  | .process p => 1 ≤ p ∧ p ≤ np
  | .thread t => 1 ≤ t ∧ t ≤ nt

def IsReady (k : Kernel) : Context → Prop
  | .process p => (k.pcbTable p).state = .ready
  | .thread t => (k.threadTable t).state = .ready

def IsRunning (k : Kernel) : Context → Prop
  | .process p => (k.pcbTable p).state = .running
  | .thread t => (k.threadTable t).state = .running

def espOf (k : Kernel) : Context → Nat
  | .process p => (k.pcbTable p).esp
  | .thread t => (k.threadTable t).esp

/-- What `thread_current()` and `proc_current()` return while a context executes. -/
def CurrentIs (k : Kernel) : Context → Prop
  | .process p => k.currentThread = 0 ∧ k.currentProc = p
  | .thread t => k.currentThread = t ∧ k.currentProc = (k.threadTable t).owner

/-- The tables, and nothing RUNNING but what is on the CPU. -/
structure Settled (c : Config) (k : Kernel) (np nt : Nat) : Prop where
  tables : Tables c k np nt
  running : ∀ x, Created np nt x → IsRunning k x → onCpu k = some x

/-- The tables agree with what is on the CPU, and the shell can always run. -/
structure Coherent (c : Config) (k : Kernel) (np nt : Nat) : Prop where
  tables : Tables c k np nt
  shellCreated : 1 ≤ np
  shell : (k.pcbTable 1).state = .ready ∨ (k.pcbTable 1).state = .running
  procRunning : ∀ p, 1 ≤ p → p ≤ np → (k.pcbTable p).state = .running →
    k.currentKind = .process ∧ k.current = p
  threadRunning : ∀ t, 1 ≤ t → t ≤ nt → (k.threadTable t).state = .running →
    k.currentKind = .thread ∧ k.currentSchedThread = t
  noneKind : k.currentKind = .none → k.currentThread = 0
  procKind : k.currentKind = .process → 1 ≤ k.current ∧ k.currentThread = 0
  threadKind : k.currentKind = .thread → 1 ≤ k.currentSchedThread ∧ k.currentThread = k.currentSchedThread

theorem Coherent.settled {c : Config} {k : Kernel} {np nt : Nat} (h : Coherent c k np nt) :
    Settled c k np nt := by
  refine ⟨h.tables, fun x hx hrun => ?_⟩
  cases x with
  | process p =>
      obtain ⟨hkind, hcurrent⟩ := h.procRunning p hx.1 hx.2 hrun
      rw [onCpu, hkind, hcurrent]
  | thread t =>
      obtain ⟨hkind, hcurrent⟩ := h.threadRunning t hx.1 hx.2 hrun
      rw [onCpu, hkind, hcurrent]

theorem Created.inTable {c : Config} {k : Kernel} {np nt : Nat} (h : Tables c k np nt) {x : Context}
    (hx : Created np nt x) : InTable c x := by
  cases x with
  | process p => exact ⟨hx.1, hx.2.trans h.procCount⟩
  | thread t => exact ⟨hx.1, hx.2.trans h.threadCount⟩

section Saving

variable {c : Config} {k : Kernel} {np nt : Nat} (savedEsp : Nat)

/-- Saving touches the two tables and the tick counter only. -/
theorem savedKernel_frame (k : Kernel) (savedEsp : Nat) :
    savedKernel k savedEsp = { k with
      systemTicks := inc32 k.systemTicks
      pcbTable := (savedKernel k savedEsp).pcbTable
      threadTable := (savedKernel k savedEsp).threadTable } := by
  unfold savedKernel saveContext
  split
  · rfl
  · split <;> rfl

theorem savedKernel_proc (k : Kernel) (savedEsp p : Nat) :
    (savedKernel k savedEsp).pcbTable p =
      if p ≠ 0 ∧ onCpu k = some (.process p) then savePcb savedEsp (k.pcbTable p) else k.pcbTable p := by
  unfold savedKernel saveContext onCpu
  cases hkind : k.currentKind with
  | none => simp
  | thread =>
      by_cases hcurrent : k.currentSchedThread = 0 <;> simp [hcurrent, setThread]
  | process =>
      by_cases hcurrent : k.current = 0
      · by_cases hp : p = 0 <;> simp [hcurrent, hp, eq_comm]
      · by_cases hp : k.current = p
        · subst p
          simp [hcurrent]
        · simp [hcurrent, hp, setProc_of_ne _ _ _ (Ne.symm hp)]

theorem savedKernel_thread (k : Kernel) (savedEsp t : Nat) :
    (savedKernel k savedEsp).threadTable t =
      if t ≠ 0 ∧ onCpu k = some (.thread t) then saveThread savedEsp (k.threadTable t) else k.threadTable t := by
  unfold savedKernel saveContext onCpu
  cases hkind : k.currentKind with
  | none => simp
  | process =>
      by_cases hcurrent : k.current = 0 <;> simp [hcurrent, setProc]
  | thread =>
      by_cases hcurrent : k.currentSchedThread = 0
      · by_cases ht : t = 0 <;> simp [hcurrent, ht, eq_comm]
      · by_cases ht : k.currentSchedThread = t
        · subst t
          simp [hcurrent]
        · simp [hcurrent, ht, setThread_of_ne _ _ _ (Ne.symm ht)]

theorem Settled.saved_procState (h : Settled c k np nt) {p : Nat} (hp : 1 ≤ p) (hpn : p ≤ np) :
    ((savedKernel k savedEsp).pcbTable p).state =
      if (k.pcbTable p).state = .running then .ready else (k.pcbTable p).state := by
  rw [savedKernel_proc]
  by_cases hrun : (k.pcbTable p).state = .running
  · simp [h.running (.process p) ⟨hp, hpn⟩ hrun, savePcb, hrun, Nat.ne_of_gt hp]
  · rw [if_neg hrun]
    split
    · exact if_neg hrun
    · rfl

theorem Settled.saved_threadState (h : Settled c k np nt) {t : Nat} (ht : 1 ≤ t) (htn : t ≤ nt) :
    ((savedKernel k savedEsp).threadTable t).state =
      if (k.threadTable t).state = .running then .ready else (k.threadTable t).state := by
  rw [savedKernel_thread]
  by_cases hrun : (k.threadTable t).state = .running
  · simp [h.running (.thread t) ⟨ht, htn⟩ hrun, saveThread, hrun, Nat.ne_of_gt ht]
  · rw [if_neg hrun]
    split
    · exact if_neg hrun
    · rfl

/-- No context is RUNNING while the next one is chosen. -/
theorem Settled.saved_notRunning (h : Settled c k np nt) {x : Context} (hx : Created np nt x) :
    ¬ IsRunning (savedKernel k savedEsp) x := by
  cases x with
  | process p =>
      rw [IsRunning, h.saved_procState savedEsp hx.1 hx.2]
      split <;> simp_all
  | thread t =>
      rw [IsRunning, h.saved_threadState savedEsp hx.1 hx.2]
      split <;> simp_all

end Saving

/-- The tables survive every change that leaves identities, links and free slots
alone. -/
theorem Tables.of_update {c : Config} {k k' : Kernel} {np nt : Nat} (h : Tables c k np nt)
    (hnextPid : k'.nextPid = k.nextPid) (hready : k'.readyHead = k.readyHead)
    (hthread : k'.threadHead = k.threadHead) (hcurrent : k'.current ≤ np)
    (hsched : k'.currentSchedThread ≤ nt) (hrunning : k'.currentThread ≤ nt)
    (hproc : ∀ p, (k'.pcbTable p).pid = (k.pcbTable p).pid ∧ (k'.pcbTable p).next = (k.pcbTable p).next)
    (hfree : ∀ p, np < p → p ≤ 16 → (k'.pcbTable p).state = (k.pcbTable p).state)
    (hnext : ∀ t, (k'.threadTable t).next = (k.threadTable t).next)
    (hunused : ∀ t, 1 ≤ t → t ≤ c.maxThreads →
      ((k'.threadTable t).state = .unused ↔ (k.threadTable t).state = .unused)) : Tables c k' np nt where
  procCount := h.procCount
  threadCount := h.threadCount
  nextPid := hnextPid.trans h.nextPid
  created p hp hpn := (hproc p).1.trans (h.created p hp hpn)
  freePcb p hp hpn := ⟨(hproc p).1.trans (h.freePcb p hp hpn).1, (hfree p hp hpn).trans (h.freePcb p hp hpn).2⟩
  usedThread t ht htn := mt (hunused t ht (htn.trans h.threadCount)).mp (h.usedThread t ht htn)
  freeThread t ht htn := (hunused t (by omega) htn).mpr (h.freeThread t ht htn)
  procRing := by
    rw [hready]
    exact h.procRing.congr (fun p _ _ => (hproc p).2)
  threadRing := by
    rw [hthread]
    exact h.threadRing.congr (fun t _ _ => hnext t)
  currentProc := hcurrent
  currentThread := hsched
  runningThread := hrunning

theorem Tables.onCpu_le {c : Config} {k : Kernel} {np nt p : Nat} (h : Tables c k np nt)
    (hcpu : onCpu k = some (.process p)) : p ≤ np := by
  unfold onCpu at hcpu
  split at hcpu
  · cases hcpu
  · cases hcpu
    exact h.currentProc
  · cases hcpu

section Choice

variable {c : Config} {k : Kernel} {np nt : Nat}

theorem Tables.saved_tables (h : Tables c k np nt) (savedEsp : Nat) :
    Tables c (savedKernel k savedEsp) np nt := by
  have hframe := savedKernel_frame k savedEsp
  refine h.of_update ?_ ?_ ?_ ?_ ?_ ?_ ?_ ?_ ?_ ?_
  · rw [hframe]
  · rw [hframe]
  · rw [hframe]
  · rw [hframe]
    exact h.currentProc
  · rw [hframe]
    exact h.currentThread
  · rw [hframe]
    exact h.runningThread
  · intro p
    rw [savedKernel_proc]
    split <;> exact ⟨rfl, rfl⟩
  · intro p hp _
    rw [savedKernel_proc, if_neg]
    rintro ⟨_, hcpu⟩
    exact absurd (h.onCpu_le hcpu) (Nat.not_le.mpr hp)
  · intro t
    rw [savedKernel_thread]
    split <;> rfl
  · intro t _ _
    rw [savedKernel_thread]
    split
    · cases hstate : (k.threadTable t).state <;> simp [saveThread, hstate]
    · rfl

/-- The pair `next_thread`, `next_proc` that stands for a context. -/
def chosen : Context → Nat × Nat
  | .process p => (0, p)
  | .thread t => (t, 0)

def slot : Context → Nat
  | .process p => p
  | .thread t => t

theorem slot_pos {np nt : Nat} {x : Context} (hx : Created np nt x) : slot x ≠ 0 := by
  cases x with
  | process p => exact Nat.ne_of_gt hx.1
  | thread t => exact Nat.ne_of_gt hx.1

theorem eq_of_chosen {x y : Context} (hx : slot x ≠ 0) (hy : slot y ≠ 0) (h : chosen x = chosen y) : x = y := by
  cases x <;> cases y <;> simp_all [chosen, slot]

/-- The interrupt's choice, when it has one. -/
def Selected (c : Config) (k : Kernel) (savedEsp : Nat) (x : Context) : Prop :=
  slot x ≠ 0 ∧ chooseNext c (savedKernel k savedEsp) = some (chosen x)

/-- The two searches together end: they name a READY context, or there is none. -/
theorem Tables.chooseNext_cases (h : Tables c k np nt) :
    (∃ x, Created np nt x ∧ IsReady k x ∧ chooseNext c k = some (chosen x)) ∨
    ((∀ x, Created np nt x → ¬ IsReady k x) ∧ chooseNext c k = some (0, 0)) := by
  obtain ⟨p, hproc, hp⟩ := h.findNextProcess_spec
  obtain ⟨t, hthread, ht⟩ := h.findNextThread_spec
  have hnone : p = 0 → t = 0 → ∀ x, Created np nt x → ¬ IsReady k x := by
    rintro rfl rfl x hx
    cases x with
    | process q => exact (hp.resolve_right (fun h0 => absurd h0.1 (by decide))).2 q hx.1 hx.2
    | thread u => exact (ht.resolve_right (fun h0 => absurd h0.1 (by decide))).2 u hx.1 hx.2
  have hproc' : p ≠ 0 → Created np nt (.process p) ∧ IsReady k (.process p) := by
    intro hne
    obtain ⟨h1, h2, h3⟩ := hp.resolve_left (fun h0 => hne h0.1)
    exact ⟨⟨h1, h2⟩, h3⟩
  have hthread' : t ≠ 0 → Created np nt (.thread t) ∧ IsReady k (.thread t) := by
    intro hne
    obtain ⟨h1, h2, h3⟩ := ht.resolve_left (fun h0 => hne h0.1)
    exact ⟨⟨h1, h2⟩, h3⟩
  unfold chooseNext
  rw [hproc, hthread]
  split
  · cases t with
    | succ t => exact Or.inl ⟨.thread (t + 1), (hthread' (by omega)).1, (hthread' (by omega)).2, rfl⟩
    | zero =>
        cases p with
        | succ p => exact Or.inl ⟨.process (p + 1), (hproc' (by omega)).1, (hproc' (by omega)).2, rfl⟩
        | zero => exact Or.inr ⟨hnone rfl rfl, rfl⟩
  · cases p with
    | succ p => exact Or.inl ⟨.process (p + 1), (hproc' (by omega)).1, (hproc' (by omega)).2, rfl⟩
    | zero =>
        cases t with
        | succ t => exact Or.inl ⟨.thread (t + 1), (hthread' (by omega)).1, (hthread' (by omega)).2, rfl⟩
        | zero => exact Or.inr ⟨hnone rfl rfl, rfl⟩

end Choice

/-- The last part of `scheduler_irq`. -/
def resume (k : Kernel) : Context → Kernel × Nat
  | .process p => runProcess k p
  | .thread t => runThread k t

theorem resume_onCpu (k : Kernel) (x : Context) : onCpu (resume k x).1 = some x := by
  cases x <;> rfl

theorem resume_currentIs (k : Kernel) (x : Context) : CurrentIs (resume k x).1 x := by
  cases x <;> exact ⟨rfl, rfl⟩

theorem resume_proc (k : Kernel) (x : Context) (p : Nat) :
    (resume k x).1.pcbTable p =
      if x = .process p then { k.pcbTable p with state := .running } else k.pcbTable p := by
  cases x with
  | thread t => rfl
  | process q =>
      simp only [Context.process.injEq]
      by_cases hp : p = q
      · subst q
        simp [resume, runProcess, setProc]
      · rw [if_neg (Ne.symm hp)]
        exact Function.update_of_ne hp ..

theorem resume_thread (k : Kernel) (x : Context) (t : Nat) :
    (resume k x).1.threadTable t =
      if x = .thread t then { k.threadTable t with state := .running } else k.threadTable t := by
  cases x with
  | process p => rfl
  | thread u =>
      simp only [Context.thread.injEq]
      by_cases ht : t = u
      · subst u
        simp [resume, runThread, setThread]
      · rw [if_neg (Ne.symm ht)]
        exact Function.update_of_ne ht ..

theorem resume_espOf (k : Kernel) (x y : Context) : espOf (resume k x).1 y = espOf k y := by
  cases y with
  | process p =>
      rw [espOf, resume_proc]
      split <;> rfl
  | thread t =>
      rw [espOf, resume_thread]
      split <;> rfl

theorem resume_esp (k : Kernel) (x : Context) : (resume k x).2 = espOf k x := by
  cases x with
  | process p => exact (congrArg Pcb.esp (setProc_self { k with current := p } p _)).trans rfl
  | thread t => exact (congrArg Thread.esp (setThread_self { k with currentSchedThread := t } t _)).trans rfl

theorem resume_isRunning (k : Kernel) (x y : Context) :
    IsRunning (resume k x).1 y ↔ y = x ∨ IsRunning k y := by
  cases y with
  | process p =>
      rw [IsRunning, resume_proc]
      split
      · rename_i hx
        simp [hx]
      · rename_i hx
        simp [IsRunning, Ne.symm hx]
  | thread t =>
      rw [IsRunning, resume_thread]
      split
      · rename_i hx
        simp [hx]
      · rename_i hx
        simp [IsRunning, Ne.symm hx]

section Resumption

variable {c : Config} {k : Kernel} {np nt : Nat}

/-- The interrupt resumes its choice; without one it goes on where it was. -/
theorem schedulerIrq_of_chosen {savedEsp : Nat} {x : Context} (hx : Created np nt x)
    (hchoose : chooseNext c (savedKernel k savedEsp) = some (chosen x)) :
    schedulerIrq c k savedEsp = some (resume (togglePreference (savedKernel k savedEsp)) x) := by
  unfold schedulerIrq
  rw [hchoose]
  cases x with
  | process p =>
      have : p ≠ 0 := Nat.ne_of_gt hx.1
      simp [chosen, this, resume]
  | thread t =>
      have : t ≠ 0 := Nat.ne_of_gt hx.1
      simp [chosen, this, resume]

theorem schedulerIrq_of_none {savedEsp : Nat} (hchoose : chooseNext c (savedKernel k savedEsp) = some (0, 0)) :
    schedulerIrq c k savedEsp = some (togglePreference (savedKernel k savedEsp), savedEsp) := by
  unfold schedulerIrq
  rw [hchoose]
  simp

/-- The tables after a READY context is put on the CPU. -/
theorem Tables.resume (h : Tables c k np nt) {x : Context} (hx : Created np nt x) (hready : IsReady k x) :
    Tables c (resume (togglePreference k) x).1 np nt := by
  refine h.of_update ?_ ?_ ?_ ?_ ?_ ?_ ?_ ?_ ?_ ?_
  · cases x <;> rfl
  · cases x <;> rfl
  · cases x <;> rfl
  · cases x with
    | process p => exact hx.2
    | thread t => exact h.currentProc
  · cases x with
    | process p => exact h.currentThread
    | thread t => exact hx.2
  · cases x with
    | process p => exact Nat.zero_le nt
    | thread t => exact hx.2
  · intro p
    rw [resume_proc]
    split <;> exact ⟨rfl, rfl⟩
  · intro p hp _
    rw [resume_proc, if_neg]
    · rfl
    · rintro rfl
      exact absurd hx.2 (Nat.not_le.mpr hp)
  · intro t
    rw [resume_thread]
    split <;> rfl
  · intro t _ _
    rw [resume_thread]
    split
    · rename_i hxt
      subst hxt
      have : (k.threadTable t).state = .ready := hready
      simp [this]
    · rfl

/-- What an interrupt can do. -/
theorem Settled.irq_cases (h : Settled c k np nt) (savedEsp : Nat) :
    (∃ x, Created np nt x ∧ IsReady (savedKernel k savedEsp) x ∧ Selected c k savedEsp x ∧
      schedulerIrq c k savedEsp = some (resume (togglePreference (savedKernel k savedEsp)) x) ∧
      Settled c (resume (togglePreference (savedKernel k savedEsp)) x).1 np nt) ∨
    ((∀ x, Created np nt x → ¬ IsReady (savedKernel k savedEsp) x) ∧
      schedulerIrq c k savedEsp = some (togglePreference (savedKernel k savedEsp), savedEsp) ∧
      Settled c (togglePreference (savedKernel k savedEsp)) np nt) := by
  have htables := h.tables.saved_tables savedEsp
  rcases htables.chooseNext_cases with ⟨x, hx, hready, hchoose⟩ | ⟨hnone, hchoose⟩
  · refine Or.inl ⟨x, hx, hready, ⟨slot_pos hx, hchoose⟩, schedulerIrq_of_chosen hx hchoose, htables.resume hx hready, ?_⟩
    intro y hy hrun
    rw [((resume_isRunning _ x y).mp hrun).resolve_right (h.saved_notRunning savedEsp hy)]
    exact resume_onCpu _ x
  · refine Or.inr ⟨hnone, schedulerIrq_of_none hchoose, ?_, fun y hy hrun => ?_⟩
    · exact htables.of_update rfl rfl rfl htables.currentProc htables.currentThread htables.runningThread
        (fun _ => ⟨rfl, rfl⟩) (fun _ _ _ => rfl) (fun _ => rfl) (fun _ _ _ => Iff.rfl)
    · exact (h.saved_notRunning savedEsp hy hrun).elim

theorem Settled.selected (h : Settled c k np nt) {savedEsp : Nat} {x : Context}
    (hselected : Selected c k savedEsp x) : Created np nt x ∧ IsReady (savedKernel k savedEsp) x := by
  obtain ⟨hslot, hchoose⟩ := hselected
  rcases (h.tables.saved_tables savedEsp).chooseNext_cases with ⟨y, hy, hready, heq⟩ | ⟨_, heq⟩
  · rw [eq_of_chosen hslot (slot_pos hy) (Option.some.inj (hchoose.symm.trans heq))]
    exact ⟨hy, hready⟩
  · have hnull := Option.some.inj (hchoose.symm.trans heq)
    cases x with
    | process p => exact (hslot (Prod.mk.inj hnull).2).elim
    | thread t => exact (hslot (Prod.mk.inj hnull).1).elim

end Resumption

theorem Coherent.onCpu_created {c : Config} {k : Kernel} {np nt : Nat} (h : Coherent c k np nt)
    {x : Context} (hx : onCpu k = some x) : Created np nt x := by
  unfold onCpu at hx
  cases hkind : k.currentKind with
  | none =>
      rw [hkind] at hx
      cases hx
  | process =>
      rw [hkind] at hx
      cases hx
      exact ⟨(h.procKind hkind).1, h.tables.currentProc⟩
  | thread =>
      rw [hkind] at hx
      cases hx
      exact ⟨(h.threadKind hkind).1, h.tables.currentThread⟩

section Dispatch

variable {c : Config} {k : Kernel} {np nt : Nat}

/-- A context gets the interrupt's stack pointer when it is on the CPU, and keeps
its own otherwise. -/
theorem Coherent.saved_esp (h : Coherent c k np nt) (savedEsp : Nat) (x : Context) :
    espOf (savedKernel k savedEsp) x = if onCpu k = some x then savedEsp else espOf k x := by
  cases x with
  | process p =>
      have hne : onCpu k = some (.process p) → p ≠ 0 := fun hcpu => Nat.ne_of_gt (h.onCpu_created hcpu).1
      rw [espOf, savedKernel_proc]
      simp only [and_iff_right_of_imp hne]
      split <;> rfl
  | thread t =>
      have hne : onCpu k = some (.thread t) → t ≠ 0 := fun hcpu => Nat.ne_of_gt (h.onCpu_created hcpu).1
      rw [espOf, savedKernel_thread]
      simp only [and_iff_right_of_imp hne]
      split <;> rfl

theorem Coherent.saved_shell (h : Coherent c k np nt) (savedEsp : Nat) :
    ((savedKernel k savedEsp).pcbTable 1).state = .ready := by
  rw [h.settled.saved_procState savedEsp (Nat.le_refl 1) h.shellCreated]
  rcases h.shell with hstate | hstate <;> simp [hstate]

/-- What every interrupt leaves behind: the shell can always run. -/
theorem Coherent.irq (h : Coherent c k np nt) (savedEsp : Nat) :
    ∃ x, Created np nt x ∧ IsReady (savedKernel k savedEsp) x ∧
      schedulerIrq c k savedEsp = some (resume (togglePreference (savedKernel k savedEsp)) x) ∧
      Coherent c (resume (togglePreference (savedKernel k savedEsp)) x).1 np nt := by
  rcases h.settled.irq_cases savedEsp with ⟨x, hx, hready, _, hirq, hsettled⟩ | ⟨hnone, _⟩
  · refine ⟨x, hx, hready, hirq, hsettled.tables, h.shellCreated, ?_, ?_, ?_, ?_, ?_, ?_⟩
    · rw [resume_proc]
      split
      · exact Or.inr rfl
      · exact Or.inl (h.saved_shell savedEsp)
    · intro p hp hpn hrun
      have hcpu := (resume_onCpu _ x).symm.trans (hsettled.running (.process p) ⟨hp, hpn⟩ hrun)
      cases hcpu
      exact ⟨rfl, rfl⟩
    · intro t ht htn hrun
      have hcpu := (resume_onCpu _ x).symm.trans (hsettled.running (.thread t) ⟨ht, htn⟩ hrun)
      cases hcpu
      exact ⟨rfl, rfl⟩
    · intro hkind
      cases x <;> cases hkind
    · intro hkind
      cases x with
      | process p => exact ⟨hx.1, rfl⟩
      | thread t => cases hkind
    · intro hkind
      cases x with
      | process p => cases hkind
      | thread t => exact ⟨hx.1, rfl⟩
  · exact (hnone (.process 1) ⟨Nat.le_refl 1, h.shellCreated⟩ (h.saved_shell savedEsp)).elim

end Dispatch

end SengKernel.Sched
