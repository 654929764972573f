import SengKernel.ThreadPrograms
import SengKernel.SchedulerFairness

/- How programs of threads come to their end. Every statement of a thread leaves it
   fewer to execute, and a thread that can run gets the CPU. -/
namespace SengKernel.Sync
open Sched MachineWord Transition LinkedRing

variable {D P : Type*}

/-- A call that blocks has its yield and its return to come. -/
def Op.after : Op → Nat
  | .lock _ | .wait _ => 2
  | .unlock _ | .signal _ => 0

/-- What a statement leaves to execute is less than `n`. -/
def Statement.Within (cost : P → Nat) (n : Nat) : Statement D P → Prop
  | .work _ next => cost next + 1 ≤ n
  | .call op next => cost next + op.after + 1 ≤ n
  | .yield next => cost next + 1 ≤ n
  | .exit => 1 ≤ n

/-- `cost t p` bounds the statements that thread `t` executes from the place `p` on. -/
def Bounded (program : Nat → P → D → Statement D P) (cost : Nat → P → Nat) : Prop :=
  ∀ t p g, (program t p g).Within (cost t) (cost t p)

def Pc.left : Pc → Nat
  | .yield _ => 2
  | .resumed _ => 1
  | _ => 0

def remaining (cost : Nat → P → Nat) (x : Client D P) (t : Nat) : Nat :=
  if threadState x.machine t = .terminated then 0 else cost t (x.place t) + (x.machine.pc t).left

/-- A thread stands in its own code, or in a call that has blocked, and then it has not
ended. -/
def Stands (p : Pc) (st : ThreadState) : Prop :=
  p = .idle ∨ ((∃ q, p = .yield q ∨ p = .resumed q) ∧ st ≠ .terminated)

def Standing (s : State) : Prop := ∀ t, Stands (s.pc t) (threadState s t)

/-- The history of the statements that each thread has executed. -/
structure Counted (D P : Type*) where
  client : Client D P
  executed : Nat → Nat

def isStatement : Tick → Bool
  | .stmt _ => true
  | _ => false

def countedStep (c : Config) (program : Nat → P → D → Statement D P) (x : Counted D P) (k : Tick) :
    Option (Counted D P) :=
  (clientStep c program x.client k).map (fun y =>
    { client := y
      executed := if isStatement k then
          Function.update x.executed (running x.client.machine) (x.executed (running x.client.machine) + 1)
        else x.executed })

def CountedStep (c : Config) (program : Nat → P → D → Statement D P) (x : Counted D P) (k : Tick)
    (y : Counted D P) : Prop := countedStep c program x k = some y

section Moves

variable {c : Config} {s s' : State} {np nt : Nat} {l : Object → List Nat} {mv : Move} {op : Op}

theorem create_terminated {fn arg : Nat} (h : Coherent c s.kernel np nt)
    (hcreate : (threadCreate c s.kernel fn arg).map (fun r => { s with kernel := r.1 }) = some s') (t : Nat) :
    threadState s' t = .terminated ↔ threadState s t = .terminated := by
  obtain ⟨⟨k', n⟩, hk, rfl⟩ := Option.map_eq_some_iff.mp hcreate
  by_cases hslot : fn ≠ 0 ∧ nt < c.maxThreads
  · obtain ⟨k₁, hk₁, _, hready, _, _, _, hold, _⟩ := h.tables.threadCreate_spec hslot.2 hslot.1 arg
    obtain ⟨rfl, _⟩ := Prod.mk.inj (Option.some.inj (hk.symm.trans hk₁))
    have hfree : (s.kernel.threadTable (nt + 1)).state = .unused :=
      h.tables.freeThread (nt + 1) (Nat.lt_succ_self nt) hslot.2
    by_cases ht : t = nt + 1
    · rw [ht, threadState, threadState, hready, hfree]
      exact iff_of_false (by decide) (by decide)
    · rw [threadState, threadState, hold t ht]
  · have hno : fn = 0 ∨ ¬ nt < c.maxThreads := by tauto
    obtain ⟨rfl, _⟩ := Prod.mk.inj (Option.some.inj (hk.symm.trans (h.tables.threadCreate_refused hno arg)))
    exact Iff.rfl

theorem suspend_threadState {q : Object} {r : Nat} (hr : r ≠ 0) (t : Nat) :
    threadState (suspend s q r) t = if t = r then .blocked else threadState s t := by
  have hstate := setThreadState_threadState (enqueue s q r) r t .blocked
  rw [enqueue_threadState, ← blockThread_eq _ hr] at hstate
  exact hstate

theorem wakeFirst_threadState {q : Object} {r : Nat} (hr : r ≠ 0) (hblocked : threadState s r = .blocked) (t : Nat) :
    threadState (unblockThread (dequeue s q) r) t = if t = r then .ready else threadState s t := by
  have hwaits : threadState (dequeue s q) r = .blocked := (dequeue_threadState s q r).trans hblocked
  rw [unblockThread_eq _ hr hwaits, setThreadState_threadState, dequeue_threadState]

/-- What an operation does to the threads. -/
structure Kept (s s' : State) : Prop where
  terminated : ∀ t, threadState s' t = .terminated ↔ threadState s t = .terminated
  unused : ∀ t, threadState s' t = .unused ↔ threadState s t = .unused
  others : ∀ t, t ≠ running s → s'.pc t = s.pc t
  own : s'.pc (running s) = s.pc (running s) ∨ ∃ q, s'.pc (running s) = .yield q

theorem Kept.of_eq (hstate : ∀ t, threadState s' t = threadState s t) (hpc : s'.pc = s.pc) : Kept s s' :=
  ⟨fun t => by rw [hstate], fun t => by rw [hstate], fun t _ => congrFun hpc t, Or.inl (congrFun hpc _)⟩

theorem kept_suspend {q : Object} (h : Queues c s np nt l) (hrun : running s ≠ 0)
    (hlive : threadState s (running s) ≠ .terminated) : Kept s (suspend s q (running s)) := by
  have hpc : (suspend s q (running s)).pc = Function.update s.pc (running s) (.yield q) := by rw [suspend_frame]
  have hused : threadState s (running s) ≠ .unused :=
    h.coherent.tables.usedThread _ (Nat.pos_of_ne_zero hrun) h.coherent.tables.runningThread
  refine ⟨?_, ?_, ?_, ?_⟩
  · intro t
    rw [suspend_threadState hrun]
    split
    · rename_i ht
      rw [ht]
      exact iff_of_false nofun hlive
    · exact Iff.rfl
  · intro t
    rw [suspend_threadState hrun]
    split
    · rename_i ht
      rw [ht]
      exact iff_of_false nofun hused
    · exact Iff.rfl
  · intro t ht
    rw [hpc, Function.update_of_ne ht]
  · right
    exact ⟨q, by rw [hpc, Function.update_self]⟩

theorem kept_wakeFirst {q : Object} (h : Queues c s np nt l) (hwaiter : s.waitHead q ≠ 0) :
    Kept s (unblockThread (dequeue s q) (s.waitHead q)) := by
  obtain ⟨ws, hl⟩ := h.first hwaiter
  have hblocked : threadState s (s.waitHead q) = .blocked := by
    apply h.member_blocked (q := q)
    rw [hl]
    exact List.mem_cons_self
  have hpc : (unblockThread (dequeue s q) (s.waitHead q)).pc = s.pc := by rw [wakeFirst_frame]
  have hstate : ∀ st, st ≠ .blocked → st ≠ .ready → ∀ t,
      (threadState (unblockThread (dequeue s q) (s.waitHead q)) t = st ↔ threadState s t = st) := by
    intro st hst hst' t
    rw [wakeFirst_threadState hwaiter hblocked]
    split
    · rename_i ht
      rw [ht, hblocked]
      exact iff_of_false (Ne.symm hst') (Ne.symm hst)
    · exact Iff.rfl
  exact ⟨hstate _ nofun nofun, hstate _ nofun nofun, fun t _ => congrFun hpc t, Or.inl (congrFun hpc _)⟩

/-- An operation ends no thread, and moves none but its own. -/
theorem Performed.kept (hp : Performed s op s') (h : Queues c s np nt l) (hfree : Free s) : Kept s s' := by
  have hlive : running s ≠ 0 → threadState s (running s) ≠ .terminated := fun hrun => (hfree.resolve_left hrun).2
  cases hp with
  | lockNobody | relock | unlockFree | unlockOther | waitNobody => exact .of_eq (fun _ => rfl) rfl
  | acquire | release | take | bank => exact .of_eq (fun _ => rfl) rfl
  | lockBlock somebody => exact kept_suspend h somebody (hlive somebody)
  | waitBlock somebody => exact kept_suspend h somebody (hlive somebody)
  | handOver locked own waiter =>
      obtain ⟨hterminated, hunused, hothers, hown⟩ := kept_wakeFirst h waiter
      exact ⟨hterminated, hunused, hothers, hown⟩
  | pass waiter => exact kept_wakeFirst h waiter

theorem Interrupted.kept (h : Interrupted s s') : Kept s s' := by
  have hpc : s'.pc = s.pc := by rw [h.frame]
  exact ⟨fun t => h.parked t .terminated nofun nofun, h.unused, fun t _ => congrFun hpc t, Or.inl (congrFun hpc _)⟩

/-- An operation that does not wait leaves its own thread in its code. -/
theorem Performed.left_le (hp : Performed s op s') (hkept : Kept s s') (hidle : (s.pc (running s)).left = 0) :
    (s'.pc (running s)).left ≤ op.after := by
  have htwo : (s'.pc (running s)).left ≤ 2 := by
    rcases hkept.own with hsame | ⟨q, hyield⟩
    · rw [hsame, hidle]
      exact Nat.zero_le 2
    · rw [hyield]
      exact Nat.le_refl 2
  have hnone : s'.pc = s.pc → (s'.pc (running s)).left ≤ 0 := fun hpc => by rw [hpc, hidle]
  cases hp with
  | lockNobody | acquire | relock | lockBlock | waitNobody | take | waitBlock => exact htwo
  | unlockFree | unlockOther | release | bank => exact hnone rfl
  | @handOver m locked own waiter =>
      have hpc : (unblockThread (dequeue s (.mutex m)) (s.waitHead (.mutex m))).pc = s.pc := by rw [wakeFirst_frame]
      exact hnone hpc
  | pass waiter =>
      apply hnone
      rw [wakeFirst_frame]

theorem Stands.congr {p : Pc} {st st' : ThreadState} (h : Stands p st) (hst : st' = .terminated ↔ st = .terminated) :
    Stands p st' :=
  h.imp_right (fun hcall => ⟨hcall.1, mt hst.mp hcall.2⟩)

/-- Nothing moves and nothing ends. -/
theorem Standing.congr (h : Standing s) (hpc : s'.pc = s.pc)
    (hterminated : ∀ t, threadState s' t = .terminated ↔ threadState s t = .terminated) : Standing s' := by
  intro t
  rw [hpc]
  exact (h t).congr (hterminated t)

theorem Standing.goto (h : Standing s) {r : Nat} {p : Pc} (hp : Stands p (threadState s r)) :
    Standing (goto s r p) := by
  intro t
  by_cases ht : t = r
  · subst t
    rw [goto_pc_self]
    exact hp
  · rw [goto_pc_of_ne s p ht]
    exact h t

theorem Standing.kept (h : Standing s) (hkept : Kept s s') (hlive : threadState s (running s) ≠ .terminated) :
    Standing s' := by
  intro t
  by_cases ht : t = running s
  · subst t
    rcases hkept.own with hsame | ⟨q, hq⟩
    · rw [hsame]
      exact (h _).congr (hkept.terminated _)
    · rw [hq]
      exact Or.inr ⟨⟨q, Or.inl rfl⟩, mt (hkept.terminated _).mp hlive⟩
  · rw [hkept.others t ht]
    exact (h t).congr (hkept.terminated t)

end Moves

section Statements

variable {c : Config} {program : Nat → P → D → Statement D P} {cost : Nat → P → Nat} {x y : Client D P} {k : Tick}
  {np nt : Nat} {l : Object → List Nat}

theorem remaining_congr {t : Nat} (hplace : y.place t = x.place t) (hpc : y.machine.pc t = x.machine.pc t)
    (hterminated : threadState y.machine t = .terminated ↔ threadState x.machine t = .terminated) :
    remaining cost y t = remaining cost x t := by
  unfold remaining
  rw [hplace, hpc]
  simp only [hterminated]

theorem remaining_live {t : Nat} (hlive : threadState x.machine t ≠ .terminated) :
    remaining cost x t = cost t (x.place t) + (x.machine.pc t).left := if_neg hlive

variable (cost) in
theorem remaining_le (t : Nat) : remaining cost x t ≤ cost t (x.place t) + (x.machine.pc t).left := by
  unfold remaining
  split
  · exact Nat.zero_le _
  · exact Nat.le_refl _

/-- The running thread has executed a statement: it has one fewer left, and the others
have not moved. -/
structure Spends (program : Nat → P → D → Statement D P) (cost : Nat → P → Nat) (x y : Client D P) : Prop where
  place : ∀ t, t ≠ running x.machine → y.place t = x.place t
  pc : ∀ t, t ≠ running x.machine → y.machine.pc t = x.machine.pc t
  terminated : ∀ t, t ≠ running x.machine →
    (threadState y.machine t = .terminated ↔ threadState x.machine t = .terminated)
  unused : ∀ t, threadState y.machine t = .unused ↔ threadState x.machine t = .unused
  own : remaining cost y (running x.machine) + 1 ≤ remaining cost x (running x.machine)
  ends : threadState y.machine (running x.machine) = .terminated →
    y.place (running x.machine) = x.place (running x.machine) ∧
      program (running x.machine) (x.place (running x.machine)) x.data = .exit

theorem Spends.others (h : Spends program cost x y) {t : Nat} (ht : t ≠ running x.machine) :
    remaining cost y t = remaining cost x t :=
  remaining_congr (h.place t ht) (h.pc t ht) (h.terminated t ht)

/-- A statement that leads on to `p`. -/
theorem spends_on {p : P} {s : State} {g : D} (hexec : Executing x.machine)
    (hpc : ∀ t, t ≠ running x.machine → s.pc t = x.machine.pc t)
    (hterminated : ∀ t, threadState s t = .terminated ↔ threadState x.machine t = .terminated)
    (hunused : ∀ t, threadState s t = .unused ↔ threadState x.machine t = .unused)
    (hcost : cost (running x.machine) p + (s.pc (running x.machine)).left + 1 ≤
      cost (running x.machine) (x.place (running x.machine))) : Spends program cost x ⟨s, advance x p, g⟩ := by
  have hlive := (hexec.2.resolve_left hexec.1).2
  refine ⟨fun t ht => advance_of_ne p ht, hpc, fun t _ => hterminated t, hunused, ?_, fun hend => ?_⟩
  · have hafter := remaining_le cost (x := ⟨s, advance x p, g⟩) (running x.machine)
    simp only [advance_self] at hafter
    rw [remaining_live hlive]
    omega
  · exact (hlive ((hterminated _).mp hend)).elim

theorem left_of_idle {p : Pc} (h : p.isIdle = true) : p.left = 0 := by
  rw [Pc.eq_idle h]
  rfl

theorem kept_interrupt {s s' : State} {savedEsp : Nat} (h : Coherent c s.kernel np nt)
    (hirq : interrupt c s savedEsp = some s') : Kept s s' ∧ s'.pc = s.pc := by
  obtain ⟨_, hspec⟩ := interrupt_spec h hirq
  exact ⟨hspec.kept, by rw [hspec.frame]⟩

/-- The end of a call that blocked. -/
theorem resumed_step {savedEsp : Nat} {s : State} (hq : Queues c x.machine np nt l) (hstanding : Standing x.machine)
    (step : Moved c x.machine (.resume savedEsp) s) :
    Standing s ∧ Spends program cost x ⟨s, x.place, x.data⟩ := by
  have hlive : x.machine.pc (running x.machine) ≠ .idle → threadState x.machine (running x.machine) ≠ .terminated :=
    fun hpc => ((hstanding _).resolve_left hpc).2
  cases step with
  | @yield _ q _ somebody at' step =>
      have hawake := hlive (by rw [at']; exact nofun)
      obtain ⟨hkept, hpc⟩ := kept_interrupt (s := goto x.machine (running x.machine) (.resumed q)) hq.coherent step
      have hgoto := hstanding.goto (r := running x.machine) (p := .resumed q) (Or.inr ⟨⟨q, Or.inr rfl⟩, hawake⟩)
      refine ⟨hgoto.congr hpc hkept.terminated, fun _ _ => rfl, ?_, fun t _ => hkept.terminated t, hkept.unused, ?_, ?_⟩
      · intro t ht
        rw [hpc]
        exact goto_pc_of_ne _ _ ht
      · have hafter := remaining_le cost (x := ⟨s, x.place, x.data⟩) (running x.machine)
        rw [hpc, goto_pc_self] at hafter
        rw [remaining_live hawake, at']
        simp only [Pc.left] at hafter ⊢
        omega
      · intro hend
        exact (hawake ((hkept.terminated _).mp hend)).elim
  | returned somebody at' =>
      have hawake := hlive (by rw [at']; exact nofun)
      refine ⟨hstanding.goto (Or.inl rfl), fun _ _ => rfl, ?_, fun t _ => Iff.rfl, fun t => Iff.rfl, ?_, ?_⟩
      · intro t ht
        exact goto_pc_of_ne _ _ ht
      · have hafter := remaining_le cost (x := ⟨goto x.machine (running x.machine) .idle, x.place, x.data⟩)
          (running x.machine)
        rw [goto_pc_self] at hafter
        rw [remaining_live hawake, at']
        simp only [Pc.left] at hafter ⊢
        omega
      · intro hend
        exact (hawake hend).elim

/-- The thread is at its last statement. -/
theorem exited_step (hq : Queues c x.machine np nt l) (hstanding : Standing x.machine) (hexec : Executing x.machine)
    (hst : program (running x.machine) (x.place (running x.machine)) x.data = .exit)
    (hless : 1 ≤ cost (running x.machine) (x.place (running x.machine))) :
    Standing (setThreadState x.machine (running x.machine) .terminated) ∧
      Spends program cost x ⟨setThreadState x.machine (running x.machine) .terminated, x.place, x.data⟩ := by
  obtain ⟨hidle, hlive⟩ := hexec.2.resolve_left hexec.1
  have hused : threadState x.machine (running x.machine) ≠ .unused :=
    hq.coherent.tables.usedThread _ (Nat.pos_of_ne_zero hexec.1) hq.coherent.tables.runningThread
  refine ⟨?_, fun _ _ => rfl, fun _ _ => rfl, ?_, ?_, ?_, fun _ => ⟨rfl, hst⟩⟩
  · intro t
    rw [setThreadState_threadState]
    split
    · rename_i ht
      rw [ht]
      exact Or.inl (Pc.eq_idle hidle)
    · exact hstanding t
  · intro t ht
    rw [setThreadState_threadState, if_neg ht]
  · intro t
    rw [setThreadState_threadState]
    split
    · rename_i ht
      rw [ht]
      exact iff_of_false (by decide) hused
    · exact Iff.rfl
  · rw [remaining_live hlive, remaining, setThreadState_threadState, if_pos rfl]
    exact Nat.le_trans hless (Nat.le_add_right _ _)

theorem executed_step {savedEsp : Nat} (hcost : Bounded program cost) (hq : Queues c x.machine np nt l)
    (hstanding : Standing x.machine) (hexec : Executing x.machine)
    (step : runStatement c x savedEsp (program (running x.machine) (x.place (running x.machine)) x.data) = some y) :
    Standing y.machine ∧ Spends program cost x y := by
  have hwithin := hcost (running x.machine) (x.place (running x.machine)) x.data
  obtain ⟨hidle, hlive⟩ := hexec.2.resolve_left hexec.1
  have hleft := left_of_idle hidle
  generalize hst : program (running x.machine) (x.place (running x.machine)) x.data = statement at step hwithin
  cases statement with
  | work data next =>
      cases step
      have hless : cost (running x.machine) next + 1 ≤ cost (running x.machine) (x.place (running x.machine)) := hwithin
      refine ⟨hstanding, spends_on hexec (fun _ _ => rfl) (fun _ => Iff.rfl) (fun _ => Iff.rfl) ?_⟩
      omega
  | call op next =>
      obtain ⟨s, hs, rfl⟩ := Option.map_eq_some_iff.mp step
      have hless : cost (running x.machine) next + op.after + 1 ≤
          cost (running x.machine) (x.place (running x.machine)) := hwithin
      cases moved hs with
      | call free step =>
          have hkept := step.kept hq hexec.2
          have hafter := step.left_le hkept hleft
          refine ⟨hstanding.kept hkept hlive, spends_on hexec hkept.others hkept.terminated hkept.unused ?_⟩
          omega
  | yield next =>
      obtain ⟨s, hs, rfl⟩ := Option.map_eq_some_iff.mp step
      have hless : cost (running x.machine) next + 1 ≤ cost (running x.machine) (x.place (running x.machine)) := hwithin
      cases moved hs with
      | irq step =>
          obtain ⟨hkept, hpc⟩ := kept_interrupt hq.coherent step
          refine ⟨hstanding.congr hpc hkept.terminated,
            spends_on hexec hkept.others hkept.terminated hkept.unused ?_⟩
          rw [hpc]
          omega
  | exit =>
      obtain ⟨s, hs, rfl⟩ := Option.map_eq_some_iff.mp step
      have hless : 1 ≤ cost (running x.machine) (x.place (running x.machine)) := hwithin
      cases moved hs with
      | exit free =>
          rw [threadExit_eq hexec.1]
          exact exited_step hq hstanding hexec hst hless

/-- The other steps: nothing moves and nothing ends. -/
structure Waits (x y : Client D P) : Prop where
  place : y.place = x.place
  pc : y.machine.pc = x.machine.pc
  terminated : ∀ t, threadState y.machine t = .terminated ↔ threadState x.machine t = .terminated

theorem Waits.remaining_eq (h : Waits x y) (t : Nat) : remaining cost y t = remaining cost x t :=
  remaining_congr (congrFun h.place t) (congrFun h.pc t) (h.terminated t)

/-- What one step leaves to execute. -/
theorem remaining_step (hcost : Bounded program cost) (hq : Queues c x.machine np nt l) (hstanding : Standing x.machine)
    (step : ClientStep c program x k y) : Standing y.machine ∧
      (if isStatement k then Spends program cost x y else Waits x y) := by
  unfold ClientStep at step
  cases k with
  | irq savedEsp =>
      obtain ⟨s, hs, rfl⟩ := Option.map_eq_some_iff.mp step
      cases moved hs with
      | irq step =>
          obtain ⟨hkept, hpc⟩ := kept_interrupt hq.coherent step
          exact ⟨hstanding.congr hpc hkept.terminated, rfl, hpc, hkept.terminated⟩
  | create fn arg =>
      simp only [clientStep] at step
      split at step
      · obtain ⟨s, hs, rfl⟩ := Option.map_eq_some_iff.mp step
        cases moved hs with
        | create free step =>
            obtain ⟨_, _, _, hspawn⟩ := create_spec hq.coherent step
            have hpc : s.pc = x.machine.pc := by rw [hspawn.frame]
            have hterminated := create_terminated hq.coherent step
            exact ⟨hstanding.congr hpc hterminated, rfl, hpc, hterminated⟩
      · cases step
  | stmt savedEsp =>
      simp only [clientStep] at step
      split_ifs at step with hrun hidle hfree
      · obtain ⟨s, hs, rfl⟩ := Option.map_eq_some_iff.mp step
        exact resumed_step hq hstanding (moved hs)
      · exact executed_step hcost hq hstanding ⟨hrun, hfree⟩ step

/-- A thread that has ended stands at its last statement. -/
theorem ended_step {final : P → Prop} (hfinal : ∀ t p g, program t p g = .exit → final p) (hcost : Bounded program cost)
    (hq : Queues c x.machine np nt l) (hstanding : Standing x.machine) (step : ClientStep c program x k y) {t : Nat}
    (h : threadState x.machine t = .terminated → final (x.place t)) (hend : threadState y.machine t = .terminated) :
    final (y.place t) := by
  have hstep := (remaining_step hcost hq hstanding step).2
  split at hstep
  · by_cases ht : t = running x.machine
    · subst t
      obtain ⟨hplace, hexit⟩ := hstep.ends hend
      rw [hplace]
      exact hfinal _ _ _ hexit
    · rw [hstep.place t ht]
      exact h ((hstep.terminated t ht).mp hend)
  · rw [hstep.place]
    exact h ((hstep.terminated t).mp hend)

/-- A thread that cannot run waits or has ended. -/
theorem threadState_of_idle {s : State} {t : Nat} (ht : t ∈ threads c s) (hidle : ¬ Runnable s.kernel (.thread t)) :
    threadState s t = .blocked ∨ threadState s t = .terminated := by
  have hused := (Finset.mem_filter.mp ht).2
  cases hstate : threadState s t with
  | unused => exact (hused hstate).elim
  | ready => exact (hidle (Or.inl hstate)).elim
  | running => exact (hidle (Or.inr hstate)).elim
  | blocked => exact Or.inl rfl
  | terminated => exact Or.inr rfl

/-- Only a creation adds a thread. -/
theorem threads_step (hcost : Bounded program cost) (hq : Queues c x.machine np nt l) (hstanding : Standing x.machine)
    (hk : ∀ fn arg, k ≠ .create fn arg) (step : ClientStep c program x k y) :
    threads c y.machine = threads c x.machine := by
  have hunused : ∀ t, threadState y.machine t = .unused ↔ threadState x.machine t = .unused := by
    cases k with
    | irq savedEsp =>
        obtain ⟨s, hs, rfl⟩ := Option.map_eq_some_iff.mp step
        cases moved hs with
        | irq step => exact (kept_interrupt hq.coherent step).1.unused
    | create fn arg => exact (hk fn arg rfl).elim
    | stmt savedEsp => exact (remaining_step hcost hq hstanding step).2.unused
  apply Finset.filter_congr
  intro t _
  exact not_congr (hunused t)

theorem ticked_queues (h : ∃ np nt l, Queues c x.machine np nt l) (step : Ticked c program x y) :
    ∃ np nt l, Queues c y.machine np nt l := by
  obtain ⟨np, nt, l, h⟩ := h
  cases step with
  | scheduled step quiet =>
      obtain ⟨np', nt', _, h', _⟩ := h.quiet step quiet
      exact ⟨np', nt', l, h'⟩
  | yielded executing statement step =>
      obtain ⟨np', nt', _, h', _⟩ := h.quiet step nofun
      exact ⟨np', nt', l, h'⟩
  | called executing statement step =>
      obtain ⟨l', h'⟩ := h.operation executing.2 step
      exact ⟨np, nt, l', h'⟩
  | worked => exact ⟨np, nt, l, h⟩

/-- The machine of every run. -/
def Sound (c : Config) (x : Client D P) : Prop := (∃ np nt l, Queues c x.machine np nt l) ∧ Standing x.machine

theorem Sound.step (hcost : Bounded program cost) (h : Sound c x) (step : ClientStep c program x k y) : Sound c y := by
  obtain ⟨⟨np, nt, l, hq⟩, hstanding⟩ := h
  exact ⟨ticked_queues ⟨np, nt, l, hq⟩ (ticked step), (remaining_step hcost hq hstanding step).1⟩

theorem Initial.sound {count : Nat → Int} (h : Initial c count x.machine) : Sound c x := by
  refine ⟨⟨3, 0, fun _ => [], h.queues⟩, ?_⟩
  intro t
  rw [h.pc]
  exact Or.inl rfl

/-- In every run, what a thread has executed and what it has left stay within its bound. -/
theorem run_executed_le {a b : Counted D P} {ticks : List Tick} (hcost : Bounded program cost) (h : Sound c a.client)
    (run : Run (CountedStep c program) a ticks b) (t : Nat) :
    b.executed t + remaining cost b.client t ≤ a.executed t + remaining cost a.client t := by
  induction run with
  | nil => exact Nat.le_refl _
  | @cons a b _ k _ step _ ih =>
      obtain ⟨y, hstep, rfl⟩ := Option.map_eq_some_iff.mp step
      have hstep : ClientStep c program a.client k y := hstep
      apply (ih (h.step hcost hstep)).trans
      obtain ⟨⟨np, nt, l, hq⟩, hstanding⟩ := h
      have hspent := (remaining_step hcost hq hstanding hstep).2
      dsimp only
      cases hk : isStatement k with
      | false =>
          rw [hk, if_neg nofun] at hspent
          rw [if_neg nofun, hspent.remaining_eq]
      | true =>
          rw [hk, if_pos rfl] at hspent
          rw [if_pos rfl]
          by_cases ht : t = running a.client.machine
          · subst t
            rw [Function.update_self]
            have := hspent.own
            omega
          · rw [Function.update_of_ne ht, hspent.others ht]

end Statements

section Completion

variable {c : Config} {program : Nat → P → D → Statement D P} {cost : Nat → P → Nat} {x y : Client D P} {np nt : Nat}

variable (program) in
/-- A thread that runs and has not ended can execute a statement. -/
theorem statement_possible (h : Sound c x) (hrun : running x.machine ≠ 0)
    (hlive : threadState x.machine (running x.machine) ≠ .terminated) : ∃ y, ClientStep c program x (.stmt 0) y := by
  obtain ⟨⟨np, nt, l, hq⟩, hstanding⟩ := h
  have hirq : ∀ s : State, Coherent c s.kernel np nt → ∃ s', interrupt c s 0 = some s' := by
    intro s hcoherent
    obtain ⟨_, _, _, heq, _⟩ := hcoherent.irq 0
    exact ⟨_, by rw [interrupt, heq]; rfl⟩
  unfold ClientStep
  simp only [clientStep, if_neg hrun]
  rcases hstanding (running x.machine) with hidle | ⟨⟨q, hq' | hq'⟩, _⟩
  · have hfree : Free x.machine := Or.inr ⟨by rw [hidle]; rfl, hlive⟩
    rw [hidle, if_neg (by decide), if_pos hfree]
    cases program (running x.machine) (x.place (running x.machine)) x.data with
    | work data next => exact ⟨_, rfl⟩
    | call op next =>
        simp only [runStatement, moveStep, if_pos hfree]
        exact ⟨_, rfl⟩
    | yield next =>
        obtain ⟨s', hs'⟩ := hirq x.machine hq.coherent
        simp only [runStatement, moveStep, hs']
        exact ⟨_, rfl⟩
    | exit =>
        simp only [runStatement, moveStep, if_pos hfree]
        exact ⟨_, rfl⟩
  · obtain ⟨s', hs'⟩ := hirq (goto x.machine (running x.machine) (.resumed q)) hq.coherent
    simp only [hq', Pc.isIdle, if_true, moveStep, if_neg hrun, hs']
    exact ⟨_, rfl⟩
  · simp only [hq', Pc.isIdle, if_true, moveStep, if_neg hrun]
    exact ⟨_, rfl⟩

theorem thread_due {k : Kernel} {t : Nat} (h : Tables c k np nt) (ht : Created np nt (.thread t)) :
    ∃ n, Due (Sched.rotation k (.thread t)) t n := by
  have hring : IsRing (threadNext k) k.threadHead (List.range' 1 nt) := by
    rcases h.threadRing with ⟨hnone, _⟩ | ⟨_, hring⟩
    · have := ht.1.trans ht.2
      omega
    · exact hring
  have hmem : t ∈ List.range' 1 nt := mem_queue.mpr ht
  have hhead : (Sched.rotation k (.thread t)).head ≠ 0 := by
    have := (mem_queue.mp hring.head_mem).1
    change k.threadHead ≠ 0
    omega
  have hstart := (h.rotation_ring (x := .thread t) ⟨hhead, hring, hmem⟩).2
  refine ⟨2 * (List.range' 1 nt).length, _, hring.within hstart hmem, ?_⟩
  split
  · exact Nat.sub_le _ _
  · exact Nat.le_refl _

variable (program) in
/-- Interrupts alone bring a thread that can run to the CPU. -/
theorem dispatched {t n : Nat} (h : Coherent c x.machine.kernel np nt) (ht : Created np nt (.thread t))
    (hrunnable : Runnable x.machine.kernel (.thread t)) (hdue : Due (Sched.rotation x.machine.kernel (.thread t)) t n) :
    ∃ ticks s, Run (ClientStep c program) x ticks ⟨s, x.place, x.data⟩ ∧ (∀ k ∈ ticks, k = .irq 0) ∧
      running s = t ∧ threadState s t = .running := by
  induction n generalizing x with
  | zero => exact absurd hdue.pos (Nat.lt_irrefl 0)
  | succ n ih =>
      obtain ⟨y, hy, hready, hirq, hcoherent⟩ := h.irq 0
      have hstep : ClientStep c program x (.irq 0)
          ⟨{ x.machine with kernel := (resume (togglePreference (savedKernel x.machine.kernel 0)) y).1 }, x.place, x.data⟩ := by
        simp only [ClientStep, clientStep, moveStep, interrupt, hirq, Option.map_some]
      by_cases hyt : y = .thread t
      · subst y
        refine ⟨[.irq 0], _, .cons hstep (.nil _), fun k hk => List.mem_singleton.mp hk, ?_, ?_⟩
        · exact (resume_currentIs _ (.thread t)).1
        · change ((resume (togglePreference (savedKernel x.machine.kernel 0)) (.thread t)).1.threadTable t).state = _
          rw [resume_thread, if_pos rfl]
      · have hsaved : ((savedKernel x.machine.kernel 0).threadTable t).state = .ready :=
          h.settled.saved_ready ht hrunnable 0
        have hstays : Runnable (resume (togglePreference (savedKernel x.machine.kernel 0)) y).1 (.thread t) := by
          left
          rw [IsReady, resume_thread, if_neg hyt]
          exact hsaved
        rcases h.settled.irq_due ht hrunnable hdue hirq with hselected | hnearer
        · have hchosen := Option.some.inj (hirq.symm.trans (schedulerIrq_of_chosen ht hselected.2))
          have hsame := congrArg (fun r => onCpu r.1) hchosen
          rw [resume_onCpu, resume_onCpu] at hsame
          exact absurd (Option.some.inj hsame) hyt
        · obtain ⟨ticks, s, run, hirqs, hrunning⟩ := ih (x := ⟨{ x.machine with
            kernel := (resume (togglePreference (savedKernel x.machine.kernel 0)) y).1 }, x.place, x.data⟩)
            hcoherent hstays hnearer
          refine ⟨.irq 0 :: ticks, s, .cons hstep run, fun k hk => ?_, hrunning⟩
          rcases List.mem_cons.mp hk with rfl | hk
          · rfl
          · exact hirqs k hk

theorem remaining_irqs (hcost : Bounded program cost) (h : Sound c x) {ticks : List Tick}
    (run : Run (ClientStep c program) x ticks y) (hirqs : ∀ k ∈ ticks, k = .irq 0) (t : Nat) :
    remaining cost y t = remaining cost x t := by
  induction run with
  | nil => rfl
  | cons step _ ih =>
      obtain rfl := hirqs _ List.mem_cons_self
      rw [ih (h.step hcost step) (fun k hk => hirqs k (List.mem_cons_of_mem _ hk))]
      obtain ⟨⟨np, nt, l, hq⟩, hstanding⟩ := h
      exact (remaining_step hcost hq hstanding step).2.remaining_eq t

theorem run_keeps {I : Client D P → Prop}
    (hstep : ∀ x k y, I x → (∀ fn arg, k ≠ .create fn arg) → ClientStep c program x k y → I y) (h : I x)
    {ticks : List Tick} (run : Run (ClientStep c program) x ticks y) (hirqs : ∀ k ∈ ticks, k = .irq 0) : I y := by
  induction run with
  | nil => exact h
  | cons step _ ih =>
      obtain rfl := hirqs _ List.mem_cons_self
      exact ih (hstep _ _ _ h (fun _ _ hk => by cases hk) step) (fun k hk => hirqs k (List.mem_cons_of_mem _ hk))

/-- What all threads have left. -/
def outstanding (c : Config) (cost : Nat → P → Nat) (x : Client D P) : Nat :=
  ∑ t ∈ Finset.Icc 1 c.maxThreads, remaining cost x t

theorem Spends.outstanding_lt (h : Spends program cost x y) (hrun : running x.machine ∈ Finset.Icc 1 c.maxThreads) :
    outstanding c cost y < outstanding c cost x := by
  apply Finset.sum_lt_sum
  · intro t _
    by_cases ht : t = running x.machine
    · subst t
      exact Nat.le_of_succ_le h.own
    · exact (h.others ht).le
  · exact ⟨_, hrun, h.own⟩

/-- Programs that never leave every live thread blocked can be brought to their end, from
wherever they are. -/
theorem completes {I : Client D P → Prop} (hcost : Bounded program cost) (hsound : ∀ x, I x → Sound c x)
    (hstep : ∀ x k y, I x → (∀ fn arg, k ≠ .create fn arg) → ClientStep c program x k y → I y)
    (hlive : ∀ x, I x → (∃ t ∈ threads c x.machine, threadState x.machine t ≠ .terminated) →
      ∃ t ∈ threads c x.machine, Runnable x.machine.kernel (.thread t))
    (h : I x) : ∃ ticks y, Run (ClientStep c program) x ticks y ∧ I y ∧
      ∀ t ∈ threads c y.machine, threadState y.machine t = .terminated := by
  induction hn : outstanding c cost x using Nat.strong_induction_on generalizing x with
  | _ n ih =>
    subst hn
    by_cases hall : ∀ t ∈ threads c x.machine, threadState x.machine t = .terminated
    · exact ⟨[], x, .nil x, h, hall⟩
    · push Not at hall
      obtain ⟨t, ht, hrunnable⟩ := hlive x h hall
      obtain ⟨np, nt, l, hq⟩ := (hsound x h).1
      have hcreated : Created np nt (.thread t) := by
        rw [hq.threads] at ht
        exact Finset.mem_Icc.mp ht
      obtain ⟨n, hdue⟩ := thread_due hq.coherent.tables hcreated
      obtain ⟨ticks, s, run, hirqs, rfl, hstate⟩ :=
        dispatched program hq.coherent hcreated hrunnable hdue
      have hthere := run_keeps hstep h run hirqs
      have hleft := remaining_irqs hcost (hsound x h) run hirqs
      have hrun : running s ≠ 0 := Nat.ne_of_gt hcreated.1
      obtain ⟨y, step⟩ := statement_possible program (hsound _ hthere) hrun
        (by rw [hstate]; exact nofun)
      have hless : outstanding c cost y < outstanding c cost x := by
        obtain ⟨⟨np', nt', l', hq'⟩, hstanding⟩ := hsound _ hthere
        have hspends : Spends program cost _ y := (remaining_step hcost hq' hstanding step).2
        have hlt := hspends.outstanding_lt (hq'.running_slot_mem hrun)
        have hsame : outstanding c cost (⟨s, x.place, x.data⟩ : Client D P) = outstanding c cost x :=
          Finset.sum_congr rfl fun t _ => hleft t
        exact hsame ▸ hlt
      obtain ⟨later, z, run', hz, hall⟩ := ih _ hless (hstep _ _ _ hthere (fun _ _ hk => by cases hk) step) rfl
      exact ⟨ticks ++ .stmt 0 :: later, z, run.append (.cons step run'), hz, hall⟩

/-- The threads that there are come to their end. -/
theorem completes_threads {I : Client D P → Prop} (hcost : Bounded program cost) (hsound : ∀ x, I x → Sound c x)
    (hstep : ∀ x k y, I x → ClientStep c program x k y → I y)
    (hlive : ∀ x, I x → (∃ t ∈ threads c x.machine, threadState x.machine t ≠ .terminated) →
      ∃ t ∈ threads c x.machine, Runnable x.machine.kernel (.thread t))
    (h : I x) : ∃ ticks y, Run (ClientStep c program) x ticks y ∧ I y ∧ threads c y.machine = threads c x.machine ∧
      ∀ t ∈ threads c y.machine, threadState y.machine t = .terminated := by
  let J : Client D P → Prop := fun z => I z ∧ threads c z.machine = threads c x.machine
  have hkeeps : ∀ z k y, J z → (∀ fn arg, k ≠ .create fn arg) → ClientStep c program z k y → J y := by
    intro z k y hz hk step
    obtain ⟨⟨np, nt, l, hq⟩, hstanding⟩ := hsound z hz.1
    exact ⟨hstep z k y hz.1 step, (threads_step hcost hq hstanding hk step).trans hz.2⟩
  obtain ⟨ticks, y, run, hy, hall⟩ :=
    completes hcost (fun z hz => hsound z hz.1) hkeeps (fun z hz => hlive z hz.1) ⟨h, rfl⟩
  exact ⟨ticks, y, run, hy.1, hy.2, hall⟩

end Completion

end SengKernel.Sync
