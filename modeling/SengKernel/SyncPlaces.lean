import SengKernel.SyncRuns

/- Where a thread is inside a call: the object it works on and what it is about. -/
namespace SengKernel.Sync
open Sched

/-- The numbers of the records of the thread table. -/
def Slot (c : Config) (t : Nat) : Prop := 1 ≤ t ∧ t ≤ c.maxThreads

/-- The object of the call in progress. -/
def Pc.object : Pc → Option Object
  | .idle => none
  | .lockEntry m | .lockNull m _ | .lockTest m _ | .lockTake m _ | .lockOwn m _ | .lockOwned m _ =>
      some (.mutex m)
  | .waitEntry s | .waitNull s _ | .waitTest s _ | .waitTake s _ => some (.semaphore s)
  | .linkClear q _ | .linkTest q _ | .linkHead q _ | .linkNext q _ | .linkTail q _ => some q
  | .blockTest q _ | .block q _ | .yield q | .resumed q => some q
  | .unlockTest m | .unlockOwner m | .unlockEmpty m | .unlockFree m | .unlockDisown m => some (.mutex m)
  | .unlockGive m _ | .unlockRelock m _ => some (.mutex m)
  | .signalTest s | .signalInc s => some (.semaphore s)
  | .popNext q | .popHead q _ | .popTest q _ | .popTail q _ | .popClear q _ => some q
  | .wakeTest q _ | .wakeState q _ | .wake q _ => some q

inductive Role where
  | own | acquiring | asleep | releasing
  deriving DecidableEq, Repr

/-- A call of `mutex_lock` or `sem_wait` before and after its blocking, or a call of
`mutex_unlock` or `sem_signal`. -/
def Pc.role : Pc → Role
  | .idle => .own
  | .lockEntry _ | .lockNull _ _ | .lockTest _ _ | .lockTake _ _ | .lockOwn _ _ | .lockOwned _ _ => .acquiring
  | .waitEntry _ | .waitNull _ _ | .waitTest _ _ | .waitTake _ _ => .acquiring
  | .linkClear _ _ | .linkTest _ _ | .linkHead _ _ | .linkNext _ _ | .linkTail _ _ => .acquiring
  | .blockTest _ _ | .block _ _ => .acquiring
  | .yield _ | .resumed _ => .asleep
  | .unlockTest _ | .unlockOwner _ | .unlockEmpty _ | .unlockFree _ | .unlockDisown _ => .releasing
  | .unlockGive _ _ | .unlockRelock _ _ => .releasing
  | .signalTest _ | .signalInc _ => .releasing
  | .popNext _ | .popHead _ _ | .popTest _ _ | .popTail _ _ | .popClear _ _ => .releasing
  | .wakeTest _ _ | .wakeState _ _ | .wake _ _ => .releasing

def Op.object : Op → Object
  | .lock m | .unlock m => .mutex m
  | .wait s | .signal s => .semaphore s

theorem entry_object (op : Op) : (entry op).object = some op.object := by
  cases op <;> rfl

/-- A call stays with its object. -/
theorem exec_object {s : State} {t : Nat} (p : Pc) (hp : s.pc t = p) :
    ((exec s t p).pc t).object = none ∨ ((exec s t p).pc t).object = p.object := by
  cases p <;> simp only [exec, goto_pc_self, hp] <;> (try split) <;>
    first | exact Or.inr rfl | exact Or.inl rfl

/-- All calls in progress are on one of the given objects. -/
def Only (objects : Object → Prop) (s : State) : Prop :=
  ∀ t q, (s.pc t).object = some q → objects q

theorem Only.goto {objects : Object → Prop} {s : State} {t : Nat} {p : Pc} (h : Only objects s)
    (hp : ∀ q, p.object = some q → objects q) : Only objects (goto s t p) := by
  intro u q hq
  by_cases hut : u = t
  · subst u
    rw [goto_pc_self] at hq
    exact hp q hq
  · rw [goto_pc_of_ne _ _ hut] at hq
    exact h u q hq

theorem only_step {c : Config} {objects : Object → Prop} {s s' : State} {l : Label}
    (h : Only objects s) (hcalls : ∀ op, l = .call op → objects op.object) (hbase : ∃ np nt, Base c s np nt)
    (hstep : Step c s l s') : Only objects s' := by
  obtain ⟨np, nt, hbase⟩ := hbase
  rcases step_cases hstep with ⟨_, _, hirq⟩ | ⟨_, _, _, hcreate⟩ | ⟨op, hl, _, _, rfl⟩ |
    ⟨_, q, _, _, hp, hirq⟩ | ⟨_, _, _, _, _, rfl⟩
  · rw [(interrupt_spec hbase.coherent hirq).2.frame]
    exact h
  · obtain ⟨_, _, _, hspawn⟩ := create_spec hbase.coherent hcreate
    rw [hspawn.frame]
    exact h
  · refine h.goto (fun q hq => ?_)
    rw [entry_object, Option.some.injEq] at hq
    exact hq ▸ hcalls op hl
  · have hmid : Only objects (Sync.goto s (running s) (.resumed q)) :=
      h.goto (fun q' hq' => h (running s) q' (by rw [hp]; exact hq'))
    have hspec := (interrupt_spec (s := Sync.goto s (running s) (.resumed q)) hbase.coherent hirq).2
    rw [hspec.frame]
    exact hmid
  · intro u q hq
    by_cases hur : u = running s
    · subst u
      rcases exec_object (s.pc (running s)) rfl with hnone | hsame
      · rw [hnone] at hq
        cases hq
      · exact h (running s) q (hsame ▸ hq)
    · rw [exec_pc_of_ne _ _ hur] at hq
      exact h u q hq

/-- A statement changes the state of its own thread only, unless it wakes one. -/
theorem exec_threadState_of_ne {c : Config} {s : State} {np nt t u : Nat} (h : Base c s np nt) (hut : u ≠ t)
    (hwake : ∀ q next, s.pc t ≠ .wake q next) : threadState (exec s t (s.pc t)) u = threadState s u := by
  have hrec : threadState (exec s t (s.pc t)) u = ((exec s t (s.pc t)).kernel.threadTable u).state := rfl
  rw [hrec]
  rcases exec_kernel s t (s.pc t) with hk | ⟨v, w, hk⟩ | ⟨q, cur, hp, hk⟩ | ⟨q, next, hp, _⟩
  · rw [hk]
    rfl
  · rw [hk]
    exact setWaitNext_threadState s v w u
  · have hcur : cur = t := h.current t cur (by rw [hp]; rfl)
    rw [hk]
    have := setThreadState_threadState s cur u .blocked
    rw [if_neg (hcur ▸ hut)] at this
    exact this
  · exact (hwake q next hp).elim

end SengKernel.Sync
