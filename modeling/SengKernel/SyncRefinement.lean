import SengKernel.SyncOperations

/- The two machines of the mutexes and semaphores: the operations in one piece are what
   the statements compute when no interrupt comes between the first of them and the
   return or the yield of the call, and they compute nothing else. -/
namespace SengKernel.Sync
open Sched MachineWord Transition

/-- Outside the operations, or at the yield of a call that has blocked and behind it. -/
def Pc.rests : Pc → Bool
  | .idle | .yield _ | .resumed _ => true
  | _ => false

def AtRest (s : State) : Prop := running s = 0 ∨ (s.pc (running s)).rests = true

/-- The interrupt finds no operation halfway. -/
def Uninterrupted (s : State) (l : Label) : Prop := isIrq l = true → AtRest s

/-- Thread `t` goes on, without an interrupt, to where its call returns or yields. -/
inductive Completes (t : Nat) : State → State → Prop
  | done {s : State} (rest : (s.pc t).rests = true) : Completes t s s
  | more {s s' : State} {p : Pc} (at' : s.pc t = p) (moves : p.rests = false)
      (next : Completes t (exec s t p) s') : Completes t s s'

/-- The state in which the operation that is under way has come to its end. -/
def Finishes (s s' : State) : Prop := (running s = 0 ∧ s' = s) ∨ (running s ≠ 0 ∧ Completes (running s) s s')

/-- Calls come from threads, which do not exit. -/
def ByThreads (s : State) (mv : Move) : Prop := mv ≠ .exit ∧ ∀ op, mv = .call op → running s ≠ 0

/-- What both machines do in their own steps: the timer, the creations and the calls. -/
def Label.events : Label → List Move
  | .irq savedEsp => [.irq savedEsp]
  | .create fn arg => [.create fn arg]
  | .call op => [.call op]
  | .stmt _ => []

def Move.events : Move → List Move
  | .resume _ => []
  | mv => [mv]

section Statements

variable {s s' : State} {t : Nat} {p p' : Pc} {q : Object} {m i x : Nat}

@[simp] theorem goto_goto (s : State) (t : Nat) (p p' : Pc) : goto (goto s t p) t p' = goto s t p' := by
  unfold goto
  simp only [Function.update_idem]

theorem goto_self (h : s.pc t = p) : goto s t p = s := by
  unfold goto
  rw [← h, Function.update_eq_self]

/-- One statement of the call. -/
theorem Completes.next (s₂ : State) (p' : Pc) (hmoves : p.rests = false)
    (hexec : exec (goto s t p) t p = goto (goto s₂ t p) t p') (h : Completes t (goto s₂ t p') s') : Completes t (goto s t p) s' := by
  apply Completes.more (goto_pc_self s t p) hmoves
  rw [hexec, goto_goto]
  exact h

theorem completes_idle (h : (s.pc t).isIdle = true) : Completes t (goto s t .idle) s := by
  rw [goto_self (Pc.eq_idle h)]
  apply Completes.done
  rw [Pc.eq_idle h]
  rfl

/-- Joining the queue, up to the yield. -/
theorem suspend_completes (ht : t ≠ 0) : Completes t (goto s t (.linkClear q t)) (suspend s q t) := by
  have hblock : ∀ s₁ : State, enqueue s q t = s₁ → Completes t (goto s₁ t (.blockTest q t)) (suspend s q t) := by
    rintro _ rfl
    apply Completes.next (enqueue s q t) (.block q t) rfl
    · simp only [exec, goto_goto, if_neg ht]
    apply Completes.next (setThreadState (enqueue s q t) t .blocked) (.yield q) rfl
    · rfl
    rw [← blockThread_eq _ ht]
    apply Completes.done
    rw [goto_pc_self]
    rfl
  apply Completes.next (setWaitNext s t 0) (.linkTest q t) rfl
  · rfl
  by_cases hempty : s.waitHead q = 0
  · have henqueue : enqueue s q t = setTail (setHead (setWaitNext s t 0) q t) q t := if_pos hempty
    apply Completes.next (setWaitNext s t 0) (.linkHead q t) rfl
    · have hhead : (goto (setWaitNext s t 0) t (.linkTest q t)).waitHead q = 0 := hempty
      simp only [exec, goto_goto, hhead, if_true]
    apply Completes.next (setHead (setWaitNext s t 0) q t) (.linkTail q t) rfl
    · rfl
    apply Completes.next (setTail (setHead (setWaitNext s t 0) q t) q t) (.blockTest q t) rfl
    · rfl
    exact hblock _ henqueue
  · have henqueue : enqueue s q t = setTail (setWaitNext (setWaitNext s t 0) (s.waitTail q) t) q t := if_neg hempty
    apply Completes.next (setWaitNext s t 0) (.linkNext q t) rfl
    · have hhead : (goto (setWaitNext s t 0) t (.linkTest q t)).waitHead q ≠ 0 := hempty
      simp only [exec, goto_goto, if_neg hhead]
    apply Completes.next (setWaitNext (setWaitNext s t 0) (s.waitTail q) t) (.linkTail q t) rfl
    · rfl
    apply Completes.next (setTail (setWaitNext (setWaitNext s t 0) (s.waitTail q) t) q t)
      (.blockTest q t) rfl
    · rfl
    exact hblock _ henqueue

/-- Where the removal of the first waiter leads. -/
def afterPop : Object → Nat → Pc
  | .mutex m, next => .unlockGive m next
  | .semaphore i, next => .wakeTest (.semaphore i) next

theorem dequeue_completes (hx : s.waitHead q = x) (h : Completes t (goto (dequeue s q) t (afterPop q x)) s') :
    Completes t (goto s t (.popNext q)) s' := by
  subst hx
  have hclear : ∀ s₁ : State, setWaitNext s₁ (s.waitHead q) 0 = dequeue s q →
      Completes t (goto s₁ t (.popClear q (s.waitHead q))) s' := by
    intro s₁ hs₁
    apply Completes.next (dequeue s q) (afterPop q (s.waitHead q)) rfl
    · rw [← hs₁]
      cases q <;> rfl
    exact h
  let popped := setHead s q (waitNext s (s.waitHead q))
  apply Completes.next s (.popHead q (s.waitHead q)) rfl
  · rfl
  apply Completes.next popped (.popTest q (s.waitHead q)) rfl
  · rfl
  by_cases hlast : popped.waitHead q = 0
  · apply Completes.next popped (.popTail q (s.waitHead q)) rfl
    · have hhead : (goto popped t (.popTest q (s.waitHead q))).waitHead q = 0 := hlast
      simp only [exec, goto_goto, hhead, if_true]
    apply Completes.next (setTail popped q 0) (.popClear q (s.waitHead q)) rfl
    · rfl
    apply hclear
    unfold dequeue
    dsimp only
    rw [if_pos hlast]
  · apply Completes.next popped (.popClear q (s.waitHead q)) rfl
    · have hhead : (goto popped t (.popTest q (s.waitHead q))).waitHead q ≠ 0 := hlast
      simp only [exec, goto_goto, if_neg hhead]
    apply hclear
    unfold dequeue
    dsimp only
    rw [if_neg hlast]

theorem wake_completes (hx : x ≠ 0) (hidle : (s.pc t).isIdle = true) :
    Completes t (goto s t (.wakeTest q x)) (unblockThread s x) := by
  apply Completes.next s (.wakeState q x) rfl
  · simp only [exec, goto_goto, if_neg hx]
  by_cases hblocked : threadState s x = .blocked
  · apply Completes.next s (.wake q x) rfl
    · have hstate : threadState (goto s t (.wakeState q x)) x = .blocked := hblocked
      simp only [exec, goto_goto, if_pos hstate]
    apply Completes.next (setThreadState s x .ready) .idle rfl
    · rfl
    rw [← unblockThread_eq s hx hblocked]
    apply completes_idle
    rw [unblockThread_eq s hx hblocked]
    exact hidle
  · apply Completes.next s .idle rfl
    · have hstate : threadState (goto s t (.wakeState q x)) x ≠ .blocked := hblocked
      simp only [exec, goto_goto, if_neg hstate]
    have hsame : unblockThread s x = s := by
      have hrecord : ¬ (s.kernel.threadTable x).state = .blocked := hblocked
      rw [unblockThread, schedulerUnblockThread, if_neg hx, if_neg hrecord]
    rw [hsame]
    exact completes_idle hidle

/-- A call in progress leaves the CPU and the other threads' places alone, and comes to rest. -/
theorem Completes.frame (h : Completes t s s') :
    running s' = running s ∧ (s'.pc t).rests = true ∧ ∀ u, u ≠ t → s'.pc u = s.pc u := by
  induction h with
  | done rest => exact ⟨rfl, rest, fun _ _ => rfl⟩
  | more at' moves next ih =>
      obtain ⟨hrunning, hrests, hothers⟩ := ih
      refine ⟨hrunning.trans (exec_running _ _ _), hrests, fun u hu => ?_⟩
      exact (hothers u hu).trans (exec_pc_of_ne _ _ hu)

theorem Completes.eq_of_rests (h : Completes t s s') (hrest : (s.pc t).rests = true) : s' = s := by
  cases h with
  | done => rfl
  | more at' moves next =>
      rw [at', moves] at hrest
      cases hrest

theorem Completes.of_moves (h : Completes t s s') (hmoves : (s.pc t).rests = false) :
    Completes t (exec s t (s.pc t)) s' := by
  cases h with
  | done rest =>
      rw [rest] at hmoves
      cases hmoves
  | more at' moves next =>
      subst at'
      exact next

end Statements

section Calls

variable {s s' : State} {m i : Nat}

theorem lock_completes (hrun : running s ≠ 0) (hidle : (s.pc (running s)).isIdle = true)
    (h : Performed s (.lock m) s') : Completes (running s) (goto s (running s) (.lockEntry m)) s' := by
  apply Completes.next s (.lockNull m (running s)) rfl
  · rfl
  apply Completes.next s (.lockTest m (running s)) rfl
  · simp only [exec, goto_goto, if_neg hrun]
  have hheld : s.locked m = true → Completes (running s) (goto s (running s) (.lockOwned m (running s))) s' →
      Completes (running s) (goto s (running s) (.lockTest m (running s))) s' := by
    intro locked h
    apply Completes.next s (.lockOwned m (running s)) rfl
    · have hlocked : (goto s (running s) (.lockTest m (running s))).locked m = true := locked
      simp only [exec, goto_goto, if_pos hlocked]
    exact h
  cases h with
  | lockNobody nobody => exact absurd nobody hrun
  | acquire _ unlocked =>
      apply Completes.next s (.lockTake m (running s)) rfl
      · have hfree : (goto s (running s) (.lockTest m (running s))).locked m = false := unlocked
        simp only [exec, goto_goto, hfree, Bool.false_eq_true, if_false]
      apply Completes.next (setLocked s m true) (.lockOwn m (running s)) rfl
      · rfl
      apply Completes.next (setOwner (setLocked s m true) m (running s)) .idle rfl
      · rfl
      exact completes_idle hidle
  | relock _ locked own =>
      apply hheld locked
      apply Completes.next s .idle rfl
      · have howner : (goto s (running s) (.lockOwned m (running s))).owner m = running s := own
        simp only [exec, goto_goto, if_pos howner]
      exact completes_idle hidle
  | lockBlock _ locked own =>
      apply hheld locked
      apply Completes.next s (.linkClear (.mutex m) (running s)) rfl
      · have howner : (goto s (running s) (.lockOwned m (running s))).owner m ≠ running s := own
        simp only [exec, goto_goto, if_neg howner]
      exact suspend_completes hrun

theorem unlock_completes (hidle : (s.pc (running s)).isIdle = true) (h : Performed s (.unlock m) s') :
    Completes (running s) (goto s (running s) (.unlockTest m)) s' := by
  have hheld : s.locked m = true → Completes (running s) (goto s (running s) (.unlockOwner m)) s' →
      Completes (running s) (goto s (running s) (.unlockTest m)) s' := by
    intro locked h
    apply Completes.next s (.unlockOwner m) rfl
    · have hlocked : (goto s (running s) (.unlockTest m)).locked m = true := locked
      simp only [exec, goto_goto, if_pos hlocked]
    exact h
  have howned : s.owner m = running s → Completes (running s) (goto s (running s) (.unlockEmpty m)) s' →
      Completes (running s) (goto s (running s) (.unlockOwner m)) s' := by
    intro own h
    apply Completes.next s (.unlockEmpty m) rfl
    · have howner : ¬ (goto s (running s) (.unlockOwner m)).owner m ≠
          (goto s (running s) (.unlockOwner m)).kernel.currentThread := not_not.mpr own
      simp only [exec, goto_goto, if_neg howner]
    exact h
  cases h with
  | unlockFree unlocked =>
      apply Completes.next s .idle rfl
      · have hfree : (goto s (running s) (.unlockTest m)).locked m = false := unlocked
        simp only [exec, goto_goto, hfree, Bool.false_eq_true, if_false]
      exact completes_idle hidle
  | unlockOther locked own =>
      apply hheld locked
      apply Completes.next s .idle rfl
      · have howner : (goto s (running s) (.unlockOwner m)).owner m ≠
            (goto s (running s) (.unlockOwner m)).kernel.currentThread := own
        simp only [exec, goto_goto, if_pos howner]
      exact completes_idle hidle
  | release locked own empty =>
      apply hheld locked
      apply howned own
      apply Completes.next s (.unlockFree m) rfl
      · have hhead : (goto s (running s) (.unlockEmpty m)).waitHead (.mutex m) = 0 := empty
        simp only [exec, goto_goto, if_pos hhead]
      apply Completes.next (setLocked s m false) (.unlockDisown m) rfl
      · rfl
      apply Completes.next (setOwner (setLocked s m false) m 0) .idle rfl
      · rfl
      exact completes_idle hidle
  | handOver locked own waiter =>
      apply hheld locked
      apply howned own
      apply Completes.next s (.popNext (.mutex m)) rfl
      · have hhead : (goto s (running s) (.unlockEmpty m)).waitHead (.mutex m) ≠ 0 := waiter
        simp only [exec, goto_goto, if_neg hhead]
      apply dequeue_completes rfl
      let given := setOwner (dequeue s (.mutex m)) m (s.waitHead (.mutex m))
      apply Completes.next given (.unlockRelock m (s.waitHead (.mutex m))) rfl
      · rfl
      apply Completes.next (setLocked given m true) (.wakeTest (.mutex m) (s.waitHead (.mutex m))) rfl
      · rfl
      apply wake_completes waiter
      have hpc : (setLocked given m true).pc = s.pc := by
        change (dequeue s (.mutex m)).pc = s.pc
        rw [dequeue_frame]
      rw [hpc]
      exact hidle

theorem wait_completes (hrun : running s ≠ 0) (hidle : (s.pc (running s)).isIdle = true)
    (h : Performed s (.wait i) s') : Completes (running s) (goto s (running s) (.waitEntry i)) s' := by
  apply Completes.next s (.waitNull i (running s)) rfl
  · rfl
  apply Completes.next s (.waitTest i (running s)) rfl
  · simp only [exec, goto_goto, if_neg hrun]
  cases h with
  | waitNobody nobody => exact absurd nobody hrun
  | take _ available =>
      apply Completes.next s (.waitTake i (running s)) rfl
      · have hvalue : (goto s (running s) (.waitTest i (running s))).value i > 0 := available
        simp only [exec, goto_goto, if_pos hvalue]
      apply Completes.next (setValue s i (wrap32 (s.value i - 1))) .idle rfl
      · rfl
      exact completes_idle hidle
  | waitBlock _ none =>
      apply Completes.next s (.linkClear (.semaphore i) (running s)) rfl
      · have hvalue : ¬ (goto s (running s) (.waitTest i (running s))).value i > 0 := none
        simp only [exec, goto_goto, if_neg hvalue]
      exact suspend_completes hrun

theorem signal_completes (hidle : (s.pc (running s)).isIdle = true) (h : Performed s (.signal i) s') :
    Completes (running s) (goto s (running s) (.signalTest i)) s' := by
  cases h with
  | pass waiter =>
      apply Completes.next s (.popNext (.semaphore i)) rfl
      · have hhead : (goto s (running s) (.signalTest i)).waitHead (.semaphore i) ≠ 0 := waiter
        simp only [exec, goto_goto, if_pos hhead]
      apply dequeue_completes rfl
      apply wake_completes waiter
      rw [dequeue_frame]
      exact hidle
  | bank empty =>
      apply Completes.next s (.signalInc i) rfl
      · have hhead : ¬ (goto s (running s) (.signalTest i)).waitHead (.semaphore i) ≠ 0 := not_not.mpr empty
        simp only [exec, goto_goto, if_neg hhead]
      apply Completes.next (setValue s i (wrap32 (s.value i + 1))) .idle rfl
      · rfl
      exact completes_idle hidle

/-- The statements of a call compute what the operation does in one piece. -/
theorem call_completes {op : Op} (hrun : running s ≠ 0) (hidle : (s.pc (running s)).isIdle = true)
    (h : Performed s op s') : Completes (running s) (goto s (running s) (entry op)) s' := by
  cases op with
  | lock m => exact lock_completes hrun hidle h
  | unlock m => exact unlock_completes hidle h
  | wait i => exact wait_completes hrun hidle h
  | signal i => exact signal_completes hidle h

end Calls

/-- Every thread stands at rest. -/
def Rested (s : State) : Prop := ∀ u, (s.pc u).rests = true

/-- The statement machine, and where the operation that is under way in it will end. -/
structure Tracks (c : Config) (s s' : State) : Prop where
  finishes : Finishes s s'
  others : ∀ u, u ≠ running s → (s.pc u).rests = true
  base : ∃ np nt, Base c s np nt
  alive : ∀ t, Slot c t → threadState s t ≠ .terminated

section Steps

variable {c : Config} {s s' s₁ : State} {np nt : Nat}

theorem Rested.atRest (h : Rested s) : AtRest s := Or.inr (h _)

theorem Rested.goto (h : Rested s) {t : Nat} {p : Pc} (hp : p.rests = true) : Rested (goto s t p) := by
  intro u
  by_cases hu : u = t
  · subst hu
    rw [goto_pc_self]
    exact hp
  · rw [goto_pc_of_ne _ _ hu]
    exact h u

theorem finishes_self (h : AtRest s) : Finishes s s := by
  by_cases hrun : running s = 0
  · exact Or.inl ⟨hrun, rfl⟩
  · exact Or.inr ⟨hrun, .done (h.resolve_left hrun)⟩

theorem Finishes.eq_of_atRest (h : Finishes s s') (hrest : AtRest s) : s' = s := by
  rcases h with ⟨_, hsame⟩ | ⟨hrun, hcall⟩
  · exact hsame
  · exact hcall.eq_of_rests (hrest.resolve_left hrun)

theorem interrupt_pc {savedEsp : Nat} (h : interrupt c s savedEsp = some s') : s'.pc = s.pc := by
  obtain ⟨r, _, rfl⟩ := Option.map_eq_some_iff.mp h
  rfl

theorem create_pc {fn arg : Nat} (h : (threadCreate c s.kernel fn arg).map (fun r => { s with kernel := r.1 }) = some s') :
    s'.pc = s.pc := by
  obtain ⟨r, _, rfl⟩ := Option.map_eq_some_iff.mp h
  rfl

theorem create_free {fn arg : Nat} (h : Step c s (.create fn arg) s') :
    running s = 0 ∨ (s.pc (running s)).isIdle = true := by
  unfold Step step at h
  dsimp only at h
  split at h
  · assumption
  · cases h

theorem create_alive {fn arg : Nat} (h : Coherent c s.kernel np nt)
    (hcreate : (threadCreate c s.kernel fn arg).map (fun r => { s with kernel := r.1 }) = some s')
    (halive : ∀ t, Slot c t → threadState s t ≠ .terminated) : ∀ t, Slot c t → threadState s' t ≠ .terminated := by
  by_cases hslot : fn ≠ 0 ∧ nt < c.maxThreads
  · obtain ⟨k', hk, _, hready, _, _, _, hold, _⟩ := h.tables.threadCreate_spec hslot.2 hslot.1 arg
    rw [hk, Option.map_some, Option.some.injEq] at hcreate
    subst s'
    intro t ht
    by_cases hnew : t = nt + 1
    · subst hnew
      rw [threadState, hready]
      decide
    · rw [threadState, hold t hnew]
      exact halive t ht
  · have hno : fn = 0 ∨ ¬ nt < c.maxThreads := by tauto
    rw [h.tables.threadCreate_refused hno arg, Option.map_some, Option.some.injEq] at hcreate
    subst s'
    exact halive

/-- No statement makes a thread TERMINATED. -/
theorem exec_alive {t u : Nat} {p : Pc} (h : threadState s u ≠ .terminated) :
    threadState (exec s t p) u ≠ .terminated := by
  have hrecord : threadState (exec s t p) u = ((exec s t p).kernel.threadTable u).state := rfl
  rw [hrecord]
  rcases exec_kernel s t p with hk | ⟨v, w, hk⟩ | ⟨_, v, _, hk⟩ | ⟨_, v, _, hk⟩
  · rw [hk]
    exact h
  · rw [hk]
    exact fun hterminated => h ((setWaitNext_threadState s v w u).symm.trans hterminated)
  · rw [hk]
    intro hterminated
    have hset := (setThreadState_threadState s v u .blocked).symm.trans hterminated
    split at hset
    · cases hset
    · exact h hset
  · rw [hk]
    intro hterminated
    have hset := (setThreadState_threadState s v u .ready).symm.trans hterminated
    split at hset
    · cases hset
    · exact h hset

theorem step_stmt (hrun : running s ≠ 0) (hidle : (s.pc (running s)).isIdle = false)
    (hyield : ∀ q, s.pc (running s) ≠ .yield q) (savedEsp : Nat) :
    Step c s (.stmt savedEsp) (exec s (running s) (s.pc (running s))) := by
  unfold Step step
  dsimp only
  rw [if_neg hrun]
  split
  · rename_i hp
    rw [hp] at hidle
    cases hidle
  · rename_i q hp
    exact (hyield q hp).elim
  · rfl

/-- The statements of a call in progress, as a run. -/
theorem Completes.run {t : Nat} (h : Completes t s s') (ht : running s = t) (hrun : t ≠ 0) :
    ∃ labels, Run (When Uninterrupted (Step c)) s labels s' ∧ labels.flatMap Label.events = [] := by
  induction h with
  | done => exact ⟨[], .nil _, rfl⟩
  | @more s s' p at' moves next ih =>
      subst ht
      obtain ⟨labels, run, hevents⟩ := ih (exec_running s _ p)
      have hidle : (s.pc (running s)).isIdle = false := by
        rw [at']
        cases p <;> first | rfl | cases moves
      have hyield : ∀ q, s.pc (running s) ≠ .yield q := by
        intro q hq
        rw [← at', hq] at moves
        cases moves
      have hstep := step_stmt (c := c) hrun hidle hyield 0
      rw [at'] at hstep
      exact ⟨.stmt 0 :: labels, .cons ⟨fun hirq => absurd hirq Bool.false_ne_true, hstep⟩ run, hevents⟩

theorem Rested.tracks (h : Rested s) (base : ∃ np nt, Base c s np nt)
    (alive : ∀ t, Slot c t → threadState s t ≠ .terminated) : Tracks c s s :=
  ⟨finishes_self h.atRest, fun u _ => h u, base, alive⟩

/-- With the thread that runs at rest, all are. -/
theorem Tracks.rested (h : Tracks c s s₁) (hrest : AtRest s) : Rested s := by
  intro u
  by_cases hu : u = running s
  · rcases hrest with hnobody | hrest
    · obtain ⟨np, nt, hbase⟩ := h.base
      by_contra hmoves
      have hbusy : (s.pc u).isIdle = false := by
        cases hp : s.pc u <;> first | rfl | exact (hmoves (by rw [hp]; rfl)).elim
      have := (hbase.created u hbusy).1
      omega
    · rw [hu]
      exact hrest
  · exact h.others u hu

theorem Tracks.free (h : Tracks c s s₁) (hfree : running s = 0 ∨ (s.pc (running s)).isIdle = true) : Free s := by
  rcases hfree with hnobody | hidle
  · exact Or.inl hnobody
  · by_cases hrun : running s = 0
    · exact Or.inl hrun
    · obtain ⟨np, nt, hbase⟩ := h.base
      have hslot : Slot c (running s) :=
        ⟨Nat.pos_of_ne_zero hrun, hbase.coherent.tables.runningThread.trans hbase.coherent.tables.threadCount⟩
      exact Or.inr ⟨hidle, h.alive _ hslot⟩

theorem interrupt_tracks {savedEsp : Nat} (h : Coherent c s.kernel np nt) (hrested : Rested s)
    (halive : ∀ t, Slot c t → threadState s t ≠ .terminated) (hbase : ∃ np nt, Base c s' np nt)
    (hirq : interrupt c s savedEsp = some s') : Tracks c s' s' := by
  have hrested' : Rested s' := fun u => by rw [interrupt_pc hirq]; exact hrested u
  apply hrested'.tracks hbase
  intro t ht hterminated
  exact halive t ht (((interrupt_spec h hirq).2.parked t .terminated (by decide) (by decide)).mp hterminated)

theorem Tracks.irq {savedEsp : Nat} (h : Tracks c s s₁) (hbase : ∃ np nt, Base c s' np nt) (hrest : AtRest s)
    (hirq : interrupt c s savedEsp = some s') : MoveStep c s₁ (.irq savedEsp) s' ∧ Tracks c s' s' := by
  obtain ⟨np, nt, hstart⟩ := h.base
  obtain rfl := h.finishes.eq_of_atRest hrest
  exact ⟨hirq, interrupt_tracks hstart.coherent (h.rested hrest) h.alive hbase hirq⟩

theorem Tracks.create {fn arg : Nat} (h : Tracks c s s₁) (hbase : ∃ np nt, Base c s' np nt)
    (hfree : running s = 0 ∨ (s.pc (running s)).isIdle = true)
    (hcreate : (threadCreate c s.kernel fn arg).map (fun r => { s with kernel := r.1 }) = some s') :
    MoveStep c s₁ (.create fn arg) s' ∧ Tracks c s' s' := by
  have hrest : AtRest s := hfree.imp_right (fun hidle => by rw [Pc.eq_idle hidle]; rfl)
  have hrested : Rested s' := fun u => by rw [create_pc hcreate]; exact h.rested hrest u
  obtain ⟨np, nt, hstart⟩ := h.base
  have halive := create_alive hstart.coherent hcreate h.alive
  obtain rfl := h.finishes.eq_of_atRest hrest
  exact ⟨(if_pos (h.free hfree)).trans hcreate, hrested.tracks hbase halive⟩

/-- The move comes with the call, when the statements of the operation are still to come. -/
theorem Tracks.call {op : Op} (h : Tracks c s s₁) (hbase : ∃ np nt, Base c (goto s (running s) (entry op)) np nt)
    (hrun : running s ≠ 0) (hidle : (s.pc (running s)).isIdle = true) :
    MoveStep c s₁ (.call op) (perform s op) ∧ Tracks c (goto s (running s) (entry op)) (perform s op) := by
  have hrest : AtRest s := Or.inr (by rw [Pc.eq_idle hidle]; rfl)
  obtain rfl := h.finishes.eq_of_atRest hrest
  have hothers : ∀ u, u ≠ running s₁ → ((goto s₁ (running s₁) (entry op)).pc u).rests = true := by
    intro u hu
    rw [goto_pc_of_ne _ _ hu]
    exact h.others u hu
  have hcall := call_completes hrun hidle (performed s₁ op)
  exact ⟨if_pos (h.free (Or.inr hidle)), Or.inr ⟨hrun, hcall⟩, hothers, hbase, h.alive⟩

theorem Tracks.yields {savedEsp : Nat} {q : Object} (h : Tracks c s s₁) (hbase : ∃ np nt, Base c s' np nt)
    (hrun : running s ≠ 0) (hp : s.pc (running s) = .yield q)
    (hirq : interrupt c (goto s (running s) (.resumed q)) savedEsp = some s') :
    MoveStep c s₁ (.resume savedEsp) s' ∧ Tracks c s' s' := by
  have hrest : AtRest s := Or.inr (by rw [hp]; rfl)
  obtain ⟨np, nt, hstart⟩ := h.base
  obtain rfl := h.finishes.eq_of_atRest hrest
  constructor
  · unfold MoveStep moveStep
    dsimp only
    rw [if_neg hrun, hp]
    exact hirq
  · have hrested : Rested (goto s₁ (running s₁) (.resumed q)) := (h.rested hrest).goto rfl
    have hcoherent : Coherent c (goto s₁ (running s₁) (.resumed q)).kernel np nt := hstart.coherent
    exact interrupt_tracks hcoherent hrested h.alive hbase hirq

/-- A statement inside an operation leaves the other machine where it is; behind the yield
it is the return from the call. -/
theorem Tracks.stmt (h : Tracks c s s₁) (hbase : ∃ np nt, Base c (exec s (running s) (s.pc (running s))) np nt)
    (hrun : running s ≠ 0) (hidle : (s.pc (running s)).isIdle = false) (hyield : ∀ q, s.pc (running s) ≠ .yield q)
    (savedEsp : Nat) : ∃ s₂, (s₂ = s₁ ∨ MoveStep c s₁ (.resume savedEsp) s₂) ∧
      Tracks c (exec s (running s) (s.pc (running s))) s₂ := by
  have hrunning := exec_running s (running s) (s.pc (running s))
  have hothers : ∀ u, u ≠ running (exec s (running s) (s.pc (running s))) →
      ((exec s (running s) (s.pc (running s))).pc u).rests = true := by
    intro u hu
    rw [hrunning] at hu
    rw [exec_pc_of_ne _ _ hu]
    exact h.others u hu
  have halive : ∀ t, Slot c t → threadState (exec s (running s) (s.pc (running s))) t ≠ .terminated :=
    fun t ht => exec_alive (h.alive t ht)
  by_cases hmoves : (s.pc (running s)).rests = false
  · refine ⟨s₁, Or.inl rfl, Or.inr ?_, hothers, hbase, halive⟩
    rcases h.finishes with ⟨hnobody, _⟩ | ⟨_, hcall⟩
    · exact absurd hnobody hrun
    · rw [hrunning]
      exact ⟨hrun, hcall.of_moves hmoves⟩
  · have hrest := (Bool.not_eq_false _).mp hmoves
    obtain rfl := h.finishes.eq_of_atRest (Or.inr hrest)
    obtain ⟨q, hp⟩ : ∃ q, s₁.pc (running s₁) = .resumed q := by
      cases hp : s₁.pc (running s₁) with
      | idle => rw [hp] at hidle; cases hidle
      | yield q => exact (hyield q hp).elim
      | resumed q => exact ⟨q, rfl⟩
      | _ => rw [hp] at hrest; cases hrest
    refine ⟨_, Or.inr ?_, finishes_self (Or.inr ?_), hothers, hbase, halive⟩
    · unfold MoveStep moveStep
      dsimp only
      rw [if_neg hrun, hp]
      rfl
    · rw [hrunning, hp]
      change ((goto s₁ (running s₁) .idle).pc (running s₁)).rests = true
      rw [goto_pc_self]
      rfl

/-- One step of the statement machine: a move of the other one, or none. -/
theorem Tracks.step {l : Label} (h : Tracks c s s₁) (hok : Uninterrupted s l) (hstep : Step c s l s') :
    ∃ moves s₂, Run (MoveStep c) s₁ moves s₂ ∧ moves.flatMap Move.events = l.events ∧ Tracks c s' s₂ := by
  have hbase := base_step h.base hstep
  rcases step_cases hstep with ⟨savedEsp, rfl, hirq⟩ | ⟨fn, arg, rfl, hcreate⟩ | ⟨op, rfl, hrun, hidle, rfl⟩ |
    ⟨savedEsp, q, rfl, hrun, hp, hirq⟩ | ⟨savedEsp, rfl, hrun, hidle, hyield, rfl⟩
  · obtain ⟨hmove, htracks⟩ := h.irq hbase (hok rfl) hirq
    exact ⟨[.irq savedEsp], s', .cons hmove (.nil _), rfl, htracks⟩
  · obtain ⟨hmove, htracks⟩ := h.create hbase (create_free hstep) hcreate
    exact ⟨[.create fn arg], s', .cons hmove (.nil _), rfl, htracks⟩
  · obtain ⟨hmove, htracks⟩ := h.call hbase hrun hidle
    exact ⟨[.call op], perform s op, .cons hmove (.nil _), rfl, htracks⟩
  · obtain ⟨hmove, htracks⟩ := h.yields hbase hrun hp hirq
    exact ⟨[.resume savedEsp], s', .cons hmove (.nil _), rfl, htracks⟩
  · obtain ⟨s₂, rfl | hmove, htracks⟩ := h.stmt hbase hrun hidle hyield savedEsp
    · exact ⟨[], s₂, .nil _, rfl, htracks⟩
    · exact ⟨[.resume savedEsp], s₂, .cons hmove (.nil _), rfl, htracks⟩

end Steps

section Moves

variable {c : Config} {s s' : State}

/-- One move, as statements without an interrupt. -/
theorem Rested.move {mv : Move} (h : Rested s) (hok : ByThreads s mv) (hstep : MoveStep c s mv s') :
    ∃ labels, Run (When Uninterrupted (Step c)) s labels s' ∧ labels.flatMap Label.events = mv.events ∧ Rested s' := by
  have hone : ∀ {l : Label}, Step c s l s' → Run (When Uninterrupted (Step c)) s [l] s' :=
    fun step => .cons ⟨fun _ => h.atRest, step⟩ (.nil _)
  cases moved hstep with
  | @irq savedEsp _ step =>
      refine ⟨[.irq savedEsp], hone step, rfl, fun u => ?_⟩
      rw [interrupt_pc step]
      exact h u
  | @create fn arg _ free step =>
      have hfree : running s = 0 ∨ (s.pc (running s)).isIdle = true := free.imp_right And.left
      refine ⟨[.create fn arg], hone ((if_pos hfree).trans step), rfl, fun u => ?_⟩
      rw [create_pc step]
      exact h u
  | exit => exact absurd rfl hok.1
  | @call op _ free step =>
      have hrun := hok.2 op rfl
      have hidle := (free.resolve_left hrun).1
      have hcall := call_completes hrun hidle step
      obtain ⟨labels, run, hevents⟩ := hcall.run (c := c) rfl hrun
      have hstart : Step c s (.call op) (Sync.goto s (running s) (entry op)) := if_pos ⟨hrun, hidle⟩
      refine ⟨.call op :: labels, .cons ⟨fun _ => h.atRest, hstart⟩ run, ?_, fun u => ?_⟩
      · rw [List.flatMap_cons, hevents]
        rfl
      · obtain ⟨_, hrests, hothers⟩ := hcall.frame
        by_cases hu : u = running s
        · rw [hu]
          exact hrests
        · rw [hothers u hu, goto_pc_of_ne _ _ hu]
          exact h u
  | @yield savedEsp q _ somebody at' step =>
      refine ⟨[.stmt savedEsp], hone ?_, rfl, fun u => ?_⟩
      · unfold Step Sync.step
        dsimp only
        rw [if_neg somebody, at']
        exact step
      · rw [interrupt_pc step]
        exact h.goto rfl u
  | @returned savedEsp q somebody at' =>
      have hidle : (s.pc (running s)).isIdle = false := by
        rw [at']
        rfl
      have hyield : ∀ q, s.pc (running s) ≠ .yield q := by
        intro q' hq
        rw [at'] at hq
        cases hq
      have hreturn := step_stmt (c := c) somebody hidle hyield savedEsp
      rw [at'] at hreturn
      exact ⟨[.stmt savedEsp], hone hreturn, rfl, h.goto rfl⟩

end Moves

/-- What the two machines have in common, from one state on. An operation that is under
way in the statement machine is already complete in the other. -/
structure SameBehaviour (c : Config) (s : State) : Prop where
  moves : ∀ labels t, Run (When Uninterrupted (Step c)) s labels t → ∃ moves t', Run (MoveStep c) s moves t' ∧
    moves.flatMap Move.events = labels.flatMap Label.events ∧ Finishes t t' ∧ ∃ np nt l, Queues c t' np nt l
  statements : ∀ moves t, Run (When ByThreads (MoveStep c)) s moves t → ∃ labels,
    Run (When Uninterrupted (Step c)) s labels t ∧ labels.flatMap Label.events = moves.flatMap Move.events

theorem Initial.tracks {c : Config} {count : Nat → Int} {s : State} (h : Initial c count s) : Rested s ∧ Tracks c s s := by
  have hrested : Rested s := by
    intro u
    rw [h.pc]
    rfl
  refine ⟨hrested, hrested.tracks ⟨3, 0, h.base⟩ (fun t ht => ?_)⟩
  have hunused : threadState s t = .unused := h.base.coherent.tables.freeThread t ht.1 ht.2
  rw [hunused]
  decide

/-- As long as interrupts come between the operations and not inside them, the statements
do what the operations in one piece do, with the same calls in the same order. -/
theorem operations_refined {c : Config} {count : Nat → Int} {s : State} (initial : Initial c count s) :
    SameBehaviour c s := by
  obtain ⟨hrested, htracks⟩ := initial.tracks
  constructor
  · intro labels t run
    obtain ⟨moves, t', run', hevents, h⟩ := run.simulation_runs (R := Tracks c) Label.events Move.events
      (fun _ _ _ _ h step => h.step step.1 step.2) htracks
    exact ⟨moves, t', run', hevents, h.finishes, run_queues initial run'⟩
  · intro moves t run
    obtain ⟨labels, t', run', hevents, rfl, _⟩ := run.simulation_runs (R := fun u v => u = v ∧ Rested v)
      Move.events Label.events (fun u mv v w h step => by
        obtain ⟨rfl, hu⟩ := h
        obtain ⟨labels, run, hevents, hv⟩ := hu.move step.1 step.2
        exact ⟨labels, v, run, hevents, rfl, hv⟩) ⟨rfl, hrested⟩
    exact ⟨labels, run', hevents⟩

theorem operations_refined_sample : SameBehaviour sampleConfig (sampleState 0) :=
  operations_refined (sampleState_initial 0)

end SengKernel.Sync
