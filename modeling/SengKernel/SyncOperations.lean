import SengKernel.SyncPlaces
import SengKernel.ChainBasics

/- kernel/mutex.c and kernel/semaphore.c with every operation in one piece: up to
   its return, or up to the yield of a call that blocks. Interrupts, creations and
   exits come between the operations, and before a yield. -/
namespace SengKernel.Sync
open Sched MachineWord Transition LinkedRing LinkedChain

/-- The insertion at the tail that `mutex_lock` and `sem_wait` share. -/
def enqueue (s : State) (q : Object) (current : Nat) : State :=
  let s := setWaitNext s current 0
  if s.waitHead q = 0 then setTail (setHead s q current) q current
  else setTail (setWaitNext s (s.waitTail q) current) q current

/-- The removal of the first waiter that `mutex_unlock` and `sem_signal` share. -/
def dequeue (s : State) (q : Object) : State :=
  let next := s.waitHead q
  let s := setHead s q (waitNext s next)
  let s := if s.waitHead q = 0 then setTail s q 0 else s
  setWaitNext s next 0

def blockThread (s : State) (t : Nat) : State := { s with kernel := schedulerBlockThread s.kernel t }

def unblockThread (s : State) (t : Nat) : State := { s with kernel := schedulerUnblockThread s.kernel t }

/-- The end of a call that blocks: its yield comes next. -/
def suspend (s : State) (q : Object) (current : Nat) : State :=
  goto (blockThread (enqueue s q current) current) current (.yield q)

def mutexLock (s : State) (m : Nat) : State :=
  let current := s.kernel.currentThread
  if current = 0 then s
  else if s.locked m = false then setOwner (setLocked s m true) m current
  else if s.owner m = current then s
  else suspend s (.mutex m) current

def mutexUnlock (s : State) (m : Nat) : State :=
  if s.locked m = false then s
  else if s.owner m ≠ s.kernel.currentThread then s
  else if s.waitHead (.mutex m) = 0 then setOwner (setLocked s m false) m 0
  else
    let next := s.waitHead (.mutex m)
    unblockThread (setLocked (setOwner (dequeue s (.mutex m)) m next) m true) next

def semWait (s : State) (i : Nat) : State :=
  let current := s.kernel.currentThread
  if current = 0 then s
  else if s.value i > 0 then setValue s i (wrap32 (s.value i - 1))
  else suspend s (.semaphore i) current

def semSignal (s : State) (i : Nat) : State :=
  if s.waitHead (.semaphore i) ≠ 0 then
    let next := s.waitHead (.semaphore i)
    unblockThread (dequeue s (.semaphore i)) next
  else setValue s i (wrap32 (s.value i + 1))

def perform (s : State) : Op → State
  | .lock m => mutexLock s m
  | .unlock m => mutexUnlock s m
  | .wait i => semWait s i
  | .signal i => semSignal s i

inductive Move where
  | irq (savedEsp : Nat)
  | create (fn arg : Nat)
  | exit
  | call (op : Op)
  | resume (savedEsp : Nat)
  deriving DecidableEq, Repr

/-- The context on the CPU executes its own code: a thread that stands in no call
and has not exited, or no thread at all. -/
def Free (s : State) : Prop :=
  running s = 0 ∨ ((s.pc (running s)).isIdle = true ∧ threadState s (running s) ≠ .terminated)

instance (s : State) : Decidable (Free s) := inferInstanceAs (Decidable (_ ∨ _))

/-- One move. A suspended call goes on with its yield, then with its return. -/
def moveStep (c : Config) (s : State) : Move → Option State
  | .irq savedEsp => interrupt c s savedEsp
  | .create fn arg =>
      if Free s then (threadCreate c s.kernel fn arg).map (fun r => { s with kernel := r.1 }) else none
  | .exit => if Free s then some { s with kernel := threadExit s.kernel } else none
  | .call op => if Free s then some (perform s op) else none
  | .resume savedEsp =>
      if running s = 0 then none
      else match s.pc (running s) with
        | .yield q => interrupt c (goto s (running s) (.resumed q)) savedEsp
        | .resumed _ => some (goto s (running s) .idle)
        | _ => none

def MoveStep (c : Config) (s : State) (l : Move) (t : State) : Prop := moveStep c s l = some t

section Effects

variable (s : State) (q : Object) (t : Nat)

theorem enqueue_frame : enqueue s q t =
    { s with kernel := (enqueue s q t).kernel, waitHead := (enqueue s q t).waitHead,
             waitTail := (enqueue s q t).waitTail } := by
  unfold enqueue
  dsimp only
  split <;> rfl

theorem enqueue_links :
    waitNext (enqueue s q t) = joinLinks 0 (waitNext s) s.waitHead s.waitTail q t ∧
    (enqueue s q t).waitHead = (if s.waitHead q = 0 then Function.update s.waitHead q t else s.waitHead) ∧
    (enqueue s q t).waitTail = Function.update s.waitTail q t := by
  unfold enqueue joinLinks
  have hhead : (setWaitNext s t 0).waitHead = s.waitHead := rfl
  have htail : (setWaitNext s t 0).waitTail = s.waitTail := rfl
  dsimp only
  rw [hhead, htail]
  split
  · exact ⟨setWaitNext_links s t 0, rfl, rfl⟩
  · exact ⟨(setWaitNext_links _ _ _).trans (by rw [setWaitNext_links]), rfl, rfl⟩

theorem dequeue_frame : dequeue s q =
    { s with kernel := (dequeue s q).kernel, waitHead := (dequeue s q).waitHead,
             waitTail := (dequeue s q).waitTail } := by
  unfold dequeue
  dsimp only
  split <;> rfl

theorem dequeue_links :
    waitNext (dequeue s q) = Function.update (waitNext s) (s.waitHead q) 0 ∧
    (dequeue s q).waitHead = Function.update s.waitHead q (waitNext s (s.waitHead q)) ∧
    (dequeue s q).waitTail =
      (if waitNext s (s.waitHead q) = 0 then Function.update s.waitTail q 0 else s.waitTail) := by
  unfold dequeue
  have hhead : (setHead s q (waitNext s (s.waitHead q))).waitHead q = waitNext s (s.waitHead q) :=
    Function.update_self ..
  dsimp only
  rw [hhead]
  split
  · exact ⟨setWaitNext_links _ _ _, rfl, rfl⟩
  · exact ⟨setWaitNext_links _ _ _, rfl, rfl⟩

theorem suspend_frame : suspend s q t =
    { s with kernel := (suspend s q t).kernel, waitHead := (suspend s q t).waitHead,
             waitTail := (suspend s q t).waitTail, pc := Function.update s.pc t (.yield q) } := by
  have h := enqueue_frame s q t
  unfold suspend blockThread goto
  rw [h]

theorem wakeFirst_frame : unblockThread (dequeue s q) t =
    { s with kernel := (unblockThread (dequeue s q) t).kernel, waitHead := (dequeue s q).waitHead,
             waitTail := (dequeue s q).waitTail } := by
  have h := dequeue_frame s q
  unfold unblockThread
  rw [h]

theorem enqueue_threadState (u : Nat) : threadState (enqueue s q t) u = threadState s u := by
  unfold enqueue
  dsimp only
  split
  · exact setWaitNext_threadState s t 0 u
  · exact (setWaitNext_threadState _ _ _ u).trans (setWaitNext_threadState s t 0 u)

theorem dequeue_threadState (u : Nat) : threadState (dequeue s q) u = threadState s u := by
  unfold dequeue
  dsimp only
  split
  · exact setWaitNext_threadState (setTail (setHead s q _) q 0) _ 0 u
  · exact setWaitNext_threadState (setHead s q _) _ 0 u

theorem blockThread_eq {t : Nat} (ht : t ≠ 0) : blockThread s t = setThreadState s t .blocked := by
  rw [blockThread, schedulerBlockThread, if_neg ht]
  rfl

theorem unblockThread_eq {t : Nat} (ht : t ≠ 0) (hblocked : threadState s t = .blocked) :
    unblockThread s t = setThreadState s t .ready := by
  have hstate : (s.kernel.threadTable t).state = .blocked := hblocked
  rw [unblockThread, schedulerUnblockThread, if_neg ht, if_pos hstate]
  rfl

variable {c : Config} {s : State} {np nt : Nat} {q : Object} {t : Nat}

theorem enqueue_running : running (enqueue s q t) = running s := by
  unfold enqueue
  dsimp only
  split <;> rfl

theorem dequeue_running : running (dequeue s q) = running s := by
  unfold dequeue
  dsimp only
  split <;> rfl

theorem suspend_running (ht : t ≠ 0) : running (suspend s q t) = running s := by
  change running (blockThread (enqueue s q t) t) = running s
  rw [blockThread_eq _ ht]
  exact enqueue_running

theorem enqueue_coherent (h : Coherent c s.kernel np nt) : Coherent c (enqueue s q t).kernel np nt := by
  unfold enqueue
  dsimp only
  split
  · exact coherent_setWaitNext h t 0
  · exact coherent_setWaitNext (s := setWaitNext s t 0) (coherent_setWaitNext h t 0) _ t

theorem dequeue_coherent (h : Coherent c s.kernel np nt) : Coherent c (dequeue s q).kernel np nt := by
  unfold dequeue
  dsimp only
  split
  · exact coherent_setWaitNext (s := setTail (setHead s q _) q 0) h _ 0
  · exact coherent_setWaitNext (s := setHead s q _) h _ 0

end Effects

/-- The representation invariant: the chains of all objects are the lists `l`, and
the BLOCKED threads are those on them. -/
structure Queues (c : Config) (s : State) (np nt : Nat) (l : Object → List Nat) : Prop where
  coherent : Coherent c s.kernel np nt
  chains : Chains 0 (waitNext s) s.waitHead s.waitTail l
  slot : ∀ q t, t ∈ l q → Slot c t
  blocked : ∀ t, Slot c t → (threadState s t = .blocked ↔ ∃ q, t ∈ l q)
  awake : running s ≠ 0 → threadState s (running s) = .blocked → ∃ q, s.pc (running s) = .yield q

section Preservation

variable {c : Config} {s s' : State} {np nt : Nat} {l : Object → List Nat} {q : Object}

theorem Queues.member_blocked (h : Queues c s np nt l) {t : Nat} (ht : t ∈ l q) : threadState s t = .blocked :=
  (h.blocked t (h.slot q t ht)).mpr ⟨q, ht⟩

theorem Queues.running_slot (h : Queues c s np nt l) (hrun : running s ≠ 0) : Slot c (running s) :=
  ⟨Nat.pos_of_ne_zero hrun, h.coherent.tables.runningThread.trans h.coherent.tables.threadCount⟩

/-- A thread in its own code is on no chain. -/
theorem Queues.free_not_member (h : Queues c s np nt l) (hrun : running s ≠ 0)
    (hpc : ∀ q, s.pc (running s) ≠ .yield q) : threadState s (running s) ≠ .blocked ∧ ∀ q, running s ∉ l q := by
  have hawake : threadState s (running s) ≠ .blocked := fun hblocked => by
    obtain ⟨q, hq⟩ := h.awake hrun hblocked
    exact hpc q hq
  exact ⟨hawake, fun q hq => hawake (h.member_blocked hq)⟩

/-- Changes of the kernel and of the threads' places that leave the links and the
BLOCKED threads alone. -/
theorem Queues.scheduled {np' nt' : Nat} (h : Queues c s np nt l) (hframe : s' = { s with kernel := s'.kernel, pc := s'.pc })
    (hcoherent : Coherent c s'.kernel np' nt')
    (hnext : ∀ t, threadState s t = .blocked → waitNext s' t = waitNext s t)
    (hblocked : ∀ t, Slot c t → (threadState s' t = .blocked ↔ threadState s t = .blocked))
    (hawake : running s' ≠ 0 → threadState s' (running s') = .blocked → ∃ q, s'.pc (running s') = .yield q) :
    Queues c s' np' nt' l := by
  refine ⟨hcoherent, ?_, h.slot, fun t ht => (hblocked t ht).trans (h.blocked t ht), hawake⟩
  rw [hframe]
  exact h.chains.congr (fun q x hx => hnext x (h.member_blocked hx))

/-- Changes of the objects' other fields. -/
theorem Queues.congr (h : Queues c s np nt l) (hkernel : s'.kernel = s.kernel) (hhead : s'.waitHead = s.waitHead)
    (htail : s'.waitTail = s.waitTail) (hpc : s'.pc = s.pc) : Queues c s' np nt l := by
  have hnext : waitNext s' = waitNext s := by
    funext t
    rw [waitNext, hkernel]
    rfl
  have hstate : threadState s' = threadState s := by
    funext t
    rw [threadState, hkernel]
    rfl
  have hrunning : running s' = running s := by rw [running, hkernel]; rfl
  refine ⟨hkernel ▸ h.coherent, ?_, h.slot, ?_, ?_⟩
  · rw [hnext, hhead, htail]
    exact h.chains
  · rw [hstate]
    exact h.blocked
  · rw [hstate, hrunning, hpc]
    exact h.awake

/-- The running thread joins a queue. -/
theorem Queues.suspend (h : Queues c s np nt l) (hrun : running s ≠ 0)
    (hpc : ∀ q, s.pc (running s) ≠ .yield q) :
    Queues c (suspend s q (running s)) np nt (Function.update l q (l q ++ [running s])) := by
  obtain ⟨hawake, hout⟩ := h.free_not_member hrun hpc
  obtain ⟨hnext, hhead, htail⟩ := enqueue_links s q (running s)
  have hstate : ∀ u, threadState (Sync.suspend s q (running s)) u =
      if u = running s then .blocked else threadState s u := by
    intro u
    have := setThreadState_threadState (enqueue s q (running s)) (running s) u .blocked
    rw [enqueue_threadState, ← blockThread_eq _ hrun] at this
    exact this
  have hlinks : waitNext (Sync.suspend s q (running s)) = waitNext (enqueue s q (running s)) := by
    funext u
    rw [← setThreadState_waitNext (enqueue s q (running s)) (running s) u .blocked, ← blockThread_eq _ hrun]
    rfl
  refine ⟨?_, ?_, ?_, ?_, ?_⟩
  · have hblock := (Coherent.block (enqueue_coherent (q := q) (t := running s) h.coherent)).coherent
    have hcurrent : (enqueue s q (running s)).kernel.currentThread = running s := enqueue_running
    rw [hcurrent] at hblock
    exact hblock
  · have hjoin := h.chains.join (q := q) hout hrun
    rw [← hnext, ← hhead, ← htail, ← hlinks] at hjoin
    exact hjoin
  · intro q' t ht
    rcases mem_join.mp ht with hold | ⟨_, rfl⟩
    · exact h.slot q' t hold
    · exact h.running_slot hrun
  · intro t ht
    rw [hstate]
    split
    · rename_i hself
      exact iff_of_true rfl ⟨q, mem_join.mpr (Or.inr ⟨rfl, hself⟩)⟩
    · rename_i hother
      rw [h.blocked t ht]
      exact exists_congr (fun q' => ⟨fun hq => mem_join.mpr (Or.inl hq),
        fun hq => (mem_join.mp hq).resolve_right (fun hself => hother hself.2)⟩)
  · rw [suspend_running hrun]
    exact fun _ _ => ⟨q, goto_pc_self _ _ _⟩

/-- The first waiter leaves its queue and is READY. -/
theorem Queues.wakeFirst (h : Queues c s np nt l) {x : Nat} {xs : List Nat} (hl : l q = x :: xs)
    (hrun : running s ≠ 0 → threadState s (running s) ≠ .blocked) :
    Queues c (unblockThread (dequeue s q) x) np nt (Function.update l q xs) := by
  obtain ⟨hhead, hx⟩ := h.chains.head_cons hl
  obtain ⟨hnext, hhead', htail'⟩ := dequeue_links s q
  rw [hhead] at hnext hhead' htail'
  have hmem : x ∈ l q := by
    rw [hl]
    exact List.mem_cons_self ..
  have hblocked : threadState (dequeue s q) x = .blocked := by
    rw [dequeue_threadState]
    exact h.member_blocked hmem
  have heq := unblockThread_eq _ hx hblocked
  have hstate : ∀ u, threadState (unblockThread (dequeue s q) x) u = if u = x then .ready else threadState s u := by
    intro u
    rw [heq, setThreadState_threadState, dequeue_threadState]
  have hlinks : waitNext (unblockThread (dequeue s q) x) = waitNext (dequeue s q) := by
    funext u
    rw [heq, setThreadState_waitNext]
  have hrunning : running (unblockThread (dequeue s q) x) = running s := by
    rw [heq]
    exact dequeue_running
  refine ⟨(Coherent.unblock (dequeue_coherent h.coherent) x).coherent, ?_, ?_, ?_, ?_⟩
  · have hleave := h.chains.leave hl
    rw [← hnext, ← hhead', ← htail', ← hlinks] at hleave
    exact hleave
  · intro q' t ht
    exact h.slot q' t ((mem_leave h.chains hl).mp ht).1
  · intro t ht
    rw [hstate]
    split
    · rename_i hself
      refine iff_of_false nofun (fun ⟨q', hq'⟩ => ?_)
      exact ((mem_leave h.chains hl).mp hq').2 hself
    · rename_i hother
      rw [h.blocked t ht]
      exact exists_congr (fun q' => ⟨fun hq => (mem_leave h.chains hl).mpr ⟨hq, hother⟩,
        fun hq => ((mem_leave h.chains hl).mp hq).1⟩)
  · rw [hrunning, hstate]
    intro hr hself
    split at hself
    · cases hself
    · exact (hrun hr hself).elim

end Preservation

/-- What an operation can do, with the tests that lead there. -/
inductive Performed (s : State) : Op → State → Prop
  | lockNobody {m : Nat} (nobody : running s = 0) : Performed s (.lock m) s
  | acquire {m : Nat} (somebody : running s ≠ 0) (unlocked : s.locked m = false) :
      Performed s (.lock m) (setOwner (setLocked s m true) m (running s))
  | relock {m : Nat} (somebody : running s ≠ 0) (locked : s.locked m = true) (own : s.owner m = running s) :
      Performed s (.lock m) s
  | lockBlock {m : Nat} (somebody : running s ≠ 0) (locked : s.locked m = true) (own : s.owner m ≠ running s) :
      Performed s (.lock m) (suspend s (.mutex m) (running s))
  | unlockFree {m : Nat} (unlocked : s.locked m = false) : Performed s (.unlock m) s
  | unlockOther {m : Nat} (locked : s.locked m = true) (own : s.owner m ≠ running s) : Performed s (.unlock m) s
  | release {m : Nat} (locked : s.locked m = true) (own : s.owner m = running s)
      (empty : s.waitHead (.mutex m) = 0) : Performed s (.unlock m) (setOwner (setLocked s m false) m 0)
  | handOver {m : Nat} (locked : s.locked m = true) (own : s.owner m = running s)
      (waiter : s.waitHead (.mutex m) ≠ 0) :
      Performed s (.unlock m) (setLocked (setOwner (unblockThread (dequeue s (.mutex m))
        (s.waitHead (.mutex m))) m (s.waitHead (.mutex m))) m true)
  | waitNobody {i : Nat} (nobody : running s = 0) : Performed s (.wait i) s
  | take {i : Nat} (somebody : running s ≠ 0) (available : s.value i > 0) :
      Performed s (.wait i) (setValue s i (wrap32 (s.value i - 1)))
  | waitBlock {i : Nat} (somebody : running s ≠ 0) (none : ¬ s.value i > 0) :
      Performed s (.wait i) (suspend s (.semaphore i) (running s))
  | pass {i : Nat} (waiter : s.waitHead (.semaphore i) ≠ 0) :
      Performed s (.signal i) (unblockThread (dequeue s (.semaphore i)) (s.waitHead (.semaphore i)))
  | bank {i : Nat} (empty : s.waitHead (.semaphore i) = 0) :
      Performed s (.signal i) (setValue s i (wrap32 (s.value i + 1)))

theorem performed (s : State) (op : Op) : Performed s op (perform s op) := by
  cases op with
  | lock m =>
      simp only [perform, mutexLock]
      split_ifs with hnobody hunlocked hown
      · exact .lockNobody hnobody
      · exact .acquire hnobody hunlocked
      · exact .relock hnobody (by simpa using hunlocked) hown
      · exact .lockBlock hnobody (by simpa using hunlocked) hown
  | unlock m =>
      simp only [perform, mutexUnlock]
      split_ifs with hunlocked hown hempty
      · exact .unlockFree hunlocked
      · exact .unlockOther (by simpa using hunlocked) hown
      · exact .release (by simpa using hunlocked) (not_not.mp hown) hempty
      · exact .handOver (by simpa using hunlocked) (not_not.mp hown) hempty
  | wait i =>
      simp only [perform, semWait]
      split_ifs with hnobody havailable
      · exact .waitNobody hnobody
      · exact .take hnobody havailable
      · exact .waitBlock hnobody havailable
  | signal i =>
      simp only [perform, semSignal]
      split_ifs with hwaiter
      · exact .pass hwaiter
      · exact .bank (not_not.mp hwaiter)

theorem threadExit_eq {s : State} (hrun : running s ≠ 0) :
    ({ s with kernel := threadExit s.kernel } : State) = setThreadState s (running s) .terminated := by
  have hcurrent : s.kernel.currentThread ≠ 0 := hrun
  rw [threadExit, if_neg hcurrent]
  rfl

/-- What one move can be. -/
inductive Moved (c : Config) (s : State) : Move → State → Prop
  | irq {savedEsp : Nat} {s' : State} (step : interrupt c s savedEsp = some s') : Moved c s (.irq savedEsp) s'
  | create {fn arg : Nat} {s' : State} (free : Free s)
      (step : (threadCreate c s.kernel fn arg).map (fun r => { s with kernel := r.1 }) = some s') :
      Moved c s (.create fn arg) s'
  | exit (free : Free s) : Moved c s .exit { s with kernel := threadExit s.kernel }
  | call {op : Op} {s' : State} (free : Free s) (step : Performed s op s') : Moved c s (.call op) s'
  | yield {savedEsp : Nat} {q : Object} {s' : State} (somebody : running s ≠ 0)
      (at' : s.pc (running s) = .yield q)
      (step : interrupt c (goto s (running s) (.resumed q)) savedEsp = some s') : Moved c s (.resume savedEsp) s'
  | returned {savedEsp : Nat} {q : Object} (somebody : running s ≠ 0) (at' : s.pc (running s) = .resumed q) :
      Moved c s (.resume savedEsp) (goto s (running s) .idle)

theorem moved {c : Config} {s s' : State} {mv : Move} (h : MoveStep c s mv s') : Moved c s mv s' := by
  unfold MoveStep at h
  cases mv with
  | irq savedEsp => exact .irq h
  | create fn arg =>
      simp only [moveStep] at h
      split at h
      · rename_i hfree
        exact .create hfree h
      · cases h
  | exit =>
      simp only [moveStep] at h
      split at h
      · rename_i hfree
        cases h
        exact .exit hfree
      · cases h
  | call op =>
      simp only [moveStep] at h
      split at h
      · rename_i hfree
        cases h
        exact .call hfree (performed s op)
      · cases h
  | resume savedEsp =>
      simp only [moveStep] at h
      split at h
      · cases h
      · rename_i hrun
        split at h
        · rename_i q hq
          exact .yield hrun hq h
        · rename_i q hq
          cases h
          exact .returned hrun hq
        · cases h

theorem Moved.call_or_quiet {c : Config} {s s' : State} {mv : Move} (h : Moved c s mv s') :
    (∃ op, mv = .call op ∧ Free s ∧ Performed s op s') ∨ ∀ op, mv ≠ .call op := by
  cases h with
  | call free step => exact Or.inl ⟨_, rfl, free, step⟩
  | _ => exact Or.inr nofun

/-- The thread stands inside a call that has blocked on the object. -/
def Asleep (s : State) (q : Object) (t : Nat) : Prop := s.pc t = .yield q ∨ s.pc t = .resumed q

/-- A move that is no operation: the objects stay as they are, and no thread comes
to stand inside a call. -/
structure Quiet (s s' : State) : Prop where
  frame : s' = { s with kernel := s'.kernel, pc := s'.pc }
  asleep : ∀ q t, Asleep s' q t → Asleep s q t

section Runs

variable {c : Config} {s s' : State} {np nt : Nat} {l : Object → List Nat} {q : Object}

theorem Free.not_yield (hfree : Free s) (hrun : running s ≠ 0) (q : Object) : s.pc (running s) ≠ .yield q := by
  intro hq
  obtain ⟨hidle, _⟩ := hfree.resolve_left hrun
  rw [hq] at hidle
  cases hidle

theorem Queues.free (h : Queues c s np nt l) (hfree : Free s) (hrun : running s ≠ 0) :
    threadState s (running s) ≠ .blocked ∧ ∀ q, running s ∉ l q := by
  exact h.free_not_member hrun (hfree.not_yield hrun)

theorem Queues.quiet (h : Queues c s np nt l) {mv : Move} (hm : Moved c s mv s') (hcall : ∀ op, mv ≠ .call op) :
    ∃ np' nt', nt ≤ nt' ∧ Queues c s' np' nt' l ∧ Quiet s s' := by
  cases hm with
  | call => exact (hcall _ rfl).elim
  | irq step =>
      obtain ⟨hcoherent, hirq⟩ := interrupt_spec h.coherent step
      have hframe : s' = { s with kernel := s'.kernel, pc := s'.pc } := by rw [hirq.frame]
      have hpc : s'.pc = s.pc := by rw [hirq.frame]
      refine ⟨np, nt, Nat.le_refl nt, h.scheduled hframe hcoherent (fun t _ => hirq.waitNext t) (fun t _ => hirq.blocked t)
        (fun hrun hblocked => (hirq.awake hrun hblocked).elim), hframe, fun q t => ?_⟩
      rw [Asleep, Asleep, hpc]
      exact id
  | create free step =>
      obtain ⟨nt', hgrows, hcoherent, hspawn⟩ := create_spec h.coherent step
      have hframe : s' = { s with kernel := s'.kernel, pc := s'.pc } := by rw [hspawn.frame]
      have hpc : s'.pc = s.pc := by rw [hspawn.frame]
      refine ⟨np, nt', hgrows, h.scheduled hframe hcoherent (fun t ht => ?_) (fun t _ => hspawn.blocked t) ?_, hframe,
        fun q t => ?_⟩
      · refine (hspawn.waitNext t).resolve_right (fun hnew => ?_)
        rw [ht] at hnew
        cases hnew.1
      · rw [hspawn.running, hpc]
        exact fun hrun hblocked => h.awake hrun ((hspawn.blocked _).mp hblocked)
      · rw [Asleep, Asleep, hpc]
        exact id
  | exit free =>
      refine ⟨np, nt, Nat.le_refl nt, ?_, rfl, fun _ _ => id⟩
      have hcoherent := (Coherent.exit h.coherent).coherent
      by_cases hrun : running s = 0
      · have hkernel : threadExit s.kernel = s.kernel := if_pos hrun
        exact h.congr hkernel rfl rfl rfl
      · obtain ⟨hawake, _⟩ := h.free free hrun
        have hkernel := threadExit_eq hrun
        refine h.scheduled rfl hcoherent (fun t _ => ?_) (fun t _ => ?_) ?_
        · rw [hkernel, setThreadState_waitNext]
        · rw [hkernel, setThreadState_threadState]
          split
          · rename_i hself
            exact iff_of_false nofun (hself ▸ hawake)
          · exact Iff.rfl
        · intro _ hblocked
          rw [hkernel] at hblocked
          have hrunning : running (setThreadState s (running s) .terminated) = running s := rfl
          rw [hrunning, setThreadState_threadState, if_pos rfl] at hblocked
          cases hblocked
  | yield somebody at' step =>
      rename_i savedEsp q
      obtain ⟨hcoherent, hirq⟩ := interrupt_spec (s := goto s (running s) (.resumed q)) h.coherent step
      have hframe : s' = { s with kernel := s'.kernel, pc := s'.pc } := by rw [hirq.frame]; rfl
      have hpc : s'.pc = (goto s (running s) (.resumed q)).pc := by rw [hirq.frame]
      refine ⟨np, nt, Nat.le_refl nt, h.scheduled hframe hcoherent (fun t _ => hirq.waitNext t) (fun t _ => hirq.blocked t)
        (fun hrun hblocked => (hirq.awake hrun hblocked).elim), hframe, fun q' t ht => ?_⟩
      rw [Asleep, hpc] at ht
      by_cases htr : t = running s
      · subst htr
        rw [goto_pc_self] at ht
        rcases ht with ht | ht
        · cases ht
        · cases ht
          exact Or.inl at'
      · rwa [goto_pc_of_ne _ _ htr] at ht
  | returned somebody at' =>
      refine ⟨np, nt, Nat.le_refl nt, h.scheduled rfl h.coherent (fun _ _ => rfl) (fun _ _ => Iff.rfl) ?_, rfl, fun q' t ht => ?_⟩
      · intro hrun hblocked
        obtain ⟨q', hq'⟩ := h.awake hrun hblocked
        rw [at'] at hq'
        cases hq'
      · by_cases htr : t = running s
        · subst htr
          rw [Asleep, goto_pc_self] at ht
          rcases ht with ht | ht <;> cases ht
        · rwa [Asleep, goto_pc_of_ne _ _ htr] at ht

theorem Queues.first (h : Queues c s np nt l) (hwaiter : s.waitHead q ≠ 0) : ∃ xs, l q = s.waitHead q :: xs := by
  cases hl : l q with
  | nil => exact (hwaiter ((h.chains.head_eq_null q).mpr hl)).elim
  | cons x xs => exact ⟨xs, by rw [(h.chains.head_cons hl).1]⟩

/-- What an operation leaves of the queues. -/
theorem Queues.operation (h : Queues c s np nt l) (hfree : Free s) {op : Op} (hp : Performed s op s') :
    ∃ l', Queues c s' np nt l' := by
  have hawake : running s ≠ 0 → threadState s (running s) ≠ .blocked := fun hrun => (h.free hfree hrun).1
  cases hp with
  | lockNobody | relock | unlockFree | unlockOther | waitNobody => exact ⟨l, h⟩
  | acquire | release | take | bank => exact ⟨l, h.congr rfl rfl rfl rfl⟩
  | lockBlock somebody => exact ⟨_, h.suspend somebody (hfree.not_yield somebody)⟩
  | waitBlock somebody => exact ⟨_, h.suspend somebody (hfree.not_yield somebody)⟩
  | handOver locked own waiter =>
      obtain ⟨xs, hl⟩ := h.first waiter
      exact ⟨_, (h.wakeFirst hl hawake).congr rfl rfl rfl rfl⟩
  | pass waiter =>
      obtain ⟨xs, hl⟩ := h.first waiter
      exact ⟨_, h.wakeFirst hl hawake⟩

theorem queues_step {mv : Move} (h : ∃ np nt l, Queues c s np nt l) (step : MoveStep c s mv s') :
    ∃ np nt l, Queues c s' np nt l := by
  obtain ⟨np, nt, l, h⟩ := h
  rcases (moved step).call_or_quiet with ⟨op, rfl, hfree, hp⟩ | hcall
  · obtain ⟨l', h'⟩ := h.operation hfree hp
    exact ⟨np, nt, l', h'⟩
  · obtain ⟨np', nt', _, h', _⟩ := h.quiet (moved step) hcall
    exact ⟨np', nt', l, h'⟩

end Runs

theorem Initial.queues {c : Config} {count : Nat → Int} {s : State} (h : Initial c count s) :
    Queues c s 3 0 (fun _ => []) := by
  obtain ⟨history, hboot⟩ := h.boot
  have hcoherent := (boot_resumable hboot).coherent
  refine ⟨hcoherent, ?_, fun q t ht => (by cases ht), fun t ht => ?_, fun hrun => ?_⟩
  · rw [h.waitHead, h.waitTail]
    exact chains_nil
  · refine iff_of_false ?_ (fun ⟨q, hq⟩ => (by cases hq))
    have hunused : threadState s t = .unused := hcoherent.tables.freeThread t ht.1 ht.2
    rw [hunused]
    exact nofun
  · have hzero : s.kernel.currentThread = 0 := Nat.le_zero.mp hcoherent.tables.runningThread
    exact (hrun hzero).elim

theorem run_queues {c : Config} {count : Nat → Int} {s t : State} (initial : Initial c count s)
    {moves : List Move} (run : Run (MoveStep c) s moves t) : ∃ np nt l, Queues c t np nt l :=
  run.invariant (I := fun s => ∃ np nt l, Queues c s np nt l) (fun _ _ _ h step => queues_step h step)
    ⟨3, 0, fun _ => [], initial.queues⟩

/-- The chains of wait queues as an observer of the records finds them. -/
def WellLinked (c : Config) (s : State) : Prop :=
  ∃ chain : Object → List Nat,
    (∀ q, Path (waitNext s) (s.waitHead q) (chain q) 0 ∧ (chain q).Nodup ∧ 0 ∉ chain q ∧
      s.waitTail q = (chain q).getLast?.getD 0 ∧ (s.waitHead q = 0 ↔ s.waitTail q = 0)) ∧
    (∀ q q', q ≠ q' → List.Disjoint (chain q) (chain q')) ∧
    ∀ t, Slot c t → (threadState s t = .blocked ↔ ∃! q, t ∈ chain q)

/-- Whatever the order of the operations, the wait queues are disjoint chains that
end at their tails, and hold exactly the BLOCKED threads. -/
theorem wait_queues_well_linked {c : Config} {count : Nat → Int} {s t : State} (initial : Initial c count s)
    {moves : List Move} (run : Run (MoveStep c) s moves t) : WellLinked c t := by
  obtain ⟨np, nt, l, h⟩ := run_queues initial run
  have hc := h.chains
  refine ⟨l, fun q => ⟨hc.path q, hc.nodup q, hc.nonnull q, hc.last q, ?_⟩, fun q q' hne x hx hx' => ?_,
    fun u hu => ?_⟩
  · rw [hc.head_eq_null, hc.tail_eq_null]
  · exact hne (hc.apart q q' x hx hx')
  · rw [h.blocked u hu]
    exact ⟨fun ⟨q, hq⟩ => ⟨q, hq, fun q' hq' => hc.apart q' q u hq' hq⟩, fun ⟨q, hq, _⟩ => ⟨q, hq⟩⟩

/-- Two threads contend for a mutex; the first holds it across an interrupt. -/
def contended : List Move :=
  [.irq 0, .create 0x10400 0, .create 0x10400 0, .irq 0, .call (.lock 0), .irq 0, .irq 0, .call (.lock 0),
    .resume 0, .irq 0, .call (.unlock 0), .irq 0, .irq 0, .resume 0]

theorem wait_queues_well_linked_sample : ∃ t, Run (MoveStep sampleConfig) (sampleState 0) contended t ∧
    WellLinked sampleConfig t := by
  have hsome : (execute (moveStep sampleConfig) (sampleState 0) contended).isSome = true := by decide +kernel
  obtain ⟨t, ht⟩ := Option.isSome_iff_exists.mp hsome
  have run : Run (MoveStep sampleConfig) (sampleState 0) contended t := run_of_execute ht
  exact ⟨t, run, wait_queues_well_linked (sampleState_initial 0) run⟩

end SengKernel.Sync
