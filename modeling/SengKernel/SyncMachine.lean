import SengKernel.SchedulerSessions

/- kernel/mutex.c and kernel/semaphore.c at statement granularity. Every C statement
   of the four operations and of the two blocking helpers is one step of the running
   thread, and the timer interrupt may come between any two steps. A thread record
   exists at every pointer value: the one at 0 is the low memory that a null pointer
   reaches, since no page protects it. -/
namespace SengKernel.Sync
open Sched MachineWord Transition

/-- What a thread can wait for. -/
inductive Object where
  | mutex (m : Nat)
  | semaphore (s : Nat)
  deriving DecidableEq, Repr

/-- The statement that a thread executes next, with the locals of its call:
`cur` is `current`, `next` is `next`. The statements that link, block, unlink and
wake are the same text in both files and are kept once, by the object they work on. -/
inductive Pc where
  | idle
  -- mutex_lock
  | lockEntry (m : Nat)               -- current = thread_current();
  | lockNull (m cur : Nat)            -- if (!current)
  | lockTest (m cur : Nat)            -- if (!mutex->locked)
  | lockTake (m cur : Nat)            -- mutex->locked = 1;
  | lockOwn (m cur : Nat)             -- mutex->owner = current;
  | lockOwned (m cur : Nat)           -- if (mutex->owner == current)
  -- sem_wait
  | waitEntry (s : Nat)               -- current = thread_current();
  | waitNull (s cur : Nat)            -- if (!current)
  | waitTest (s cur : Nat)            -- if (sem->value > 0)
  | waitTake (s cur : Nat)            -- sem->value--;
  -- joining the queue, scheduler_block_thread and the yield
  | linkClear (q : Object) (cur : Nat)    -- current->wait_next = 0;
  | linkTest (q : Object) (cur : Nat)     -- if (!wait_head)
  | linkHead (q : Object) (cur : Nat)     -- wait_head = current;
  | linkNext (q : Object) (cur : Nat)     -- wait_tail->wait_next = current;
  | linkTail (q : Object) (cur : Nat)     -- wait_tail = current;
  | blockTest (q : Object) (cur : Nat)    -- if (!thread)
  | block (q : Object) (cur : Nat)        -- thread->state = THREAD_BLOCKED;
  | yield (q : Object)                    -- scheduler_yield();
  | resumed (q : Object)                  -- the return after the yield
  -- mutex_unlock
  | unlockTest (m : Nat)              -- if (!mutex->locked)
  | unlockOwner (m : Nat)             -- if (mutex->owner != thread_current())
  | unlockEmpty (m : Nat)             -- if (!mutex->wait_head)
  | unlockFree (m : Nat)              -- mutex->locked = 0;
  | unlockDisown (m : Nat)            -- mutex->owner = 0;
  | unlockGive (m next : Nat)         -- mutex->owner = next;
  | unlockRelock (m next : Nat)       -- mutex->locked = 1;
  -- sem_signal
  | signalTest (s : Nat)              -- if (sem->wait_head)
  | signalInc (s : Nat)               -- sem->value++;
  -- leaving the queue and scheduler_unblock_thread
  | popNext (q : Object)                  -- next = wait_head;
  | popHead (q : Object) (next : Nat)     -- wait_head = next->wait_next;
  | popTest (q : Object) (next : Nat)     -- if (!wait_head)
  | popTail (q : Object) (next : Nat)     -- wait_tail = 0;
  | popClear (q : Object) (next : Nat)    -- next->wait_next = 0;
  | wakeTest (q : Object) (next : Nat)    -- if (!thread)
  | wakeState (q : Object) (next : Nat)   -- if (thread->state == THREAD_BLOCKED)
  | wake (q : Object) (next : Nat)        -- thread->state = THREAD_READY;

def Pc.isIdle : Pc → Bool
  | .idle => true
  | _ => false

theorem Pc.eq_idle {p : Pc} (h : p.isIdle = true) : p = .idle := by
  cases p <;> first | rfl | cases h

/-- The kernel, the fields of all mutexes and semaphores, and every thread's place. -/
structure State where
  kernel : Kernel
  locked : Nat → Bool
  owner : Nat → Nat
  value : Nat → Int
  waitHead : Object → Nat
  waitTail : Object → Nat
  pc : Nat → Pc

def goto (s : State) (t : Nat) (p : Pc) : State := { s with pc := Function.update s.pc t p }

def setLocked (s : State) (m : Nat) (b : Bool) : State := { s with locked := Function.update s.locked m b }
def setOwner (s : State) (m t : Nat) : State := { s with owner := Function.update s.owner m t }
def setValue (s : State) (i : Nat) (v : Int) : State := { s with value := Function.update s.value i v }
def setHead (s : State) (q : Object) (t : Nat) : State := { s with waitHead := Function.update s.waitHead q t }
def setTail (s : State) (q : Object) (t : Nat) : State := { s with waitTail := Function.update s.waitTail q t }

def waitNext (s : State) (t : Nat) : Nat := (s.kernel.threadTable t).waitNext

def setWaitNext (s : State) (t u : Nat) : State :=
  { s with kernel := setThread s.kernel t (fun r => { r with waitNext := u }) }

def setThreadState (s : State) (t : Nat) (st : ThreadState) : State :=
  { s with kernel := setThread s.kernel t (fun r => { r with state := st }) }

def threadState (s : State) (t : Nat) : ThreadState := (s.kernel.threadTable t).state

def mutexInit (s : State) (m : Nat) : State :=
  setTail (setHead (setOwner (setLocked s m false) m 0) (.mutex m) 0) (.mutex m) 0

def semInit (s : State) (i : Nat) (value : Int) : State :=
  setTail (setHead (setValue s i value) (.semaphore i) 0) (.semaphore i) 0

@[simp] theorem mutexInit_kernel (s : State) (m : Nat) : (mutexInit s m).kernel = s.kernel := rfl

@[simp] theorem semInit_kernel (s : State) (i : Nat) (value : Int) : (semInit s i value).kernel = s.kernel := rfl

/-- The calls that a thread makes from its own code. -/
inductive Op where
  | lock (m : Nat)
  | unlock (m : Nat)
  | wait (s : Nat)
  | signal (s : Nat)
  deriving DecidableEq, Repr

def entry : Op → Pc
  | .lock m => .lockEntry m
  | .unlock m => .unlockTest m
  | .wait s => .waitEntry s
  | .signal s => .signalTest s

/-- `int` arithmetic, as the machine wraps it. -/
def wrap32 (v : Int) : Int := Int.bmod v wordSize

/-- The statement of thread `t` at `p`, except the yield. -/
def exec (s : State) (t : Nat) : Pc → State
  | .idle => s
  | .lockEntry m => goto s t (.lockNull m s.kernel.currentThread)
  | .lockNull m cur => goto s t (if cur = 0 then .idle else .lockTest m cur)
  | .lockTest m cur => goto s t (if s.locked m then .lockOwned m cur else .lockTake m cur)
  | .lockTake m cur => goto (setLocked s m true) t (.lockOwn m cur)
  | .lockOwn m cur => goto (setOwner s m cur) t .idle
  | .lockOwned m cur => goto s t (if s.owner m = cur then .idle else .linkClear (.mutex m) cur)
  | .waitEntry i => goto s t (.waitNull i s.kernel.currentThread)
  | .waitNull i cur => goto s t (if cur = 0 then .idle else .waitTest i cur)
  | .waitTest i cur => goto s t (if s.value i > 0 then .waitTake i cur else .linkClear (.semaphore i) cur)
  | .waitTake i _ => goto (setValue s i (wrap32 (s.value i - 1))) t .idle
  | .linkClear q cur => goto (setWaitNext s cur 0) t (.linkTest q cur)
  | .linkTest q cur => goto s t (if s.waitHead q = 0 then .linkHead q cur else .linkNext q cur)
  | .linkHead q cur => goto (setHead s q cur) t (.linkTail q cur)
  | .linkNext q cur => goto (setWaitNext s (s.waitTail q) cur) t (.linkTail q cur)
  | .linkTail q cur => goto (setTail s q cur) t (.blockTest q cur)
  | .blockTest q cur => goto s t (if cur = 0 then .yield q else .block q cur)
  | .block q cur => goto (setThreadState s cur .blocked) t (.yield q)
  | .yield q => goto s t (.resumed q)
  | .resumed _ => goto s t .idle
  | .unlockTest m => goto s t (if s.locked m then .unlockOwner m else .idle)
  | .unlockOwner m => goto s t (if s.owner m ≠ s.kernel.currentThread then .idle else .unlockEmpty m)
  | .unlockEmpty m => goto s t (if s.waitHead (.mutex m) = 0 then .unlockFree m else .popNext (.mutex m))
  | .unlockFree m => goto (setLocked s m false) t (.unlockDisown m)
  | .unlockDisown m => goto (setOwner s m 0) t .idle
  | .unlockGive m next => goto (setOwner s m next) t (.unlockRelock m next)
  | .unlockRelock m next => goto (setLocked s m true) t (.wakeTest (.mutex m) next)
  | .signalTest i => goto s t (if s.waitHead (.semaphore i) ≠ 0 then .popNext (.semaphore i) else .signalInc i)
  | .signalInc i => goto (setValue s i (wrap32 (s.value i + 1))) t .idle
  | .popNext q => goto s t (.popHead q (s.waitHead q))
  | .popHead q next => goto (setHead s q (waitNext s next)) t (.popTest q next)
  | .popTest q next => goto s t (if s.waitHead q = 0 then .popTail q next else .popClear q next)
  | .popTail q next => goto (setTail s q 0) t (.popClear q next)
  | .popClear q next =>
      goto (setWaitNext s next 0) t
        (match q with | .mutex m => .unlockGive m next | .semaphore _ => .wakeTest q next)
  | .wakeTest q next => goto s t (if next = 0 then .idle else .wakeState q next)
  | .wakeState q next => goto s t (if threadState s next = .blocked then .wake q next else .idle)
  | .wake _ next => goto (setThreadState s next .ready) t .idle

inductive Label where
  | irq (savedEsp : Nat)
  | create (fn arg : Nat)
  | call (op : Op)
  | stmt (savedEsp : Nat)
  deriving DecidableEq, Repr

def isIrq : Label → Bool
  | .irq _ => true
  | _ => false

def isStmt : Label → Bool
  | .stmt _ => true
  | _ => false

def interrupt (c : Config) (s : State) (savedEsp : Nat) : Option State :=
  (schedulerIrq c s.kernel savedEsp).map (fun r => { s with kernel := r.1 })

def running (s : State) : Nat := s.kernel.currentThread

/-- One step. The yield is the interrupt itself, on the stack pointer of the label;
a thread is created, and an operation called, outside the four operations. -/
def step (c : Config) (s : State) : Label → Option State
  | .irq savedEsp => interrupt c s savedEsp
  | .create fn arg =>
      if running s = 0 ∨ (s.pc (running s)).isIdle then
        (threadCreate c s.kernel fn arg).map (fun r => { s with kernel := r.1 })
      else none
  | .call op =>
      if running s ≠ 0 ∧ (s.pc (running s)).isIdle then some (goto s (running s) (entry op)) else none
  | .stmt savedEsp =>
      if running s = 0 then none
      else match s.pc (running s) with
        | .idle => none
        | .yield q => interrupt c (goto s (running s) (.resumed q)) savedEsp
        | p => some (exec s (running s) p)

def Step (c : Config) (s : State) (l : Label) (t : State) : Prop := step c s l = some t

/-- Every object initialised, the semaphores to the given counts, and no thread. -/
structure Initial (c : Config) (count : Nat → Int) (s : State) : Prop where
  boot : ∃ history, Sched.Boot c ⟨s.kernel, history⟩
  locked : s.locked = fun _ => false
  owner : s.owner = fun _ => 0
  value : s.value = count
  waitHead : s.waitHead = fun _ => 0
  waitTail : s.waitTail = fun _ => 0
  pc : s.pc = fun _ => .idle

/-- A freshly initialised machine whose semaphores all start at one count. -/
def sampleState (count : Int) : State :=
  { kernel := sampleSession.kernel, locked := fun _ => false, owner := fun _ => 0, value := fun _ => count
    waitHead := fun _ => 0, waitTail := fun _ => 0, pc := fun _ => .idle }

theorem sampleState_initial (count : Int) : Initial sampleConfig (fun _ => count) (sampleState count) :=
  ⟨⟨_, sampleSession_boot⟩, rfl, rfl, rfl, rfl, rfl, rfl⟩

/-- Threads 1 and 2 are created by the shell; thread 1 is on the CPU. -/
def startTwo : List Label := [.irq 0, .create 0x10400 0, .create 0x10400 0, .irq 0]

/-- The timer ticks twice: a process runs in between. -/
def switchThread : List Label := [.irq 0, .irq 0]

def steps (n : Nat) : List Label := List.replicate n (.stmt 0)

end SengKernel.Sync
