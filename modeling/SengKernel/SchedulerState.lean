import SengKernel.LoopBasics
import SengKernel.RingBasics
import SengKernel.MachineWords

/- kernel/process.c, kernel/thread.c and the run queues of kernel/scheduler.c.
   A pointer to a table entry is its slot plus one and 0 is the null pointer, so
   that reading through a null pointer reads a record that no slot holds. Process
   names, the IDT, the PIC and the PIT are left out: no function below reads them. -/
namespace SengKernel.Sched
open BoundedLoop MachineWord LinkedRing

@[simp] abbrev maxProcesses : Nat := 16
@[simp] abbrev processStackSize : Nat := 4096
@[simp] abbrev threadStackSize : Nat := 4096

inductive ProcState where
  | ready | running | blocked | zombie
  deriving DecidableEq, Repr

inductive ThreadState where
  | unused | ready | running | blocked | terminated
  deriving DecidableEq, Repr

/-- `current_kind`: what is on the CPU. -/
inductive ContextKind where
  | none | process | thread
  deriving DecidableEq, Repr

/-- `pcb_t`. -/
structure Pcb where
  pid : Nat
  state : ProcState
  esp : Nat
  stackTop : Nat
  entry : Nat
  totalTicks : Nat
  next : Nat
  deriving DecidableEq, Repr

/-- `thread_t`. -/
structure Thread where
  tid : Nat
  state : ThreadState
  esp : Nat
  entry : Nat
  arg : Nat
  owner : Nat
  stackTop : Nat
  next : Nat
  waitNext : Nat
  deriving DecidableEq, Repr

/-- What the linker and `thread.h` fix: `MAX_THREADS`, the addresses of the two
stack arrays and of `thread_return`. -/
structure Config where
  maxThreads : Nat
  processStacks : Nat
  threadStacks : Nat
  threadReturn : Nat

/-- The statics of the three files, and memory as words by address. -/
structure Kernel where
  pcbTable : Nat → Pcb
  currentProc : Nat
  nextPid : Nat
  threadTable : Nat → Thread
  nextTid : Nat
  currentThread : Nat
  readyHead : Nat
  current : Nat
  threadHead : Nat
  currentSchedThread : Nat
  currentKind : ContextKind
  preferThread : Bool
  systemTicks : Nat
  memory : Nat → Nat

def setProc (k : Kernel) (p : Nat) (f : Pcb → Pcb) : Kernel :=
  { k with pcbTable := Function.update k.pcbTable p (f (k.pcbTable p)) }

def setThread (k : Kernel) (t : Nat) (f : Thread → Thread) : Kernel :=
  { k with threadTable := Function.update k.threadTable t (f (k.threadTable t)) }

def procNext (k : Kernel) (p : Nat) : Nat := (k.pcbTable p).next
def threadNext (k : Kernel) (t : Nat) : Nat := (k.threadTable t).next

/-- `*--sp = w` for each word of the list. -/
def pushWords (memory : Nat → Nat) (sp : Nat) : List Nat → (Nat → Nat) × Nat
  | [] => (memory, sp)
  | w :: ws => pushWords (Function.update memory (sp - 4) w) (sp - 4) ws

def clearPcb (p : Pcb) : Pcb :=
  { p with pid := 0, state := .zombie, esp := 0, stackTop := 0, entry := 0, totalTicks := 0, next := 0 }

def procInit (k : Kernel) : Kernel :=
  { forRange (fun i k => setProc k (i + 1) clearPcb) 0 maxProcesses k with currentProc := 0, nextPid := 1 }

def clearThread (t : Thread) : Thread :=
  { t with tid := 0, state := .unused, esp := 0, entry := 0, arg := 0, owner := 0, stackTop := 0,
           next := 0, waitNext := 0 }

def threadInit (c : Config) (k : Kernel) : Kernel :=
  { forRange (fun i k => setThread k (i + 1) clearThread) 0 c.maxThreads k with
    nextTid := 1, currentThread := 0 }

def schedulerInit (k : Kernel) : Kernel :=
  { k with readyHead := 0, current := 0, threadHead := 0, currentSchedThread := 0,
           currentKind := .none, preferThread := false, systemTicks := 0 }

/-- The walk to the last node; `none` when the list never comes back to its head. -/
def schedulerAddProcess (k : Kernel) (proc : Nat) : Option Kernel :=
  if proc = 0 then some k
  else if k.readyHead = 0 then
    some (setProc { k with readyHead := proc } proc (fun p => { p with next := proc }))
  else
    match walkToLast (procNext k) k.readyHead maxProcesses k.readyHead with
    | none => none
    | some last =>
        some (setProc (setProc k last (fun p => { p with next := proc })) proc
          (fun p => { p with next := k.readyHead }))

def schedulerAddThread (c : Config) (k : Kernel) (thread : Nat) : Option Kernel :=
  if thread = 0 then some k
  else if k.threadHead = 0 then
    some (setThread { k with threadHead := thread } thread (fun t => { t with next := thread }))
  else
    match walkToLast (threadNext k) k.threadHead c.maxThreads k.threadHead with
    | none => none
    | some last =>
        some (setThread (setThread k last (fun t => { t with next := thread })) thread
          (fun t => { t with next := k.threadHead }))

def findFreePcb (k : Kernel) : Nat :=
  match scan (fun i => (k.pcbTable (i + 1)).pid = 0) 0 maxProcesses with
  | some i => i + 1
  | none => 0

def processStackTop (c : Config) (proc : Nat) : Nat := c.processStacks + proc * processStackSize
def threadStackTop (c : Config) (thread : Nat) : Nat := c.threadStacks + thread * threadStackSize

/-- The IRET frame and the registers that `popad` restores. -/
def processFrame (entry : Nat) : List Nat := [0x202, 0x08, entry, 0, 0, 0, 0, 0, 0, 0, 0]

/-- The same under a C frame for `fn(arg)` that returns to `thread_return`. -/
def threadFrame (c : Config) (fn arg : Nat) : List Nat :=
  [arg, c.threadReturn, 0x202, 0x08, fn, 0, 0, 0, 0, 0, 0, 0, 0]

/-- `proc_create`: the new process, or null when the table is full. -/
def procCreate (c : Config) (k : Kernel) (entry : Nat) : Option (Kernel × Nat) :=
  let proc := findFreePcb k
  if proc = 0 then some (k, 0)
  else
    let top := processStackTop c proc
    let (memory, sp) := pushWords k.memory top (processFrame entry)
    let created := setProc { k with nextPid := inc32 k.nextPid, memory := memory } proc (fun p =>
      { p with pid := k.nextPid, state := .ready, entry := entry, totalTicks := 0, next := 0,
               stackTop := top, esp := sp })
    match schedulerAddProcess created proc with
    | none => none
    | some added => some (added, proc)

def procFind (k : Kernel) (pid : Nat) : Nat :=
  match scan (fun i => (k.pcbTable (i + 1)).pid = pid) 0 maxProcesses with
  | some i => i + 1
  | none => 0

/-- `proc_kill` up to its yield, which follows when the process is the current one. -/
def procKill (k : Kernel) (pid : Nat) : Kernel × Int :=
  let proc := procFind k pid
  if proc = 0 then (k, 0)
  else if (k.pcbTable proc).pid = 1 then (k, -1)
  else (setProc k proc (fun p => { p with state := .zombie }), 1)

/-- `proc_exit` up to its yield. -/
def procExit (k : Kernel) : Kernel :=
  if k.currentProc = 0 then k else setProc k k.currentProc (fun p => { p with state := .zombie })

def findFreeThread (c : Config) (k : Kernel) : Nat :=
  match scan (fun i => (k.threadTable (i + 1)).state = .unused) 0 c.maxThreads with
  | some i => i + 1
  | none => 0

def threadCreate (c : Config) (k : Kernel) (fn arg : Nat) : Option (Kernel × Nat) :=
  if fn = 0 then some (k, 0)
  else
    let thread := findFreeThread c k
    if thread = 0 then some (k, 0)
    else
      let top := threadStackTop c thread
      let (memory, sp) := pushWords k.memory top (threadFrame c fn arg)
      let created := setThread { k with nextTid := inc32 k.nextTid, memory := memory } thread (fun t =>
        { t with tid := k.nextTid, state := .ready, entry := fn, arg := arg, owner := k.currentProc,
                 stackTop := top, esp := sp, next := 0, waitNext := 0 })
      match schedulerAddThread c created thread with
      | none => none
      | some added => some (added, thread)

/-- `thread_exit` up to its yield. -/
def threadExit (k : Kernel) : Kernel :=
  if k.currentThread = 0 then k
  else setThread k k.currentThread (fun t => { t with state := .terminated })

def schedulerBlockThread (k : Kernel) (thread : Nat) : Kernel :=
  if thread = 0 then k else setThread k thread (fun t => { t with state := .blocked })

def schedulerUnblockThread (k : Kernel) (thread : Nat) : Kernel :=
  if thread = 0 then k
  else if (k.threadTable thread).state = .blocked then setThread k thread (fun t => { t with state := .ready })
  else k

/-- The node after the current one that is READY, once round the ring; null when
there is none. -/
def findNextProcess (k : Kernel) : Option Nat :=
  if k.readyHead = 0 then some 0
  else
    let next := if k.current ≠ 0 then procNext k k.current else k.readyHead
    if next = 0 then some 0
    else search (procNext k) (fun p => (k.pcbTable p).state = .ready) 0 next maxProcesses next

def findNextThread (c : Config) (k : Kernel) : Option Nat :=
  if k.threadHead = 0 then some 0
  else
    let next := if k.currentSchedThread ≠ 0 then threadNext k k.currentSchedThread else k.threadHead
    if next = 0 then some 0
    else search (threadNext k) (fun t => (k.threadTable t).state = .ready) 0 next c.maxThreads next

def savePcb (savedEsp : Nat) (p : Pcb) : Pcb :=
  { p with
    esp := savedEsp
    totalTicks := inc32 p.totalTicks
    state := if p.state = .running then .ready else p.state }

def saveThread (savedEsp : Nat) (t : Thread) : Thread :=
  { t with
    esp := savedEsp
    state := if t.state = .running then .ready else t.state }

/-- The first part of `scheduler_irq`: the running context is saved. -/
def saveContext (k : Kernel) (savedEsp : Nat) : Kernel :=
  if k.currentKind = .process ∧ k.current ≠ 0 then setProc k k.current (savePcb savedEsp)
  else if k.currentKind = .thread ∧ k.currentSchedThread ≠ 0 then
    setThread k k.currentSchedThread (saveThread savedEsp)
  else k

/-- The second part: `next_thread` and `next_proc`. -/
def chooseNext (c : Config) (k : Kernel) : Option (Nat × Nat) :=
  if k.preferThread then
    match findNextThread c k with
    | none => none
    | some 0 => (findNextProcess k).map (fun p => (0, p))
    | some t => some (t, 0)
  else
    match findNextProcess k with
    | none => none
    | some 0 => (findNextThread c k).map (fun t => (t, 0))
    | some p => some (0, p)

def runThread (k : Kernel) (thread : Nat) : Kernel × Nat :=
  let k := setThread { k with currentSchedThread := thread } thread (fun t => { t with state := .running })
  ({ k with currentKind := .thread, currentThread := thread, currentProc := (k.threadTable thread).owner },
    (k.threadTable thread).esp)

def runProcess (k : Kernel) (proc : Nat) : Kernel × Nat :=
  let k := setProc { k with current := proc } proc (fun p => { p with state := .running })
  ({ k with currentKind := .process, currentProc := proc, currentThread := 0 }, (k.pcbTable proc).esp)

/-- The state in which `scheduler_irq` looks for the next context. -/
def savedKernel (k : Kernel) (savedEsp : Nat) : Kernel :=
  saveContext { k with systemTicks := inc32 k.systemTicks } savedEsp

def togglePreference (k : Kernel) : Kernel := { k with preferThread := !k.preferThread }

/-- `scheduler_irq`: the next kernel state and the stack pointer to resume on. -/
def schedulerIrq (c : Config) (k : Kernel) (savedEsp : Nat) : Option (Kernel × Nat) :=
  match chooseNext c (savedKernel k savedEsp) with
  | none => none
  | some (nextThread, nextProc) =>
      let saved := togglePreference (savedKernel k savedEsp)
      if nextThread ≠ 0 then some (runThread saved nextThread)
      else if nextProc ≠ 0 then some (runProcess saved nextProc)
      else some (saved, savedEsp)

end SengKernel.Sched
