import SengKernel.ThreadPrograms

/- kernel/kernel.c, the semaphore demo: producers and consumers of a bounded buffer,
   for any number of threads and rounds. -/
namespace SengKernel.Sync
open Sched MachineWord Transition LinkedChain

def bufferSize : Nat := 4

/-- The numbers of the three semaphores. -/
def emptySem : Nat := 0
def fullSem : Nat := 1
def bufferMutex : Nat := 2

/-- The globals of the demo. The two lists of items are history. -/
structure Buffer where
  buffer : Int → Int
  bufferCount : Int
  semDone : Int
  inserted : Multiset Int
  extracted : Multiset Int

/-- The statements of `sem_producer` and `sem_consumer`, with their locals. -/
inductive SemPlace where
  -- sem_producer
  | produceTest (i : Nat)        -- i < 5
  | waitEmpty (i : Nat)          -- sem_wait(&empty_sem);
  | produceEnter (i : Nat)       -- sem_wait(&buffer_mutex);
  | store (i : Nat)              -- buffer[buffer_count] = id * 100 + i;
  | increment (i : Nat)          -- buffer_count++;
  | printInserted (i : Nat)      -- vga_printf(.., buffer[buffer_count - 1], ..);
  | produceLeave (i : Nat)       -- sem_signal(&buffer_mutex);
  | signalFull (i : Nat)         -- sem_signal(&full_sem);
  | produceYield (i : Nat)       -- scheduler_yield(); i++
  | produceDone                  -- sem_done++;
  | produceExit                  -- thread_exit();
  -- sem_consumer
  | consumeTest (i : Nat)        -- i < 10
  | waitFull (i : Nat)           -- sem_wait(&full_sem);
  | consumeEnter (i : Nat)       -- sem_wait(&buffer_mutex);
  | decrement (i : Nat)          -- buffer_count--;
  | load (i : Nat)               -- int item = buffer[buffer_count];
  | printExtracted (i : Nat) (item : Int)   -- vga_printf(.., item, ..);
  | consumeLeave (i : Nat)       -- sem_signal(&buffer_mutex);
  | signalEmpty (i : Nat)        -- sem_signal(&empty_sem);
  | consumeYield (i : Nat)       -- scheduler_yield(); i++
  | consumeDone                  -- sem_done++;
  | consumeExit                  -- thread_exit();
  deriving DecidableEq, Repr

/-- The argument and the number of rounds of a thread. -/
structure Job where
  id : Int
  rounds : Nat

def item (id : Int) (i : Nat) : Int := wrap32 (id * 100 + i)

def semThread (job : Nat → Job) (t : Nat) (p : SemPlace) (g : Buffer) : Statement Buffer SemPlace :=
  match p with
  | .produceTest i => .work g (if i < (job t).rounds then .waitEmpty i else .produceDone)
  | .waitEmpty i => .call (.wait emptySem) (.produceEnter i)
  | .produceEnter i => .call (.wait bufferMutex) (.store i)
  | .store i =>
      let x := item (job t).id i
      .work { g with buffer := Function.update g.buffer g.bufferCount x, inserted := x ::ₘ g.inserted } (.increment i)
  | .increment i => .work { g with bufferCount := wrap32 (g.bufferCount + 1) } (.printInserted i)
  | .printInserted i => .work g (.produceLeave i)
  | .produceLeave i => .call (.signal bufferMutex) (.signalFull i)
  | .signalFull i => .call (.signal fullSem) (.produceYield i)
  | .produceYield i => .yield (.produceTest (i + 1))
  | .produceDone => .work { g with semDone := wrap32 (g.semDone + 1) } .produceExit
  | .produceExit => .exit
  | .consumeTest i => .work g (if i < (job t).rounds then .waitFull i else .consumeDone)
  | .waitFull i => .call (.wait fullSem) (.consumeEnter i)
  | .consumeEnter i => .call (.wait bufferMutex) (.decrement i)
  | .decrement i => .work { g with bufferCount := wrap32 (g.bufferCount - 1) } (.load i)
  | .load i =>
      let x := g.buffer g.bufferCount
      .work { g with extracted := x ::ₘ g.extracted } (.printExtracted i x)
  | .printExtracted i _ => .work g (.consumeLeave i)
  | .consumeLeave i => .call (.signal bufferMutex) (.signalEmpty i)
  | .signalEmpty i => .call (.signal emptySem) (.consumeYield i)
  | .consumeYield i => .yield (.consumeTest (i + 1))
  | .consumeDone => .work { g with semDone := wrap32 (g.semDone + 1) } .consumeExit
  | .consumeExit => .exit

/-- The index of `buffer` that a statement reads or writes. -/
def accessed (p : SemPlace) (g : Buffer) : Option Int :=
  match p with
  | .store _ | .load _ => some g.bufferCount
  | .printInserted _ => some (g.bufferCount - 1)
  | _ => none

/-- The thread is past `sem_wait(&buffer_mutex)` and before the end of
`sem_signal(&buffer_mutex)`. -/
def SemPlace.guarded : SemPlace → Bool
  | .store _ | .increment _ | .printInserted _ | .produceLeave _ => true
  | .decrement _ | .load _ | .printExtracted _ _ | .consumeLeave _ => true
  | _ => false

def SemPlace.finished : SemPlace → Bool
  | .produceExit | .consumeExit => true
  | _ => false

def SemPlace.produces : SemPlace → Bool
  | .produceTest _ | .waitEmpty _ | .produceEnter _ | .store _ | .increment _ | .printInserted _ => true
  | .produceLeave _ | .signalFull _ | .produceYield _ | .produceDone | .produceExit => true
  | _ => false

abbrev BufferClient := Client Buffer SemPlace

/-- The thread's wait for the buffer has been granted. -/
def Granted (x : BufferClient) (t : Nat) : Prop := (x.place t).guarded = true ∧ threadState x.machine t ≠ .blocked

/-- The thread has come back from that wait. -/
def InGuarded (x : BufferClient) (t : Nat) : Prop := Granted x t ∧ ∀ q, ¬ Asleep x.machine q t

/-- The items in `buffer[0..n)`. -/
def stock (g : Buffer) (n : Nat) : Multiset Int := (Multiset.range n).map (fun i : Nat => g.buffer i)

/-- The items that the threads of a set are to produce. -/
def allItems (job : Nat → Job) (S : Finset Nat) : Multiset Int :=
  ∑ t ∈ S, (Multiset.range (job t).rounds).map (item (job t).id)

structure BufferStart (c : Config) (x : BufferClient) : Prop where
  machine : ∃ count, Initial c count x.machine ∧ count emptySem = bufferSize ∧ count fullSem = 0 ∧ count bufferMutex = 1
  place : ∀ t, x.place t = .produceTest 0 ∨ x.place t = .consumeTest 0
  count : x.data.bufferCount = 0
  inserted : x.data.inserted = 0
  extracted : x.data.extracted = 0

/-- What the demo promises, for the threads created so far. -/
structure BufferSafe (c : Config) (job : Nat → Job) (x : BufferClient) : Prop where
  bounds : 0 ≤ x.data.bufferCount ∧ x.data.bufferCount ≤ bufferSize
  access : Executing x.machine → ∀ i, accessed (x.place (running x.machine)) x.data = some i → 0 ≤ i ∧ i < bufferSize
  exclusive : ∀ t u, t ∈ threads c x.machine → u ∈ threads c x.machine → Granted x t → Granted x u → t = u
  conserved : (∀ t ∈ threads c x.machine, ¬ InGuarded x t) →
    x.data.inserted = x.data.extracted + stock x.data x.data.bufferCount.toNat
  finished : (∀ t ∈ threads c x.machine, (x.place t).finished = true) →
    (∑ t ∈ (threads c x.machine).filter (fun t => (x.place t).produces), (job t).rounds =
      ∑ t ∈ (threads c x.machine).filter (fun t => ¬ (x.place t).produces), (job t).rounds) →
    x.data.bufferCount = 0 ∧
      x.data.extracted = allItems job ((threads c x.machine).filter (fun t => (x.place t).produces))

end SengKernel.Sync
