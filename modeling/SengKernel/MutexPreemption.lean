import SengKernel.SyncPlaces
import SengKernel.HandoffLock

/- Mutual exclusion of one mutex under timer preemption. Threads repeat mutex_lock,
   a critical section, mutex_unlock; every run that interrupts neither half of the
   two-statement updates of `locked` and `owner` is a run of the hand-off lock. -/
namespace SengKernel.Sync
open Sched MachineWord Transition HandoffLock

/-- The machine with the history of one mutex: the threads that have returned from
`mutex_lock` and not yet called `mutex_unlock`. -/
structure Section where
  state : State
  inside : Nat → Bool

/-- The places of a call of `mutex_lock(m)`. -/
def Pc.inMutexLock (m : Nat) (p : Pc) : Bool :=
  (p.role = .acquiring || p.role = .asleep) && p.object = some (.mutex m)

/-- What a step of its own does to the history of a thread. -/
def insideAfter (m : Nat) (before after : Pc) (was : Bool) : Label → Bool
  | .stmt _ => was || (before.inMutexLock m && after.isIdle)
  | .call (.unlock j) => was && j ≠ m
  | _ => was

def sectionStep (c : Config) (m : Nat) (x : Section) (l : Label) : Option Section :=
  (step c x.state l).map (fun s =>
    { state := s
      inside := Function.update x.inside (running x.state)
        (insideAfter m (x.state.pc (running x.state)) (s.pc (running x.state)) (x.inside (running x.state)) l) })

def SectionStep (c : Config) (m : Nat) (x : Section) (l : Label) (y : Section) : Prop :=
  sectionStep c m x l = some y

/-- Threads that repeat lock, critical section, unlock. -/
def LocksAndUnlocks (m : Nat) (x : Section) : Label → Prop
  | .call op => (op = .lock m ∧ x.inside (running x.state) = false) ∨
      (op = .unlock m ∧ x.inside (running x.state) = true)
  | _ => True

/-- Between the test that found the mutex free and `locked = 1`, or between
`locked = 0` and `owner = 0`. -/
def Pc.halfway (m : Nat) : Pc → Bool
  | .lockTake j _ | .unlockDisown j => j = m
  | _ => false

def UncutFlag (m : Nat) (x : Section) (l : Label) : Prop :=
  isIrq l = true → (x.state.pc (running x.state)).halfway m = false

instance (m : Nat) (x : Section) (l : Label) : Decidable (LocksAndUnlocks m x l) := by
  cases l <;> unfold LocksAndUnlocks <;> infer_instance

instance (m : Nat) (x : Section) (l : Label) : Decidable (UncutFlag m x l) :=
  inferInstanceAs (Decidable (_ → _))

/-- What the users of the mutex rely on. -/
def Exclusive (m : Nat) (x : Section) : Prop :=
  ∀ t, x.inside t = true → x.state.owner m = t ∧ ∀ u, x.inside u = true → u = t

/-- The phase of a thread of the hand-off lock at its place in the code. -/
def phaseOf (inside : Bool) : Pc → Phase Nat
  | .idle => if inside then .holding else .out
  | .lockTake _ _ => .taking
  | .lockOwn _ _ => .entering
  | .linkTail _ _ | .blockTest _ _ | .block _ _ => .linked
  | .yield _ | .resumed _ => .asleep
  | .unlockTest _ | .unlockOwner _ | .unlockEmpty _ | .unlockFree _ => .holding
  | .unlockDisown _ => .disowning
  | .popNext _ => .finding
  | .popHead _ w => .popping w
  | .popTest _ w | .popTail _ w | .popClear _ w => .copying w
  | .unlockGive _ w => .handover w
  | .unlockRelock _ w | .wakeTest _ w | .wakeState _ w | .wake _ w => .handing w
  | _ => .out

/-- The machine as a hand-off lock. -/
def view (m : Nat) (x : Section) : Lock Nat where
  phase t := phaseOf (x.inside t) (x.state.pc t)
  locked := x.state.locked m
  owner := x.state.owner m
  head := x.state.waitHead (.mutex m)
  next := waitNext x.state
  blocked t := threadState x.state t = .blocked
  running := running x.state

/-- The invariant of the section. -/
structure Guarded (c : Config) (m : Nat) (x : Section) : Prop where
  only : Only (fun q => q = .mutex m) x.state
  inside : ∀ t, x.inside t = true → x.state.pc t = .idle
  lock : Inv (Slot c) (view m x)

section Statements

variable {c : Config} {m : Nat} {x : Section} {p : Pc}

/-- The section after the statement at `p` of the running thread. -/
def afterStmt (m : Nat) (x : Section) (p : Pc) : Section where
  state := exec x.state (running x.state) p
  inside := Function.update x.inside (running x.state)
    (insideAfter m p ((exec x.state (running x.state) p).pc (running x.state))
      (x.inside (running x.state)) (.stmt 0))

/-- The view after a statement: the new phase of its thread, and the fields. -/
theorem afterStmt_move {q : Phase Nat} {L : Lock Nat}
    (hq : phaseOf ((afterStmt m x p).inside (running x.state)) ((afterStmt m x p).state.pc (running x.state)) = q)
    (hphase : L.phase = (view m x).phase) (hlocked : (view m (afterStmt m x p)).locked = L.locked)
    (howner : (view m (afterStmt m x p)).owner = L.owner) (hhead : (view m (afterStmt m x p)).head = L.head)
    (hnext : (view m (afterStmt m x p)).next = L.next)
    (hblocked : (view m (afterStmt m x p)).blocked = L.blocked) (hrunning : L.running = running x.state) :
    view m (afterStmt m x p) = move L (running x.state) q := by
  refine Lock.ext ?_ hlocked howner hhead hnext hblocked ((exec_running _ _ _).trans hrunning.symm)
  funext u
  simp only [move, hphase]
  by_cases hu : u = running x.state
  · rw [hu, Function.update_self]
    exact hq
  · rw [Function.update_of_ne hu]
    simp only [view, afterStmt, exec_pc_of_ne _ _ hu, Function.update_of_ne hu]

/-- A statement that the lock cannot see. -/
theorem afterStmt_stutter (hp : x.state.pc (running x.state) = p)
    (hq : phaseOf ((afterStmt m x p).inside (running x.state)) ((afterStmt m x p).state.pc (running x.state)) =
      phaseOf (x.inside (running x.state)) p)
    (hlocked : (view m (afterStmt m x p)).locked = (view m x).locked)
    (howner : (view m (afterStmt m x p)).owner = (view m x).owner)
    (hhead : (view m (afterStmt m x p)).head = (view m x).head)
    (hnext : (view m (afterStmt m x p)).next = (view m x).next)
    (hblocked : (view m (afterStmt m x p)).blocked = (view m x).blocked) :
    view m (afterStmt m x p) = view m x := by
  rw [afterStmt_move hq rfl hlocked howner hhead hnext hblocked rfl]
  exact move_same (by rw [← hp]; rfl)

/-- A statement that writes one link. -/
theorem afterStmt_link {t u : Nat} {p' : Pc} {q : Phase Nat}
    (hexec : exec x.state (running x.state) p = goto (setWaitNext x.state t u) (running x.state) p')
    (hq : phaseOf ((afterStmt m x p).inside (running x.state)) p' = q) :
    view m (afterStmt m x p) =
      move { view m x with next := Function.update (waitNext x.state) t u } (running x.state) q := by
  have hstate : (afterStmt m x p).state = goto (setWaitNext x.state t u) (running x.state) p' := hexec
  have hnext : waitNext (afterStmt m x p).state = Function.update (waitNext x.state) t u := by
    rw [hstate]
    exact setWaitNext_links x.state t u
  have hblocked : (view m (afterStmt m x p)).blocked = (view m x).blocked := by
    funext v
    simp only [view, hstate]
    exact congrArg (· = ThreadState.blocked) (setWaitNext_threadState x.state t u v)
  refine afterStmt_move (L := { view m x with next := Function.update (waitNext x.state) t u })
    ?_ rfl ?_ ?_ ?_ hnext hblocked rfl
  · rw [hstate, goto_pc_self]
    exact hq
  all_goals
    simp only [view, hstate]
    rfl

/-- A statement that writes one thread state. -/
theorem afterStmt_threadState {t : Nat} {st : ThreadState} {p' : Pc} {q : Phase Nat}
    (hexec : exec x.state (running x.state) p = goto (setThreadState x.state t st) (running x.state) p')
    (hq : phaseOf ((afterStmt m x p).inside (running x.state)) p' = q) :
    view m (afterStmt m x p) =
      move { view m x with blocked := Function.update (view m x).blocked t (st = .blocked) } (running x.state) q := by
  have hstate : (afterStmt m x p).state = goto (setThreadState x.state t st) (running x.state) p' := hexec
  have hnext : waitNext (afterStmt m x p).state = waitNext x.state := by
    rw [hstate]
    exact funext (fun v => setThreadState_waitNext x.state t v st)
  have hblocked : (view m (afterStmt m x p)).blocked =
      Function.update (view m x).blocked t (st = .blocked) := by
    funext v
    have hthread : threadState (afterStmt m x p).state v = if v = t then st else threadState x.state v := by
      rw [hstate]
      exact setThreadState_threadState x.state t v st
    rw [Function.update_apply]
    simp only [view, hthread]
    split <;> rfl
  refine afterStmt_move (L := { view m x with blocked := Function.update (view m x).blocked t (st = .blocked) })
    ?_ rfl ?_ ?_ ?_ hnext hblocked rfl
  · rw [hstate, goto_pc_self]
    exact hq
  all_goals
    simp only [view, hstate]
    rfl

/-- Every statement of the running thread is a move of the lock or none. -/
theorem stmt_move (h : Guarded c m x) {np nt : Nat} (hbase : Base c x.state np nt) (hrun : running x.state ≠ 0)
    (hp : x.state.pc (running x.state) = p) (hidle : p.isIdle = false) (hyield : ∀ q, p ≠ .yield q) :
    view m (afterStmt m x p) = view m x ∨ Move (Slot c) (view m x) (view m (afterStmt m x p)) := by
  have hout : x.inside (running x.state) = false := by
    cases hin : x.inside (running x.state) with
    | false => rfl
    | true =>
        rw [← hp, h.inside _ hin] at hidle
        cases hidle
  have hcur : ∀ cur, p.current = some cur → cur = running x.state := hp ▸ hbase.current _
  have hobj : ∀ q, p.object = some q → q = .mutex m := hp ▸ h.only _
  have hslot : Slot c (running x.state) :=
    ⟨(hbase.running_created hrun).1, hbase.running_le⟩
  have hphase : (view m x).phase (running x.state) = phaseOf false p := by simp only [view, hp, hout]
  have hstatus := h.lock.status_at hphase
  cases p with
  | idle => cases hidle
  | yield q => exact (hyield q rfl).elim
  | lockEntry j =>
      exact Or.inl (afterStmt_stutter hp (by simp [afterStmt, exec, phaseOf]) rfl rfl rfl rfl rfl)
  | lockNull j cur =>
      have : cur ≠ 0 := hcur cur rfl ▸ hrun
      exact Or.inl (afterStmt_stutter hp (by simp [afterStmt, exec, phaseOf, this]) rfl rfl rfl rfl rfl)
  | lockTest j cur =>
      obtain rfl : j = m := by simpa using hobj _ rfl
      cases hlocked : x.state.locked j with
      | true =>
          exact Or.inl (afterStmt_stutter hp (by simp [afterStmt, exec, phaseOf, hlocked]) rfl rfl rfl rfl rfl)
      | false =>
          rw [afterStmt_move (L := view j x) (q := .taking) (by simp [afterStmt, exec, phaseOf, hlocked])
            rfl rfl rfl rfl rfl rfl rfl]
          exact Or.inr (Move.take _ rfl hslot hphase hlocked)
  | lockTake j cur =>
      obtain rfl : j = m := by simpa using hobj _ rfl
      have hset : (view j (afterStmt j x (.lockTake j cur))).locked = true := Function.update_self ..
      rw [afterStmt_move (L := { view j x with locked := true }) (q := .entering)
        (by simp [afterStmt, exec, phaseOf]) rfl hset rfl rfl rfl rfl rfl]
      exact Or.inr (Move.lock _ hphase)
  | lockOwn j cur =>
      obtain rfl : j = m := by simpa using hobj _ rfl
      have hown : (view j (afterStmt j x (.lockOwn j cur))).owner = running x.state :=
        (Function.update_self ..).trans (hcur cur rfl)
      rw [afterStmt_move (L := { view j x with owner := running x.state }) (q := .holding)
        (by simp [afterStmt, exec, phaseOf, insideAfter, Pc.inMutexLock, Pc.role, Pc.object, Pc.isIdle])
        rfl rfl hown rfl rfl rfl rfl]
      exact Or.inr (Move.enter _ hphase)
  | lockOwned j cur =>
      obtain rfl : j = m := by simpa using hobj _ rfl
      have hnot : x.state.owner j ≠ cur := by
        rw [hcur cur rfl]
        exact (h.lock.out_unlisted hslot hphase).2
      exact Or.inl (afterStmt_stutter hp (by simp [afterStmt, exec, phaseOf, hnot]) rfl rfl rfl rfl rfl)
  | linkClear q cur =>
      obtain rfl := hobj q rfl
      rw [afterStmt_link rfl (q := .out) (by simp [phaseOf])]
      have hsame : move { view m x with next := Function.update (waitNext x.state) cur 0 } (running x.state) .out =
          { view m x with next := Function.update (waitNext x.state) cur 0 } := move_same hphase
      rw [hsame]
      refine Or.inr (Move.forget _ (fun y => ?_))
      rw [Function.update_apply]
      split
      · exact Or.inr rfl
      · exact Or.inl rfl
  | linkTest q cur =>
      refine Or.inl (afterStmt_stutter hp ?_ rfl rfl rfl rfl rfl)
      simp only [afterStmt, exec, goto_pc_self]
      split <;> rfl
  | linkHead q cur =>
      obtain rfl := hobj q rfl
      have hhead : (view m (afterStmt m x (.linkHead (.mutex m) cur))).head = running x.state :=
        (Function.update_self ..).trans (hcur cur rfl)
      rw [afterStmt_move (L := { view m x with head := running x.state }) (q := .linked)
        (by simp [afterStmt, exec, phaseOf]) rfl rfl rfl hhead rfl rfl rfl]
      exact Or.inr (Move.linkHead _ hslot hphase)
  | linkNext q cur =>
      obtain rfl := hcur cur rfl
      rw [afterStmt_link rfl (q := .linked) (by simp [phaseOf])]
      exact Or.inr (Move.linkNext _ (x.state.waitTail q) hslot hphase)
  | linkTail q cur => exact Or.inl (afterStmt_stutter hp (by simp [afterStmt, exec, phaseOf]) rfl rfl rfl rfl rfl)
  | blockTest q cur =>
      have : cur ≠ 0 := hcur cur rfl ▸ hrun
      exact Or.inl (afterStmt_stutter hp (by simp [afterStmt, exec, phaseOf, this]) rfl rfl rfl rfl rfl)
  | block q cur =>
      obtain rfl := hcur cur rfl
      rw [afterStmt_threadState rfl (q := .asleep) (by simp [phaseOf]), eq_self]
      exact Or.inr (Move.sleep _ hphase)
  | resumed q =>
      obtain rfl := hobj q rfl
      have hawake : ¬ (view m x).blocked (running x.state) := fun hblocked => by
        obtain ⟨q', hq'⟩ := hbase.awake hrun hblocked
        rw [hp] at hq'
        cases hq'
      rw [afterStmt_move (L := view m x) (q := .holding)
        (by simp [afterStmt, exec, phaseOf, insideAfter, Pc.inMutexLock, Pc.role, Pc.object, Pc.isIdle])
        rfl rfl rfl rfl rfl rfl rfl]
      exact Or.inr (Move.resume _ hphase hawake)
  | unlockTest j =>
      obtain rfl : j = m := by simpa using hobj _ rfl
      have hlocked : x.state.locked j = true := hstatus.1
      exact Or.inl (afterStmt_stutter hp (by simp [afterStmt, exec, phaseOf, hlocked]) rfl rfl rfl rfl rfl)
  | unlockOwner j =>
      obtain rfl : j = m := by simpa using hobj _ rfl
      have howner : x.state.owner j = x.state.kernel.currentThread := hstatus.2
      exact Or.inl (afterStmt_stutter hp (by simp [afterStmt, exec, phaseOf, howner]) rfl rfl rfl rfl rfl)
  | unlockEmpty j =>
      obtain rfl : j = m := by simpa using hobj _ rfl
      by_cases hhead : x.state.waitHead (.mutex j) = 0
      · exact Or.inl (afterStmt_stutter hp (by simp [afterStmt, exec, phaseOf, hhead]) rfl rfl rfl rfl rfl)
      · rw [afterStmt_move (L := view j x) (q := .finding) (by simp [afterStmt, exec, phaseOf, hhead])
          rfl rfl rfl rfl rfl rfl rfl]
        exact Or.inr (Move.find _ hphase hhead)
  | unlockFree j =>
      obtain rfl : j = m := by simpa using hobj _ rfl
      have hset : (view j (afterStmt j x (.unlockFree j))).locked = false := Function.update_self ..
      rw [afterStmt_move (L := { view j x with locked := false }) (q := .disowning)
        (by simp [afterStmt, exec, phaseOf]) rfl hset rfl rfl rfl rfl rfl]
      exact Or.inr (Move.free _ rfl hphase)
  | unlockDisown j =>
      obtain rfl : j = m := by simpa using hobj _ rfl
      have hown : (view j (afterStmt j x (.unlockDisown j))).owner = 0 := Function.update_self ..
      rw [afterStmt_move (L := { view j x with owner := 0 }) (q := .out)
        (by simp [afterStmt, exec, phaseOf, insideAfter, Pc.inMutexLock, Pc.role, hout])
        rfl rfl hown rfl rfl rfl rfl]
      exact Or.inr (Move.disown _ hphase)
  | unlockGive j next =>
      obtain rfl : j = m := by simpa using hobj _ rfl
      have hown : (view j (afterStmt j x (.unlockGive j next))).owner = next := Function.update_self ..
      rw [afterStmt_move (L := { view j x with owner := next }) (q := .handing next)
        (by simp [afterStmt, exec, phaseOf]) rfl rfl hown rfl rfl rfl rfl]
      exact Or.inr (Move.give _ next hphase)
  | unlockRelock j next =>
      obtain rfl : j = m := by simpa using hobj _ rfl
      have hset : (view j (afterStmt j x (.unlockRelock j next))).locked = (view j x).locked :=
        (Function.update_self ..).trans hstatus.1.symm
      exact Or.inl (afterStmt_stutter hp (by simp [afterStmt, exec, phaseOf]) hset rfl rfl rfl rfl)
  | popNext q =>
      obtain rfl := hobj q rfl
      rw [afterStmt_move (L := view m x) (q := .popping (view m x).head) (by simp [afterStmt, exec, phaseOf, view])
        rfl rfl rfl rfl rfl rfl rfl]
      exact Or.inr (Move.pop _ hphase)
  | popHead q next =>
      obtain rfl := hobj q rfl
      have hhead : (view m (afterStmt m x (.popHead (.mutex m) next))).head = (view m x).next next :=
        Function.update_self ..
      rw [afterStmt_move (L := { view m x with head := (view m x).next next }) (q := .copying next)
        (by simp [afterStmt, exec, phaseOf]) rfl rfl rfl hhead rfl rfl rfl]
      exact Or.inr (Move.shift _ next hphase)
  | popTest q next =>
      refine Or.inl (afterStmt_stutter hp ?_ rfl rfl rfl rfl rfl)
      simp only [afterStmt, exec, goto_pc_self]
      split <;> rfl
  | popTail q next => exact Or.inl (afterStmt_stutter hp (by simp [afterStmt, exec, phaseOf]) rfl rfl rfl rfl rfl)
  | popClear q next =>
      obtain rfl := hobj q rfl
      rw [afterStmt_link rfl (q := .handover next) (by simp [phaseOf])]
      exact Or.inr (Move.cut _ next hphase)
  | wakeTest q next =>
      obtain rfl := hobj q rfl
      have : next ≠ 0 := by
        rintro rfl
        have hwait := hstatus.2.2
        refine h.lock.nullSlot (h.lock.slots 0 (fun hzero => ?_))
        rw [hzero] at hwait
        cases hwait
      exact Or.inl (afterStmt_stutter hp (by simp [afterStmt, exec, phaseOf, this]) rfl rfl rfl rfl rfl)
  | wakeState q next =>
      by_cases hblocked : threadState x.state next = .blocked
      · exact Or.inl (afterStmt_stutter hp (by simp [afterStmt, exec, phaseOf, hblocked]) rfl rfl rfl rfl rfl)
      · rw [afterStmt_move (L := view m x) (q := .out)
          (by simp [afterStmt, exec, phaseOf, hblocked, insideAfter, Pc.inMutexLock, Pc.role, hout])
          rfl rfl rfl rfl rfl rfl rfl]
        exact Or.inr (Move.skip _ next hphase)
  | wake q next =>
      have hawake : (ThreadState.ready = .blocked) = False := eq_false (by decide)
      rw [afterStmt_threadState rfl (q := .out)
        (by simp [afterStmt, exec, phaseOf, insideAfter, Pc.inMutexLock, Pc.role, hout]), hawake]
      exact Or.inr (Move.wake _ next hphase)
  | waitEntry i | waitNull i cur | waitTest i cur | waitTake i cur | signalTest i | signalInc i =>
      cases hobj _ rfl

end Statements

/-- The phases and the fields are all that the view keeps. -/
theorem view_of_kernel {m : Nat} {x : Section} {s : State} (hframe : s = { x.state with kernel := s.kernel })
    (hblocked : ∀ t, threadState s t = .blocked ↔ threadState x.state t = .blocked) :
    view m { x with state := s } =
      { view m x with next := waitNext s, running := running s } := by
  have hb : (view m { x with state := s }).blocked = (view m x).blocked := funext (fun t => propext (hblocked t))
  rw [hframe] at hb ⊢
  exact Lock.ext rfl rfl rfl rfl rfl hb rfl

theorem Guarded.interrupted {c : Config} {m : Nat} {x : Section} {s : State} (h : Guarded c m x)
    (hirq : Interrupted x.state s) (huncut : (x.state.pc (running x.state)).halfway m = false) :
    Guarded c m { x with state := s } := by
  have hpc : s.pc = x.state.pc := by rw [hirq.frame]
  refine ⟨fun t q hq => h.only t q (hpc ▸ hq), fun t ht => hpc ▸ h.inside t ht, ?_⟩
  have hnext : waitNext s = (view m x).next := funext hirq.waitNext
  rw [view_of_kernel hirq.frame hirq.blocked, hnext]
  -- the running thread is neither taking nor disowning
  refine Move.inv h.lock (Move.switch (running s) ?_ ?_) <;> intro hphase
  all_goals
    have hp : phaseOf (x.inside (running x.state)) (x.state.pc (running x.state)) = _ := hphase
    have hobj := h.only (running x.state)
    cases hpc : x.state.pc (running x.state) <;> rw [hpc] at hp huncut hobj <;> simp only [phaseOf] at hp <;>
      (try split at hp) <;> cases hp
    have := hobj _ rfl
    simp_all [Pc.halfway]

/-- A thread that moves within its phase. -/
theorem view_goto {m : Nat} {x : Section} {t : Nat} {p : Pc} {b : Bool}
    (hphase : phaseOf b p = phaseOf (x.inside t) (x.state.pc t)) :
    view m ⟨goto x.state t p, Function.update x.inside t b⟩ = view m x := by
  refine Lock.ext ?_ rfl rfl rfl rfl rfl rfl
  funext u
  simp only [view]
  by_cases hu : u = t
  · rw [hu, goto_pc_self, Function.update_self]
    exact hphase
  · rw [goto_pc_of_ne _ _ hu, Function.update_of_ne hu]

theorem guarded_step {c : Config} {m : Nat} {x y : Section} {l : Label} (h : Guarded c m x)
    (hbase : ∃ np nt, Base c x.state np nt) (hcalls : LocksAndUnlocks m x l) (huncut : UncutFlag m x l)
    (hstep : SectionStep c m x l y) : Guarded c m y := by
  obtain ⟨s', hs', rfl⟩ := Option.map_eq_some_iff.mp hstep
  have honly : Only (fun q => q = .mutex m) s' := by
    refine only_step h.only (fun op hop => ?_) hbase hs'
    subst hop
    rcases hcalls with ⟨rfl, _⟩ | ⟨rfl, _⟩ <;> rfl
  obtain ⟨np, nt, hbase⟩ := hbase
  rcases step_cases hs' with ⟨e, rfl, hirq⟩ | ⟨fn, arg, rfl, hcreate⟩ | ⟨op, rfl, hrun, hidle, rfl⟩ |
    ⟨e, q, rfl, hrun, hp, hirq⟩ | ⟨e, rfl, hrun, hidle, hyield, rfl⟩
  · have hspec := (interrupt_spec hbase.coherent hirq).2
    simp only [insideAfter, Function.update_eq_self]
    exact h.interrupted hspec (huncut rfl)
  · obtain ⟨_, _, _, hspawn⟩ := create_spec hbase.coherent hcreate
    have hpc : s'.pc = x.state.pc := by rw [hspawn.frame]
    simp only [insideAfter, Function.update_eq_self]
    refine ⟨honly, fun t ht => hpc ▸ h.inside t ht, ?_⟩
    rw [view_of_kernel hspawn.frame hspawn.blocked, hspawn.running]
    exact Move.inv h.lock (Move.forget (waitNext s') (fun t => (hspawn.waitNext t).imp id And.right))
  · have hidle := Pc.eq_idle hidle
    have hnot : insideAfter m (x.state.pc (running x.state)) (entry op) (x.inside (running x.state)) (.call op) =
        false := by
      rcases hcalls with ⟨rfl, hin⟩ | ⟨rfl, hin⟩ <;> simp [insideAfter, hin]
    rw [goto_pc_self, hnot]
    refine ⟨honly, fun t ht => ?_, ?_⟩
    · by_cases htr : t = running x.state
      · rw [htr] at ht
        simp only [Function.update_self, Bool.false_eq_true] at ht
      · simp only [Function.update_of_ne htr] at ht
        exact (goto_pc_of_ne _ _ htr).trans (h.inside t ht)
    · rw [view_goto]
      · exact h.lock
      · rw [hidle]
        rcases hcalls with ⟨rfl, hin⟩ | ⟨rfl, hin⟩ <;> rw [hin] <;> rfl
  · let mid : Section := ⟨goto x.state (running x.state) (.resumed q), x.inside⟩
    have hmid : Guarded c m mid := by
      refine ⟨h.only.goto (fun q' hq' => h.only (running x.state) q' (by rw [hp]; exact hq')), fun t ht => ?_, ?_⟩
      · by_cases htr : t = running x.state
        · have := h.inside t ht
          rw [htr, hp] at this
          cases this
        · exact (goto_pc_of_ne _ _ htr).trans (h.inside t ht)
      · have hview := view_goto (m := m) (x := x) (t := running x.state) (p := .resumed q)
          (b := x.inside (running x.state)) (by rw [hp]; rfl)
        rw [Function.update_eq_self] at hview
        rw [hview]
        exact h.lock
    have hspec := (interrupt_spec (s := mid.state) hbase.coherent hirq).2
    have hpc : s'.pc (running x.state) = .resumed q := by
      rw [hspec.frame]
      exact goto_pc_self _ _ _
    have hcut : (mid.state.pc (running mid.state)).halfway m = false := by
      rw [show mid.state.pc (running mid.state) = .resumed q from goto_pc_self _ _ _]
      rfl
    simp only [insideAfter, hpc, Pc.isIdle, Bool.and_false, Bool.or_false, Function.update_eq_self]
    exact hmid.interrupted hspec hcut
  · refine ⟨honly, fun t ht => ?_, ?_⟩
    · by_cases htr : t = running x.state
      · rw [htr] at ht ⊢
        simp only [Function.update_self, insideAfter, Bool.or_eq_true, Bool.and_eq_true] at ht
        rcases ht with hwas | ⟨_, hafter⟩
        · rw [h.inside _ hwas] at hidle
          cases hidle
        · exact Pc.eq_idle hafter
      · simp only [Function.update_of_ne htr] at ht
        exact (exec_pc_of_ne _ _ htr).trans (h.inside t ht)
    · rcases stmt_move h hbase hrun rfl hidle hyield with hview | hmove
      · exact hview.symm ▸ h.lock
      · exact Move.inv h.lock hmove

/-- A section opened on a freshly initialised machine. -/
structure Outside (c : Config) (x : Section) : Prop where
  initial : ∃ count, Initial c count x.state
  inside : x.inside = fun _ => false

theorem outside_guarded {c : Config} {m : Nat} {x : Section} (h : Outside c x) : Guarded c m x := by
  obtain ⟨count, hinit⟩ := h.initial
  have hout : ∀ t, (view m x).phase t = .out := by
    intro t
    simp only [view, hinit.pc, h.inside, phaseOf, Bool.false_eq_true, if_false]
  have hnext : ∀ t, Slot c t → waitNext x.state t = 0 := by
    obtain ⟨_, hboot⟩ := hinit.boot
    exact fun t ht => hboot.waitNext ht.1 ht.2
  have hhead : (view m x).head = 0 := congrFun hinit.waitHead (.mutex m)
  refine ⟨fun t q hq => ?_, fun t ht => ?_, ?_⟩
  · rw [hinit.pc] at hq
    cases hq
  · rw [h.inside] at ht
    cases ht
  · refine ⟨fun hzero => absurd hzero.1 (by decide), fun t ht => (ht (hout t)).elim, ?_, ?_, ?_, ?_, ?_, ?_, ?_⟩
    · intro t u ht
      rw [hout t] at ht
      cases ht
    · intro t
      rw [hout t]
      trivial
    · exact fun _ => Or.inl ⟨congrFun hinit.locked m, congrFun hinit.owner m⟩
    · intro t ht
      rw [hout t] at ht
      cases ht
    · rintro w hw (hlist | ⟨t, ht, hlist⟩)
      · exact (hw (hlist.symm.trans hhead)).elim
      · exact (hw (hlist.symm.trans (hnext t ht))).elim
    · exact fun t _ ht _ _ hne => (hne (hnext t ht)).elim
    · exact fun _ _ _ hne => (hne hhead).elim

/-- In every run whose interrupts spare the two halves of taking and of freeing the
mutex, at most one thread is inside, and it is the owner. -/
theorem exclusive_of_uncut {c : Config} {m : Nat} {x y : Section} (outside : Outside c x) {labels : List Label}
    (run : Run (When (fun x l => LocksAndUnlocks m x l ∧ UncutFlag m x l) (SectionStep c m)) x labels y) :
    Exclusive m y := by
  have h : (∃ np nt, Base c y.state np nt) ∧ Guarded c m y := by
    refine run.invariant (I := fun x => (∃ np nt, Base c x.state np nt) ∧ Guarded c m x) ?_ ?_
    · intro x l y hx step
      obtain ⟨s', hs', hy⟩ := Option.map_eq_some_iff.mp step.2
      exact ⟨hy ▸ base_step hx.1 hs', guarded_step hx.2 hx.1 step.1.1 step.1.2 step.2⟩
    · obtain ⟨count, hinit⟩ := outside.initial
      exact ⟨⟨3, 0, hinit.base⟩, outside_guarded outside⟩
  have hholding : ∀ t, y.inside t = true → (view m y).phase t = .holding := by
    intro t ht
    simp only [view, h.2.inside t ht, ht, phaseOf, if_true]
  intro t ht
  obtain ⟨howner, honly⟩ := h.2.lock.exclusive (hholding t ht)
  exact ⟨howner, fun u hu => honly u (hholding u hu)⟩

def outsideSample : Section := ⟨sampleState 0, fun _ => false⟩

theorem outsideSample_outside : Outside sampleConfig outsideSample := ⟨⟨_, sampleState_initial 0⟩, rfl⟩

/-- Thread 2 finds the mutex taken and blocks; thread 1 hands it over. -/
def handedOver : List Label :=
  startTwo ++ [.call (.lock 0)] ++ steps 5 ++ switchThread ++ [.call (.lock 0)] ++ steps 11 ++
    [.irq 0, .call (.unlock 0)] ++ steps 13 ++ switchThread ++ steps 1

theorem exclusive_of_uncut_sample :
    ∃ y, Run (When (fun x l => LocksAndUnlocks 0 x l ∧ UncutFlag 0 x l) (SectionStep sampleConfig 0))
      outsideSample handedOver y ∧ Exclusive 0 y := by
  have hsome : (execute (guarded (fun x l => LocksAndUnlocks 0 x l ∧ UncutFlag 0 x l)
      (sectionStep sampleConfig 0)) outsideSample handedOver).isSome = true := by decide +kernel
  obtain ⟨y, hy⟩ := Option.isSome_iff_exists.mp hsome
  have run := run_of_execute_guarded hy
  exact ⟨y, run, exclusive_of_uncut outsideSample_outside run⟩

/-- Thread 1 is interrupted after its test of `locked`; thread 2 enters; thread 1 enters. -/
def enteredTwice : List Label :=
  startTwo ++ [.call (.lock 0)] ++ steps 3 ++ switchThread ++ [.call (.lock 0)] ++ steps 5 ++
    switchThread ++ steps 2

/-- Two threads are inside one mutex, and only one of them is its owner. -/
theorem entered_twice :
    ∃ y, Run (When (LocksAndUnlocks 0) (SectionStep sampleConfig 0)) outsideSample enteredTwice y ∧
      ¬ Exclusive 0 y := by
  have hsome : ((execute (guarded (LocksAndUnlocks 0) (sectionStep sampleConfig 0)) outsideSample
      enteredTwice).map (fun y => (y.inside 1, y.inside 2))) = some (true, true) := by decide +kernel
  obtain ⟨y, hy, hinside⟩ := Option.map_eq_some_iff.mp hsome
  refine ⟨y, run_of_execute_guarded hy, fun hsafe => ?_⟩
  have h1 : y.inside 1 = true := congrArg Prod.fst hinside
  have h2 : y.inside 2 = true := congrArg Prod.snd hinside
  exact absurd ((hsafe 1 h1).2 2 h2) (by decide)

end SengKernel.Sync
