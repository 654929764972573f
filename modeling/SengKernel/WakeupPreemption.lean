import SengKernel.SyncPlaces

/- Wait queues under timer preemption, for any mutexes and semaphores at once. As long
   as no interrupt falls inside an update of a queue, every BLOCKED thread is on the
   queue of its object, or was just taken off by a call that is about to wake it. -/
namespace SengKernel.Sync
open Sched MachineWord Transition LinkedRing

/-- The thread that a call in progress has taken off a queue and not yet unblocked. -/
def Pc.removes : Pc → Option Nat
  | .popTest _ x | .popTail _ x | .popClear _ x => some x
  | .unlockGive _ x | .unlockRelock _ x => some x
  | .wakeTest _ x | .wakeState _ x | .wake _ x => some x
  | _ => none

/-- On a queue, but not yet BLOCKED. -/
def Pc.linking : Pc → Bool
  | .linkTail _ _ | .blockTest _ _ | .block _ _ => true
  | _ => false

/-- Inside an update: from the test of `wait_head` to the waiter's BLOCKED, from
the test of `wait_head` to its new value, and between the test and the write of a
`wait_tail` that is given up. -/
def Pc.updating : Pc → Bool
  | .linkHead _ _ | .linkNext _ _ | .linkTail _ _ | .blockTest _ _ | .block _ _ => true
  | .popNext _ | .popHead _ _ | .popTail _ _ => true
  | _ => false

theorem Pc.updating_of_linking {p : Pc} (h : p.linking = true) : p.updating = true := by
  cases p <;> first | rfl | cases h

theorem Pc.acquiring_of_linking {p : Pc} (h : p.linking = true) : p.role = .acquiring := by
  cases p <;> first | rfl | cases h

def UncutUpdate (s : State) (l : Label) : Prop :=
  isIrq l = true → (s.pc (running s)).updating = false

instance (s : State) (l : Label) : Decidable (UncutUpdate s l) := inferInstanceAs (Decidable (_ → _))

/-- The chain from `wait_head` to the first null passes `x`. -/
def InQueue (s : State) (q : Object) (x : Nat) : Prop :=
  ∃ l, x ∈ l ∧ 0 ∉ l ∧ Path (waitNext s) (s.waitHead q) l 0

/-- Every BLOCKED thread waits on a queue, or in the hands of a call that wakes it,
whose own thread is not BLOCKED. -/
def NoLostWakeup (c : Config) (s : State) : Prop :=
  ∀ x, Slot c x → threadState s x = .blocked →
    (∃ q, InQueue s q x) ∨ ∃ t, (s.pc t).removes = some x ∧ threadState s t ≠ .blocked

/-- A removed thread sleeps, on no queue. -/
def InTransit (s : State) (l : Object → List Nat) (x : Nat) : Prop :=
  threadState s x = .blocked ∧ (s.pc x).role = .asleep ∧ ∀ q, x ∉ l q

/-- What the place of a thread says of the queues. -/
def Place (s : State) (l : Object → List Nat) (t : Nat) : Pc → Prop
  | .linkTest _ _ => waitNext s t = 0
  | .linkHead q _ => t = running s ∧ l q = [] ∧ waitNext s t = 0
  | .linkNext q _ => t = running s ∧ l q ≠ [] ∧ waitNext s t = 0
  | .linkTail q _ => t = running s ∧ (l q).getLast? = some t
  | .blockTest q _ | .block q _ => t = running s ∧ t ∈ l q
  | .popNext q => t = running s ∧ l q ≠ []
  | .popHead q x => t = running s ∧ (l q).head? = some x
  | .popTail q x => t = running s ∧ l q = [] ∧ InTransit s l x
  | .popTest _ x | .popClear _ x => InTransit s l x
  | .unlockGive _ x | .unlockRelock _ x => InTransit s l x
  | .wakeTest _ x | .wakeState _ x | .wake _ x => InTransit s l x
  | _ => True

/-- A thread on the queue of `q` works on `q`, and sleeps or is on its way there. -/
def Member (s : State) (q : Object) (x : Nat) : Prop :=
  (s.pc x).object = some q ∧
    (((s.pc x).role = .asleep ∧ threadState s x = .blocked) ∨ (x = running s ∧ (s.pc x).linking = true))

/-- The invariant, with the queues as lists. -/
structure Queued (c : Config) (s : State) (l : Object → List Nat) : Prop where
  place : ∀ t, Place s l t (s.pc t)
  path : ∀ q, Path (waitNext s) (s.waitHead q) (l q) 0
  tail : ∀ q x, (l q).getLast? = some x → s.waitTail q = x ∨ ∃ cur, s.pc (running s) = .linkTail q cur
  nodup : ∀ q, (l q).Nodup
  member : ∀ q x, x ∈ l q → Member s q x
  once : ∀ t u x, (s.pc t).removes = some x → (s.pc u).removes = some x → t = u
  found : ∀ x, Slot c x → threadState s x = .blocked → (∃ q, x ∈ l q) ∨ ∃ t, (s.pc t).removes = some x

/-- A thread in a removal holds the thread it names in transit. -/
theorem Place.transit {s : State} {l : Object → List Nat} {t x : Nat} {p : Pc} (h : Place s l t p)
    (hp : p.removes = some x) : InTransit s l x := by
  cases p <;> cases hp <;> first | exact h | exact h.2.2

theorem Pc.releasing_of_removes {p : Pc} {x : Nat} (hp : p.removes = some x) : p.role = .releasing := by
  cases p <;> first | rfl | cases hp

section Steps

variable {c : Config} {s s' : State} {l : Object → List Nat}

theorem Queued.disjoint (h : Queued c s l) {q q' : Object} {x : Nat} (hq : x ∈ l q) (hq' : x ∈ l q') : q = q' :=
  Option.some.inj ((h.member q x hq).1.symm.trans (h.member q' x hq').1)

/-- A thread elsewhere than asleep or linking is on no queue. -/
theorem Queued.not_member (h : Queued c s l) {t : Nat} {p : Pc} (hp : s.pc t = p) (hasleep : p.role ≠ .asleep)
    (hlinking : p.linking = false) (q : Object) : t ∉ l q := by
  intro ht
  rcases (h.member q t ht).2 with ⟨hrole, _⟩ | ⟨_, hlink⟩
  · rw [hp] at hrole
    exact hasleep hrole
  · rw [hp, hlinking] at hlink
    cases hlink

/-- Neither is a thread that is not BLOCKED. -/
theorem Queued.awake_not_member (h : Queued c s l) {t : Nat} {p : Pc} (hp : s.pc t = p)
    (hawake : threadState s t ≠ .blocked) (hlinking : p.linking = false) (q : Object) : t ∉ l q := by
  intro ht
  rcases (h.member q t ht).2 with ⟨_, hblocked⟩ | ⟨_, hlink⟩
  · exact hawake hblocked
  · rw [hp, hlinking] at hlink
    cases hlink

/-- Where a BLOCKED thread is, seen from the running thread at `p`. -/
theorem Queued.whereabouts (h : Queued c s l) {p : Pc} (hp : s.pc (running s) = p) {x : Nat} (hslot : Slot c x)
    (hx : threadState s x = .blocked) :
    (∃ q, x ∈ l q) ∨ p.removes = some x ∨ ∃ t, t ≠ running s ∧ (s.pc t).removes = some x := by
  rcases h.found x hslot hx with hq | ⟨t, ht⟩
  · exact Or.inl hq
  · by_cases htr : t = running s
    · exact Or.inr (Or.inl (by rw [← hp, ← htr]; exact ht))
    · exact Or.inr (Or.inr ⟨t, htr, ht⟩)

/-- `wait_tail` is right except between the link and its own write. -/
theorem Queued.tail_eq (h : Queued c s l) {p : Pc} (hp : s.pc (running s) = p) {q : Object} {x : Nat}
    (hnotTail : ∀ cur, p ≠ .linkTail q cur) (hx : (l q).getLast? = some x) : s.waitTail q = x :=
  (h.tail q x hx).resolve_right (fun ⟨cur, hcur⟩ => hnotTail cur (hp.symm.trans hcur))

/-- Only a thread inside an update names the running thread. -/
theorem Place.of_running {t : Nat} {p : Pc} (h : Place s l t p) (hp : p.updating = true) : t = running s := by
  cases p <;> first | exact h.1 | cases hp

/-- A step of the scheduler, or the creation of a thread. -/
theorem Queued.scheduled (h : Queued c s l) (hframe : s' = { s with kernel := s'.kernel })
    (hrun : (s.pc (running s)).updating = true → running s' = running s)
    (hnext : ∀ t, waitNext s' t = waitNext s t ∨ (threadState s t = .unused ∧ waitNext s' t = 0))
    (hblocked : ∀ t, threadState s' t = .blocked ↔ threadState s t = .blocked)
    (hused : ∀ t, (s.pc t).isIdle = false → threadState s t ≠ .unused) : Queued c s' l := by
  have hpc : s'.pc = s.pc := by rw [hframe]
  have hhead : s'.waitHead = s.waitHead := by rw [hframe]
  have htail : s'.waitTail = s.waitTail := by rw [hframe]
  have hzero : ∀ t, waitNext s t = 0 → waitNext s' t = 0 := fun t ht =>
    (hnext t).elim (fun hsame => hsame.trans ht) (fun hnew => hnew.2)
  have hrunning : ∀ t, (s.pc t).updating = true → t = running s → t = running s' := by
    rintro t hup rfl
    exact (hrun hup).symm
  have htransit : ∀ x, InTransit s l x → InTransit s' l x := fun x hx =>
    ⟨(hblocked x).mpr hx.1, by rw [hpc]; exact hx.2.1, hx.2.2⟩
  refine ⟨fun t => ?_, fun q => ?_, fun q x hx => ?_, h.nodup, fun q x hx => ?_, ?_, fun x hslot hx => ?_⟩
  · have hplace := h.place t
    have hr := hrunning t
    rw [hpc]
    cases hp : s.pc t <;> rw [hp] at hplace hr <;> first
      | trivial
      | exact htransit _ hplace
      | exact hzero t hplace
      | exact ⟨hr rfl hplace.1, hplace.2.1, htransit _ hplace.2.2⟩
      | exact ⟨hr rfl hplace.1, hplace.2.1, hzero t hplace.2.2⟩
      | exact ⟨hr rfl hplace.1, hplace.2⟩
  · rw [hhead]
    refine (h.path q).congr (fun x hx => (hnext x).resolve_right (fun hnew => ?_))
    refine hused x ?_ hnew.1
    have hobj := (h.member q x hx).1
    cases hp : s.pc x with
    | idle => rw [hp] at hobj; cases hobj
    | _ => rfl
  · rw [htail]
    refine (h.tail q x hx).imp id (fun ⟨cur, hcur⟩ => ⟨cur, ?_⟩)
    rw [hpc, hrun (by rw [hcur]; rfl)]
    exact hcur
  · obtain ⟨hobj, hsleep⟩ := h.member q x hx
    rw [Member, hpc, hblocked]
    exact ⟨hobj, hsleep.imp id (fun hlink =>
      ⟨hrunning x (Pc.updating_of_linking hlink.2) hlink.1, hlink.2⟩)⟩
  · rw [hpc]
    exact h.once
  · rw [hpc]
    exact h.found x hslot ((hblocked x).mp hx)

/-- A step of the running thread to `p`, with the queues as they are then. -/
theorem Queued.advance {l' : Object → List Nat} (h : Queued c s l) {p : Pc}
    (hrunning : running s' = running s) (hpc : s'.pc = Function.update s.pc (running s) p)
    (hself : Place s' l' (running s) p)
    (hnext : ∀ t, t ≠ running s → (∀ q, t ∉ l q) → waitNext s t = 0 → waitNext s' t = 0)
    (htransit : ∀ t x, t ≠ running s → (s.pc t).removes = some x → InTransit s l x → InTransit s' l' x)
    (hpath : ∀ q, Path (waitNext s') (s'.waitHead q) (l' q) 0)
    (htail : ∀ q x, (l' q).getLast? = some x → s'.waitTail q = x ∨ ∃ cur, p = .linkTail q cur)
    (hnodup : ∀ q, (l' q).Nodup) (hmember : ∀ q x, x ∈ l' q → Member s' q x)
    (honce : ∀ x, p.removes = some x → (s.pc (running s)).removes = some x ∨ ∃ q, x ∈ l q)
    (hfound : ∀ x, Slot c x → threadState s' x = .blocked → (∃ q, x ∈ l' q) ∨ p.removes = some x ∨
      ∃ t, t ≠ running s ∧ (s.pc t).removes = some x) : Queued c s' l' := by
  have hself' : s'.pc (running s) = p := by rw [hpc, Function.update_self]
  have hother : ∀ t, t ≠ running s → s'.pc t = s.pc t := fun t ht => by rw [hpc, Function.update_of_ne ht]
  -- two removals of one thread would be one removal
  have hnot : ∀ t x, t ≠ running s → p.removes = some x → (s.pc t).removes ≠ some x := by
    intro t x ht hx htx
    rcases honce x hx with hr | ⟨q, hq⟩
    · exact ht (h.once t _ x htx hr)
    · exact ((h.place t).transit htx).2.2 q hq
  refine ⟨fun t => ?_, hpath, fun q x hx => ?_, hnodup, hmember, fun t u x ht hu => ?_,
    fun x hslot hx => ?_⟩
  · by_cases ht : t = running s
    · rw [ht, hself']
      exact hself
    · have hplace := h.place t
      have hup : (s.pc t).updating = false := by
        cases hup : (s.pc t).updating with
        | false => rfl
        | true => exact (ht (hplace.of_running hup)).elim
      rw [hother t ht]
      cases hp : s.pc t <;> rw [hp] at hplace hup <;> first
        | trivial
        | exact htransit t _ ht (by rw [hp]; rfl) hplace
        | exact hnext t ht (h.not_member hp nofun rfl) hplace
  · rw [hrunning, hself']
    exact htail q x hx
  · by_cases htr : t = running s <;> by_cases hur : u = running s
    · exact htr.trans hur.symm
    · rw [htr, hself'] at ht
      rw [hother u hur] at hu
      exact (hnot u x hur ht hu).elim
    · rw [hur, hself'] at hu
      rw [hother t htr] at ht
      exact (hnot t x htr hu ht).elim
    · rw [hother t htr] at ht
      rw [hother u hur] at hu
      exact h.once t u x ht hu
  · rcases hfound x hslot hx with hq | hp | ⟨t, ht, htx⟩
    · exact Or.inl hq
    · exact Or.inr ⟨running s, hself' ▸ hp⟩
    · exact Or.inr ⟨t, (hother t ht).symm ▸ htx⟩

/-- While the running thread is awake, those in transit are others. -/
theorem InTransit.congr {l' : Object → List Nat} {p : Pc} {x : Nat} (h : InTransit s l x)
    (hawake : threadState s (running s) ≠ .blocked) (hpc : s'.pc = Function.update s.pc (running s) p)
    (hstate : threadState s' x = threadState s x) (hl : ∀ q, x ∈ l' q → x ∈ l q) : InTransit s' l' x := by
  have hx : x ≠ running s := by
    rintro rfl
    exact hawake h.1
  exact ⟨hstate.trans h.1, by rw [hpc, Function.update_of_ne hx]; exact h.2.1, fun q hq => h.2.2 q (hl q hq)⟩

theorem Member.congr {p : Pc} {q : Object} {x : Nat} (h : Member s q x) (hx : x ≠ running s)
    (hpc : s'.pc = Function.update s.pc (running s) p) (hstate : threadState s' x = threadState s x) :
    Member s' q x := by
  have hsame : s'.pc x = s.pc x := by rw [hpc, Function.update_of_ne hx]
  rw [Member, hsame, hstate]
  exact ⟨h.1, Or.inl (h.2.resolve_right (fun hlink => hx hlink.1))⟩

/-- A statement that changes no queue. -/
theorem Queued.stay (h : Queued c s l) {p p' : Pc} (hp : s.pc (running s) = p)
    (hawake : threadState s (running s) ≠ .blocked) (hkernel : s'.kernel = s.kernel)
    (hhead : s'.waitHead = s.waitHead) (htail : s'.waitTail = s.waitTail)
    (hpc : s'.pc = Function.update s.pc (running s) p') (hself : Place s l (running s) p')
    (hremoves : p'.removes = p.removes) (hnotTail : ∀ q cur, p ≠ .linkTail q cur)
    (hlink : ∀ q, running s ∈ l q → p'.object = some q ∧ p'.linking = true) : Queued c s' l := by
  have hnext : waitNext s' = waitNext s := by funext t; rw [waitNext, hkernel, waitNext]
  have hstate : ∀ t, threadState s' t = threadState s t := fun t => by rw [threadState, hkernel, threadState]
  have hrunning : running s' = running s := by rw [running, hkernel, running]
  have htransit : ∀ x, InTransit s l x → InTransit s' l x :=
    fun x hx => hx.congr hawake hpc (hstate x) (fun _ => id)
  refine h.advance hrunning hpc ?_ (fun t _ _ hzero => by rw [hnext]; exact hzero) (fun _ x _ _ => htransit x)
    (fun q => by rw [hnext, hhead]; exact h.path q) (fun q x hx => ?_) h.nodup (fun q x hx => ?_)
    (fun x hx => Or.inl (by rw [hp]; exact hremoves ▸ hx)) (fun x hslot hx => ?_)
  · cases p' <;> first
      | trivial
      | exact htransit _ hself
      | exact ⟨hself.1.trans hrunning.symm, hself.2.1, htransit _ hself.2.2⟩
      | exact ⟨hself.1.trans hrunning.symm, hself.2.1, by rw [hnext]; exact hself.2.2⟩
      | exact ⟨hself.1.trans hrunning.symm, hself.2⟩
      | exact (congrFun hnext _).trans hself
  · rw [htail]
    exact Or.inl (h.tail_eq hp (hnotTail q) hx)
  · by_cases hxr : x = running s
    · subst x
      obtain ⟨hobj, hl⟩ := hlink q hx
      have hsame : s'.pc (running s) = p' := by rw [hpc, Function.update_self]
      exact ⟨hsame ▸ hobj, Or.inr ⟨hrunning.symm, hsame ▸ hl⟩⟩
    · exact (h.member q x hx).congr hxr hpc (hstate x)
  · rw [hstate] at hx
    rw [hremoves]
    exact h.whereabouts hp hslot hx

/-- `wait_next = 0` for a thread on no queue. -/
theorem Queued.clear (h : Queued c s l) {p p' : Pc} {u : Nat} (hp : s.pc (running s) = p)
    (hawake : threadState s (running s) ≠ .blocked) (hu : ∀ q, u ∉ l q)
    (hself : Place (goto (setWaitNext s u 0) (running s) p') l (running s) p')
    (hremoves : p'.removes = p.removes) (hnotTail : ∀ q cur, p ≠ .linkTail q cur)
    (hlink : ∀ q, running s ∉ l q) : Queued c (goto (setWaitNext s u 0) (running s) p') l := by
  have hnext : ∀ t, waitNext (goto (setWaitNext s u 0) (running s) p') t = if t = u then 0 else waitNext s t :=
    setWaitNext_waitNext s u 0
  have hstate := setWaitNext_threadState s u 0
  refine h.advance rfl rfl hself (fun t _ _ hzero => ?_)
    (fun _ x _ _ hx => hx.congr hawake rfl (hstate x) (fun _ => id)) (fun q => ?_) (fun q x hx => ?_) h.nodup
    (fun q x hx => ?_) (fun x hx => Or.inl (by rw [hp]; exact hremoves ▸ hx)) (fun x hslot hx => ?_)
  · rw [hnext, hzero, ite_self]
  · refine (h.path q).congr (fun x hx => ?_)
    rw [hnext, if_neg]
    rintro rfl
    exact hu q hx
  · exact Or.inl (h.tail_eq hp (hnotTail q) hx)
  · have hxr : x ≠ running s := by
      rintro rfl
      exact hlink q hx
    exact (h.member q x hx).congr hxr rfl (hstate x)
  · have hx : threadState s x = .blocked := (hstate x).symm.trans hx
    rw [hremoves]
    exact h.whereabouts hp hslot hx

/-- The running thread joins the end of a queue; how the links change is left open. -/
theorem Queued.join (h : Queued c s l) {p : Pc} {q : Object} {cur : Nat} (hp : s.pc (running s) = p)
    (hawake : threadState s (running s) ≠ .blocked) (hremoves : p.removes = none)
    (hnotTail : ∀ q cur, p ≠ .linkTail q cur) (hlink : ∀ q, running s ∉ l q) (hrunning : running s' = running s)
    (hpc : s'.pc = Function.update s.pc (running s) (.linkTail q cur))
    (hstate : ∀ t, threadState s' t = threadState s t) (htail : s'.waitTail = s.waitTail)
    (hnext : ∀ t, t ≠ running s → (∀ q, t ∉ l q) → waitNext s t = 0 → waitNext s' t = 0)
    (hpath : ∀ q', Path (waitNext s') (s'.waitHead q') (Function.update l q (l q ++ [running s]) q') 0) :
    Queued c s' (Function.update l q (l q ++ [running s])) := by
  have hmem : ∀ q' x, x ∈ Function.update l q (l q ++ [running s]) q' → x ∈ l q' ∨ (q' = q ∧ x = running s) := by
    intro q' x hx
    by_cases hq : q' = q
    · subst q'
      rw [Function.update_self, List.mem_append, List.mem_singleton] at hx
      exact hx.imp id (fun hx => ⟨rfl, hx⟩)
    · rw [Function.update_of_ne hq] at hx
      exact Or.inl hx
  have hkeep : ∀ q' x, x ∈ l q' → x ∈ Function.update l q (l q ++ [running s]) q' := by
    intro q' x hx
    by_cases hq : q' = q
    · subst q'
      rw [Function.update_self]
      exact List.mem_append_left _ hx
    · rwa [Function.update_of_ne hq]
  refine h.advance hrunning hpc ⟨hrunning.symm, ?_⟩ hnext (fun _ x _ _ hx => ?_) hpath (fun q' x hx => ?_)
    (fun q' => ?_) (fun q' x hx => ?_) nofun (fun x hslot hx => ?_)
  · rw [Function.update_self, List.getLast?_concat]
  · refine hx.congr hawake hpc (hstate x) (fun q' hq' => ?_)
    rcases hmem q' x hq' with hold | ⟨_, rfl⟩
    · exact hold
    · exact (hawake hx.1).elim
  · by_cases hq : q' = q
    · exact Or.inr ⟨cur, hq ▸ rfl⟩
    · rw [Function.update_of_ne hq] at hx
      rw [htail]
      exact Or.inl (h.tail_eq hp (hnotTail q') hx)
  · by_cases hq : q' = q
    · subst q'
      rw [Function.update_self]
      rw [← List.concat_eq_append]
      exact (h.nodup q).concat (hlink q)
    · rw [Function.update_of_ne hq]
      exact h.nodup q'
  · rcases hmem q' x hx with hold | ⟨rfl, rfl⟩
    · have hxr : x ≠ running s := by
        rintro rfl
        exact hlink q' hold
      exact (h.member q' x hold).congr hxr hpc (hstate x)
    · have hsame : s'.pc (running s) = .linkTail q' cur := by rw [hpc, Function.update_self]
      rw [Member, hsame]
      exact ⟨rfl, Or.inr ⟨hrunning.symm, rfl⟩⟩
  · rw [hstate] at hx
    refine (h.whereabouts hp hslot hx).imp (fun ⟨q', hq'⟩ => ⟨q', hkeep q' x hq'⟩) (fun hw => ?_)
    rw [hremoves] at hw
    exact hw

/-- A statement that writes a tail only. -/
theorem Queued.retail (h : Queued c s l) {p p' : Pc} {q : Object} {u : Nat} (hp : s.pc (running s) = p)
    (hawake : threadState s (running s) ≠ .blocked)
    (hself : Place (goto (setTail s q u) (running s) p') l (running s) p') (hremoves : p'.removes = p.removes)
    (hu : ∀ x, (l q).getLast? = some x → x = u) (hother : ∀ q' cur, p = .linkTail q' cur → q' = q)
    (hlink : ∀ q', running s ∈ l q' → p'.object = some q' ∧ p'.linking = true) :
    Queued c (goto (setTail s q u) (running s) p') l := by
  refine h.advance rfl rfl hself (fun _ _ _ hzero => hzero)
    (fun _ x _ _ hx => hx.congr hawake rfl rfl (fun _ => id)) h.path (fun q' x hx => ?_) h.nodup
    (fun q' x hx => ?_) (fun x hx => Or.inl (by rw [hp]; exact hremoves ▸ hx)) (fun x hslot hx => ?_)
  · by_cases hq : q' = q
    · subst q'
      exact Or.inl ((Function.update_self ..).trans (hu x hx).symm)
    · exact Or.inl ((Function.update_of_ne hq ..).trans
        (h.tail_eq hp (fun cur heq => hq (hother q' cur heq)) hx))
  · by_cases hxr : x = running s
    · subst x
      obtain ⟨hobj, hl⟩ := hlink q' hx
      have hsame : (goto (setTail s q u) (running s) p').pc (running s) = p' := goto_pc_self ..
      rw [Member, hsame]
      exact ⟨hobj, Or.inr ⟨rfl, hl⟩⟩
    · exact (h.member q' x hx).congr hxr rfl rfl
  · rw [hremoves]
    exact h.whereabouts hp hslot hx

/-- The waiter, already on the queue, stops itself. -/
theorem Queued.block (h : Queued c s l) {q : Object} (hp : s.pc (running s) = .block q (running s))
    (hawake : threadState s (running s) ≠ .blocked) :
    Queued c (goto (setThreadState s (running s) .blocked) (running s) (.yield q)) l := by
  obtain ⟨_, hmem⟩ : Place s l (running s) (.block q (running s)) := hp ▸ h.place (running s)
  have hobj : ∀ q', running s ∈ l q' → q' = q := fun q' hq' => h.disjoint hq' hmem
  have hstate := setThreadState_threadState s (running s)
  have hother : ∀ x, x ≠ running s →
      threadState (goto (setThreadState s (running s) .blocked) (running s) (.yield q)) x = threadState s x :=
    fun x hx => (hstate x .blocked).trans (if_neg hx)
  have hnext : waitNext (goto (setThreadState s (running s) .blocked) (running s) (.yield q)) = waitNext s :=
    funext (fun t => setThreadState_waitNext s (running s) t .blocked)
  refine h.advance rfl rfl trivial (fun _ _ _ hzero => by rw [hnext]; exact hzero) (fun _ x _ _ hx => ?_)
    (fun q' => by rw [hnext]; exact h.path q') (fun q' x hx => ?_) h.nodup (fun q' x hx => ?_) nofun
    (fun x hslot hx => ?_)
  · have hxr : x ≠ running s := by
      rintro rfl
      exact hawake hx.1
    exact hx.congr hawake rfl (hother x hxr) (fun _ => id)
  · exact Or.inl (h.tail_eq hp nofun hx)
  · by_cases hxr : x = running s
    · subst x
      have hsame : (goto (setThreadState s (running s) .blocked) (running s) (.yield q)).pc (running s) =
          .yield q := goto_pc_self ..
      rw [Member, hsame, hobj q' hx]
      exact ⟨rfl, Or.inl ⟨rfl, (hstate (running s) .blocked).trans (if_pos rfl)⟩⟩
    · exact (h.member q' x hx).congr hxr rfl (hother x hxr)
  · by_cases hxr : x = running s
    · exact Or.inl ⟨q, hxr ▸ hmem⟩
    · rw [hother x hxr] at hx
      exact h.whereabouts hp hslot hx

/-- The head of a queue is taken off. -/
theorem Queued.pop (h : Queued c s l) {q : Object} {x : Nat} (hp : s.pc (running s) = .popHead q x)
    (hawake : threadState s (running s) ≠ .blocked) :
    Queued c (goto (setHead s q (waitNext s x)) (running s) (.popTest q x)) (Function.update l q (l q).tail) := by
  obtain ⟨_, hhead⟩ : Place s l (running s) (.popHead q x) := hp ▸ h.place (running s)
  obtain ⟨rest, hl⟩ : ∃ rest, l q = x :: rest := List.head?_eq_some_iff.mp hhead
  have hx : x ∈ l q := hl ▸ List.mem_cons_self ..
  have hnodup := h.nodup q
  rw [hl, List.nodup_cons] at hnodup
  have hmem : ∀ q' y, y ∈ Function.update l q (l q).tail q' → y ∈ l q' := by
    intro q' y hy
    by_cases hq : q' = q
    · subst q'
      rw [Function.update_self] at hy
      exact List.mem_of_mem_tail hy
    · rwa [Function.update_of_ne hq] at hy
  have hgone : ∀ q', x ∉ Function.update l q (l q).tail q' := by
    intro q' hq'
    have heq := h.disjoint (hmem q' x hq') hx
    subst q'
    rw [Function.update_self, hl] at hq'
    exact hnodup.1 hq'
  have hplain : ∀ q', running s ∉ l q' := h.not_member hp nofun rfl
  have hsleep : (s.pc x).role = .asleep ∧ threadState s x = .blocked := by
    refine (h.member q x hx).2.resolve_right (fun hlink => ?_)
    exact hplain q (hlink.1 ▸ hx)
  have hxr : x ≠ running s := fun heq => hplain q (heq ▸ hx)
  refine h.advance rfl rfl ⟨hsleep.2, ?_, hgone⟩ (fun _ _ _ hzero => hzero)
    (fun _ y _ _ hy => hy.congr hawake rfl rfl (fun q' => hmem q' y)) (fun q' => ?_) (fun q' y hy => ?_)
    (fun q' => ?_) (fun q' y hy => ?_) (fun y hy => ?_) (fun y hslot hy => ?_)
  · rw [goto_pc_of_ne _ _ hxr]
    exact hsleep.1
  · by_cases hq : q' = q
    · subst q'
      have hpath := h.path q
      rw [hl] at hpath
      change Path (waitNext s) (Function.update s.waitHead q (waitNext s x) q) _ 0
      rw [Function.update_self, Function.update_self, hl]
      exact hpath.2
    · change Path (waitNext s) (Function.update s.waitHead q (waitNext s x) q') _ 0
      rw [Function.update_of_ne hq, Function.update_of_ne hq]
      exact h.path q'
  · have hlast : (l q').getLast? = some y := by
      by_cases hq : q' = q
      · subst q'
        rw [Function.update_self, hl, List.tail_cons] at hy
        rw [hl, List.getLast?_cons, hy]
        rfl
      · rwa [Function.update_of_ne hq] at hy
    exact Or.inl (h.tail_eq hp nofun hlast)
  · by_cases hq : q' = q
    · subst q'
      rw [Function.update_self, hl]
      exact hnodup.2
    · rw [Function.update_of_ne hq]
      exact h.nodup q'
  · have hyr : y ≠ running s := by
      rintro rfl
      exact hplain q' (hmem q' _ hy)
    exact (h.member q' y (hmem q' y hy)).congr hyr rfl rfl
  · cases hy
    exact Or.inr ⟨q, hx⟩
  · rcases h.whereabouts hp hslot hy with ⟨q', hq'⟩ | hw | hw
    · by_cases hyx : y = x
      · exact Or.inr (Or.inl (hyx ▸ rfl))
      · refine Or.inl ⟨q', ?_⟩
        by_cases hq : q' = q
        · subst q'
          rw [hl, List.mem_cons] at hq'
          rw [Function.update_self, hl]
          exact hq'.resolve_left hyx
        · rwa [Function.update_of_ne hq]
    · cases hw
    · exact Or.inr (Or.inr hw)

/-- The call ends its removal: the thread it took off is READY. -/
theorem Queued.wake (h : Queued c s l) {q : Object} {x : Nat} (hp : s.pc (running s) = .wake q x)
    (hawake : threadState s (running s) ≠ .blocked) :
    Queued c (goto (setThreadState s x .ready) (running s) .idle) l := by
  have htransit : InTransit s l x := by
    have hplace := h.place (running s)
    rw [hp] at hplace
    exact hplace
  have hstate := setThreadState_threadState s x
  have hother : ∀ y, y ≠ x →
      threadState (goto (setThreadState s x .ready) (running s) .idle) y = threadState s y :=
    fun y hy => (hstate y .ready).trans (if_neg hy)
  have hnext : waitNext (goto (setThreadState s x .ready) (running s) .idle) = waitNext s :=
    funext (fun t => setThreadState_waitNext s x t .ready)
  have hplain : ∀ q', running s ∉ l q' := h.not_member hp nofun rfl
  refine h.advance rfl rfl trivial (fun _ _ _ hzero => by rw [hnext]; exact hzero) (fun t y ht hy hin => ?_)
    (fun q' => by rw [hnext]; exact h.path q') (fun q' y hy => ?_) h.nodup (fun q' y hy => ?_) nofun
    (fun y hslot hy => ?_)
  · have hyx : y ≠ x := by
      rintro rfl
      exact ht (h.once t (running s) y hy (by rw [hp]; rfl))
    exact hin.congr hawake rfl (hother y hyx) (fun _ => id)
  · exact Or.inl (h.tail_eq hp nofun hy)
  · have hyx : y ≠ x := by
      rintro rfl
      exact htransit.2.2 q' hy
    have hyr : y ≠ running s := by
      rintro rfl
      exact hplain q' hy
    exact (h.member q' y hy).congr hyr rfl (hother y hyx)
  · have hyx : y ≠ x := by
      rintro rfl
      have := (hstate y .ready).trans (if_pos rfl)
      rw [show threadState (goto (setThreadState s y .ready) (running s) .idle) y = .ready from this] at hy
      cases hy
    rw [hother y hyx] at hy
    refine (h.whereabouts hp hslot hy).imp id (fun hw => Or.inr (hw.resolve_left (fun heq => ?_)))
    exact hyx (Option.some.inj heq).symm

/-- A plain statement of a thread that is on no queue. -/
theorem Queued.move (h : Queued c s l) {p p' : Pc} (hp : s.pc (running s) = p)
    (hawake : threadState s (running s) ≠ .blocked) (hlinking : p.linking = false)
    (hpc : s'.pc = Function.update s.pc (running s) p')
    (hsame : s'.kernel = s.kernel ∧ s'.waitHead = s.waitHead ∧ s'.waitTail = s.waitTail)
    (hself : Place s l (running s) p') (hremoves : p'.removes = p.removes) : Queued c s' l := by
  refine h.stay hp hawake hsame.1 hsame.2.1 hsame.2.2 hpc hself hremoves (fun q cur heq => ?_) (fun q hq => ?_)
  · rw [heq] at hlinking
    cases hlinking
  · exact (h.awake_not_member hp hawake hlinking q hq).elim

/-- The yield gives up the CPU; the thread stays on its queue. -/
theorem Queued.yielded (h : Queued c s l) {q : Object} (hp : s.pc (running s) = .yield q) :
    Queued c (goto s (running s) (.resumed q)) l := by
  have hsleep : ∀ x, (s.pc x).role = .asleep → ((goto s (running s) (.resumed q)).pc x).role = .asleep := by
    intro x hx
    by_cases hxr : x = running s
    · subst x
      rw [goto_pc_self]
      rfl
    · rwa [goto_pc_of_ne _ _ hxr]
  refine h.advance rfl rfl trivial (fun _ _ _ hzero => hzero)
    (fun _ x _ _ hx => ⟨hx.1, hsleep x hx.2.1, hx.2.2⟩) h.path (fun q' x hx => ?_) h.nodup (fun q' x hx => ?_)
    nofun (fun x hslot hx => ?_)
  · exact Or.inl (h.tail_eq hp nofun hx)
  · obtain ⟨hobj, hwhere⟩ := h.member q' x hx
    by_cases hxr : x = running s
    · subst x
      rw [hp] at hobj hwhere
      have hblocked := (hwhere.resolve_right (fun hlink => nomatch hlink.2)).2
      rw [Member, goto_pc_self]
      exact ⟨hobj, Or.inl ⟨rfl, hblocked⟩⟩
    · rw [Member, goto_pc_of_ne _ _ hxr]
      exact ⟨hobj, hwhere⟩
  · exact h.whereabouts hp hslot hx

section Records

variable {np nt : Nat}

/-- Waiters are created threads, so none of them is null. -/
theorem Queued.member_ne_zero (h : Queued c s l) (hbase : Base c s np nt) {q : Object} {x : Nat}
    (hx : x ∈ l q) : x ≠ 0 := by
  have hobj := (h.member q x hx).1
  refine Nat.ne_of_gt (hbase.created x ?_).1
  cases hp : s.pc x with
  | idle => rw [hp] at hobj; cases hobj
  | _ => rfl

theorem InTransit.ne_zero {x : Nat} (h : InTransit s l x) (hbase : Base c s np nt) : x ≠ 0 := by
  refine Nat.ne_of_gt (hbase.created x ?_).1
  have hrole := h.2.1
  cases hp : s.pc x with
  | idle => rw [hp] at hrole; cases hrole
  | _ => rfl

/-- `wait_head` is null exactly when nobody waits. -/
theorem Queued.head_eq_zero (h : Queued c s l) (hbase : Base c s np nt) (q : Object) :
    s.waitHead q = 0 ↔ l q = [] := by
  have hpath := h.path q
  cases hl : l q with
  | nil =>
      rw [hl] at hpath
      exact iff_of_true hpath rfl
  | cons x xs =>
      rw [hl] at hpath
      refine iff_of_false (fun hzero => ?_) (List.cons_ne_nil x xs)
      exact h.member_ne_zero hbase (hl ▸ List.mem_cons_self ..) (hpath.1.symm.trans hzero)

theorem Queued.head?_eq (h : Queued c s l) {q : Object} (hl : l q ≠ []) : (l q).head? = some (s.waitHead q) := by
  have hpath := h.path q
  cases hq : l q with
  | nil => exact (hl hq).elim
  | cons x xs =>
      rw [hq] at hpath
      rw [hpath.1]
      rfl

/-- `wait_head = current` on an empty queue. -/
theorem Queued.joinEmpty (h : Queued c s l) {q : Object} (hp : s.pc (running s) = .linkHead q (running s))
    (hawake : threadState s (running s) ≠ .blocked) :
    Queued c (goto (setHead s q (running s)) (running s) (.linkTail q (running s)))
      (Function.update l q (l q ++ [running s])) := by
  obtain ⟨_, hempty, hzero⟩ : Place s l (running s) (.linkHead q (running s)) := hp ▸ h.place (running s)
  refine h.join hp hawake rfl nofun (h.awake_not_member hp hawake rfl) rfl rfl (fun _ => rfl) rfl
    (fun _ _ _ hz => hz) (fun q' => ?_)
  change Path (waitNext s) (Function.update s.waitHead q (running s) q') _ 0
  by_cases hq : q' = q
  · subst q'
    rw [Function.update_self, Function.update_self, hempty]
    exact ⟨rfl, hzero⟩
  · rw [Function.update_of_ne hq, Function.update_of_ne hq]
    exact h.path q'

/-- `wait_tail->wait_next = current` on a queue with waiters. -/
theorem Queued.joinLast (h : Queued c s l) {q : Object} (hp : s.pc (running s) = .linkNext q (running s))
    (hawake : threadState s (running s) ≠ .blocked) :
    Queued c (goto (setWaitNext s (s.waitTail q) (running s)) (running s) (.linkTail q (running s)))
      (Function.update l q (l q ++ [running s])) := by
  obtain ⟨_, hfull, hzero⟩ : Place s l (running s) (.linkNext q (running s)) := hp ▸ h.place (running s)
  have hplain : ∀ q', running s ∉ l q' := h.awake_not_member hp hawake rfl
  obtain ⟨xs, last, hl⟩ : ∃ xs last, l q = xs ++ [last] :=
    ⟨_, _, (List.dropLast_append_getLast hfull).symm⟩
  have hlast : s.waitTail q = last := by
    exact h.tail_eq hp nofun (by rw [hl, List.getLast?_concat])
  have hmem : last ∈ l q := hl ▸ List.mem_append_right xs (List.mem_singleton_self last)
  have hnext : ∀ t, waitNext (goto (setWaitNext s (s.waitTail q) (running s)) (running s)
      (.linkTail q (running s))) t = if t = last then running s else waitNext s t := by
    intro t
    rw [← hlast]
    exact setWaitNext_waitNext s (s.waitTail q) (running s) t
  refine h.join hp hawake rfl nofun hplain rfl rfl (setWaitNext_threadState s (s.waitTail q) (running s)) rfl
    (fun t _ ht hz => ?_) (fun q' => ?_)
  · rw [hnext, if_neg, hz]
    rintro rfl
    exact ht q hmem
  · by_cases hq : q' = q
    · subst q'
      have hpath := h.path q
      have hnodup := h.nodup q
      rw [hl] at hpath hnodup
      obtain ⟨m, hxs, hm, _⟩ := path_append.mp hpath
      rw [Function.update_self, hl]
      -- only the old last node changes its link, to the new one, whose own is null
      refine path_append.mpr ⟨running s, path_append.mpr ⟨m, hxs.congr (fun x hx => ?_), hm, ?_⟩, rfl, ?_⟩
      · rw [hnext, if_neg]
        rintro rfl
        exact (List.nodup_append.mp hnodup).2.2 x hx x (List.mem_singleton_self x) rfl
      · exact (hnext last).trans (if_pos rfl)
      · have hne : running s ≠ last := fun heq => hplain q (heq ▸ hmem)
        exact (hnext (running s)).trans ((if_neg hne).trans hzero)
    · rw [Function.update_of_ne hq]
      refine (h.path q').congr (fun x hx => ?_)
      rw [hnext, if_neg]
      rintro rfl
      exact hq (h.disjoint hx hmem)

/-- A statement of the running thread, with the queues that it leaves. -/
theorem Queued.exec (h : Queued c s l) (hbase : Base c s np nt) (hrun : running s ≠ 0)
    (hawake : threadState s (running s) ≠ .blocked) (hyield : ∀ q, s.pc (running s) ≠ .yield q) :
    ∃ l', Queued c (Sync.exec s (running s) (s.pc (running s))) l' := by
  have hplace := h.place (running s)
  have hcurrent := hbase.current (running s)
  cases hp : s.pc (running s) with
  | idle => exact ⟨l, h⟩
  | yield q => exact (hyield q hp).elim
  | linkClear q cur =>
      obtain rfl : cur = running s := hcurrent cur (by rw [hp]; rfl)
      have hplain : ∀ q', running s ∉ l q' := h.awake_not_member hp hawake rfl
      exact ⟨l, h.clear hp hawake hplain ((setWaitNext_waitNext s _ _ _).trans (if_pos rfl)) rfl
        (fun _ _ => Pc.noConfusion) hplain⟩
  | linkTest q cur =>
      obtain rfl : cur = running s := hcurrent cur (by rw [hp]; rfl)
      rw [hp] at hplace
      refine ⟨l, h.move hp hawake rfl rfl ⟨rfl, rfl, rfl⟩ ?_ ?_⟩
      · split
        · rename_i hzero
          exact ⟨rfl, (h.head_eq_zero hbase q).mp hzero, hplace⟩
        · rename_i hzero
          exact ⟨rfl, mt (h.head_eq_zero hbase q).mpr hzero, hplace⟩
      · split <;> rfl
  | linkHead q cur =>
      obtain rfl : cur = running s := hcurrent cur (by rw [hp]; rfl)
      exact ⟨_, h.joinEmpty hp hawake⟩
  | linkNext q cur =>
      obtain rfl : cur = running s := hcurrent cur (by rw [hp]; rfl)
      exact ⟨_, h.joinLast hp hawake⟩
  | linkTail q cur =>
      obtain rfl : cur = running s := hcurrent cur (by rw [hp]; rfl)
      rw [hp] at hplace
      have hmem : running s ∈ l q := List.mem_of_getLast? hplace.2
      refine ⟨l, h.retail hp hawake ⟨rfl, hmem⟩ rfl (fun x hx => ?_) (fun q' cur heq => ?_) (fun q' hq' => ?_)⟩
      · exact Option.some.inj (hx.symm.trans hplace.2)
      · cases heq
        rfl
      · rw [h.disjoint hq' hmem]
        exact ⟨rfl, rfl⟩
  | blockTest q cur =>
      obtain rfl : cur = running s := hcurrent cur (by rw [hp]; rfl)
      rw [hp] at hplace
      simp only [Sync.exec, if_neg hrun]
      refine ⟨l, h.stay hp hawake rfl rfl rfl rfl hplace rfl (fun _ _ => Pc.noConfusion) (fun q' hq' => ?_)⟩
      rw [h.disjoint hq' hplace.2]
      exact ⟨rfl, rfl⟩
  | block q cur =>
      obtain rfl : cur = running s := hcurrent cur (by rw [hp]; rfl)
      exact ⟨l, h.block hp hawake⟩
  | unlockEmpty m =>
      refine ⟨l, h.move hp hawake rfl rfl ⟨rfl, rfl, rfl⟩ ?_ ?_⟩
      · split
        · trivial
        · rename_i hzero
          exact ⟨rfl, mt (h.head_eq_zero hbase _).mpr hzero⟩
      · split <;> rfl
  | signalTest i =>
      refine ⟨l, h.move hp hawake rfl rfl ⟨rfl, rfl, rfl⟩ ?_ ?_⟩
      · split
        · rename_i hzero
          exact ⟨rfl, mt (h.head_eq_zero hbase _).mpr hzero⟩
        · trivial
      · split <;> rfl
  | popNext q =>
      rw [hp] at hplace
      exact ⟨l, h.move hp hawake rfl rfl ⟨rfl, rfl, rfl⟩ ⟨rfl, h.head?_eq hplace.2⟩ rfl⟩
  | popHead q x => exact ⟨_, h.pop hp hawake⟩
  | popTest q x =>
      rw [hp] at hplace
      refine ⟨l, h.move hp hawake rfl rfl ⟨rfl, rfl, rfl⟩ ?_ ?_⟩
      · split
        · rename_i hzero
          exact ⟨rfl, (h.head_eq_zero hbase q).mp hzero, hplace⟩
        · exact hplace
      · split <;> rfl
  | popTail q x =>
      rw [hp] at hplace
      have hplain : ∀ q', running s ∉ l q' := h.awake_not_member hp hawake rfl
      refine ⟨l, h.retail hp hawake ?_ rfl (fun y hy => ?_) (fun _ _ => Pc.noConfusion)
        (fun q' hq' => (hplain q' hq').elim)⟩
      · exact hplace.2.2.congr hawake rfl rfl (fun _ => id)
      · rw [hplace.2.1] at hy
        cases hy
  | popClear q x =>
      rw [hp] at hplace
      have hplain : ∀ q', running s ∉ l q' := h.awake_not_member hp hawake rfl
      have htransit : ∀ p, InTransit (goto (setWaitNext s x 0) (running s) p) l x := fun p =>
        InTransit.congr hplace hawake rfl (setWaitNext_threadState s x 0 x) (fun _ => id)
      cases q with
      | mutex m => exact ⟨l, h.clear hp hawake hplace.2.2 (htransit _) rfl (fun _ _ => Pc.noConfusion) hplain⟩
      | semaphore i => exact ⟨l, h.clear hp hawake hplace.2.2 (htransit _) rfl (fun _ _ => Pc.noConfusion) hplain⟩
  | unlockGive m x =>
      rw [hp] at hplace
      exact ⟨l, h.move hp hawake rfl rfl ⟨rfl, rfl, rfl⟩ hplace rfl⟩
  | unlockRelock m x =>
      rw [hp] at hplace
      exact ⟨l, h.move hp hawake rfl rfl ⟨rfl, rfl, rfl⟩ hplace rfl⟩
  | wakeTest q x =>
      rw [hp] at hplace
      simp only [Sync.exec, if_neg (InTransit.ne_zero hplace hbase)]
      exact ⟨l, h.move hp hawake rfl rfl ⟨rfl, rfl, rfl⟩ hplace rfl⟩
  | wakeState q x =>
      rw [hp] at hplace
      simp only [Sync.exec, if_pos hplace.1]
      exact ⟨l, h.move hp hawake rfl rfl ⟨rfl, rfl, rfl⟩ hplace rfl⟩
  | wake q x => exact ⟨l, h.wake hp hawake⟩
  | _ =>
      refine ⟨l, h.move hp hawake rfl rfl ⟨rfl, rfl, rfl⟩ ?_ ?_⟩ <;> (try split) <;> trivial

theorem Queued.noLostWakeup (h : Queued c s l) (hbase : Base c s np nt) : NoLostWakeup c s := by
  intro x hslot hx
  refine (h.found x hslot hx).imp
    (fun ⟨q, hq⟩ => ⟨q, l q, hq, fun hzero => h.member_ne_zero hbase hzero rfl, h.path q⟩)
    (fun ⟨t, ht⟩ => ⟨t, ht, fun hblocked => ?_⟩)
  have hrole := Pc.releasing_of_removes ht
  have htslot : Slot c t := by
    have hcreated := hbase.created t (by cases hp : s.pc t <;> first | rfl | (rw [hp] at ht; cases ht))
    exact ⟨hcreated.1, hcreated.2.trans hbase.coherent.tables.threadCount⟩
  have hsleep : (s.pc t).role = .asleep := by
    rcases h.found t htslot hblocked with ⟨q, hq⟩ | ⟨u, hu⟩
    · refine (h.member q t hq).2.elim (fun hs => hs.1) (fun hlink => ?_)
      rw [Pc.acquiring_of_linking hlink.2] at hrole
      cases hrole
    · exact ((h.place u).transit hu).2.1
  rw [hsleep] at hrole
  cases hrole

end Records

end Steps

/-- One step, whatever the interrupts leave of the scheduler. -/
theorem queued_step {c : Config} {s s' : State} {label : Label} (hbase : ∃ np nt, Base c s np nt)
    (h : ∃ l, Queued c s l) (huncut : UncutUpdate s label) (hstep : Step c s label s') : ∃ l, Queued c s' l := by
  obtain ⟨np, nt, hbase⟩ := hbase
  obtain ⟨l, h⟩ := h
  have hused : ∀ t, (s.pc t).isIdle = false → threadState s t ≠ .unused := fun t ht =>
    hbase.coherent.tables.usedThread t (hbase.created t ht).1 (hbase.created t ht).2
  rcases step_cases hstep with ⟨e, rfl, hirq⟩ | ⟨fn, arg, rfl, hcreate⟩ | ⟨op, rfl, hrun, hidle, rfl⟩ |
    ⟨e, q, rfl, hrun, hp, hirq⟩ | ⟨e, rfl, hrun, hidle, hyield, rfl⟩
  · have hspec := (interrupt_spec hbase.coherent hirq).2
    refine ⟨l, h.scheduled hspec.frame (fun hup => ?_) (fun t => Or.inl (hspec.waitNext t)) hspec.blocked hused⟩
    rw [huncut rfl] at hup
    cases hup
  · obtain ⟨_, _, _, hspawn⟩ := create_spec hbase.coherent hcreate
    exact ⟨l, h.scheduled hspawn.frame (fun _ => hspawn.running) hspawn.waitNext hspawn.blocked hused⟩
  · have hp := Pc.eq_idle hidle
    have hawake : threadState s (running s) ≠ .blocked := fun hblocked => by
      obtain ⟨q, hq⟩ := hbase.awake hrun hblocked
      rw [hp] at hq
      cases hq
    refine ⟨l, h.move hp hawake rfl rfl ⟨rfl, rfl, rfl⟩ ?_ ?_⟩ <;> cases op <;> trivial
  · have hspec := (interrupt_spec (s := goto s (running s) (.resumed q)) hbase.coherent hirq).2
    have hmid := h.yielded hp
    refine ⟨l, hmid.scheduled hspec.frame (fun hup => ?_) (fun t => Or.inl (hspec.waitNext t)) hspec.blocked
      (fun t ht => ?_)⟩
    · rw [show running (goto s (running s) (.resumed q)) = running s from rfl, goto_pc_self] at hup
      cases hup
    · by_cases htr : t = running s
      · exact hused t (by rw [htr, hp]; rfl)
      · rw [goto_pc_of_ne _ _ htr] at ht
        exact hused t ht
  · refine h.exec hbase hrun (fun hblocked => ?_) hyield
    obtain ⟨q, hq⟩ := hbase.awake hrun hblocked
    exact hyield q hq

theorem Initial.queued {c : Config} {count : Nat → Int} {s : State} (h : Initial c count s) :
    Queued c s (fun _ => []) := by
  have htables := h.base.coherent.tables
  refine ⟨fun t => ?_, fun q => ?_, nofun, fun _ => List.nodup_nil, nofun, fun t u x ht => ?_, fun x hx hb => ?_⟩
  · rw [h.pc]
    trivial
  · rw [h.waitHead]
    rfl
  · rw [h.pc] at ht
    cases ht
  · have hfree : threadState s x = .unused := htables.freeThread x hx.1 hx.2
    rw [hfree] at hb
    cases hb

/-- In every run that never cuts an update of a queue, no wake-up is lost. -/
theorem no_lost_wakeup_of_uncut {c : Config} {count : Nat → Int} {s t : State} (initial : Initial c count s)
    {labels : List Label} (run : Run (When UncutUpdate (Step c)) s labels t) : NoLostWakeup c t := by
  have h : (∃ np nt, Base c t np nt) ∧ ∃ l, Queued c t l :=
    run.invariant (I := fun s => (∃ np nt, Base c s np nt) ∧ ∃ l, Queued c s l)
      (fun _ _ _ h step => ⟨base_step h.1 step.2, queued_step h.1 h.2 step.1 step.2⟩)
      ⟨⟨3, 0, initial.base⟩, _, initial.queued⟩
  obtain ⟨⟨_, _, hbase⟩, _, h⟩ := h
  exact h.noLostWakeup hbase

/-- Thread 2 blocks on the mutex that thread 1 holds, and thread 1 wakes it. -/
def blockedAndWoken : List Label :=
  startTwo ++ [.call (.lock 0)] ++ steps 5 ++ switchThread ++ [.call (.lock 0)] ++ steps 11 ++
    [.irq 0, .call (.unlock 0)] ++ steps 13

theorem no_lost_wakeup_of_uncut_sample :
    ∃ t, Run (When UncutUpdate (Step sampleConfig)) (sampleState 0) blockedAndWoken t ∧
      NoLostWakeup sampleConfig t := by
  have hsome : (execute (guarded UncutUpdate (step sampleConfig)) (sampleState 0) blockedAndWoken).isSome =
      true := by decide +kernel
  obtain ⟨t, ht⟩ := Option.isSome_iff_exists.mp hsome
  have run : Run (When UncutUpdate (Step sampleConfig)) (sampleState 0) blockedAndWoken t :=
    run_of_execute_guarded ht
  exact ⟨t, run, no_lost_wakeup_of_uncut (sampleState_initial 0) run⟩

section Owners

variable {c : Config} {s s' : State} {l : Object → List Nat} {label : Label}

/-- A removed thread waits for the object of the call that has taken it off. -/
def OwnRemovals (s : State) : Prop := ∀ t x, (s.pc t).removes = some x → (s.pc x).object = (s.pc t).object

theorem Pc.object_of_removes {p : Pc} {x : Nat} (hp : p.removes = some x) : p.object ≠ none := by
  cases p <;> first | exact Option.some_ne_none _ | cases hp

/-- A removal begins at the head of a queue and stays with its thread. -/
theorem exec_removes {t x : Nat} {p : Pc} (h : ((exec s t p).pc t).removes = some x) (hp : s.pc t = p) :
    p.removes = some x ∨ ∃ q, p = .popHead q x ∧ (exec s t p).pc t = .popTest q x := by
  cases p with
  | popHead q next =>
      rw [exec, goto_pc_self] at h
      cases h
      exact Or.inr ⟨q, rfl, goto_pc_self ..⟩
  | popClear q next =>
      left
      cases q <;> (rw [exec, goto_pc_self] at h; exact h)
  | idle =>
      rw [exec, hp] at h
      cases h
  | _ =>
      left
      rw [exec, goto_pc_self] at h
      first | exact h | cases h | (split at h <;> first | exact h | cases h)

/-- Those who sleep go on with the object they wait for. -/
theorem OwnRemovals.goto (h : OwnRemovals s) {t : Nat} {p : Pc} (hremoves : p.removes = none)
    (hobject : ∀ u, (s.pc u).removes = some t → p.object = (s.pc t).object) : OwnRemovals (goto s t p) := by
  intro u x hx
  by_cases hu : u = t
  · rw [hu, goto_pc_self, hremoves] at hx
    cases hx
  · rw [goto_pc_of_ne _ _ hu] at hx ⊢
    by_cases hxt : x = t
    · subst x
      rw [goto_pc_self, hobject u hx]
      exact h u t hx
    · rw [goto_pc_of_ne _ _ hxt]
      exact h u x hx

theorem OwnRemovals.exec (h : OwnRemovals s) (hqueued : Queued c s l) (hawake : threadState s (running s) ≠ .blocked) :
    OwnRemovals (Sync.exec s (running s) (s.pc (running s))) := by
  have hkeep : ∀ x, x ≠ running s → (Sync.exec s (running s) (s.pc (running s))).pc x = s.pc x :=
    fun x hx => exec_pc_of_ne _ _ hx
  have htransit : ∀ t x, (s.pc t).removes = some x → x ≠ running s := by
    rintro t x hx rfl
    exact hawake ((hqueued.place t).transit hx).1
  intro t x hx
  by_cases ht : t = running s
  · subst t
    rcases exec_removes hx rfl with hold | ⟨q, hp, hnew⟩
    · rw [hkeep x (htransit _ x hold), h _ x hold]
      rcases exec_object (s.pc (running s)) rfl with hnone | hsame
      · exact (Pc.object_of_removes hx hnone).elim
      · exact hsame.symm
    · obtain ⟨_, hhead⟩ : Place s l (running s) (.popHead q x) := hp ▸ hqueued.place (running s)
      have hmem : x ∈ l q := List.mem_of_mem_head? hhead
      have hne : x ≠ running s := fun heq => hqueued.not_member hp nofun rfl q (heq ▸ hmem)
      rw [hnew, hkeep x hne]
      exact (hqueued.member q x hmem).1
  · rw [hkeep t ht] at hx ⊢
    rw [hkeep x (htransit t x hx)]
    exact h t x hx

theorem ownRemovals_step (hbase : ∃ np nt, Base c s np nt) (hqueued : ∃ l, Queued c s l) (h : OwnRemovals s)
    (hstep : Step c s label s') : OwnRemovals s' := by
  obtain ⟨np, nt, hbase⟩ := hbase
  obtain ⟨l, hqueued⟩ := hqueued
  rcases step_cases hstep with ⟨_, _, hirq⟩ | ⟨_, _, _, hcreate⟩ | ⟨op, _, hrun, hidle, rfl⟩ |
    ⟨_, q, _, hrun, hp, hirq⟩ | ⟨_, _, hrun, _, hyield, rfl⟩
  · rw [(interrupt_spec hbase.coherent hirq).2.frame]
    exact h
  · obtain ⟨_, _, _, hspawn⟩ := create_spec hbase.coherent hcreate
    rw [hspawn.frame]
    exact h
  · apply h.goto
    · cases op <;> rfl
    · intro u hu
      have hrole := ((hqueued.place u).transit hu).2.1
      rw [Pc.eq_idle hidle] at hrole
      cases hrole
  · rw [(interrupt_spec (s := goto s (running s) (.resumed q)) hbase.coherent hirq).2.frame]
    exact h.goto rfl (fun _ _ => by rw [hp]; rfl)
  · apply h.exec hqueued
    intro hblocked
    obtain ⟨q, hq⟩ := hbase.awake hrun hblocked
    exact hyield q hq

/-- A wake-up reaches a waiter of its own object. -/
theorem OwnRemovals.wakes (h : OwnRemovals s) {q : Object} {next : Nat} (hp : s.pc (running s) = .wake q next) :
    (s.pc next).object = some q := by
  rw [h (running s) next (by rw [hp]; rfl), hp]
  rfl

theorem Initial.ownRemovals {count : Nat → Int} (h : Initial c count s) : OwnRemovals s := by
  intro t x hx
  rw [h.pc] at hx
  cases hx

end Owners

section Elsewhere

/-- Every call is on one object. -/
def CallsOn (q : Object) (_ : State) : Label → Prop
  | .call op => op.object = q
  | _ => True

instance (q : Object) (s : State) : ∀ l : Label, Decidable (CallsOn q s l)
  | .call _ => inferInstanceAs (Decidable (_ = _))
  | .irq _ | .create _ _ | .stmt _ => .isTrue trivial

variable {c : Config} {q q' : Object}

theorem exec_waitHead {s : State} {t : Nat} {p : Pc} (hp : p.object ≠ some q) :
    (exec s t p).waitHead q = s.waitHead q := by
  cases p with
  | linkHead q' _ => exact Function.update_of_ne (fun h => hp (congrArg some h.symm)) ..
  | popHead q' _ => exact Function.update_of_ne (fun h => hp (congrArg some h.symm)) ..
  | _ => rfl

/-- Calls on one object leave the queues of the others alone. -/
theorem waitHead_step {s s' : State} {l : Label} (hbase : ∃ np nt, Base c s np nt)
    (honly : Only (fun o => o = q) s) (hq : q' ≠ q) (hstep : Step c s l s') : s'.waitHead q' = s.waitHead q' := by
  obtain ⟨np, nt, hbase⟩ := hbase
  rcases step_cases hstep with ⟨_, _, hirq⟩ | ⟨_, _, _, hcreate⟩ | ⟨_, _, _, _, rfl⟩ | ⟨_, o, _, _, _, hirq⟩ |
    ⟨_, _, _, _, _, rfl⟩
  · rw [(interrupt_spec hbase.coherent hirq).2.frame]
  · obtain ⟨_, _, _, hspawn⟩ := create_spec hbase.coherent hcreate
    rw [hspawn.frame]
  · rfl
  · rw [(interrupt_spec (s := goto s (running s) (.resumed o)) hbase.coherent hirq).2.frame]
    rfl
  · exact exec_waitHead (fun h => hq (honly (running s) q' h))

theorem run_waitHead {count : Nat → Int} {s t : State} (initial : Initial c count s) {labels : List Label}
    (run : Run (When (CallsOn q) (Step c)) s labels t) (hq : q' ≠ q) : t.waitHead q' = 0 := by
  refine (run.invariant (I := fun s => (∃ np nt, Base c s np nt) ∧ Only (fun o => o = q) s ∧ s.waitHead q' = 0)
    ?_ ⟨⟨3, 0, initial.base⟩, fun u o ho => ?_, ?_⟩).2.2
  · rintro s l s' ⟨hbase, honly, hzero⟩ ⟨hcalls, hstep⟩
    refine ⟨base_step hbase hstep, only_step honly (fun op hop => ?_) hbase hstep, ?_⟩
    · subst hop
      exact hcalls
    · exact (waitHead_step hbase honly hq hstep).trans hzero
  · rw [initial.pc] at ho
    cases ho
  · rw [initial.waitHead]

end Elsewhere

/-- Thread 2 is interrupted on the queue but not yet BLOCKED; thread 1 takes it off
and finds it READY; thread 2 blocks. -/
def wokenTooEarly : List Label :=
  startTwo ++ [.call (.lock 0)] ++ steps 5 ++ switchThread ++ [.call (.lock 0)] ++ steps 8 ++
    switchThread ++ [.call (.unlock 0)] ++ steps 12 ++ switchThread ++ steps 2

/-- Thread 2 owns the mutex, is BLOCKED, and no queue and no call will wake it. -/
theorem blocked_forgotten :
    ∃ t, Run (Step sampleConfig) (sampleState 0) wokenTooEarly t ∧ ¬ NoLostWakeup sampleConfig t := by
  have hsome : ((execute (guarded (CallsOn (.mutex 0)) (step sampleConfig)) (sampleState 0) wokenTooEarly).map
      (fun t => (threadState t 2, t.waitHead (.mutex 0),
        (List.range (sampleConfig.maxThreads + 1)).all (fun u => ((t.pc u).removes).isNone)))) =
      some (.blocked, 0, true) := by
    decide +kernel
  obtain ⟨t, ht, hvalue⟩ := Option.map_eq_some_iff.mp hsome
  simp only [Prod.mk.injEq, List.all_eq_true, List.mem_range] at hvalue
  obtain ⟨hblocked, hhead, hremoves⟩ := hvalue
  have run : Run (When (CallsOn (.mutex 0)) (Step sampleConfig)) (sampleState 0) wokenTooEarly t :=
    run_of_execute_guarded ht
  refine ⟨t, run.of_when, fun hsafe => ?_⟩
  rcases hsafe 2 ⟨by decide, by decide⟩ hblocked with ⟨q, l, hmem, hnull, hpath⟩ | ⟨u, hu, _⟩
  · have hempty : t.waitHead q = 0 := by
      by_cases hq : q = .mutex 0
      · rw [hq]
        exact hhead
      · exact run_waitHead (sampleState_initial 0) run hq
    cases l with
    | nil => cases hmem
    | cons x xs => exact hnull (hpath.1.symm.trans hempty ▸ List.mem_cons_self ..)
  · obtain ⟨np, nt, hbase⟩ := run_base (sampleState_initial 0) run.of_when
    have hcreated := hbase.created u (by cases hp : t.pc u <;> first | rfl | (rw [hp] at hu; cases hu))
    have hnone := hremoves u (by have := hbase.coherent.tables.threadCount; omega)
    rw [hu] at hnone
    cases hnone

end SengKernel.Sync
