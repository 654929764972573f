import Mathlib

/- A lock that its holder hands to a waiter, with a wait list that any thread may
   write at any moment: waiters can be lost from the list, but a waiter on it is
   never served twice. Threads are any type with a null. -/
namespace HandoffLock

/-- Where a thread is in its use of the lock. -/
inductive Phase (α : Type*) where
  | out                  -- outside, or trying
  | linked               -- waits, on the list
  | asleep               -- waits, and has stopped itself
  | taking               -- saw the lock free
  | entering             -- has set the flag, not yet the owner
  | holding
  | disowning            -- has cleared the flag, not yet the owner
  | finding              -- releases, and saw that somebody waits
  | popping (w : α)      -- will take `w` off the list
  | copying (w : α)      -- has moved the head past `w`
  | handover (w : α)     -- has cut `w` off
  | handing (w : α)      -- has made `w` the owner, may still wake it

namespace Phase

variable {α : Type*}

@[simp] def waiting : Phase α → Bool
  | linked | asleep => true
  | _ => false

/-- Between two halves of an acquisition or a release, or in possession. -/
@[simp] def special : Phase α → Bool
  | out | linked | asleep => false
  | _ => true

theorem not_waiting {p : Phase α} (h : p.special = true) : p.waiting = false := by
  cases p <;> first | rfl | cases h

end Phase

@[ext] structure Lock (α : Type*) where
  phase : α → Phase α
  locked : Bool
  owner : α
  head : α
  next : α → α
  blocked : α → Prop
  running : α

variable {α : Type*} [DecidableEq α] [Zero α]

def move (s : Lock α) (t : α) (p : Phase α) : Lock α := { s with phase := Function.update s.phase t p }

/-- The moves. `slot` says which threads have a record of their own. -/
inductive Move (slot : α → Prop) (s : Lock α) : Lock α → Prop
  | switch (r : α) (htaking : s.phase s.running ≠ .taking) (hdisowning : s.phase s.running ≠ .disowning) :
      Move slot s { s with running := r }
  | forget (next : α → α) (hnext : ∀ x, next x = s.next x ∨ next x = 0) : Move slot s { s with next := next }
  | take (t : α) (hrun : t = s.running) (hslot : slot t) (hp : s.phase t = .out) (hfree : s.locked = false) :
      Move slot s (move s t .taking)
  | lock (t : α) (hp : s.phase t = .taking) : Move slot s (move { s with locked := true } t .entering)
  | enter (t : α) (hp : s.phase t = .entering) : Move slot s (move { s with owner := t } t .holding)
  | free (t : α) (hrun : t = s.running) (hp : s.phase t = .holding) :
      Move slot s (move { s with locked := false } t .disowning)
  | disown (t : α) (hp : s.phase t = .disowning) : Move slot s (move { s with owner := 0 } t .out)
  | find (t : α) (hp : s.phase t = .holding) (hhead : s.head ≠ 0) : Move slot s (move s t .finding)
  | pop (t : α) (hp : s.phase t = .finding) : Move slot s (move s t (.popping s.head))
  | shift (t w : α) (hp : s.phase t = .popping w) :
      Move slot s (move { s with head := s.next w } t (.copying w))
  | cut (t w : α) (hp : s.phase t = .copying w) :
      Move slot s (move { s with next := Function.update s.next w 0 } t (.handover w))
  | give (t w : α) (hp : s.phase t = .handover w) : Move slot s (move { s with owner := w } t (.handing w))
  | skip (t w : α) (hp : s.phase t = .handing w) : Move slot s (move s t .out)
  | wake (t w : α) (hp : s.phase t = .handing w) :
      Move slot s (move { s with blocked := Function.update s.blocked w False } t .out)
  | linkHead (t : α) (hslot : slot t) (hp : s.phase t = .out) :
      Move slot s (move { s with head := t } t .linked)
  | linkNext (t x : α) (hslot : slot t) (hp : s.phase t = .out) :
      Move slot s (move { s with next := Function.update s.next x t } t .linked)
  | sleep (t : α) (hp : s.phase t = .linked) :
      Move slot s (move { s with blocked := Function.update s.blocked t True } t .asleep)
  | resume (t : α) (hp : s.phase t = .asleep) (hawake : ¬ s.blocked t) : Move slot s (move s t .holding)

/-- The list still leads to `w`. -/
def Listed (slot : α → Prop) (s : Lock α) (w : α) : Prop := s.head = w ∨ ∃ x, slot x ∧ s.next x = w

/-- What the phase of a thread says of the rest. -/
def Status (slot : α → Prop) (s : Lock α) (t : α) : Phase α → Prop
  | .out | .linked | .asleep => True
  | .taking => t = s.running ∧ s.locked = false ∧ s.owner = 0
  | .entering => s.locked = true ∧ s.owner = 0
  | .holding => s.locked = true ∧ s.owner = t
  | .disowning => t = s.running ∧ s.locked = false ∧ s.owner = t
  | .finding => s.locked = true ∧ s.owner = t ∧ s.head ≠ 0
  | .popping w => s.locked = true ∧ s.owner = t ∧ (s.phase w).waiting = true ∧ w ≠ 0 ∧ slot w ∧
      ∀ x, slot x → s.next x ≠ w
  | .copying w => s.locked = true ∧ s.owner = t ∧ (s.phase w).waiting = true ∧ w ≠ 0 ∧ slot w ∧
      ¬ Listed slot s w
  | .handover w => s.locked = true ∧ s.owner = t ∧ (s.phase w).waiting = true ∧ w ≠ 0 ∧ slot w ∧
      ¬ Listed slot s w
  | .handing w => s.locked = true ∧ s.owner = w ∧ (s.phase w).waiting = true

/-- Nobody at work: the lock is free, or it belongs to a waiter. -/
def Settled (s : Lock α) : Prop :=
  (s.locked = false ∧ s.owner = 0) ∨ (s.locked = true ∧ (s.phase s.owner).waiting = true)

/-- The invariant. At most one thread at a time is at work on the lock; a waiter on
the list was not served, and one that was served is on no list. -/
structure Inv (slot : α → Prop) (s : Lock α) : Prop where
  nullSlot : ¬ slot 0
  slots : ∀ t, s.phase t ≠ .out → slot t
  unique : ∀ t u, (s.phase t).special = true → (s.phase u).special = true → t = u
  status : ∀ t, Status slot s t (s.phase t)
  settled : (∀ t, (s.phase t).special = false) → Settled s
  asleep : ∀ t, s.phase t = .asleep → s.blocked t ∨ (s.owner = t ∧ ∀ u, s.phase u ≠ .handing t)
  listed : ∀ w, w ≠ 0 → Listed slot s w → (s.phase w).waiting = true ∧ s.owner ≠ w
  linkedOnce : ∀ x y, slot x → slot y → s.next x = s.next y → s.next x ≠ 0 → x = y
  headOnce : ∀ x, slot x → s.next x = s.head → s.head ≠ 0 → ∃ t, s.phase t = .copying x

omit [Zero α] in
theorem move_self (s : Lock α) (t : α) (p : Phase α) : (move s t p).phase t = p := Function.update_self ..

omit [Zero α] in
theorem move_of_ne (s : Lock α) {t u : α} (p : Phase α) (h : u ≠ t) : (move s t p).phase u = s.phase u :=
  Function.update_of_ne h ..

omit [Zero α] in
theorem move_same {s : Lock α} {t : α} {p : Phase α} (h : s.phase t = p) : move s t p = s := by
  rw [move, ← h, Function.update_eq_self]

section Moves

variable {slot : α → Prop} {s s' : Lock α} {t : α}

omit [DecidableEq α] in
/-- Beside a thread at work all others are outside or waiting. -/
theorem Inv.others (h : Inv slot s) (ht : (s.phase t).special = true) {u : α} (hu : u ≠ t) :
    (s.phase u).special = false := by
  cases hspecial : (s.phase u).special with
  | false => rfl
  | true => exact (hu (h.unique u t hspecial ht)).elim

omit [DecidableEq α] in
theorem Inv.slot_ne_zero (h : Inv slot s) (ht : slot t) : t ≠ 0 := fun hzero => h.nullSlot (hzero ▸ ht)

omit [Zero α] in
theorem waiting_of_special {p : Phase α} (ht : (s.phase t).special = true)
    (hphase : s'.phase = Function.update s.phase t p) {w : α} (hw : (s.phase w).waiting = true) :
    (s'.phase w).waiting = true := by
  have hwt : w ≠ t := by
    rintro rfl
    rw [Phase.not_waiting ht] at hw
    cases hw
  rw [hphase, Function.update_of_ne hwt]
  exact hw

/-- A step of the thread at work, which stays at work or settles the lock. -/
theorem Inv.special_move (h : Inv slot s) (ht : (s.phase t).special = true) {p : Phase α}
    (hphase : s'.phase = Function.update s.phase t p)
    (hstatus : (p.special = true ∧ Status slot s' t p) ∨ (p.special = false ∧ Settled s'))
    (hasleep : ∀ u, s.phase u = .asleep → s'.blocked u ∨ (s'.owner = u ∧ p ≠ .handing u))
    (hwaiting : p.waiting = false)
    (hlisted : ∀ w, w ≠ 0 → Listed slot s' w → (s.phase w).waiting = true ∧ s'.owner ≠ w)
    (hlinked : ∀ x y, slot x → slot y → s'.next x = s'.next y → s'.next x ≠ 0 → x = y)
    (hhead : ∀ x, slot x → s'.next x = s'.head → s'.head ≠ 0 → p = .copying x) : Inv slot s' := by
  have hslot : slot t := h.slots t (by intro hp; rw [hp] at ht; cases ht)
  have hself : s'.phase t = p := by rw [hphase, Function.update_self]
  have hother : ∀ u, u ≠ t → s'.phase u = s.phase u := fun u hu => by rw [hphase, Function.update_of_ne hu]
  have hplain : ∀ u, u ≠ t → (s'.phase u).special = false := fun u hu => by
    rw [hother u hu]
    exact h.others ht hu
  have honly : ∀ u, (s'.phase u).special = true → u = t := by
    intro u hu
    by_contra hut
    rw [hplain u hut] at hu
    cases hu
  refine ⟨h.nullSlot, ?_, ?_, ?_, ?_, ?_, ?_, hlinked, ?_⟩
  · intro u hu
    by_cases hut : u = t
    · exact hut ▸ hslot
    · exact h.slots u (hother u hut ▸ hu)
  · exact fun u v hu hv => (honly u hu).trans (honly v hv).symm
  · intro u
    by_cases hut : u = t
    · subst u
      rw [hself]
      rcases hstatus with ⟨_, hstatus⟩ | ⟨hp, _⟩
      · exact hstatus
      · cases p <;> trivial
    · have := hplain u hut
      cases hp : s'.phase u <;> rw [hp] at this <;> trivial
  · intro hnone
    rcases hstatus with ⟨hp, _⟩ | ⟨_, hsettled⟩
    · have := hnone t
      rw [hself, hp] at this
      cases this
    · exact hsettled
  · intro u hu
    by_cases hut : u = t
    · subst u
      rw [hself] at hu
      rw [hu] at hwaiting
      cases hwaiting
    · refine (hasleep u (hother u hut ▸ hu)).imp id (fun hgiven => ⟨hgiven.1, fun v hv => ?_⟩)
      by_cases hvt : v = t
      · subst v
        exact hgiven.2 (hself ▸ hv)
      · have := hplain v hvt
        rw [hv] at this
        cases this
  · intro w hw hlist
    obtain ⟨hwait, howner⟩ := hlisted w hw hlist
    exact ⟨waiting_of_special ht hphase hwait, howner⟩
  · intro x hx hnext hne
    exact ⟨t, hself ▸ hhead x hx hnext hne⟩

omit [DecidableEq α] in
/-- Only while the thread at work copies may a second link lead to the head. -/
theorem Inv.headOnce_of (h : Inv slot s) {p q : Phase α} (hp : s.phase t = p) (hspecial : p.special = true)
    (hne : ∀ x, p ≠ .copying x) (x : α) (hx : slot x) (hnext : s.next x = s.head) (hhead : s.head ≠ 0) :
    q = .copying x := by
  obtain ⟨u, hu⟩ := h.headOnce x hx hnext hhead
  have : u = t := h.unique u t (by rw [hu]; rfl) (by rw [hp]; exact hspecial)
  rw [this, hp] at hu
  exact (hne x hu).elim

omit [DecidableEq α] in
theorem Inv.status_at (h : Inv slot s) {p : Phase α} (hp : s.phase t = p) : Status slot s t p :=
  hp ▸ h.status t

theorem Inv.lock (h : Inv slot s) (hp : s.phase t = .taking) :
    Inv slot (move { s with locked := true } t .entering) := by
  have ht : (s.phase t).special = true := by rw [hp]; rfl
  obtain ⟨_, _, howner⟩ := h.status_at hp
  refine h.special_move ht rfl (Or.inl ⟨rfl, rfl, howner⟩) ?_ rfl h.listed h.linkedOnce (h.headOnce_of hp rfl nofun)
  · exact fun u hu => (h.asleep u hu).imp id (fun given => ⟨given.1, nofun⟩)

theorem Inv.enter (h : Inv slot s) (hp : s.phase t = .entering) :
    Inv slot (move { s with owner := t } t .holding) := by
  have ht : (s.phase t).special = true := by rw [hp]; rfl
  obtain ⟨hlocked, howner⟩ := h.status_at hp
  refine h.special_move ht rfl (Or.inl ⟨rfl, hlocked, rfl⟩) ?_ rfl ?_ h.linkedOnce (h.headOnce_of hp rfl nofun)
  · intro u hu
    refine Or.inl ((h.asleep u hu).resolve_right (fun given => ?_))
    have hslot : slot u := h.slots u (by rw [hu]; exact nofun)
    exact h.slot_ne_zero hslot (given.1.symm.trans howner)
  · intro w hw hlist
    have hwait := (h.listed w hw hlist).1
    refine ⟨hwait, fun htw => ?_⟩
    have htw : t = w := htw
    rw [← htw, Phase.not_waiting ht] at hwait
    cases hwait

theorem Inv.free (h : Inv slot s) (hrun : t = s.running) (hp : s.phase t = .holding) :
    Inv slot (move { s with locked := false } t .disowning) := by
  have ht : (s.phase t).special = true := by rw [hp]; rfl
  obtain ⟨_, howner⟩ := h.status_at hp
  refine h.special_move ht rfl (Or.inl ⟨rfl, hrun, rfl, howner⟩) ?_ rfl h.listed h.linkedOnce (h.headOnce_of hp rfl nofun)
  · exact fun u hu => (h.asleep u hu).imp id (fun given => ⟨given.1, nofun⟩)

omit [DecidableEq α] in
/-- A served waiter is the owner, so nobody else sleeps through a change of owner. -/
theorem Inv.asleep_blocked (h : Inv slot s) (ht : (s.phase t).special = true) (howner : s.owner = t) {u : α}
    (hu : s.phase u = .asleep) : s.blocked u := by
  refine (h.asleep u hu).resolve_right (fun given => ?_)
  have hut : u = t := given.1.symm.trans howner
  rw [← hut, hu] at ht
  cases ht

theorem Inv.disown (h : Inv slot s) (hp : s.phase t = .disowning) :
    Inv slot (move { s with owner := 0 } t .out) := by
  have ht : (s.phase t).special = true := by rw [hp]; rfl
  obtain ⟨_, hlocked, howner⟩ := h.status_at hp
  refine h.special_move ht rfl (Or.inr ⟨rfl, Or.inl ⟨hlocked, rfl⟩⟩) ?_ rfl ?_ h.linkedOnce (h.headOnce_of hp rfl nofun)
  · exact fun u hu => Or.inl (h.asleep_blocked ht howner hu)
  · exact fun w hw hlist => ⟨(h.listed w hw hlist).1, fun hzero => hw hzero.symm⟩

theorem Inv.find (h : Inv slot s) (hp : s.phase t = .holding) (hhead : s.head ≠ 0) :
    Inv slot (move s t .finding) := by
  have ht : (s.phase t).special = true := by rw [hp]; rfl
  obtain ⟨hlocked, howner⟩ := h.status_at hp
  refine h.special_move ht rfl (Or.inl ⟨rfl, hlocked, howner, hhead⟩) ?_ rfl h.listed h.linkedOnce (h.headOnce_of hp rfl nofun)
  · exact fun u hu => Or.inl (h.asleep_blocked ht howner hu)

/-- The head is a waiter, and nothing but the head leads to it. -/
theorem Inv.pop (h : Inv slot s) (hp : s.phase t = .finding) : Inv slot (move s t (.popping s.head)) := by
  have ht : (s.phase t).special = true := by rw [hp]; rfl
  obtain ⟨hlocked, howner, hhead⟩ := h.status_at hp
  have hwait := (h.listed s.head hhead (Or.inl rfl)).1
  have hslot : slot s.head := h.slots s.head (by intro hout; rw [hout] at hwait; cases hwait)
  have hnone : ∀ x, slot x → s.next x ≠ s.head := by
    intro x hx hnext
    have : Phase.out = .copying x := h.headOnce_of hp rfl nofun x hx hnext hhead
    cases this
  refine h.special_move ht rfl (Or.inl ⟨rfl, hlocked, howner, waiting_of_special ht rfl hwait, hhead, hslot,
    hnone⟩) ?_ rfl h.listed h.linkedOnce (fun x hx hnext _ => (hnone x hx hnext).elim)
  exact fun u hu => Or.inl (h.asleep_blocked ht howner hu)

theorem Inv.shift {w : α} (h : Inv slot s) (hp : s.phase t = .popping w) :
    Inv slot (move { s with head := s.next w } t (.copying w)) := by
  have ht : (s.phase t).special = true := by rw [hp]; rfl
  obtain ⟨hlocked, howner, hwait, hw, hslot, hnone⟩ := h.status_at hp
  have hunlisted : ¬ Listed slot (move { s with head := s.next w } t (.copying w)) w := by
    rintro (hhead | ⟨x, hx, hnext⟩)
    · exact hnone w hslot hhead
    · exact hnone x hx hnext
  refine h.special_move ht rfl (Or.inl ⟨rfl, hlocked, howner, waiting_of_special ht rfl hwait, hw, hslot,
    hunlisted⟩) ?_ rfl ?_ h.linkedOnce ?_
  · exact fun u hu => Or.inl (h.asleep_blocked ht howner hu)
  · rintro v hv (hhead | hnext)
    · exact h.listed v hv (Or.inr ⟨w, hslot, hhead⟩)
    · exact h.listed v hv (Or.inr hnext)
  · intro x hx hnext hhead
    rw [h.linkedOnce x w hx hslot hnext (hnext ▸ hhead)]

theorem Inv.cut {w : α} (h : Inv slot s) (hp : s.phase t = .copying w) :
    Inv slot (move { s with next := Function.update s.next w 0 } t (.handover w)) := by
  have ht : (s.phase t).special = true := by rw [hp]; rfl
  obtain ⟨hlocked, howner, hwait, hw, hslot, hunlisted⟩ := h.status_at hp
  have hnext : ∀ x v, v ≠ 0 → Function.update s.next w 0 x = v → x ≠ w ∧ s.next x = v := by
    intro x v hv hx
    by_cases hxw : x = w
    · rw [hxw, Function.update_self] at hx
      exact (hv hx.symm).elim
    · rw [Function.update_of_ne hxw] at hx
      exact ⟨hxw, hx⟩
  have hlisted : ∀ v, v ≠ 0 →
      Listed slot (move { s with next := Function.update s.next w 0 } t (.handover w)) v → Listed slot s v := by
    rintro v hv (hhead | ⟨x, hx, hv'⟩)
    · exact Or.inl hhead
    · exact Or.inr ⟨x, hx, (hnext x v hv hv').2⟩
  refine h.special_move ht rfl (Or.inl ⟨rfl, hlocked, howner, waiting_of_special ht rfl hwait, hw, hslot,
    fun hlist => hunlisted (hlisted w hw hlist)⟩) ?_ rfl (fun v hv hlist => h.listed v hv (hlisted v hv hlist)) ?_ ?_
  · exact fun u hu => Or.inl (h.asleep_blocked ht howner hu)
  · intro x y hx hy hxy hne
    obtain ⟨_, hx'⟩ := hnext x _ hne rfl
    obtain ⟨_, hy'⟩ := hnext y _ hne hxy.symm
    exact h.linkedOnce x y hx hy (hx'.trans hy'.symm) (hx' ▸ hne)
  · intro x hx hxhead hhead
    obtain ⟨hxw, hx'⟩ := hnext x _ hhead hxhead
    obtain ⟨u, hu⟩ := h.headOnce x hx hx' hhead
    have : u = t := h.unique u t (by rw [hu]; rfl) ht
    rw [this, hp] at hu
    cases hu
    exact (hxw rfl).elim

theorem Inv.give {w : α} (h : Inv slot s) (hp : s.phase t = .handover w) :
    Inv slot (move { s with owner := w } t (.handing w)) := by
  have ht : (s.phase t).special = true := by rw [hp]; rfl
  obtain ⟨hlocked, howner, hwait, hw, hslot, hunlisted⟩ := h.status_at hp
  refine h.special_move ht rfl (Or.inl ⟨rfl, hlocked, rfl, waiting_of_special ht rfl hwait⟩) ?_ rfl ?_
    h.linkedOnce (h.headOnce_of hp rfl nofun)
  · exact fun u hu => Or.inl (h.asleep_blocked ht howner hu)
  · intro v hv hlist
    refine ⟨(h.listed v hv hlist).1, ?_⟩
    rintro rfl
    exact hunlisted hlist

theorem Inv.skip {w : α} (h : Inv slot s) (hp : s.phase t = .handing w) : Inv slot (move s t .out) := by
  have ht : (s.phase t).special = true := by rw [hp]; rfl
  obtain ⟨hlocked, howner, hwait⟩ := h.status_at hp
  have hsettled : Settled (move s t .out) :=
    Or.inr ⟨hlocked, waiting_of_special ht rfl (howner ▸ hwait)⟩
  refine h.special_move ht rfl (Or.inr ⟨rfl, hsettled⟩) ?_ rfl h.listed h.linkedOnce (h.headOnce_of hp rfl nofun)
  · exact fun u hu => (h.asleep u hu).imp id (fun given => ⟨given.1, nofun⟩)

theorem Inv.wake {w : α} (h : Inv slot s) (hp : s.phase t = .handing w) :
    Inv slot (move { s with blocked := Function.update s.blocked w False } t .out) := by
  have ht : (s.phase t).special = true := by rw [hp]; rfl
  obtain ⟨hlocked, howner, hwait⟩ := h.status_at hp
  have hsettled : Settled (move { s with blocked := Function.update s.blocked w False } t .out) :=
    Or.inr ⟨hlocked, waiting_of_special ht rfl (howner ▸ hwait)⟩
  refine h.special_move ht rfl (Or.inr ⟨rfl, hsettled⟩) ?_ rfl h.listed h.linkedOnce (h.headOnce_of hp rfl nofun)
  · intro u hu
    by_cases huw : u = w
    · exact Or.inr ⟨huw ▸ howner, nofun⟩
    · refine (h.asleep u hu).imp (fun hblocked => ?_) (fun given => ⟨given.1, nofun⟩)
      change Function.update s.blocked w False u
      rwa [Function.update_of_ne huw]

/-- A step of a thread that is not at work and does not start to be. -/
theorem Inv.plain_move (h : Inv slot s) (ht : (s.phase t).special = false) {p : Phase α}
    (hphase : s'.phase = Function.update s.phase t p) (hp : p.special = false) (hslot : slot t)
    (hwaiting : p.waiting = true) (hlocked : s'.locked = s.locked) (howner : s'.owner = s.owner)
    (hrunning : s'.running = s.running) (hheadne : s.head ≠ 0 → s'.head ≠ 0)
    (hunlinked : ∀ w, (s.phase w).waiting = true → (∀ x, slot x → s.next x ≠ w) →
      ∀ x, slot x → s'.next x ≠ w)
    (hunlisted : ∀ w, (s.phase w).waiting = true → ¬ Listed slot s w → ¬ Listed slot s' w)
    (hasleep : ∀ u, s'.phase u = .asleep → s'.blocked u ∨ (s.phase u = .asleep ∧ ¬ s.blocked u))
    (hlisted : ∀ w, w ≠ 0 → Listed slot s' w → w = t ∧ s.owner ≠ t ∨ Listed slot s w)
    (hlinked : ∀ x y, slot x → slot y → s'.next x = s'.next y → s'.next x ≠ 0 → x = y)
    (hhead : ∀ x, slot x → s'.next x = s'.head → s'.head ≠ 0 → s.next x = s.head ∧ s.head ≠ 0) :
    Inv slot s' := by
  have hself : s'.phase t = p := by rw [hphase, Function.update_self]
  have hother : ∀ u, u ≠ t → s'.phase u = s.phase u := fun u hu => by rw [hphase, Function.update_of_ne hu]
  have hspecial : ∀ u, (s'.phase u).special = true → s'.phase u = s.phase u := by
    intro u hu
    by_cases hut : u = t
    · subst u
      rw [hself, hp] at hu
      cases hu
    · exact hother u hut
  have hback : ∀ u, (s.phase u).special = true → s'.phase u = s.phase u := by
    intro u hu
    by_cases hut : u = t
    · subst u
      rw [ht] at hu
      cases hu
    · exact hother u hut
  have hwait : ∀ w, (s.phase w).waiting = true → (s'.phase w).waiting = true := by
    intro w hw
    by_cases hwt : w = t
    · rw [hwt, hself]
      exact hwaiting
    · rwa [hother w hwt]
  refine ⟨h.nullSlot, ?_, ?_, ?_, ?_, ?_, ?_, hlinked, ?_⟩
  · intro u hu
    by_cases hut : u = t
    · exact hut ▸ hslot
    · exact h.slots u (hother u hut ▸ hu)
  · intro u v hu hv
    exact h.unique u v (hspecial u hu ▸ hu) (hspecial v hv ▸ hv)
  · intro u
    have hstatus : Status slot s u (s'.phase u) := by
      by_cases hut : u = t
      · subst u
        rw [hself]
        cases p <;> trivial
      · rw [hother u hut]
        exact h.status u
    cases hpu : s'.phase u with
    | out | linked | asleep => trivial
    | taking =>
        rw [hpu] at hstatus
        exact ⟨hstatus.1.trans hrunning.symm, hlocked.trans hstatus.2.1, howner.trans hstatus.2.2⟩
    | entering =>
        rw [hpu] at hstatus
        exact ⟨hlocked.trans hstatus.1, howner.trans hstatus.2⟩
    | holding =>
        rw [hpu] at hstatus
        exact ⟨hlocked.trans hstatus.1, howner.trans hstatus.2⟩
    | disowning =>
        rw [hpu] at hstatus
        exact ⟨hstatus.1.trans hrunning.symm, hlocked.trans hstatus.2.1, howner.trans hstatus.2.2⟩
    | finding =>
        rw [hpu] at hstatus
        exact ⟨hlocked.trans hstatus.1, howner.trans hstatus.2.1, hheadne hstatus.2.2⟩
    | popping w =>
        rw [hpu] at hstatus
        obtain ⟨h1, h2, h3, h4, h5, h6⟩ := hstatus
        exact ⟨hlocked.trans h1, howner.trans h2, hwait w h3, h4, h5, hunlinked w h3 h6⟩
    | copying w | handover w =>
        rw [hpu] at hstatus
        obtain ⟨h1, h2, h3, h4, h5, h6⟩ := hstatus
        exact ⟨hlocked.trans h1, howner.trans h2, hwait w h3, h4, h5, hunlisted w h3 h6⟩
    | handing w =>
        rw [hpu] at hstatus
        exact ⟨hlocked.trans hstatus.1, howner.trans hstatus.2.1, hwait w hstatus.2.2⟩
  · intro hnone
    have hsettled := h.settled (fun u => by
      cases hu : (s.phase u).special with
      | false => rfl
      | true => rw [← hu, ← hback u hu, hnone u])
    unfold Settled at hsettled ⊢
    rw [hlocked, howner]
    exact hsettled.imp id (fun given => ⟨given.1, hwait _ given.2⟩)
  · intro u hu
    rcases hasleep u hu with hblocked | ⟨hold, hawake⟩
    · exact Or.inl hblocked
    · obtain ⟨hgiven, hhanding⟩ := (h.asleep u hold).resolve_left hawake
      refine Or.inr ⟨howner.trans hgiven, fun v hv => ?_⟩
      rw [hspecial v (by rw [hv]; rfl)] at hv
      exact hhanding v hv
  · intro w hw hlist
    rw [howner]
    rcases hlisted w hw hlist with ⟨rfl, hnot⟩ | hold
    · exact ⟨by rw [hself]; exact hwaiting, hnot⟩
    · exact ⟨hwait w (h.listed w hw hold).1, (h.listed w hw hold).2⟩
  · intro x hx hnext hne
    obtain ⟨hold, hzero⟩ := hhead x hx hnext hne
    obtain ⟨u, hu⟩ := h.headOnce x hx hold hzero
    exact ⟨u, by rw [hback u (by rw [hu]; rfl), hu]⟩

omit [DecidableEq α] in
/-- A thread outside is on no list and owns nothing. -/
theorem Inv.out_unlisted (h : Inv slot s) (hslot : slot t) (hp : s.phase t = .out) :
    ¬ Listed slot s t ∧ s.owner ≠ t := by
  have hzero := h.slot_ne_zero hslot
  have hnot : ¬ Listed slot s t := fun hlist => by
    have := (h.listed t hzero hlist).1
    rw [hp] at this
    cases this
  refine ⟨hnot, fun howner => ?_⟩
  by_cases hnone : ∀ u, (s.phase u).special = false
  · rcases h.settled hnone with ⟨_, hnull⟩ | ⟨_, hwait⟩
    · exact hzero (howner.symm.trans hnull)
    · rw [howner, hp] at hwait
      cases hwait
  · push Not at hnone
    obtain ⟨u, hu⟩ := hnone
    -- whoever is at work, the owner is that thread, a waiter or null
    have hstatus := h.status u
    have hut : u ≠ t := by
      rintro rfl
      rw [hp] at hu
      exact hu rfl
    cases hpu : s.phase u <;> rw [hpu] at hu hstatus
    all_goals first
      | exact hu rfl
      | exact hzero (howner.symm.trans hstatus.2.2)
      | exact hzero (howner.symm.trans hstatus.2)
      | exact hut (hstatus.2.1.symm.trans howner)
      | exact hut (hstatus.2.2.symm.trans howner)
      | exact hut (hstatus.2.symm.trans howner)
      | skip
    have hwait := hstatus.2.2
    rw [← hstatus.2.1, howner, hp] at hwait
    cases hwait

theorem Inv.linkHead (h : Inv slot s) (hslot : slot t) (hp : s.phase t = .out) :
    Inv slot (move { s with head := t } t .linked) := by
  have ht : (s.phase t).special = false := by rw [hp]; rfl
  obtain ⟨hnot, howner⟩ := h.out_unlisted hslot hp
  refine h.plain_move ht rfl rfl hslot rfl rfl rfl rfl (fun _ => h.slot_ne_zero hslot) (fun _ _ hnone => hnone)
    ?_ ?_ ?_ h.linkedOnce ?_
  · rintro w hw hunlisted (hhead | hnext)
    · have htw : t = w := hhead
      rw [← htw, hp] at hw
      cases hw
    · exact hunlisted (Or.inr hnext)
  · intro u hu
    by_cases hut : u = t
    · rw [hut, move_self] at hu
      cases hu
    · rw [move_of_ne _ _ hut] at hu
      exact (Classical.em (s.blocked u)).imp id (fun hawake => ⟨hu, hawake⟩)
  · rintro w _ (hhead | hnext)
    · exact Or.inl ⟨Eq.symm hhead, howner⟩
    · exact Or.inr (Or.inr hnext)
  · exact fun x hx hnext _ => (hnot (Or.inr ⟨x, hx, hnext⟩)).elim

theorem Inv.linkNext (h : Inv slot s) (x : α) (hslot : slot t) (hp : s.phase t = .out) :
    Inv slot (move { s with next := Function.update s.next x t } t .linked) := by
  have ht : (s.phase t).special = false := by rw [hp]; rfl
  obtain ⟨hnot, howner⟩ := h.out_unlisted hslot hp
  have hnext : ∀ y w, Function.update s.next x t y = w → (y = x ∧ w = t) ∨ (y ≠ x ∧ s.next y = w) := by
    intro y w hy
    by_cases hyx : y = x
    · rw [hyx, Function.update_self] at hy
      exact Or.inl ⟨hyx, hy.symm⟩
    · rw [Function.update_of_ne hyx] at hy
      exact Or.inr ⟨hyx, hy⟩
  have hwt : ∀ w, (s.phase w).waiting = true → w ≠ t := by
    rintro w hw rfl
    rw [hp] at hw
    cases hw
  refine h.plain_move ht rfl rfl hslot rfl rfl rfl rfl id ?_ ?_ ?_ ?_ ?_ ?_
  · intro w hw hnone y hy hyw
    rcases hnext y w hyw with ⟨_, hwt'⟩ | ⟨_, hold⟩
    · exact hwt w hw hwt'
    · exact hnone y hy hold
  · rintro w hw hunlisted (hhead | ⟨y, hy, hyw⟩)
    · exact hunlisted (Or.inl hhead)
    · rcases hnext y w hyw with ⟨_, hwt'⟩ | ⟨_, hold⟩
      · exact hwt w hw hwt'
      · exact hunlisted (Or.inr ⟨y, hy, hold⟩)
  · intro u hu
    by_cases hut : u = t
    · rw [hut, move_self] at hu
      cases hu
    · rw [move_of_ne _ _ hut] at hu
      exact (Classical.em (s.blocked u)).imp id (fun hawake => ⟨hu, hawake⟩)
  · rintro w _ (hhead | ⟨y, hy, hyw⟩)
    · exact Or.inr (Or.inl hhead)
    · rcases hnext y w hyw with ⟨_, hwt'⟩ | ⟨_, hold⟩
      · exact Or.inl ⟨hwt', howner⟩
      · exact Or.inr (Or.inr ⟨y, hy, hold⟩)
  · intro y z hy hz hyz hne
    rcases hnext y _ rfl with ⟨hyx, hyt⟩ | ⟨_, hyold⟩ <;> rcases hnext z _ rfl with ⟨hzx, hzt⟩ | ⟨_, hzold⟩
    · exact hyx.trans hzx.symm
    · exact (hnot (Or.inr ⟨z, hz, hzold.trans (hyz.symm.trans hyt)⟩)).elim
    · exact (hnot (Or.inr ⟨y, hy, hyold.trans (hyz.trans hzt)⟩)).elim
    · exact h.linkedOnce y z hy hz (hyold.trans (hyz.trans hzold.symm)) (fun hzero => hne (hyold.symm.trans hzero))
  · intro y hy hyhead hhead
    rcases hnext y _ hyhead with ⟨_, hheadt⟩ | ⟨_, hold⟩
    · exact (hnot (Or.inl hheadt)).elim
    · exact ⟨hold, hhead⟩

theorem Inv.sleep (h : Inv slot s) (hp : s.phase t = .linked) :
    Inv slot (move { s with blocked := Function.update s.blocked t True } t .asleep) := by
  have ht : (s.phase t).special = false := by rw [hp]; rfl
  have hslot : slot t := h.slots t (by rw [hp]; exact nofun)
  refine h.plain_move ht rfl rfl hslot rfl rfl rfl rfl id (fun _ _ hnone => hnone) (fun _ _ hnone => hnone) ?_
    (fun _ _ hlist => Or.inr hlist) h.linkedOnce (fun _ _ hnext hhead => ⟨hnext, hhead⟩)
  intro u hu
  change Function.update s.blocked t True u ∨ _
  by_cases hut : u = t
  · rw [hut, Function.update_self]
    exact Or.inl trivial
  · rw [Function.update_of_ne hut]
    rw [move_of_ne _ _ hut] at hu
    exact (Classical.em (s.blocked u)).imp id (fun hawake => ⟨hu, hawake⟩)

omit [DecidableEq α] in
/-- Nobody is at work once a woken waiter owns the lock, or when the running thread,
outside, sees it free. -/
theorem Inv.nobody_of_woken (h : Inv slot s) (hp : s.phase t = .asleep) (hawake : ¬ s.blocked t) (u : α) :
    (s.phase u).special = false := by
  obtain ⟨howner, hhanding⟩ := (h.asleep t hp).resolve_left hawake
  have hzero := h.slot_ne_zero (h.slots t (by rw [hp]; exact nofun))
  have hstatus := h.status u
  have hut : ∀ p : Phase α, s.phase u = p → p.special = true → u ≠ t := by
    rintro p hpu hspecial rfl
    rw [← hpu, hp] at hspecial
    cases hspecial
  cases hpu : s.phase u <;> rw [hpu] at hstatus
  all_goals first
    | rfl
    | exact (hzero (howner.symm.trans hstatus.2.2)).elim
    | exact (hzero (howner.symm.trans hstatus.2)).elim
    | exact (hut _ hpu rfl (hstatus.2.1.symm.trans howner)).elim
    | exact (hut _ hpu rfl (hstatus.2.2.symm.trans howner)).elim
    | exact (hut _ hpu rfl (hstatus.2.symm.trans howner)).elim
    | skip
  exact (hhanding u (hpu.trans (congrArg Phase.handing (hstatus.2.1.symm.trans howner)))).elim

omit [DecidableEq α] in
theorem Inv.nobody_of_free (h : Inv slot s) (hrun : t = s.running) (hp : s.phase t = .out)
    (hfree : s.locked = false) (u : α) : (s.phase u).special = false := by
  have hstatus := h.status u
  have hut : ∀ p : Phase α, s.phase u = p → p.special = true → u ≠ s.running := by
    rintro p hpu hspecial hu
    rw [← hpu, hu, ← hrun, hp] at hspecial
    cases hspecial
  cases hpu : s.phase u <;> rw [hpu] at hstatus
  all_goals first
    | rfl
    | exact (hut _ hpu rfl hstatus.1).elim
    | exact (Bool.false_ne_true (hfree.symm.trans hstatus.1)).elim

/-- The first thread to start work when nobody is at it. -/
theorem Inv.first_move (h : Inv slot s) (hnone : ∀ u, (s.phase u).special = false) (hslot : slot t)
    {p : Phase α} (hp : p.waiting = false) (hhanding : ∀ w, p ≠ .handing w)
    (hstatus : Status slot (move s t p) t p) (hspecial : p.special = true)
    (hlisted : ∀ w, w ≠ 0 → Listed slot s w → w ≠ t) : Inv slot (move s t p) := by
  have honly : ∀ u, ((move s t p).phase u).special = true → u = t := by
    intro u hu
    by_contra hut
    rw [move_of_ne _ _ hut, hnone u] at hu
    cases hu
  refine ⟨h.nullSlot, ?_, ?_, ?_, ?_, ?_, ?_, h.linkedOnce, ?_⟩
  · intro u hu
    by_cases hut : u = t
    · exact hut ▸ hslot
    · exact h.slots u (move_of_ne s p hut ▸ hu)
  · exact fun u v hu hv => (honly u hu).trans (honly v hv).symm
  · intro u
    by_cases hut : u = t
    · rw [hut, move_self]
      exact hstatus
    · have := hnone u
      rw [move_of_ne _ _ hut]
      cases hpu : s.phase u <;> rw [hpu] at this <;> trivial
  · intro hall
    have := hall t
    rw [move_self, hspecial] at this
    cases this
  · intro u hu
    by_cases hut : u = t
    · rw [hut, move_self] at hu
      rw [hu] at hp
      cases hp
    · rw [move_of_ne _ _ hut] at hu
      refine (h.asleep u hu).imp id (fun given => ⟨given.1, fun v hv => ?_⟩)
      by_cases hvt : v = t
      · rw [hvt, move_self] at hv
        exact hhanding u hv
      · exact given.2 v (move_of_ne s p hvt ▸ hv)
  · intro w hw hlist
    rw [move_of_ne _ _ (hlisted w hw hlist)]
    exact h.listed w hw hlist
  · intro x hx hnext hhead
    obtain ⟨u, hu⟩ := h.headOnce x hx hnext hhead
    have := hnone u
    rw [hu] at this
    cases this

theorem Inv.take (h : Inv slot s) (hrun : t = s.running) (hslot : slot t) (hp : s.phase t = .out)
    (hfree : s.locked = false) : Inv slot (move s t .taking) := by
  have hnone := h.nobody_of_free hrun hp hfree
  have howner : s.owner = 0 := by
    rcases h.settled hnone with ⟨_, hnull⟩ | ⟨hlocked, _⟩
    · exact hnull
    · rw [hfree] at hlocked
      cases hlocked
  refine h.first_move hnone hslot rfl nofun ⟨hrun, hfree, howner⟩ rfl ?_
  rintro w hw hlist rfl
  exact (h.out_unlisted hslot hp).1 hlist

/-- A waiter comes back from its sleep only as the owner. -/
theorem Inv.resume (h : Inv slot s) (hp : s.phase t = .asleep) (hawake : ¬ s.blocked t) :
    Inv slot (move s t .holding) := by
  have hnone := h.nobody_of_woken hp hawake
  have hslot : slot t := h.slots t (by rw [hp]; exact nofun)
  have howner := ((h.asleep t hp).resolve_left hawake).1
  have hlocked : s.locked = true := by
    rcases h.settled hnone with ⟨_, hnull⟩ | ⟨hlocked, _⟩
    · exact (h.slot_ne_zero hslot (howner.symm.trans hnull)).elim
    · exact hlocked
  refine h.first_move hnone hslot rfl nofun ⟨hlocked, howner⟩ rfl ?_
  rintro w hw hlist rfl
  exact (h.listed w hw hlist).2 howner

omit [DecidableEq α] in
theorem Inv.switch (h : Inv slot s) (r : α) (htaking : s.phase s.running ≠ .taking)
    (hdisowning : s.phase s.running ≠ .disowning) : Inv slot { s with running := r } := by
  refine ⟨h.nullSlot, h.slots, h.unique, fun t => ?_, h.settled, h.asleep, h.listed, h.linkedOnce, h.headOnce⟩
  have hstatus := h.status t
  cases hp : s.phase t with
  | taking =>
      rw [hp] at hstatus
      exact (htaking (hstatus.1 ▸ hp)).elim
  | disowning =>
      rw [hp] at hstatus
      exact (hdisowning (hstatus.1 ▸ hp)).elim
  | _ =>
      rw [hp] at hstatus
      exact hstatus

omit [DecidableEq α] in
theorem Inv.forget (h : Inv slot s) {next : α → α} (hforget : ∀ x, next x = s.next x ∨ next x = 0) :
    Inv slot { s with next := next } := by
  have hnext : ∀ x v, v ≠ 0 → next x = v → s.next x = v := by
    intro x v hv hx
    rcases hforget x with hsame | hzero
    · exact hsame.symm.trans hx
    · exact (hv (hx.symm.trans hzero)).elim
  have hlisted : ∀ v, v ≠ 0 → Listed slot { s with next := next } v → Listed slot s v := by
    rintro v hv (hhead | ⟨x, hx, hxv⟩)
    · exact Or.inl hhead
    · exact Or.inr ⟨x, hx, hnext x v hv hxv⟩
  refine ⟨h.nullSlot, h.slots, h.unique, fun t => ?_, h.settled, h.asleep,
    fun w hw hlist => h.listed w hw (hlisted w hw hlist), fun x y hx hy hxy hne => ?_,
    fun x hx hxhead hhead => h.headOnce x hx (hnext x _ hhead hxhead) hhead⟩
  · have hstatus := h.status t
    cases hp : s.phase t with
    | popping w =>
        rw [hp] at hstatus
        obtain ⟨h1, h2, h3, h4, h5, h6⟩ := hstatus
        exact ⟨h1, h2, h3, h4, h5, fun x hx hxw => h6 x hx (hnext x w h4 hxw)⟩
    | copying w | handover w =>
        rw [hp] at hstatus
        obtain ⟨h1, h2, h3, h4, h5, h6⟩ := hstatus
        exact ⟨h1, h2, h3, h4, h5, fun hlist => h6 (hlisted w h4 hlist)⟩
    | _ =>
        rw [hp] at hstatus
        exact hstatus
  · have hx' := hnext x _ hne rfl
    have hy' := hnext y _ hne hxy.symm
    exact h.linkedOnce x y hx hy (hx'.trans hy'.symm) (hx' ▸ hne)

end Moves

/-- Every move keeps the invariant. -/
theorem Move.inv {slot : α → Prop} {s s' : Lock α} (h : Inv slot s) (step : Move slot s s') : Inv slot s' := by
  cases step with
  | switch r htaking hdisowning => exact h.switch r htaking hdisowning
  | forget next hnext => exact h.forget hnext
  | take t hrun hslot hp hfree => exact h.take hrun hslot hp hfree
  | lock t hp => exact h.lock hp
  | enter t hp => exact h.enter hp
  | free t hrun hp => exact h.free hrun hp
  | disown t hp => exact h.disown hp
  | find t hp hhead => exact h.find hp hhead
  | pop t hp => exact h.pop hp
  | shift t w hp => exact h.shift hp
  | cut t w hp => exact h.cut hp
  | give t w hp => exact h.give hp
  | skip t w hp => exact h.skip hp
  | wake t w hp => exact h.wake hp
  | linkHead t hslot hp => exact h.linkHead hslot hp
  | linkNext t x hslot hp => exact h.linkNext x hslot hp
  | sleep t hp => exact h.sleep hp
  | resume t hp hawake => exact h.resume hp hawake

omit [DecidableEq α] in
/-- Mutual exclusion: whoever holds the lock is its only holder and its owner. -/
theorem Inv.exclusive {slot : α → Prop} {s : Lock α} (h : Inv slot s) {t : α} (ht : s.phase t = .holding) :
    s.owner = t ∧ ∀ u, s.phase u = .holding → u = t :=
  ⟨(h.status_at ht).2, fun u hu => h.unique u t (by rw [hu]; rfl) (by rw [ht]; rfl)⟩

end HandoffLock
