import SengKernel.FsTransfers

/- The file system refines the map of files: the calls of a careful history return
   what the map returns, and the states stay related. -/
namespace SengKernel.Fs
open BoundedLoop MachineWord Str Transition

/-- No descriptor is open on a file that is unlinked, and the end of a read is a
32-bit number. -/
structure Careful (s : State) (l : Call × Reply) : Prop where
  unlinked : ∀ f, l.1 = .unlink (some f) → fsFindInode s f ≠ 0 → NotOpen s f
  reads : ∀ fd buffer count, l.1 = .read fd buffer count → badFd s fd = false →
    (s.openFiles fd.toNat).offset + count.toNat < 4294967296

section Steps

variable {s t : State} {m : FileMap} {x : Int × State} {y : Int × FileMap}

theorem Agree.plain (h : Agree x y) :
    (plainReply x).1 = (FileMap.plainReply y).1 ∧ Represents (plainReply x).2 (FileMap.plainReply y).2 :=
  ⟨congrArg (fun r => Reply.mk r none) h.1, h.2⟩

/-- One careful call. -/
theorem Represents.call (h : Represents s m) {c : Call} {r : Reply} (hcareful : Careful s (c, r)) :
    ∃ y, fileCall m c = some y ∧ (Fs.call s c).1 = y.1 ∧ Represents (Fs.call s c).2 y.2 := by
  cases c with
  | createFile filename => exact ⟨_, rfl, (h.create filename).plain⟩
  | openFile filename create => exact ⟨_, rfl, (h.open filename create).plain⟩
  | close fd => exact ⟨_, rfl, (h.close fd).plain⟩
  | read fd buffer count => exact ⟨_, rfl, h.read fd buffer count (hcareful.reads fd buffer count rfl)⟩
  | write fd buffer count => exact ⟨_, rfl, (h.write fd buffer count).plain⟩
  | unlink filename =>
      obtain ⟨y, hy, hagree⟩ := h.unlink filename (fun f hf hname => by
        subst hf
        exact hcareful.unlinked f rfl (fun hzero => h.listing.find_eq_zero.mp hzero hname))
      exact ⟨_, congrArg (Option.map FileMap.plainReply) hy, hagree.plain⟩

theorem represents_step {l : Call × Reply} (h : Represents s m) (hcareful : Careful s l) (hstep : Step s l t) :
    ∃ m', FileStep m l m' ∧ Represents t m' := by
  obtain ⟨c, r⟩ := l
  obtain ⟨⟨ret, m'⟩, hcall, hret, hrep⟩ := h.call hcareful
  have hstep : Fs.call s c = (r, t) := hstep
  rw [hstep] at hret hrep
  obtain rfl : r = ret := hret
  exact ⟨m', hcall, hrep⟩

end Steps

/-- Every careful history is a history of the map of files, with the same replies. -/
theorem careful_run_refines (s : State) {labels : List (Call × Reply)} {t : State}
    (run : Run (When Careful Step) (fsInit s) labels t) :
    ∃ m, Run FileStep FileMap.empty labels m ∧ Represents t m := by
  have hsim : ∃ m, Run FileStep FileMap.empty (labels.map id) m ∧ Represents t m :=
    run.simulation (R := Represents) id (fun _ _ _ _ h step => represents_step h step.1 step.2) (represents_init s)
  obtain ⟨m, hrun, hrep⟩ := hsim
  rw [List.map_id] at hrun
  exact ⟨m, hrun, hrep⟩

/-- A file is made and written, read from the start, and removed. -/
def readBackAndRemoved : List Call :=
  [.openFile (some nameA) 1, .write 0 (some fun i => UInt8.ofNat (65 + i)) 5, .close 0, .openFile (some nameA) 0,
    .read 0 (some fun _ => 0) 3, .close 0, .unlink (some nameA)]

theorem careful_of_other {s : State} {c : Call} {r : Reply} (hunlink : ∀ f, c ≠ .unlink (some f))
    (hread : ∀ fd buffer count, c ≠ .read fd buffer count) : Careful s (c, r) :=
  ⟨fun f hf => (hunlink f hf).elim, fun fd buffer count hc => (hread fd buffer count hc).elim⟩

theorem careful_run_refines_sample :
    ∃ m, Run FileStep FileMap.empty (trace (fsInit blankState) readBackAndRemoved) m ∧
      Represents (afterCalls (fsInit blankState) readBackAndRemoved) m := by
  refine careful_run_refines blankState (.cons ⟨careful_of_other nofun nofun, rfl⟩
    (.cons ⟨careful_of_other nofun nofun, rfl⟩ (.cons ⟨careful_of_other nofun nofun, rfl⟩
    (.cons ⟨careful_of_other nofun nofun, rfl⟩ (.cons ⟨⟨nofun, ?_⟩, rfl⟩
    (.cons ⟨careful_of_other nofun nofun, rfl⟩ (.cons ⟨⟨?_, nofun⟩, rfl⟩ (.nil _))))))))
  · intro fd buffer count hc _
    cases hc
    decide +kernel
  · intro f hf _
    cases hf
    unfold NotOpen
    decide +kernel

end SengKernel.Fs
