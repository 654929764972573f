import SengKernel.FsDirectory

/- Calls that fail: all leave the state as it was, but for `fs_open` when it has made
   the file before it finds that no descriptor is free. -/
namespace SengKernel.Fs
open BoundedLoop MachineWord Str Transition

/-- A failing call leaves the whole state. -/
def Atomic (s : State) (c : Call) : Prop := (call s c).1.ret = -1 → (call s c).2 = s

/-- `fs_open` is to make a new file while all descriptors are in use. -/
def OpensWithoutDescriptor (s : State) (c : Call) : Prop :=
  ∃ f create, c = .openFile (some f) create ∧ create ≠ 0 ∧ (1 ≤ f.chars.length ∧ f.chars.length ≤ 27) ∧
    fsFindInode s f = 0 ∧ (∃ i < 128, (s.directory i).inode = 0) ∧ ∀ k < 16, (s.openFiles k).valid = true

section Steps

variable {s : State} {names : Finset CString} {i n : Nat} {f : CString}

theorem newFile_found (hc : Creatable s f i n) : fsFindInode (newFile s i n f) f ≠ 0 := by
  have hnamed := newFile_named hc
  rcases fsFindEntry_cases (newFile s i n f) f with ⟨k, _, hfind, hne, _⟩ | ⟨_, hnone⟩
  · rw [fsFindInode, hfind]
    exact hne
  · exact (hnone i hnamed.1.1 hnamed.1.2 hnamed.2).elim

theorem newFile_ne (hc : Creatable s f i n) : newFile s i n f ≠ s := by
  intro heq
  have hne := (newFile_named hc).1.2
  rw [heq] at hne
  exact hne hc.entryFree

/-- The end of `fs_open` fails before it changes anything. -/
theorem fsOpenInode_failed (h : (fsOpenInode s n).1 = -1) : (fsOpenInode s n).2 = s := by
  rcases fsOpenInode_cases s n with ⟨heq, _⟩ | ⟨_, k, _, _, _, heq⟩
  · rw [heq]
  · rw [heq] at h
    have h : (k : Int) = -1 := h
    omega

theorem fsOpen_failed (filename : Option CString) (create : Int)
    (hok : ¬ OpensWithoutDescriptor s (.openFile filename create)) (h : (fsOpen s filename create).1 = -1) :
    (fsOpen s filename create).2 = s := by
  rcases fsOpen_cases s filename create with ⟨_, heq | ⟨f, _, heq⟩⟩ | ⟨hmade, f, i, n, rfl, hc, heq⟩
  · rw [heq]
  · rw [heq] at h ⊢
    exact fsOpenInode_failed h
  · have hcreate : create ≠ 0 := by
      rintro rfl
      simp [makesFile] at hmade
    rcases fsOpenInode_cases (newFile s i n f) (fsFindInode (newFile s i n f) f) with
      ⟨_, hnone | hfull⟩ | ⟨_, k, _, _, _, heq'⟩
    · exact (newFile_found hc hnone).elim
    · exact (hok ⟨f, create, rfl, hcreate, ⟨hc.nonempty, hc.short⟩, hc.absent, ⟨i, hc.entry, hc.entryFree⟩, hfull⟩).elim
    · rw [heq, heq'] at h
      have h : (k : Int) = -1 := h
      omega

/-- The failing open has made the file. -/
theorem Directory.open_orphan (h : Directory s names) {c : Call} (hbad : OpensWithoutDescriptor s c) : ¬ Atomic s c := by
  obtain ⟨f, create, rfl, hcreate, hname, hzero, ⟨k, hk, hfree⟩, hfull⟩ := hbad
  have haccepts : Accepts names f := ⟨hname, h.listing.find_eq_zero.mp hzero, h.listing.entry_free hk hfree⟩
  rcases h.create_cases f with ⟨hno, _⟩ | ⟨_, i, n, hc, hmade⟩
  · exact (hno haccepts).elim
  · have hopen : fsOpen s (some f) create = (-1, newFile s i n f) := by
      have hnone : fsFindFreeFd (newFile s i n f) = none :=
        scan_eq_none (fun j _ hj => by rw [show ((newFile s i n f).openFiles j).valid = true from hfull j (by simpa using hj)]; rfl)
      simp only [fsOpen, if_pos (show fsFindInode s f = 0 ∧ create ≠ 0 from ⟨hzero, hcreate⟩), hmade, ne_eq,
        not_true_eq_false, if_false, fsOpenInode, if_neg (newFile_found hc), hnone]
    intro hatomic
    have hstate : (fsOpen s (some f) create).2 = s := hatomic (congrArg Prod.fst hopen)
    rw [hopen] at hstate
    exact newFile_ne hc hstate

theorem fsRead_failed {fd : Int} {buffer : Option (Nat → UInt8)} {count : UInt32}
    (h : (fsRead s fd buffer count).1.ret = -1) : (fsRead s fd buffer count).2 = s := by
  unfold fsRead at h ⊢
  split at h
  · rename_i hbad
    rw [if_pos hbad]
  · rename_i hbad
    rw [if_neg hbad]
    split
    · rfl
    · dsimp only at h ⊢
      split at h
      · rename_i hcount
        rw [if_pos hcount]
      · rename_i hcount
        rw [if_neg hcount]
        split at h
        · rename_i hend
          rw [if_pos hend]
        · dsimp only at h
          omega

theorem fsWrite_failed {fd : Int} {buffer : Option (Nat → UInt8)} {count : UInt32}
    (h : (fsWrite s fd buffer count).1 = -1) : (fsWrite s fd buffer count).2 = s := by
  rcases fsWrite_cases s fd buffer count with heq | ⟨k, buf, _, _, _, _, _, heq⟩
  · exact heq
  · rw [heq] at h
    dsimp only at h
    omega

theorem Directory.atomic_iff (howned : Owned s) (h : Directory s names) (c : Call) :
    Atomic s c ↔ ¬ OpensWithoutDescriptor s c := by
  refine ⟨fun hatomic hbad => h.open_orphan hbad hatomic, fun hok hfail => ?_⟩
  cases c with
  | createFile filename =>
      rcases fsCreateFile_cases s filename with ⟨heq, _⟩ | ⟨f, i, n, _, _, heq⟩
      · exact congrArg Prod.snd heq
      · have hret : (Fs.fsCreateFile s filename).1 = -1 := hfail
        rw [heq] at hret
        cases hret
  | openFile filename create => exact fsOpen_failed filename create hok hfail
  | close fd =>
      rcases fsClose_cases s fd with ⟨_, heq⟩ | ⟨k, _, _, _, heq⟩
      · exact congrArg Prod.snd heq
      · have hret : (fsClose s fd).1 = -1 := hfail
        rw [heq] at hret
        cases hret
  | read fd buffer count => exact fsRead_failed hfail
  | write fd buffer count => exact fsWrite_failed hfail
  | unlink filename =>
      rcases howned.fsUnlink_cases filename with ⟨heq, _⟩ | ⟨f, i, u, _, _, _, _, heq, _⟩
      · exact congrArg Prod.snd heq
      · have hret : (fsUnlink s filename).1 = -1 := hfail
        rw [heq] at hret
        cases hret

end Steps

/-- In every state that file calls reach, a call is atomic unless it is an `fs_open`
that makes a file while no descriptor is free. -/
theorem atomic_iff_descriptor_left (s : State) (calls : List Call) (c : Call) :
    Atomic (afterCalls (fsInit s) calls) c ↔ ¬ OpensWithoutDescriptor (afterCalls (fsInit s) calls) c :=
  (directory_after s calls).2.atomic_iff (directory_after s calls).1 c

/-- All 16 descriptors are open on `a`. -/
def descriptorsUsed : List Call := List.replicate 16 (.openFile (some nameA) 1)

/-- The open of a new `b` fails, and `b` is there. -/
theorem failed_open_creates :
    (call (afterCalls (fsInit blankState) descriptorsUsed) (.openFile (some nameB) 1)).1.ret = -1 ∧
    (call (afterCalls (fsInit blankState) descriptorsUsed) (.openFile (some nameB) 1)).2 ≠
      afterCalls (fsInit blankState) descriptorsUsed := by
  refine ⟨by decide +kernel, fun heq => ?_⟩
  have hold : ((afterCalls (fsInit blankState) descriptorsUsed).directory 1).inode = 0 := by decide +kernel
  have hnew : ((call (afterCalls (fsInit blankState) descriptorsUsed) (.openFile (some nameB) 1)).2.directory 1).inode
      ≠ 0 := by decide +kernel
  rw [heq] at hnew
  exact hnew hold

end SengKernel.Fs
