import SengKernel.FsReads

/- Two runs of the file calls side by side. No call looks at the bytes of the data
   blocks except to copy them, so runs that differ in bytes keep the same metadata. -/
namespace SengKernel.Fs
open BoundedLoop MachineWord Str Transition

/-- The state with other bytes in the ramdisk. -/
def withBytes (r : Nat → UInt8) (s : State) : State := { s with ramdisk := r }

section Metadata

variable {s : State} {r : Nat → UInt8}

@[simp] theorem withBytes_inodes (r : Nat → UInt8) (s : State) : (withBytes r s).inodes = s.inodes := rfl

@[simp] theorem withBytes_openFiles (r : Nat → UInt8) (s : State) : (withBytes r s).openFiles = s.openFiles := rfl

@[simp] theorem withBytes_directory (r : Nat → UInt8) (s : State) : (withBytes r s).directory = s.directory := rfl

@[simp] theorem withBytes_blockBitmap (r : Nat → UInt8) (s : State) :
    (withBytes r s).blockBitmap = s.blockBitmap := rfl

@[simp] theorem withBytes_inodeBitmap (r : Nat → UInt8) (s : State) :
    (withBytes r s).inodeBitmap = s.inodeBitmap := rfl

theorem fsFindInode_withBytes (r : Nat → UInt8) (s : State) (f : CString) :
    fsFindInode (withBytes r s) f = fsFindInode s f := rfl

theorem badFd_withBytes (r : Nat → UInt8) (s : State) (fd : Int) : badFd (withBytes r s) fd = badFd s fd := rfl

theorem fsAllocBlock_withBytes (r : Nat → UInt8) (s : State) :
    fsAllocBlock (withBytes r s) = Prod.map id (withBytes r) (fsAllocBlock s) := by
  simp only [fsAllocBlock, withBytes_blockBitmap]
  split <;> rfl

theorem fsAllocInode_withBytes (r : Nat → UInt8) (s : State) :
    fsAllocInode (withBytes r s) = Prod.map id (withBytes r) (fsAllocInode s) := by
  simp only [fsAllocInode, withBytes_inodeBitmap]
  split <;> rfl

theorem fsCreateFile_withBytes (r : Nat → UInt8) (s : State) (filename : Option CString) :
    fsCreateFile (withBytes r s) filename = Prod.map id (withBytes r) (fsCreateFile s filename) := by
  cases filename with
  | none => rfl
  | some f =>
      have hentry : fsFindFreeDirEntry (withBytes r s) = fsFindFreeDirEntry s := rfl
      simp only [fsCreateFile, fsFindInode_withBytes, fsAllocInode_withBytes, hentry, Prod.map_fst, Prod.map_snd, id]
      split
      · rfl
      · split
        · rfl
        · split
          · rfl
          · split <;> rfl

theorem fsOpenInode_withBytes (r : Nat → UInt8) (s : State) (n : Nat) :
    fsOpenInode (withBytes r s) n = Prod.map id (withBytes r) (fsOpenInode s n) := by
  have hscan : fsFindFreeFd (withBytes r s) = fsFindFreeFd s := rfl
  simp only [fsOpenInode, hscan]
  split
  · rfl
  · split <;> rfl

theorem fsOpen_withBytes (r : Nat → UInt8) (s : State) (filename : Option CString) (create : Int) :
    fsOpen (withBytes r s) filename create = Prod.map id (withBytes r) (fsOpen s filename create) := by
  cases filename with
  | none => rfl
  | some f =>
      simp only [fsOpen, fsFindInode_withBytes, fsCreateFile_withBytes, fsOpenInode_withBytes, Prod.map_fst,
        Prod.map_snd, id]
      split
      · split <;> rfl
      · rfl

theorem makesFile_withBytes (r : Nat → UInt8) (s : State) (c : Call) : makesFile (withBytes r s) c = makesFile s c := by
  cases c with
  | createFile filename => simp only [makesFile, fsCreateFile_withBytes, Prod.map_fst, id]
  | openFile filename create =>
      cases filename with
      | none => rfl
      | some f => simp only [makesFile, fsFindInode_withBytes, fsCreateFile_withBytes, Prod.map_fst, id]
  | close fd => rfl
  | read fd buffer count => rfl
  | write fd buffer count => rfl
  | unlink filename => rfl

theorem fsClose_withBytes (r : Nat → UInt8) (s : State) (fd : Int) :
    fsClose (withBytes r s) fd = Prod.map id (withBytes r) (fsClose s fd) := by
  cases hbad : badFd s fd with
  | true => simp only [fsClose, badFd_withBytes, hbad, if_true, Prod.map_apply, id]
  | false =>
      simp only [fsClose, badFd_withBytes, hbad, Bool.false_eq_true, if_false]
      rfl

theorem fsFreeBlock_withBytes (r : Nat → UInt8) (s : State) (b : Nat) :
    fsFreeBlock (withBytes r s) b = withBytes r (fsFreeBlock s b) := by
  by_cases hrange : b < fsDataStartBlock ∨ b ≥ fsTotalBlocks
  · simp only [fsFreeBlock, if_pos hrange]
  · cases htest : ByteBitmap.test s.blockBitmap (b - fsDataStartBlock) with
    | true =>
        simp only [fsFreeBlock, if_neg hrange, withBytes_blockBitmap, htest, if_true]
        rfl
    | false => simp only [fsFreeBlock, if_neg hrange, withBytes_blockBitmap, htest, Bool.false_eq_true, if_false]

theorem freeDataBlocks_withBytes (r : Nat → UInt8) (s : State) (n : Nat) :
    freeDataBlocks (withBytes r s) n = withBytes r (freeDataBlocks s n) := by
  refine forRange_map (withBytes r) (fun i t => ?_)
  rw [withBytes_inodes, fsFreeBlock_withBytes]
  split <;> rfl

theorem fsFreeInode_withBytes (r : Nat → UInt8) (s : State) (n : Nat) :
    fsFreeInode (withBytes r s) n = withBytes r (fsFreeInode s n) := by
  by_cases hrange : n = 0 ∨ n ≥ fsMaxInodes
  · simp only [fsFreeInode, if_pos hrange]
  · cases htest : ByteBitmap.test s.inodeBitmap n with
    | true =>
        simp only [fsFreeInode, if_neg hrange, withBytes_inodeBitmap, htest, if_true]
        rfl
    | false => simp only [fsFreeInode, if_neg hrange, withBytes_inodeBitmap, htest, Bool.false_eq_true, if_false]

theorem removeEntry_withBytes (r : Nat → UInt8) (s : State) (n : Nat) :
    removeEntry (withBytes r s) n = withBytes r (removeEntry s n) := by
  simp only [removeEntry, withBytes_directory]
  split <;> rfl

theorem fsUnlink_withBytes (r : Nat → UInt8) (s : State) (filename : Option CString) :
    fsUnlink (withBytes r s) filename = Prod.map id (withBytes r) (fsUnlink s filename) := by
  cases filename with
  | none => rfl
  | some f =>
      simp only [fsUnlink, fsFindInode_withBytes, freeDataBlocks_withBytes, fsFreeInode_withBytes,
        removeEntry_withBytes]
      split <;> rfl

end Metadata

section Transfers

variable {s : State} {r : Nat → UInt8} {k count : Nat} {buf buf' : Nat → UInt8}

/-- The address of byte `p` of the file on inode `n`. -/
def byteAddr (s : State) (n p : Nat) : Nat := (s.inodes n).blocks (p / 4096) * 4096 + p % 4096

theorem ensureBlock_withBytes (r : Nat → UInt8) (s : State) (n j : Nat) :
    ensureBlock (withBytes r s) n j = (ensureBlock s n j).map (withBytes r) := by
  simp only [ensureBlock, fsAllocBlock_withBytes, withBytes_inodes, Prod.map_fst, Prod.map_snd, id]
  split
  · split <;> rfl
  · rfl

/-- One pass on both sides: both break, or both copy to the same address. -/
theorem writePass_withBytes (buf buf' : Nat → UInt8) (k count : Nat) (r : Nat → UInt8) (t : State) (m : Nat) :
    writePass k buf count ⟨t, m⟩ = none ∧ writePass k buf' count ⟨withBytes r t, m⟩ = none ∨
    ∃ v w, (t.openFiles k).offset / 4096 < 8 ∧
      ensureBlock t (t.openFiles k).inode ((t.openFiles k).offset / 4096) = some v ∧
      w ≤ count - m ∧ w ≤ 4096 - (t.openFiles k).offset % 4096 ∧
      writePass k buf count ⟨t, m⟩ = some ⟨putBytes v k buf m w, m + w⟩ ∧
      writePass k buf' count ⟨withBytes r t, m⟩ = some ⟨withBytes
        (memcpy r (byteAddr v (v.openFiles k).inode (v.openFiles k).offset) buf' m w) (putBytes v k buf m w), m + w⟩ := by
  by_cases hidx : (t.openFiles k).offset / fsBlockSize ≥ fsDirectBlocks
  · exact Or.inl ⟨if_pos hidx, if_pos hidx⟩
  · have hensure' := ensureBlock_withBytes r t (t.openFiles k).inode ((t.openFiles k).offset / fsBlockSize)
    cases hensure : ensureBlock t (t.openFiles k).inode ((t.openFiles k).offset / fsBlockSize) with
    | none =>
        rw [hensure] at hensure'
        refine Or.inl ⟨(if_neg hidx).trans ?_, (if_neg hidx).trans ?_⟩
        · exact congrArg (Option.map _) hensure
        · exact congrArg (Option.map _) hensure'
    | some v =>
        rw [hensure] at hensure'
        have hw := passSize_le ((t.openFiles k).offset % fsBlockSize) (count - m)
        refine Or.inr ⟨v, passSize ((t.openFiles k).offset % fsBlockSize) (count - m), Nat.lt_of_not_le hidx, rfl,
          hw.1, hw.2, (if_neg hidx).trans ?_, (if_neg hidx).trans ?_⟩
        · exact congrArg (Option.map _) hensure
        · exact congrArg (Option.map _) hensure'

/-- Two writes of the same count run in step, whatever bytes they carry. What growing an
inode and the two copies keep, the writes keep. -/
theorem writeLoop_withBytes (buf buf' : Nat → UInt8) (k count : Nat) (P : State → (Nat → UInt8) → Prop)
    (hgrow : ∀ t r i, P t r → (t.openFiles k).offset / 4096 < 8 →
      (t.inodes (t.openFiles k).inode).blocks ((t.openFiles k).offset / 4096) = 0 → i < 220 →
      ByteBitmap.test t.blockBitmap i = false →
      P (growInode t (t.openFiles k).inode ((t.openFiles k).offset / 4096) i) r)
    (hput : ∀ t r m w, P t r → (t.openFiles k).offset / 4096 < 8 →
      (t.inodes (t.openFiles k).inode).blocks ((t.openFiles k).offset / 4096) ≠ 0 →
      w ≤ 4096 - (t.openFiles k).offset % 4096 → m + w ≤ count →
      P (putBytes t k buf m w) (memcpy r (byteAddr t (t.openFiles k).inode (t.openFiles k).offset) buf' m w))
    (h : P s r) :
    ∃ r', writeLoop k buf' count ⟨withBytes r s, 0⟩ =
      ⟨withBytes r' (writeLoop k buf count ⟨s, 0⟩).fs, (writeLoop k buf count ⟨s, 0⟩).bytesWritten⟩ ∧
      P (writeLoop k buf count ⟨s, 0⟩).fs r' := by
  refine loopWhile_relate
    (fun x y : Writing => ∃ r', y = ⟨withBytes r' x.fs, x.bytesWritten⟩ ∧ P x.fs r')
    (fun x y hxy => ?_) (fun x y hxy hmore => ?_) ⟨r, rfl, h⟩
  · obtain ⟨_, rfl, _⟩ := hxy
    rfl
  · obtain ⟨t, m⟩ := x
    obtain ⟨r', rfl, hP⟩ := hxy
    have hmore : m < count := of_decide_eq_true hmore
    rcases writePass_withBytes buf buf' k count r' t m with
      hnone | ⟨v, w, hidx, hensure, hleft, hw, hpass, hpass'⟩
    · exact Or.inl hnone
    · refine Or.inr ⟨_, _, hpass, hpass', _, rfl, ?_⟩
      rcases ensureBlock_some hensure with ⟨hne, rfl⟩ | ⟨hzero, i, hi, hclear, rfl⟩
      · exact hput _ _ m w hP hidx hne hw (by omega)
      · refine hput _ _ m w (hgrow _ _ i hP hidx hzero hi hclear) ?_ ?_ ?_ (by omega)
        · rw [growInode_openFiles]
          exact hidx
        · rw [growInode_openFiles, growInode_blocks, if_pos ⟨rfl, rfl⟩]
          omega
        · rw [growInode_openFiles]
          exact hw

/-- A pair of writes does nothing on both sides, or runs the two loops. -/
theorem fsWrite_withBytes (r : Nat → UInt8) (s : State) (fd : Int) (buf buf' : Nat → UInt8) (count : UInt32) :
    (fsWrite s fd (some buf) count).2 = s ∧ (fsWrite (withBytes r s) fd (some buf') count).2 = withBytes r s ∨
    ∃ k : Nat, k < 16 ∧ fd = k ∧ (s.openFiles k).valid = true ∧ count ≠ 0 ∧
      (fsWrite s fd (some buf) count).2 = (writeLoop k buf count.toNat ⟨s, 0⟩).fs ∧
      (fsWrite (withBytes r s) fd (some buf') count).2 = (writeLoop k buf' count.toNat ⟨withBytes r s, 0⟩).fs := by
  cases hbad : badFd s fd with
  | true =>
      refine Or.inl ⟨?_, ?_⟩
      · simp only [fsWrite, hbad, if_true]
      · simp only [fsWrite, badFd_withBytes, hbad, if_true]
  | false =>
      obtain ⟨k, hk, rfl, hvalid⟩ := badFd_eq_false.mp hbad
      by_cases hcount : count = 0
      · refine Or.inl ⟨?_, ?_⟩
        · simp only [fsWrite, hbad, Bool.false_eq_true, if_false, hcount, if_true]
        · simp only [fsWrite, badFd_withBytes, hbad, Bool.false_eq_true, if_false, hcount, if_true]
      · refine Or.inr ⟨k, hk, rfl, hvalid, hcount, ?_, ?_⟩
        · simp only [fsWrite, hbad, Bool.false_eq_true, if_false, hcount, Int.toNat_natCast]
        · simp only [fsWrite, badFd_withBytes, hbad, Bool.false_eq_true, if_false, hcount, Int.toNat_natCast]

/-- The blocks settle how far a read goes, not the bytes. -/
theorem readLoop_withBytes (r : Nat → UInt8) (s : State) (k count : Nat) (buf buf' : Nat → UInt8) :
    (readLoop k count ⟨withBytes r s, 0, buf'⟩).bytesRead = (readLoop k count ⟨s, 0, buf⟩).bytesRead ∧
    (readLoop k count ⟨withBytes r s, 0, buf'⟩).fs = withBytes r (readLoop k count ⟨s, 0, buf⟩).fs := by
  have hleft := readLoop_fetched s k count buf
  have hright := readLoop_fetched (withBytes r s) k count buf'
  have hcount := hright.bytesRead_eq hleft.le hleft.present hleft.stop
  refine ⟨hcount, ?_⟩
  rw [hright.fs, hleft.fs, hcount]
  rfl

theorem fsRead_withBytes (r : Nat → UInt8) (s : State) (fd : Int) (buf buf' : Nat → UInt8) (count : UInt32) :
    (fsRead (withBytes r s) fd (some buf') count).2 = withBytes r (fsRead s fd (some buf) count).2 := by
  cases hbad : badFd s fd with
  | true => simp only [fsRead, badFd_withBytes, hbad, if_true]
  | false =>
      obtain ⟨k, hk, rfl, hvalid⟩ := badFd_eq_false.mp hbad
      rw [fsRead_eq hk hvalid, fsRead_eq (s := withBytes r s) hk hvalid, withBytes_openFiles, withBytes_inodes]
      by_cases hend : count = 0 ∨ (s.inodes (s.openFiles k).inode).size ≤ (s.openFiles k).offset
      · rw [if_pos hend, if_pos hend]
      · rw [if_neg hend, if_neg hend]
        exact (readLoop_withBytes r s k _ buf buf').2

/-- Null buffers change nothing. -/
theorem fsRead_none (s : State) (fd : Int) (count : UInt32) : (fsRead s fd none count).2 = s := by
  simp only [fsRead]
  split <;> rfl

theorem fsWrite_none (s : State) (fd : Int) (count : UInt32) : (fsWrite s fd none count).2 = s := by
  simp only [fsWrite]
  split <;> rfl

end Transfers

/-- Two histories side by side. -/
structure Twins where
  left : History
  right : History

/-- Two calls with the same names, descriptors and counts. The bytes that they hand over
differ at most where the descriptor was opened on a file in `hidden`. -/
inductive SameBut (hidden : Nat → Prop) (h : History) : Call → Call → Prop
  | same (c : Call) : SameBut hidden h c c
  | read (fd : Int) (buf buf' : Nat → UInt8) (count : UInt32) :
      SameBut hidden h (.read fd (some buf) count) (.read fd (some buf') count)
  | write (fd : Int) (buf buf' : Nat → UInt8) (count : UInt32)
      (agree : ¬ hidden (h.target fd.toNat) → ∀ i < count.toNat, buf' i = buf i) :
      SameBut hidden h (.write fd (some buf) count) (.write fd (some buf') count)

def TwinStep (hidden : Nat → Prop) (p : Twins) (c : Call × Call) (q : Twins) : Prop :=
  SameBut hidden p.left c.1 c.2 ∧ HistoryStep p.left c.1 q.left ∧ HistoryStep p.right c.2 q.right

def startTwins (s : State) : Twins := ⟨startHistory s, startHistory s⟩

/-- The histories differ in the bytes of the ramdisk only. -/
def Alike (p : Twins) : Prop := p.right = { p.left with fs := withBytes p.right.fs.ramdisk p.left.fs }

section Steps

variable {hidden : Nat → Prop} {p q : Twins} {c : Call × Call} {h : History}

theorem write_withBytes (r : Nat → UInt8) (s : State) (fd : Int) (buf buf' : Nat → UInt8) (count : UInt32) :
    ∃ r', (fsWrite (withBytes r s) fd (some buf') count).2 = withBytes r' (fsWrite s fd (some buf) count).2 := by
  rcases fsWrite_withBytes r s fd buf buf' count with ⟨hleft, hright⟩ | ⟨k, _, _, _, _, hleft, hright⟩
  · exact ⟨r, by rw [hleft, hright]⟩
  · obtain ⟨r', hloop, _⟩ := writeLoop_withBytes (s := s) (r := r) buf buf' k count.toNat (fun _ _ => True)
      (fun _ _ _ _ _ _ _ _ => trivial) (fun _ _ _ _ _ _ _ _ _ => trivial) trivial
    exact ⟨r', by rw [hleft, hright, hloop]⟩

/-- Two calls of a pair change the state alike. -/
theorem call_withBytes {c c' : Call} (hsame : SameBut hidden h c c') (r : Nat → UInt8) (s : State) :
    ∃ r', (call (withBytes r s) c').2 = withBytes r' (call s c).2 := by
  cases hsame with
  | same =>
      cases c with
      | createFile filename => exact ⟨r, congrArg Prod.snd (fsCreateFile_withBytes r s filename)⟩
      | openFile filename create => exact ⟨r, congrArg Prod.snd (fsOpen_withBytes r s filename create)⟩
      | close fd => exact ⟨r, congrArg Prod.snd (fsClose_withBytes r s fd)⟩
      | read fd buffer count =>
          cases buffer with
          | none => exact ⟨r, (fsRead_none _ fd count).trans (congrArg (withBytes r) (fsRead_none s fd count).symm)⟩
          | some buf => exact ⟨r, fsRead_withBytes r s fd buf buf count⟩
      | write fd buffer count =>
          cases buffer with
          | none => exact ⟨r, (fsWrite_none _ fd count).trans (congrArg (withBytes r) (fsWrite_none s fd count).symm)⟩
          | some buf => exact write_withBytes r s fd buf buf count
      | unlink filename => exact ⟨r, congrArg Prod.snd (fsUnlink_withBytes r s filename)⟩
  | read fd buf buf' count => exact ⟨r, fsRead_withBytes r s fd buf buf' count⟩
  | write fd buf buf' count _ => exact write_withBytes r s fd buf buf' count

theorem SameBut.makesFile {c c' : Call} (hsame : SameBut hidden h c c') (r : Nat → UInt8) (s : State) :
    makesFile (withBytes r s) c' = Fs.makesFile s c := by
  cases hsame with
  | same => exact makesFile_withBytes r s c
  | read fd buf buf' count => rfl
  | write fd buf buf' count _ => rfl

theorem SameBut.bornAfter {c c' : Call} (hsame : SameBut hidden h c c') (r : Nat → UInt8) (g : History) :
    bornAfter { g with fs := withBytes r g.fs } c' = Fs.bornAfter g c := by
  have halloc : (fsAllocInode (withBytes r g.fs)).1 = (fsAllocInode g.fs).1 := by
    rw [fsAllocInode_withBytes]
    rfl
  simp only [Fs.bornAfter, hsame.makesFile, halloc]

theorem SameBut.targetAfter {c c' : Call} (hsame : SameBut hidden h c c') (r : Nat → UInt8) (g : History) :
    targetAfter { g with fs := withBytes r g.fs } c' = Fs.targetAfter g c := by
  cases hsame with
  | same =>
      cases c with
      | openFile filename create =>
          have hborn := (SameBut.same (.openFile filename create) : SameBut hidden h _ _).bornAfter r g
          simp only [Fs.targetAfter, fsOpen_withBytes, hborn, Prod.map_fst, Prod.map_snd, id, withBytes_openFiles]
      | createFile filename => rfl
      | close fd => rfl
      | read fd buffer count => rfl
      | write fd buffer count => rfl
      | unlink filename => rfl
  | read fd buf buf' count => rfl
  | write fd buf buf' count _ => rfl

theorem alike_start (s : State) : Alike (startTwins s) := rfl

/-- One pair of calls keeps the two histories alike. -/
theorem Alike.step (halike : Alike p) (step : TwinStep hidden p c q) : Alike q := by
  obtain ⟨hsame, hleft, hright⟩ := step
  obtain ⟨r', hcall⟩ := call_withBytes hsame p.right.fs.ramdisk p.left.fs
  rw [Alike, ← hleft, ← hright, halike]
  simp only [record, hsame.makesFile, hsame.bornAfter, hsame.targetAfter, hcall]
  rfl

end Steps

end SengKernel.Fs
