import SengKernel.FsCalls

/- What each call of kernel/fs.c changes: one lemma a call, with the cases in which
   it changes nothing. -/
namespace SengKernel.Fs
open BoundedLoop MachineWord Str

section Descriptors

variable {s : State} {fd : Int}

/-- A descriptor number that the calls accept. -/
theorem badFd_eq_false : badFd s fd = false ↔ ∃ k : Nat, k < 16 ∧ fd = k ∧ (s.openFiles k).valid = true := by
  simp only [badFd, fsMaxOpenFiles, Bool.or_eq_false_iff, decide_eq_false_iff_not, Bool.not_eq_false']
  constructor
  · rintro ⟨⟨hlow, hhigh⟩, hvalid⟩
    exact ⟨fd.toNat, by omega, by omega, hvalid⟩
  · rintro ⟨k, hk, rfl, hvalid⟩
    exact ⟨⟨by omega, by omega⟩, hvalid⟩

theorem badFd_natCast {k : Nat} (hk : k < 16) : badFd s k = !(s.openFiles k).valid := by
  cases hvalid : (s.openFiles k).valid with
  | true => exact badFd_eq_false.mpr ⟨k, hk, rfl, hvalid⟩
  | false => simp [badFd, hvalid]

theorem fsClose_cases (s : State) (fd : Int) :
    (badFd s fd = true ∧ fsClose s fd = (-1, s)) ∨
    (∃ k : Nat, k < 16 ∧ fd = k ∧ (s.openFiles k).valid = true ∧
      fsClose s fd = (0, setDesc s k { s.openFiles k with valid := false })) := by
  cases hbad : badFd s fd with
  | true => exact Or.inl ⟨rfl, by rw [fsClose, if_pos hbad]⟩
  | false =>
      obtain ⟨k, hk, rfl, hvalid⟩ := badFd_eq_false.mp hbad
      refine Or.inr ⟨k, hk, rfl, hvalid, ?_⟩
      rw [fsClose, hbad]
      rfl

theorem fsFindFreeFd_cases (s : State) :
    (∃ k < 16, fsFindFreeFd s = some k ∧ (s.openFiles k).valid = false ∧
      ∀ j < k, (s.openFiles j).valid = true) ∨
    (fsFindFreeFd s = none ∧ ∀ k < 16, (s.openFiles k).valid = true) := by
  cases hscan : fsFindFreeFd s with
  | some k =>
      obtain ⟨_, hk, hp, hbefore⟩ := scan_some hscan
      refine Or.inl ⟨k, by simpa using hk, rfl, by simpa using hp, fun j hj => ?_⟩
      simpa using hbefore j (Nat.zero_le j) hj
  | none =>
      refine Or.inr ⟨rfl, fun k hk => ?_⟩
      simpa using scan_none hscan k (Nat.zero_le k) (by simpa using hk)

theorem fsOpenInode_cases (s : State) (n : Nat) :
    (fsOpenInode s n = (-1, s) ∧ (n = 0 ∨ ∀ k < 16, (s.openFiles k).valid = true)) ∨
    (n ≠ 0 ∧ ∃ k < 16, (s.openFiles k).valid = false ∧ (∀ j < k, (s.openFiles j).valid = true) ∧
      fsOpenInode s n = ((k : Int), setDesc s k { inode := n, offset := 0, valid := true })) := by
  by_cases hn : n = 0
  · exact Or.inl ⟨by rw [fsOpenInode, if_pos hn], Or.inl hn⟩
  · rcases fsFindFreeFd_cases s with ⟨k, hk, hscan, hfree, hbefore⟩ | ⟨hscan, hall⟩
    · refine Or.inr ⟨hn, k, hk, hfree, hbefore, ?_⟩
      rw [fsOpenInode, if_neg hn, hscan]
    · refine Or.inl ⟨?_, Or.inr hall⟩
      rw [fsOpenInode, if_neg hn, hscan]

end Descriptors

section Creation

/-- Inode `n` taken and cleared, and named `f` in directory entry `i`. -/
def newFile (s : State) (i n : Nat) (f : CString) : State :=
  setDirEntry
    (setInode (setFreeInodes { s with inodeBitmap := ByteBitmap.set s.inodeBitmap n } (dec32 s.superblock.freeInodes))
      n { size := 0, blocks := fun _ => 0 })
    i { name := strncpy f.chars (fsFilenameLen - 1) ++ [0], inode := n }

/-- What `fs_create_file` has checked and found when it succeeds. -/
structure Creatable (s : State) (f : CString) (i n : Nat) : Prop where
  nonempty : 1 ≤ f.chars.length
  short : f.chars.length ≤ 27
  absent : fsFindInode s f = 0
  entry : i < 128
  entryFree : (s.directory i).inode = 0
  positive : 1 ≤ n
  bound : n < 1024
  given : (fsAllocInode s).1 = n
  inodeFree : ByteBitmap.test s.inodeBitmap n = false

theorem fsCreateFile_cases (s : State) (filename : Option CString) :
    (fsCreateFile s filename = (-1, s) ∧ ∀ f, filename = some f →
      f.chars.length = 0 ∨ 28 ≤ f.chars.length ∨ fsFindInode s f ≠ 0 ∨ (∀ i < 128, (s.directory i).inode ≠ 0) ∨
      (∀ n, 1 ≤ n → n < 1024 → ByteBitmap.test s.inodeBitmap n = true)) ∨
    (∃ f i n, filename = some f ∧ Creatable s f i n ∧ fsCreateFile s filename = (0, newFile s i n f)) := by
  cases filename with
  | none => exact Or.inl ⟨rfl, nofun⟩
  | some f =>
      have hlen : strlen f.chars = f.chars.length := by rw [strlen_eq, CString.text_chars]
      simp only [fsCreateFile, hlen, fsFilenameLen]
      split
      · rename_i hbad
        exact Or.inl ⟨rfl, fun g hg => by cases hg; omega⟩
      · rename_i hgood
        split
        · rename_i hfound
          exact Or.inl ⟨rfl, fun g hg => by cases hg; exact Or.inr (Or.inr (Or.inl hfound))⟩
        · rename_i habsent
          rcases fsFindFreeDirEntry_cases s with ⟨i, hi, hscan, hfree⟩ | ⟨hscan, hfull⟩
          · rw [hscan]
            rcases fsAllocInode_cases s with ⟨hnone, hall⟩ | ⟨n, hn, hlt, hclear, hsome⟩
            · refine Or.inl ⟨?_, fun g _ => Or.inr (Or.inr (Or.inr (Or.inr hall)))⟩
              rw [hnone]
              rfl
            · refine Or.inr ⟨f, i, n, rfl, ⟨by omega, by omega, not_not.mp habsent, hi, hfree, hn, hlt, by rw [hsome],
                hclear⟩, ?_⟩
              rw [hsome]
              exact if_neg (by omega)
          · rw [hscan]
            exact Or.inl ⟨rfl, fun g _ => Or.inr (Or.inr (Or.inr (Or.inl hfull)))⟩

/-- The call makes a new file, on the inode that `fs_alloc_inode` gives. -/
def makesFile (s : State) : Call → Bool
  | .createFile filename => (fsCreateFile s filename).1 == 0
  | .openFile (some f) create =>
      fsFindInode s f == 0 && create != 0 && (fsCreateFile s (some f)).1 == 0
  | _ => false

/-- `fs_open`: perhaps a new file, then perhaps a descriptor. -/
theorem fsOpen_cases (s : State) (filename : Option CString) (create : Int) :
    (makesFile s (.openFile filename create) = false ∧ (fsOpen s filename create = (-1, s) ∨
      ∃ f, filename = some f ∧ fsOpen s filename create = fsOpenInode s (fsFindInode s f))) ∨
    (makesFile s (.openFile filename create) = true ∧ ∃ f i n, filename = some f ∧ Creatable s f i n ∧
      fsOpen s filename create = fsOpenInode (newFile s i n f) (fsFindInode (newFile s i n f) f)) := by
  cases filename with
  | none => exact Or.inl ⟨rfl, Or.inl rfl⟩
  | some f =>
      by_cases hmake : fsFindInode s f = 0 ∧ create ≠ 0
      · rcases fsCreateFile_cases s (some f) with ⟨hfail, _⟩ | ⟨g, i, n, hg, hc, hok⟩
        · refine Or.inl ⟨?_, Or.inl ?_⟩
          · simp [makesFile, hfail]
          · simp only [fsOpen, if_pos hmake, hfail]
            rfl
        · cases hg
          refine Or.inr ⟨?_, f, i, n, rfl, hc, ?_⟩
          · simp [makesFile, hok, hmake]
          · simp only [fsOpen, if_pos hmake, hok]
            rfl
      · refine Or.inl ⟨?_, Or.inr ⟨f, rfl, by simp only [fsOpen, if_neg hmake]⟩⟩
        rw [not_and_or, not_not] at hmake
        rcases hmake with h | h <;> simp [makesFile, h]

end Creation

section Transfer

/-- A read moves the offset of its descriptor and nothing else. -/
theorem readLoop_frame (fd count : Nat) (x : Reading) :
    ∃ o, (readLoop fd count x).fs = setDesc x.fs fd { x.fs.openFiles fd with offset := o } := by
  have hself : setDesc x.fs fd { x.fs.openFiles fd with offset := (x.fs.openFiles fd).offset } = x.fs := by
    rw [setDesc]
    simp
  refine loopWhile_invariant
    (fun y : Reading => ∃ o, y.fs = setDesc x.fs fd { x.fs.openFiles fd with offset := o })
    (fun y z hy _ hpass => ?_) ⟨_, hself.symm⟩
  obtain ⟨o, ho⟩ := hy
  obtain ⟨_, _, hfs, _⟩ := readPass_some hpass
  refine ⟨(y.fs.openFiles fd).offset + passSize ((y.fs.openFiles fd).offset % 4096) (count - y.bytesRead),
    hfs.trans ?_⟩
  simp only [ho, setDesc, Function.update_self, Function.update_idem]

theorem fsRead_frame (s : State) (fd : Int) (buffer : Option (Nat → UInt8)) (count : UInt32) :
    (fsRead s fd buffer count).2 = s ∨
    ∃ k : Nat, k < 16 ∧ fd = k ∧ (s.openFiles k).valid = true ∧
      ∃ o, (fsRead s fd buffer count).2 = setDesc s k { s.openFiles k with offset := o } := by
  cases hbad : badFd s fd with
  | true => exact Or.inl (by simp only [fsRead, if_pos hbad])
  | false =>
      obtain ⟨k, hk, rfl, hvalid⟩ := badFd_eq_false.mp hbad
      simp only [fsRead, hbad, Bool.false_eq_true, if_false, Int.toNat_natCast]
      split
      · exact Or.inl rfl
      · split
        · exact Or.inl rfl
        · split
          · exact Or.inl rfl
          · exact Or.inr ⟨k, hk, rfl, hvalid, readLoop_frame k _ _⟩

theorem fsWrite_cases (s : State) (fd : Int) (buffer : Option (Nat → UInt8)) (count : UInt32) :
    (fsWrite s fd buffer count).2 = s ∨
    ∃ (k : Nat) (buf : Nat → UInt8), k < 16 ∧ fd = k ∧ (s.openFiles k).valid = true ∧ buffer = some buf ∧
      count ≠ 0 ∧ fsWrite s fd buffer count = (((writeLoop k buf count.toNat ⟨s, 0⟩).bytesWritten : Int),
        (writeLoop k buf count.toNat ⟨s, 0⟩).fs) := by
  cases hbad : badFd s fd with
  | true => exact Or.inl (by simp only [fsWrite, if_pos hbad])
  | false =>
      obtain ⟨k, hk, rfl, hvalid⟩ := badFd_eq_false.mp hbad
      cases buffer with
      | none => exact Or.inl (by simp only [fsWrite, hbad, Bool.false_eq_true, if_false])
      | some buf =>
          by_cases hcount : count = 0
          · exact Or.inl (by simp only [fsWrite, hbad, Bool.false_eq_true, if_false, if_pos hcount])
          · refine Or.inr ⟨k, buf, hk, rfl, hvalid, rfl, hcount, ?_⟩
            simp only [fsWrite, hbad, Bool.false_eq_true, if_false, if_neg hcount, Int.toNat_natCast]

end Transfer

section Removal

/-- The counter of the superblock counts the clear bits. -/
def Accounted (s : State) : Prop := s.superblock.freeBlocks = ByteBitmap.clearCount s.blockBitmap 220

/-- The same up to the block bitmap and its counter. -/
def BlocksOnly (s t : State) : Prop :=
  t = { s with blockBitmap := t.blockBitmap, superblock := { s.superblock with freeBlocks := t.superblock.freeBlocks } }

theorem fsFreeBlock_spec (s : State) {b : Nat} (hlow : 36 ≤ b) (hhigh : b < 256) :
    BlocksOnly s (fsFreeBlock s b) ∧ (Accounted s → Accounted (fsFreeBlock s b)) ∧
    ∀ k, ByteBitmap.test (fsFreeBlock s b).blockBitmap k = (decide (b ≠ 36 + k) && ByteBitmap.test s.blockBitmap k) := by
  have hb : ∀ k, k = b - 36 ↔ b = 36 + k := by omega
  have hrange : ¬ (b < fsDataStartBlock ∨ b ≥ fsTotalBlocks) := by
    simp only [fsDataStartBlock, fsTotalBlocks, fsRamdiskSize, fsBlockSize]
    omega
  cases htest : ByteBitmap.test s.blockBitmap (b - 36) with
  | true =>
      have heq : fsFreeBlock s b = setFreeBlocks { s with blockBitmap := ByteBitmap.clear s.blockBitmap (b - 36) }
          (inc32 s.superblock.freeBlocks) := by
        simp only [fsFreeBlock, if_neg hrange, htest, if_true]
      rw [heq]
      refine ⟨rfl, fun hacc => ?_, fun k => ?_⟩
      · have hle := ByteBitmap.clearCount_le (ByteBitmap.clear s.blockBitmap (b - 36)) 220
        have hcount := ByteBitmap.clearCount_clear (n := 220) (by omega) htest
        have hacc : s.superblock.freeBlocks = ByteBitmap.clearCount s.blockBitmap 220 := hacc
        change inc32 s.superblock.freeBlocks = ByteBitmap.clearCount (ByteBitmap.clear s.blockBitmap (b - 36)) 220
        rw [hacc, inc32_of_lt (by omega), hcount]
      · change ByteBitmap.test (ByteBitmap.clear s.blockBitmap (b - 36)) k = _
        rw [ByteBitmap.test_clear]
        simp only [ne_eq, hb]
  | false =>
      have heq : fsFreeBlock s b = s := by
        simp only [fsFreeBlock, if_neg hrange, htest, Bool.false_eq_true, if_false]
      rw [heq]
      refine ⟨rfl, id, fun k => ?_⟩
      by_cases hk : b = 36 + k
      · rw [(hb k).mpr hk, htest, Bool.and_false]
      · simp [hk]

/-- `fs_unlink` clears the bits of the inode's blocks. -/
theorem freeDataBlocks_spec (s : State) (n : Nat)
    (hrange : ∀ j < 8, (s.inodes n).blocks j ≠ 0 → 36 ≤ (s.inodes n).blocks j ∧ (s.inodes n).blocks j < 256) :
    BlocksOnly s (freeDataBlocks s n) ∧ (Accounted s → Accounted (freeDataBlocks s n)) ∧
    ∀ k, ByteBitmap.test (freeDataBlocks s n).blockBitmap k = true ↔
      ByteBitmap.test s.blockBitmap k = true ∧ ∀ j < 8, (s.inodes n).blocks j ≠ 36 + k := by
  refine forRange_invariant
    (fun i t => BlocksOnly s t ∧ (Accounted s → Accounted t) ∧
      ∀ k, ByteBitmap.test t.blockBitmap k = true ↔
        ByteBitmap.test s.blockBitmap k = true ∧ ∀ j < i, (s.inodes n).blocks j ≠ 36 + k)
    ⟨rfl, id, fun k => by simp⟩ (fun i t _ hi ht => ?_)
  obtain ⟨honly, hacc, htest⟩ := ht
  have hi : i < 8 := by simpa using hi
  have hinodes : t.inodes = s.inodes := by rw [honly]
  rw [hinodes]
  split
  · rename_i hne
    obtain ⟨hlow, hhigh⟩ := hrange i hi hne
    obtain ⟨honly', hacc', htest'⟩ := fsFreeBlock_spec t hlow hhigh
    refine ⟨?_, hacc' ∘ hacc, fun k => ?_⟩
    · rw [BlocksOnly] at honly honly' ⊢
      rw [honly', honly]
    · rw [htest', Bool.and_eq_true, htest, decide_eq_true_eq]
      constructor
      · rintro ⟨hnew, hset, hold⟩
        refine ⟨hset, fun j hj => ?_⟩
        rcases Nat.lt_succ_iff_lt_or_eq.mp hj with hlt | rfl
        · exact hold j hlt
        · exact hnew
      · rintro ⟨hset, hall⟩
        exact ⟨hall i (Nat.lt_succ_self i), hset, fun j hj => hall j (Nat.lt_succ_of_lt hj)⟩
  · rename_i hzero
    refine ⟨honly, hacc, fun k => ?_⟩
    rw [htest]
    refine and_congr_right (fun _ => ⟨fun hold j hj => ?_, fun hall j hj => hall j (Nat.lt_succ_of_lt hj)⟩)
    rcases Nat.lt_succ_iff_lt_or_eq.mp hj with hlt | rfl
    · exact hold j hlt
    · omega

/-- The entry of the inode, when no other entry names it. -/
theorem removeEntry_eq {s : State} {i n : Nat} (hi : i < 128) (hn : (s.directory i).inode = n)
    (honce : ∀ k < 128, (s.directory k).inode = n → k = i) :
    removeEntry s n = setDirEntry s i { name := (s.directory i).name.set 0 0, inode := 0 } := by
  have hscan : scan (fun k => (s.directory k).inode == n) 0 fsMaxDirEntries = some i := by
    refine scan_eq_some (Nat.zero_le i) (by simpa using hi) (by simpa using hn) (fun j _ hj => ?_)
    refine beq_eq_false_iff_ne.mpr (fun h => ?_)
    have := honce j (by omega) h
    omega
  rw [removeEntry, hscan]

end Removal

end SengKernel.Fs
