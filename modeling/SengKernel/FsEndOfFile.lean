import SengKernel.FsReads

/- Reads against the end of the file. The limit of `fs_read` adds two 32-bit numbers,
   and a count that makes the sum wrap is not limited at all. -/
namespace SengKernel.Fs
open BoundedLoop MachineWord Str Transition

/-- A read through `k` returns, delivers and passes nothing beyond the size. -/
structure StaysInside (s : State) (k : Nat) (buffer : Option (Nat → UInt8)) (count : UInt32) : Prop where
  returned : (fsRead s k buffer count).1.ret ≤
    (((s.inodes (s.openFiles k).inode).size - (s.openFiles k).offset : Nat) : Int)
  delivered : ∀ buf, buffer = some buf → ∃ buf', (fsRead s k buffer count).1.buffer = some buf' ∧
    ∀ i, buf' i = buf i ∨ ((s.openFiles k).offset + i < (s.inodes (s.openFiles k).inode).size ∧
      contentByte s (s.openFiles k).inode ((s.openFiles k).offset + i) = some (buf' i))
  passed : ((fsRead s k buffer count).2.openFiles k).offset ≤
    max (s.openFiles k).offset (s.inodes (s.openFiles k).inode).size

/-- The sum of offset and count wraps before the end of the file, and the file has all
blocks up to that of its end. -/
def RunsPast (s : State) (k : Nat) (buffer : Option (Nat → UInt8)) (count : UInt32) : Prop :=
  buffer ≠ none ∧ (s.openFiles k).offset < (s.inodes (s.openFiles k).inode).size ∧
  4294967296 ≤ (s.openFiles k).offset + count.toNat ∧
  ∀ j, (s.openFiles k).offset / 4096 ≤ j → j ≤ (s.inodes (s.openFiles k).inode).size / 4096 →
    j < 8 ∧ (s.inodes (s.openFiles k).inode).blocks j ≠ 0

/-- No inode claims more than its eight blocks can hold. -/
def Sized (s : State) : Prop := ∀ n, (s.inodes n).size ≤ 32768

section Sizes

variable {s t : State}

theorem Sized.put (h : Sized s) {k : Nat} (buf : Nat → UInt8) (b : Nat) {w : Nat} (hidx : (s.openFiles k).offset / 4096 < 8)
    (hw : w ≤ 4096 - (s.openFiles k).offset % 4096) : Sized (putBytes s k buf b w) := by
  intro n
  by_cases hn : n = (s.openFiles k).inode
  · subst hn
    have hold := h (s.openFiles k).inode
    simp only [putBytes, setInode, Function.update_self]
    split
    · omega
    · exact hold
  · rw [putBytes_size_of_ne s k buf b w hn]
    exact h n

theorem Sized.created (h : Sized s) (i n : Nat) (f : CString) : Sized (newFile s i n f) := by
  intro p
  rw [newFile_inodes]
  by_cases hp : p = n
  · rw [hp, Function.update_self]
    exact Nat.zero_le _
  · rw [Function.update_of_ne hp]
    exact h p

theorem Sized.opened (h : Sized s) (n : Nat) : Sized (fsOpenInode s n).2 := by
  rcases fsOpenInode_cases s n with ⟨heq, _⟩ | ⟨_, k, _, _, _, heq⟩ <;> rw [heq]
  · exact h
  · exact h

theorem sized_step (howned : Owned s) (h : Sized s) (c : Call) : Sized (call s c).2 := by
  cases c with
  | createFile filename =>
      change Sized (fsCreateFile s filename).2
      rcases fsCreateFile_cases s filename with ⟨heq, _⟩ | ⟨f, i, n, _, _, heq⟩ <;> rw [heq]
      · exact h
      · exact h.created i n f
  | openFile filename create =>
      change Sized (fsOpen s filename create).2
      rcases fsOpen_cases s filename create with ⟨_, heq | ⟨f, _, heq⟩⟩ | ⟨_, f, i, n, _, _, heq⟩ <;> rw [heq]
      · exact h
      · exact h.opened _
      · exact (h.created i n f).opened _
  | close fd =>
      change Sized (fsClose s fd).2
      rcases fsClose_cases s fd with ⟨_, heq⟩ | ⟨k, _, _, _, heq⟩ <;> rw [heq]
      · exact h
      · exact h
  | read fd buffer count =>
      change Sized (fsRead s fd buffer count).2
      rcases fsRead_frame s fd buffer count with heq | ⟨k, _, _, _, o, heq⟩ <;> rw [heq]
      · exact h
      · exact h
  | write fd buffer count =>
      change Sized (fsWrite s fd buffer count).2
      rcases fsWrite_cases s fd buffer count with heq | ⟨k, buf, _, _, _, _, _, heq⟩ <;> rw [heq]
      · exact h
      · exact writeLoop_invariant Sized (fun t i ht _ _ _ _ n => by rw [growInode_size]; exact ht n)
          (fun t b w ht hidx _ hw => ht.put buf b hidx hw) h
  | unlink filename =>
      change Sized (fsUnlink s filename).2
      rcases howned.fsUnlink_cases filename with ⟨heq, _⟩ | ⟨f, i, u, _, _, _, _, heq, hu⟩ <;> rw [heq]
      · exact h
      · intro n
        rw [hu.inodes]
        exact h n

theorem sized_after (s : State) (calls : List Call) : Sized (afterCalls (fsInit s) calls) := by
  have hinv : Owned (afterCalls (fsInit s) calls) ∧ Sized (afterCalls (fsInit s) calls) := by
    refine (run_trace (fsInit s) calls).invariant (I := fun t => Owned t ∧ Sized t) ?_
      ⟨owned_init s, fun _ => Nat.zero_le _⟩
    rintro t ⟨c, r⟩ u ⟨howned, h⟩ hstep
    obtain rfl : (call t c).2 = u := congrArg Prod.snd hstep
    exact ⟨owned_step howned hstep, sized_step howned h c⟩
  exact hinv.2

end Sizes

section Limits

variable {s : State} {k : Nat} {buffer : Option (Nat → UInt8)} {count : UInt32}

/-- A read that changes nothing stays inside. -/
theorem staysInside_of_same (hret : (fsRead s k buffer count).1 = ⟨0, buffer⟩) (hstate : (fsRead s k buffer count).2 = s) :
    StaysInside s k buffer count := by
  refine ⟨?_, fun buf hbuf => ⟨buf, ?_, fun _ => Or.inl rfl⟩, ?_⟩
  · rw [hret]
    exact Int.natCast_nonneg _
  · rw [hret]
    exact hbuf
  · rw [hstate]
    exact Nat.le_max_left ..

/-- A loop that reaches at most the size stays inside. -/
theorem staysInside_of_loop {buf : Nat → UInt8} {n : Nat} {x : Reading} (hx : Fetched s k n buf x)
    (hread : fsRead s k (some buf) count = (⟨x.bytesRead, some x.buf⟩, x.fs))
    (hend : x.bytesRead ≤ (s.inodes (s.openFiles k).inode).size - (s.openFiles k).offset) :
    StaysInside s k (some buf) count := by
  refine ⟨?_, fun buf' hbuf => ?_, ?_⟩
  · rw [hread]
    exact Int.ofNat_le.mpr hend
  · cases hbuf
    rw [hread]
    refine ⟨x.buf, rfl, fun i => ?_⟩
    by_cases hi : i < x.bytesRead
    · exact Or.inr ⟨by omega, hx.bytes i hi⟩
    · exact Or.inl (hx.rest i (by omega))
  · rw [hread]
    change (x.fs.openFiles k).offset ≤ _
    rw [hx.fs, setDesc_self]
    change (s.openFiles k).offset + x.bytesRead ≤ _
    omega

/-- A count that makes the sum wrap is not limited. -/
theorem readCount_wrapped {desc : FileDesc} {inode : Inode} {n : Nat} (hend : desc.offset < inode.size)
    (hsize : inode.size ≤ 32768) (hn : n < 4294967296) (hword : 4294967296 ≤ desc.offset + n) :
    readCount desc inode n = n := by
  have hsum : add32 desc.offset n = desc.offset + n - 4294967296 := by
    simp only [add32, wordSize]
    omega
  rw [readCount, hsum, if_neg (by omega)]

/-- Where the sum wraps and all blocks are there, the read passes the end. -/
theorem RunsPast.not_inside (hsized : Sized s) (hk : k < 16) (hvalid : (s.openFiles k).valid = true)
    (h : RunsPast s k buffer count) : ¬ StaysInside s k buffer count := by
  obtain ⟨hbuffer, hend, hword, hblocks⟩ := h
  obtain ⟨buf, rfl⟩ := Option.ne_none_iff_exists'.mp hbuffer
  have hsize := hsized (s.openFiles k).inode
  have hlt := count.toNat_lt
  have hzero : count ≠ 0 := by
    rintro rfl
    rw [UInt32.toNat_zero] at hword
    omega
  intro hinside
  have hret := hinside.returned
  rw [fsRead_eq hk hvalid, if_neg (by rintro (h | h) <;> [exact hzero h; omega]),
    readCount_wrapped hend hsize hlt hword] at hret
  have hfetched := readLoop_fetched s k count.toNat buf
  generalize readLoop k count.toNat ⟨s, 0, buf⟩ = x at hret hfetched
  have hret : x.bytesRead ≤ (s.inodes (s.openFiles k).inode).size - (s.openFiles k).offset := Int.ofNat_le.mp hret
  rcases hfetched.stop with hdone | hstop
  · omega
  · exact hstop (hblocks _ (by omega) (by omega))

theorem staysInside_of_not_runsPast (hk : k < 16) (hvalid : (s.openFiles k).valid = true)
    (h : ¬ RunsPast s k buffer count) : StaysInside s k buffer count := by
  have hgood : badFd s (k : Int) = false := badFd_eq_false.mpr ⟨k, hk, rfl, hvalid⟩
  cases buffer with
  | none => exact staysInside_of_same (by simp [fsRead, hgood]) (by simp [fsRead, hgood])
  | some buf =>
      have hread := fsRead_eq hk hvalid buf count
      split at hread
      · exact staysInside_of_same (by rw [hread]) (by rw [hread])
      · rename_i hneither
        rw [not_or, Nat.not_le] at hneither
        have hfetched := readLoop_fetched s k
          (readCount (s.openFiles k) (s.inodes (s.openFiles k).inode) count.toNat) buf
        refine staysInside_of_loop hfetched hread ?_
        by_cases hword : (s.openFiles k).offset + count.toNat < 4294967296
        · have hle := hfetched.le
          rcases readCount_le (i := s.inodes (s.openFiles k).inode) hword with hcount | hend
          · omega
          · omega
        · -- an index up to that of the end has no block, and the read stops there
          by_contra hpast
          refine h ⟨Option.some_ne_none buf, hneither.2, by omega, fun j hlow hhigh => ?_⟩
          have hpresent := hfetched.present (max (s.openFiles k).offset (4096 * j) - (s.openFiles k).offset) (by omega)
          have hindex : ((s.openFiles k).offset +
              (max (s.openFiles k).offset (4096 * j) - (s.openFiles k).offset)) / 4096 = j := by omega
          rw [HasBlock, hindex] at hpresent
          exact hpresent

end Limits

/-- In every state that file calls reach, a read stays inside the file unless the sum of
offset and count wraps while the file has its blocks. -/
theorem staysInside_iff (s : State) (calls : List Call) {k : Nat} (hk : k < 16)
    (hvalid : ((afterCalls (fsInit s) calls).openFiles k).valid = true) (buffer : Option (Nat → UInt8)) (count : UInt32) :
    StaysInside (afterCalls (fsInit s) calls) k buffer count ↔
      ¬ RunsPast (afterCalls (fsInit s) calls) k buffer count :=
  ⟨fun hinside hpast => hpast.not_inside (sized_after s calls) hk hvalid hinside,
    staysInside_of_not_runsPast hk hvalid⟩

/-- `a` holds five bytes and is open at offset 1. -/
def openedInside : List Call :=
  [.openFile (some nameA) 1, .write 0 (some fun _ => 88) 5, .close 0, .openFile (some nameA) 0,
    .read 0 (some fun _ => 0) 1]

theorem staysInside_iff_sample :
    StaysInside (afterCalls (fsInit blankState) openedInside) 0 (some fun _ => 0) 100 ↔
      ¬ RunsPast (afterCalls (fsInit blankState) openedInside) 0 (some fun _ => 0) 100 :=
  staysInside_iff blankState openedInside (by decide) (by decide +kernel) (some fun _ => 0) 100

/-- The same read with the largest count passes the end of the file. -/
theorem read_past_end :
    ¬ StaysInside (afterCalls (fsInit blankState) openedInside) 0 (some fun _ => 0) 4294967295 := by
  refine RunsPast.not_inside (sized_after blankState openedInside) (by decide) (by decide +kernel) ⟨nofun, ?_, ?_, ?_⟩
  · decide +kernel
  · decide +kernel
  · have hoffset : ((afterCalls (fsInit blankState) openedInside).openFiles 0).offset = 1 := by decide +kernel
    have hsize : ((afterCalls (fsInit blankState) openedInside).inodes
        ((afterCalls (fsInit blankState) openedInside).openFiles 0).inode).size = 5 := by decide +kernel
    have hblock : ((afterCalls (fsInit blankState) openedInside).inodes
        ((afterCalls (fsInit blankState) openedInside).openFiles 0).inode).blocks 0 ≠ 0 := by decide +kernel
    intro j _ hhigh
    rw [hsize] at hhigh
    obtain rfl : j = 0 := by omega
    exact ⟨by decide, hblock⟩

end SengKernel.Fs
