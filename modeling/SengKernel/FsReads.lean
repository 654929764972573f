import SengKernel.FsIsolation

/- What the read loop of kernel/fs.c does in any state: it delivers the bytes from the
   offset on until the count or an index without a block stops it. -/
namespace SengKernel.Fs
open BoundedLoop MachineWord Str Transition

/-- Position `p` of the file on inode `n` has a block. -/
def HasBlock (s : State) (n p : Nat) : Prop := p / 4096 < 8 ∧ (s.inodes n).blocks (p / 4096) ≠ 0

/-- The result of a read loop through descriptor `k`. -/
structure Fetched (s : State) (k count : Nat) (buf : Nat → UInt8) (x : Reading) : Prop where
  fs : x.fs = setDesc s k { s.openFiles k with offset := (s.openFiles k).offset + x.bytesRead }
  le : x.bytesRead ≤ count
  present : ∀ i < x.bytesRead, HasBlock s (s.openFiles k).inode ((s.openFiles k).offset + i)
  bytes : ∀ i < x.bytesRead, contentByte s (s.openFiles k).inode ((s.openFiles k).offset + i) = some (x.buf i)
  rest : ∀ i, x.bytesRead ≤ i → x.buf i = buf i
  stop : x.bytesRead = count ∨ ¬ HasBlock s (s.openFiles k).inode ((s.openFiles k).offset + x.bytesRead)

section Loops

variable {s : State} {k count : Nat} {buf : Nat → UInt8}

theorem setDesc_same (s : State) (k : Nat) : setDesc s k (s.openFiles k) = s := by
  rw [setDesc, Function.update_eq_self]

theorem setDesc_setDesc (s : State) (k : Nat) (d e : FileDesc) : setDesc (setDesc s k d) k e = setDesc s k e := by
  simp only [setDesc, Function.update_idem]

theorem contentByte_some {n p : Nat} (h : HasBlock s n p) :
    contentByte s n p = some (s.ramdisk ((s.inodes n).blocks (p / 4096) * 4096 + p % 4096)) := if_neg h.2

theorem readPass_none {fd : Nat} {x : Reading} (h : readPass fd count x = none) :
    ¬ HasBlock x.fs (x.fs.openFiles fd).inode (x.fs.openFiles fd).offset := by
  rintro ⟨hidx, hne⟩
  simp only [readPass] at h
  split at h
  · rename_i hbig
    exact Nat.not_le_of_lt hidx hbig
  · cases h

theorem readLoop_fetched (s : State) (k count : Nat) (buf : Nat → UInt8) :
    Fetched s k count buf (readLoop k count ⟨s, 0, buf⟩) := by
  have hinv : (readLoop k count ⟨s, 0, buf⟩).bytesRead ≤ count ∧
      (readLoop k count ⟨s, 0, buf⟩).fs = setDesc s k { s.openFiles k with
        offset := (s.openFiles k).offset + (readLoop k count ⟨s, 0, buf⟩).bytesRead } ∧
      (∀ i < (readLoop k count ⟨s, 0, buf⟩).bytesRead,
        HasBlock s (s.openFiles k).inode ((s.openFiles k).offset + i) ∧
        contentByte s (s.openFiles k).inode ((s.openFiles k).offset + i) =
          some ((readLoop k count ⟨s, 0, buf⟩).buf i)) ∧
      ∀ i, (readLoop k count ⟨s, 0, buf⟩).bytesRead ≤ i → (readLoop k count ⟨s, 0, buf⟩).buf i = buf i := by
    refine loopWhile_invariant
      (fun x : Reading => x.bytesRead ≤ count ∧
        x.fs = setDesc s k { s.openFiles k with offset := (s.openFiles k).offset + x.bytesRead } ∧
        (∀ i < x.bytesRead, HasBlock s (s.openFiles k).inode ((s.openFiles k).offset + i) ∧
          contentByte s (s.openFiles k).inode ((s.openFiles k).offset + i) = some (x.buf i)) ∧
        ∀ i, x.bytesRead ≤ i → x.buf i = buf i)
      (fun x y hx hmore hpass => ?_) ⟨Nat.zero_le _, ?_, fun i hi => absurd hi (Nat.not_lt_zero i), fun _ _ => rfl⟩
    · obtain ⟨_, hfs, hbytes, hrest⟩ := hx
      have hmore : x.bytesRead < count := of_decide_eq_true hmore
      obtain ⟨hidx, hne, hfs', hmoved, hbuf⟩ := readPass_some hpass
      have hle := (readPass_moves hmore hpass).2
      simp only [hfs, setDesc_self] at hidx hne hfs' hmoved hbuf
      generalize hw : passSize (((s.openFiles k).offset + x.bytesRead) % 4096) (count - x.bytesRead) = w
        at hfs' hmoved hbuf
      have hroom : w ≤ 4096 - ((s.openFiles k).offset + x.bytesRead) % 4096 := hw ▸ (passSize_le _ _).2
      have hcopy : ∀ i, y.buf i = if x.bytesRead ≤ i ∧ i < x.bytesRead + w then
          s.ramdisk ((s.inodes (s.openFiles k).inode).blocks (((s.openFiles k).offset + x.bytesRead) / 4096) * 4096 +
            ((s.openFiles k).offset + x.bytesRead) % 4096 + (i - x.bytesRead)) else x.buf i := by
        intro i
        rw [hbuf]
        exact memcpy_apply ..
      refine ⟨hle, ?_, fun i hi => ?_, fun i hi => ?_⟩
      · rw [hfs', hmoved, ← Nat.add_assoc]
        exact setDesc_setDesc s k _ _
      · by_cases hold : i < x.bytesRead
        · rw [hcopy, if_neg (by omega)]
          exact hbytes i hold
        · -- the bytes of the pass lie in one block
          have hdiv : ((s.openFiles k).offset + i) / 4096 = ((s.openFiles k).offset + x.bytesRead) / 4096 := by omega
          have hmod : ((s.openFiles k).offset + i) % 4096 =
              ((s.openFiles k).offset + x.bytesRead) % 4096 + (i - x.bytesRead) := by omega
          have hpresent : HasBlock s (s.openFiles k).inode ((s.openFiles k).offset + i) := by
            rw [HasBlock, hdiv]
            exact ⟨hidx, hne⟩
          refine ⟨hpresent, ?_⟩
          rw [contentByte_some hpresent, hcopy, if_pos (by omega), hdiv, hmod, Nat.add_assoc]
      · rw [hcopy, if_neg (by omega)]
        exact hrest i (by omega)
    · exact (setDesc_same s k).symm
  obtain ⟨hle, hfs, hbytes, hrest⟩ := hinv
  refine ⟨hfs, hle, fun i hi => (hbytes i hi).1, fun i hi => (hbytes i hi).2, hrest, ?_⟩
  rcases (readLoop_ends k count ⟨s, 0, buf⟩).1 with hdone | hnone
  · exact Or.inl (Nat.le_antisymm hle (Nat.le_of_not_lt hdone))
  · have hstop := readPass_none hnone
    rw [hfs, setDesc_self] at hstop
    exact Or.inr hstop

/-- How far a read goes is settled by the blocks that there are. -/
theorem Fetched.bytesRead_eq {x : Reading} (h : Fetched s k count buf x) {r : Nat} (hle : r ≤ count)
    (hpresent : ∀ i < r, HasBlock s (s.openFiles k).inode ((s.openFiles k).offset + i))
    (hstop : r = count ∨ ¬ HasBlock s (s.openFiles k).inode ((s.openFiles k).offset + r)) : x.bytesRead = r := by
  by_contra hne
  rcases Nat.lt_or_gt_of_ne hne with hlt | hgt
  · rcases h.stop with hdone | hblocked
    · omega
    · exact hblocked (hpresent _ hlt)
  · rcases hstop with hdone | hblocked
    · have := h.le
      omega
    · exact hblocked (h.present r hgt)

end Loops

section Replies

variable {s : State} {k : Nat} {buf : Nat → UInt8} {count : UInt32}

/-- `fs_read` with a buffer: nothing at the end of the file, else the loop over the limited count. -/
theorem fsRead_eq (hk : k < 16) (hvalid : (s.openFiles k).valid = true) (buf : Nat → UInt8) (count : UInt32) :
    fsRead s k (some buf) count =
      if count = 0 ∨ (s.inodes (s.openFiles k).inode).size ≤ (s.openFiles k).offset then (⟨0, some buf⟩, s)
      else
        (⟨(readLoop k (readCount (s.openFiles k) (s.inodes (s.openFiles k).inode) count.toNat) ⟨s, 0, buf⟩).bytesRead,
          some (readLoop k (readCount (s.openFiles k) (s.inodes (s.openFiles k).inode) count.toNat) ⟨s, 0, buf⟩).buf⟩,
          (readLoop k (readCount (s.openFiles k) (s.inodes (s.openFiles k).inode) count.toNat) ⟨s, 0, buf⟩).fs) := by
  have hgood : badFd s (k : Int) = false := badFd_eq_false.mpr ⟨k, hk, rfl, hvalid⟩
  by_cases hcount : count = 0
  · simp only [fsRead, hgood, Bool.false_eq_true, if_false, hcount, if_true, true_or]
  · by_cases hend : (s.inodes (s.openFiles k).inode).size ≤ (s.openFiles k).offset
    · simp only [fsRead, hgood, Bool.false_eq_true, if_false, Int.toNat_natCast, if_neg hcount, ge_iff_le, if_pos hend,
        if_pos (show count = 0 ∨ _ from Or.inr hend)]
    · have hneither : ¬ (count = 0 ∨ (s.inodes (s.openFiles k).inode).size ≤ (s.openFiles k).offset) := by
        rintro (h | h)
        · exact hcount h
        · exact hend h
      simp only [fsRead, hgood, Bool.false_eq_true, if_false, Int.toNat_natCast, if_neg hcount, ge_iff_le, if_neg hend,
        if_neg hneither]

theorem readCount_le {d : FileDesc} {i : Inode} {n : Nat} (hword : d.offset + n < 4294967296) :
    readCount d i n = min n (i.size - d.offset) ∨ i.size ≤ d.offset := by
  rw [readCount, add32_of_lt hword]
  split <;> omega

end Replies

end SengKernel.Fs
