import SengKernel.FsOwnership

/- Data blocks that no file owns. Only a write through a descriptor whose file is
   gone can take one, and it is never given back. -/
namespace SengKernel.Fs
open BoundedLoop MachineWord Str Transition

/-- Every block that is taken is a block of a listed file. -/
def NoLeak (s : State) : Prop :=
  ∀ i < 220, ByteBitmap.test s.blockBitmap i = true → ∃ e, Live s e ∧ ∃ j < 8, fileBlock s e j = 36 + i

/-- A write of `count` bytes at the offset of `d` meets an index without a block while a
block is free. -/
def Allocates (s : State) (d : FileDesc) (count : Nat) : Prop :=
  (∃ i < 220, ByteBitmap.test s.blockBitmap i = false) ∧
  ∃ j < 8, d.offset / 4096 ≤ j ∧ j * 4096 < d.offset + count ∧ (s.inodes d.inode).blocks j = 0

/-- A write that takes a block for an inode that no directory entry names. -/
def StaleAllocation (s : State) (c : Call) : Prop :=
  ∃ (k : Nat) (buf : Nat → UInt8) (count : UInt32), c = .write k (some buf) count ∧ k < 16 ∧ count ≠ 0 ∧
    (s.openFiles k).valid = true ∧ (∀ e, Live s e → (s.directory e).inode ≠ (s.openFiles k).inode) ∧
    Allocates s (s.openFiles k) count.toNat

def NoStaleAllocation (s : State) (l : Call × Reply) : Prop := ¬ StaleAllocation s l.1

section Steps

variable {s t : State}

/-- Only the block bitmap, the directory and the block pointers matter. -/
theorem NoLeak.congr (h : NoLeak s) (hbitmap : t.blockBitmap = s.blockBitmap) (hdir : t.directory = s.directory)
    (hblocks : ∀ m, (t.inodes m).blocks = (s.inodes m).blocks) : NoLeak t := by
  intro i hi hset
  rw [hbitmap] at hset
  obtain ⟨e, he, j, hj, heq⟩ := h i hi hset
  refine ⟨e, ?_, j, hj, ?_⟩
  · rw [Live, hdir]
    exact he
  · rw [fileBlock, hdir, hblocks]
    exact heq

theorem NoLeak.created (h : NoLeak s) (howned : Owned s) {f : CString} {i n : Nat} (hc : Creatable s f i n) :
    NoLeak (newFile s i n f) := by
  intro b hb hset
  obtain ⟨e, he, j, hj, heq⟩ := h b hb hset
  have hsame : (newFile s i n f).directory e = s.directory e := by
    rw [newFile_directory, Function.update_of_ne]
    rintro rfl
    exact he.2 hc.entryFree
  refine ⟨e, ⟨he.1, hsame ▸ he.2⟩, j, hj, ?_⟩
  rw [fileBlock, hsame, newFile_inodes, Function.update_of_ne (howned.fresh hc he)]
  exact heq

theorem NoLeak.unlinked (h : NoLeak s) {i : Nat} (hu : Unlinked s t i) : NoLeak t := by
  intro b hb hset
  obtain ⟨hold, hfreed⟩ := (hu.blockBits b).mp hset
  obtain ⟨e, he, j, hj, heq⟩ := h b hb hold
  have hei : e ≠ i := by
    rintro rfl
    exact hfreed j hj heq
  have hsame : t.directory e = s.directory e := by rw [hu.directory, Function.update_of_ne hei]
  have hlive : Live t e := ⟨he.1, hsame ▸ he.2⟩
  exact ⟨e, hlive, j, hj, (hu.fileBlock hlive j).trans heq⟩

/-- A block taken for a listed file. -/
theorem NoLeak.grow (h : NoLeak s) {e n j i : Nat} (he : Live s e) (hn : (s.directory e).inode = n) (hj : j < 8)
    (hzero : (s.inodes n).blocks j = 0) : NoLeak (growInode s n j i) := by
  intro b hb hset
  have hset : ByteBitmap.test (ByteBitmap.set s.blockBitmap i) b = true := hset
  rw [ByteBitmap.test_set, Bool.or_eq_true, decide_eq_true_eq] at hset
  rcases hset with rfl | hold
  · refine ⟨e, he, j, hj, ?_⟩
    rw [fileBlock, growInode_blocks, if_pos ⟨hn, rfl⟩]
  · obtain ⟨e', he', j', hj', heq⟩ := h b hb hold
    refine ⟨e', he', j', hj', ?_⟩
    rw [fileBlock, growInode_blocks, if_neg]
    · exact heq
    · rintro ⟨hn', rfl⟩
      have hn' : (s.directory e').inode = n := hn'
      rw [fileBlock, hn', hzero] at heq
      omega

/-- A write for a listed file. -/
theorem NoLeak.written (h : NoLeak s) {e k : Nat} (he : Live s e)
    (hinode : (s.directory e).inode = (s.openFiles k).inode) (buf : Nat → UInt8) (count : Nat) :
    NoLeak (writeLoop k buf count ⟨s, 0⟩).fs := by
  refine (writeLoop_invariant
    (fun t => NoLeak t ∧ t.directory = s.directory ∧ (t.openFiles k).inode = (s.openFiles k).inode)
    (fun t i ht hidx hzero _ _ => ⟨?_, ht.2⟩) (fun t m w ht _ _ _ => ⟨?_, ht.2.1, ?_⟩) ⟨h, rfl, rfl⟩).1
  · obtain ⟨hleak, hdir, hdesc⟩ := ht
    have he' : Live t e := by
      rw [Live, hdir]
      exact he
    exact hleak.grow he' (by rw [hdir, hdesc]; exact hinode) hidx hzero
  · exact ht.1.congr rfl rfl (putBytes_blocks t k buf m w)
  · exact (putBytes_desc_inode t k buf m w k).1.trans ht.2.2

theorem putBytes_offset (s : State) (fd : Nat) (buf : Nat → UInt8) (m w : Nat) :
    ((putBytes s fd buf m w).openFiles fd).offset = (s.openFiles fd).offset + w := by
  simp [putBytes, setInode, setDesc]

/-- A write that finds every block it needs, or none free, takes none. -/
theorem write_keeps_blocks {k count : Nat} (buf : Nat → UInt8) (hnone : ¬ Allocates s (s.openFiles k) count) :
    (writeLoop k buf count ⟨s, 0⟩).fs.blockBitmap = s.blockBitmap ∧
    (writeLoop k buf count ⟨s, 0⟩).fs.directory = s.directory ∧
    ∀ m, ((writeLoop k buf count ⟨s, 0⟩).fs.inodes m).blocks = (s.inodes m).blocks := by
  have hinv : (writeLoop k buf count ⟨s, 0⟩).fs.blockBitmap = s.blockBitmap ∧
      (writeLoop k buf count ⟨s, 0⟩).fs.directory = s.directory ∧
      (∀ m, ((writeLoop k buf count ⟨s, 0⟩).fs.inodes m).blocks = (s.inodes m).blocks) ∧
      ((writeLoop k buf count ⟨s, 0⟩).fs.openFiles k).inode = (s.openFiles k).inode ∧
      ((writeLoop k buf count ⟨s, 0⟩).fs.openFiles k).offset =
        (s.openFiles k).offset + (writeLoop k buf count ⟨s, 0⟩).bytesWritten := by
    refine loopWhile_invariant
      (fun x : Writing => x.fs.blockBitmap = s.blockBitmap ∧ x.fs.directory = s.directory ∧
        (∀ m, (x.fs.inodes m).blocks = (s.inodes m).blocks) ∧
        (x.fs.openFiles k).inode = (s.openFiles k).inode ∧
        (x.fs.openFiles k).offset = (s.openFiles k).offset + x.bytesWritten)
      (fun x y hx hmore hpass => ?_) ⟨rfl, rfl, fun _ => rfl, rfl, rfl⟩
    obtain ⟨hbitmap, hdir, hblocks, hinode, hoffset⟩ := hx
    obtain ⟨hidx, u, hu, rfl⟩ := writePass_some hpass
    rcases ensureBlock_some hu with ⟨_, rfl⟩ | ⟨hzero, i, hi, hclear, rfl⟩
    · refine ⟨hbitmap, hdir, fun m => (putBytes_blocks ..).trans (hblocks m), ?_, ?_⟩
      · exact (putBytes_desc_inode ..).1.trans hinode
      · rw [putBytes_offset, hoffset, Nat.add_assoc]
    · -- the pass would have been one that allocates
      have hmore : x.bytesWritten < count := of_decide_eq_true hmore
      rw [hbitmap] at hclear
      rw [hblocks, hinode, hoffset] at hzero
      rw [hoffset] at hidx
      refine (hnone ⟨⟨i, hi, hclear⟩, _, hidx, Nat.div_le_div_right (Nat.le_add_right ..), ?_, hzero⟩).elim
      have := Nat.div_mul_le_self ((s.openFiles k).offset + x.bytesWritten) 4096
      omega
  exact ⟨hinv.1, hinv.2.1, hinv.2.2.1⟩

theorem NoLeak.opened (h : NoLeak s) (n : Nat) : NoLeak (fsOpenInode s n).2 := by
  rcases fsOpenInode_cases s n with ⟨heq, _⟩ | ⟨_, k, _, _, _, heq⟩ <;> rw [heq]
  · exact h
  · exact h.congr rfl rfl (fun _ => rfl)

/-- Every call but a stale allocation keeps the blocks accounted for. -/
theorem noLeak_step {l : Call × Reply} (howned : Owned s) (h : NoLeak s) (hok : NoStaleAllocation s l)
    (hstep : Step s l t) : NoLeak t := by
  obtain ⟨c, r⟩ := l
  obtain rfl : (call s c).2 = t := congrArg Prod.snd hstep
  cases c with
  | createFile filename =>
      change NoLeak (fsCreateFile s filename).2
      rcases fsCreateFile_cases s filename with ⟨heq, _⟩ | ⟨f, i, n, _, hc, heq⟩ <;> rw [heq]
      · exact h
      · exact h.created howned hc
  | openFile filename create =>
      change NoLeak (fsOpen s filename create).2
      rcases fsOpen_cases s filename create with ⟨_, heq | ⟨f, _, heq⟩⟩ | ⟨_, f, i, n, _, hc, heq⟩ <;> rw [heq]
      · exact h
      · exact h.opened _
      · exact (h.created howned hc).opened _
  | close fd =>
      change NoLeak (fsClose s fd).2
      rcases fsClose_cases s fd with ⟨_, heq⟩ | ⟨k, _, _, _, heq⟩ <;> rw [heq]
      · exact h
      · exact h.congr rfl rfl (fun _ => rfl)
  | read fd buffer count =>
      change NoLeak (fsRead s fd buffer count).2
      rcases fsRead_frame s fd buffer count with heq | ⟨k, _, _, _, o, heq⟩ <;> rw [heq]
      · exact h
      · exact h.congr rfl rfl (fun _ => rfl)
  | write fd buffer count =>
      change NoLeak (fsWrite s fd buffer count).2
      rcases fsWrite_cases s fd buffer count with heq | ⟨k, buf, hk, rfl, hvalid, rfl, hcount, heq⟩ <;> rw [heq]
      · exact h
      · by_cases hlisted : ∃ e, Live s e ∧ (s.directory e).inode = (s.openFiles k).inode
        · obtain ⟨e, he, hinode⟩ := hlisted
          exact h.written he hinode buf _
        · have hnone : ¬ Allocates s (s.openFiles k) count.toNat := fun halloc =>
            hok ⟨k, buf, count, rfl, hk, hcount, hvalid, fun e he hinode => hlisted ⟨e, he, hinode⟩, halloc⟩
          obtain ⟨hbitmap, hdir, hblocks⟩ := write_keeps_blocks buf hnone
          exact h.congr hbitmap hdir hblocks
  | unlink filename =>
      change NoLeak (fsUnlink s filename).2
      rcases howned.fsUnlink_cases filename with ⟨heq, _⟩ | ⟨f, i, u, _, hi, _, _, heq, hu⟩ <;> rw [heq]
      · exact h
      · exact h.unlinked hu

/-- With no file left, all 220 blocks are free again. -/
theorem NoLeak.all_free (h : NoLeak s) (howned : Owned s) (hempty : ∀ i < 128, (s.directory i).inode = 0) :
    s.superblock.freeBlocks = 220 := by
  have hclear : ByteBitmap.clearBits s.blockBitmap 220 = Finset.range 220 := by
    refine Finset.filter_true_of_mem (fun i hi => ?_)
    rw [← Bool.not_eq_true]
    intro hset
    obtain ⟨e, he, _⟩ := h i (Finset.mem_range.mp hi) hset
    exact he.2 (hempty e he.1)
  have hacc : s.superblock.freeBlocks = (ByteBitmap.clearBits s.blockBitmap 220).card := howned.accounted
  rw [hacc, hclear, Finset.card_range]

end Steps

/-- In every run without a stale allocation no block is leaked, and when all files are
unlinked all blocks are free. -/
theorem no_leak_of_no_stale_allocation (s : State) {labels : List (Call × Reply)} {t : State}
    (run : Run (When NoStaleAllocation Step) (fsInit s) labels t) :
    NoLeak t ∧ ((∀ i < 128, (t.directory i).inode = 0) → t.superblock.freeBlocks = 220) := by
  have hinv : Owned t ∧ NoLeak t := by
    refine run.invariant (I := fun t => Owned t ∧ NoLeak t)
      (fun _ _ _ h step => ⟨owned_step h.1 step.2, noLeak_step h.1 h.2 step.1 step.2⟩)
      ⟨owned_init s, fun i hi hset => ?_⟩
    have hzero : ByteBitmap.test (fun _ => 0) i = false := by
      simp [ByteBitmap.test]
    rw [show (fsInit s).blockBitmap = fun _ => 0 from rfl, hzero] at hset
    cases hset
  exact ⟨hinv.2, hinv.2.all_free hinv.1⟩

theorem noStaleAllocation_of_not_write {s : State} {c : Call} {r : Reply}
    (h : ∀ fd buffer count, c ≠ .write fd buffer count) : NoStaleAllocation s (c, r) :=
  fun ⟨_, _, _, heq, _⟩ => h _ _ _ heq

/-- A file is made, written and removed. -/
def writtenAndRemoved : List Call :=
  [.openFile (some nameA) 1, .write 0 (some fun _ => 88) 5, .unlink (some nameA)]

theorem no_leak_of_no_stale_allocation_sample :
    NoLeak (afterCalls (fsInit blankState) writtenAndRemoved) ∧
    ((∀ i < 128, ((afterCalls (fsInit blankState) writtenAndRemoved).directory i).inode = 0) →
      (afterCalls (fsInit blankState) writtenAndRemoved).superblock.freeBlocks = 220) := by
  have run : Run (When NoStaleAllocation Step) (fsInit blankState) (trace (fsInit blankState) writtenAndRemoved)
      (afterCalls (fsInit blankState) writtenAndRemoved) := by
    refine .cons ⟨noStaleAllocation_of_not_write nofun, rfl⟩ (.cons ⟨?_, rfl⟩
      (.cons ⟨noStaleAllocation_of_not_write nofun, rfl⟩ (.nil _)))
    rintro ⟨k, buf, count, heq, _, _, _, hstale, _⟩
    cases heq
    exact hstale 0 ⟨by decide, by decide +kernel⟩ (by decide +kernel)
  exact no_leak_of_no_stale_allocation blankState run

/-- The same file is written through its descriptor only after it was removed. -/
def writtenAfterRemoval : List Call :=
  [.openFile (some nameA) 1, .unlink (some nameA), .write 0 (some fun _ => 88) 5, .close 0]

/-- No descriptor is open, no file is listed, and one block is lost. -/
theorem block_leaked :
    ∃ labels t, Run Step (fsInit blankState) labels t ∧ (∀ k < 16, (t.openFiles k).valid = false) ∧
      (∀ i < 128, (t.directory i).inode = 0) ∧ ¬ NoLeak t ∧ t.superblock.freeBlocks = 219 := by
  refine ⟨_, _, run_trace (fsInit blankState) writtenAfterRemoval, by decide +kernel, ?_, fun hleak => ?_,
    by decide +kernel⟩
  · decide +kernel
  · have hempty : ∀ i < 128, ((afterCalls (fsInit blankState) writtenAfterRemoval).directory i).inode = 0 := by
      decide +kernel
    obtain ⟨e, he, _⟩ := hleak 0 (by decide) (by decide +kernel)
    exact he.2 (hempty e he.1)

end SengKernel.Fs
