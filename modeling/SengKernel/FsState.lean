import SengKernel.LoopBasics
import SengKernel.BitmapBasics
import SengKernel.MachineWords
import SengKernel.KernelString

/- The RAM disk of kernel/fs.c, with the helpers that allocate, free and find. The
   metadata blocks 0..35 are held as the records that the source reads through its
   block pointers; file data is addressed by its byte in `ramdisk`. -/
namespace SengKernel.Fs
open BoundedLoop MachineWord Str

@[simp] abbrev fsBlockSize : Nat := 4096
@[simp] abbrev fsRamdiskSize : Nat := 1024 * 1024
@[simp] abbrev fsTotalBlocks : Nat := fsRamdiskSize / fsBlockSize
@[simp] abbrev fsMagic : Nat := 0x53454E47
@[simp] abbrev fsInodeBlocks : Nat := 32
@[simp] abbrev fsDataStartBlock : Nat := 36
@[simp] abbrev fsDataBlocks : Nat := fsTotalBlocks - fsDataStartBlock
@[simp] abbrev fsMaxInodes : Nat := 1024
@[simp] abbrev fsDirectBlocks : Nat := 8
@[simp] abbrev fsFilenameLen : Nat := 28
@[simp] abbrev fsMaxDirEntries : Nat := 128
@[simp] abbrev fsMaxOpenFiles : Nat := 16

structure Superblock where
  magic : Nat
  totalBlocks : Nat
  inodeBlocks : Nat
  dataBlocks : Nat
  freeBlocks : Nat
  freeInodes : Nat
  deriving DecidableEq, Repr

structure Inode where
  size : Nat
  blocks : Nat → Nat

/-- `inode` 0 says that the entry is unused. -/
structure DirEntry where
  name : List UInt8
  inode : Nat
  deriving DecidableEq, Repr

structure FileDesc where
  inode : Nat
  offset : Nat
  valid : Bool
  deriving DecidableEq, Repr

structure State where
  superblock : Superblock
  directory : Nat → DirEntry
  blockBitmap : Nat → UInt8
  inodeBitmap : Nat → UInt8
  inodes : Nat → Inode
  ramdisk : Nat → UInt8
  openFiles : Nat → FileDesc

/-- The address of a block inside `ramdisk`. -/
def fsBlockPtr (blockNum : Nat) : Nat := blockNum * fsBlockSize

def setFreeBlocks (s : State) (n : Nat) : State := { s with superblock := { s.superblock with freeBlocks := n } }
def setFreeInodes (s : State) (n : Nat) : State := { s with superblock := { s.superblock with freeInodes := n } }

def setInode (s : State) (n : Nat) (inode : Inode) : State :=
  { s with inodes := Function.update s.inodes n inode }

def setDirEntry (s : State) (i : Nat) (e : DirEntry) : State :=
  { s with directory := Function.update s.directory i e }

def setDesc (s : State) (fd : Nat) (d : FileDesc) : State :=
  { s with openFiles := Function.update s.openFiles fd d }

@[simp] theorem setDesc_self (s : State) (fd : Nat) (d : FileDesc) : (setDesc s fd d).openFiles fd = d :=
  Function.update_self ..

theorem setDesc_of_ne (s : State) {fd k : Nat} (d : FileDesc) (h : k ≠ fd) :
    (setDesc s fd d).openFiles k = s.openFiles k := Function.update_of_ne h ..

/-- First fit over the 220 data blocks; 0 says that none is free. -/
def fsAllocBlock (s : State) : Nat × State :=
  match scan (fun i => !ByteBitmap.test s.blockBitmap i) 0 fsDataBlocks with
  | some i =>
      (fsDataStartBlock + i,
        setFreeBlocks { s with blockBitmap := ByteBitmap.set s.blockBitmap i } (dec32 s.superblock.freeBlocks))
  | none => (0, s)

def fsFreeBlock (s : State) (blockNum : Nat) : State :=
  if blockNum < fsDataStartBlock ∨ blockNum ≥ fsTotalBlocks then s
  else
    let bit := blockNum - fsDataStartBlock
    if ByteBitmap.test s.blockBitmap bit then
      setFreeBlocks { s with blockBitmap := ByteBitmap.clear s.blockBitmap bit } (inc32 s.superblock.freeBlocks)
    else s

/-- First fit from inode 1; the inode is cleared as it is given out. -/
def fsAllocInode (s : State) : Nat × State :=
  match scan (fun i => !ByteBitmap.test s.inodeBitmap i) 1 (fsMaxInodes - 1) with
  | some i =>
      (i, setInode (setFreeInodes { s with inodeBitmap := ByteBitmap.set s.inodeBitmap i }
        (dec32 s.superblock.freeInodes)) i { size := 0, blocks := fun _ => 0 })
  | none => (0, s)

def fsFreeInode (s : State) (inodeNum : Nat) : State :=
  if inodeNum = 0 ∨ inodeNum ≥ fsMaxInodes then s
  else if ByteBitmap.test s.inodeBitmap inodeNum then
    setFreeInodes { s with inodeBitmap := ByteBitmap.clear s.inodeBitmap inodeNum } (inc32 s.superblock.freeInodes)
  else s

/-- The entry that `fs_find_inode` stops at. -/
def fsFindEntry (s : State) (filename : CString) : Option Nat :=
  scan (fun i => (s.directory i).inode != 0 && strcmp (s.directory i).name filename.chars == 0) 0 fsMaxDirEntries

def fsFindInode (s : State) (filename : CString) : Nat :=
  match fsFindEntry s filename with
  | some i => (s.directory i).inode
  | none => 0

def fsFindFreeDirEntry (s : State) : Option Nat := scan (fun i => (s.directory i).inode == 0) 0 fsMaxDirEntries

def fsFindFreeFd (s : State) : Option Nat := scan (fun i => !(s.openFiles i).valid) 0 fsMaxOpenFiles

/-- `fs_init` over whatever the memory held. -/
def fsInit (s : State) : State :=
  { superblock :=
      { magic := fsMagic, totalBlocks := fsTotalBlocks, inodeBlocks := fsInodeBlocks, dataBlocks := fsDataBlocks
        freeBlocks := fsDataBlocks, freeInodes := fsMaxInodes - 1 }
    directory := fun _ => { name := List.replicate fsFilenameLen 0, inode := 0 }
    blockBitmap := fun _ => 0
    inodeBitmap := fun _ => 0
    inodes := fun _ => { size := 0, blocks := fun _ => 0 }
    ramdisk := fun a => if a < fsRamdiskSize then 0 else s.ramdisk a
    openFiles := fun i => if i < fsMaxOpenFiles then { s.openFiles i with valid := false } else s.openFiles i }

section Allocation

variable {s : State}

/-- What `fs_alloc_block` does: nothing, or it takes one clear bit. -/
theorem fsAllocBlock_cases (s : State) :
    (fsAllocBlock s = (0, s) ∧ ∀ i < 220, ByteBitmap.test s.blockBitmap i = true) ∨
    (∃ i < 220, ByteBitmap.test s.blockBitmap i = false ∧
      fsAllocBlock s = (36 + i, setFreeBlocks { s with blockBitmap := ByteBitmap.set s.blockBitmap i }
        (dec32 s.superblock.freeBlocks))) := by
  cases hscan : scan (fun i => !ByteBitmap.test s.blockBitmap i) 0 fsDataBlocks with
  | none =>
      refine Or.inl ⟨by rw [fsAllocBlock, hscan], fun i hi => ?_⟩
      simpa using scan_none hscan i (Nat.zero_le i) (by simpa using hi)
  | some i =>
      obtain ⟨_, hi, hclear, _⟩ := scan_some hscan
      exact Or.inr ⟨i, by simpa using hi, by simpa using hclear, by rw [fsAllocBlock, hscan]⟩

/-- What `fs_alloc_inode` does: nothing, or it takes one clear bit above 0. -/
theorem fsAllocInode_cases (s : State) :
    (fsAllocInode s = (0, s) ∧ ∀ n, 1 ≤ n → n < 1024 → ByteBitmap.test s.inodeBitmap n = true) ∨
    (∃ n, 1 ≤ n ∧ n < 1024 ∧ ByteBitmap.test s.inodeBitmap n = false ∧
      fsAllocInode s = (n, setInode (setFreeInodes { s with inodeBitmap := ByteBitmap.set s.inodeBitmap n }
        (dec32 s.superblock.freeInodes)) n { size := 0, blocks := fun _ => 0 })) := by
  cases hscan : scan (fun i => !ByteBitmap.test s.inodeBitmap i) 1 (fsMaxInodes - 1) with
  | none =>
      refine Or.inl ⟨by rw [fsAllocInode, hscan], fun n hn hlt => ?_⟩
      simpa using scan_none hscan n hn (by simpa using hlt)
  | some n =>
      obtain ⟨hn, hlt, hclear, _⟩ := scan_some hscan
      exact Or.inr ⟨n, hn, by simpa using hlt, by simpa using hclear, by rw [fsAllocInode, hscan]⟩

/-- `fs_find_inode` finds an entry with the name, or no entry has it. -/
theorem fsFindEntry_cases (s : State) (f : CString) :
    (∃ i < 128, fsFindEntry s f = some i ∧ (s.directory i).inode ≠ 0 ∧ text (s.directory i).name = f.chars) ∨
    (fsFindEntry s f = none ∧
      ∀ i < 128, (s.directory i).inode ≠ 0 → text (s.directory i).name ≠ f.chars) := by
  cases hscan : fsFindEntry s f with
  | some i =>
      obtain ⟨_, hi, hp, _⟩ := scan_some hscan
      simp only [Bool.and_eq_true, bne_iff_ne, ne_eq, beq_iff_eq, strcmp_eq_zero, CString.text_chars] at hp
      exact Or.inl ⟨i, by simpa using hi, rfl, hp.1, hp.2⟩
  | none =>
      refine Or.inr ⟨rfl, fun i hi hne hname => ?_⟩
      have := scan_none hscan i (Nat.zero_le i) (by simpa using hi)
      simp only [Bool.and_eq_false_iff, bne_eq_false_iff_eq, beq_eq_false_iff_ne, ne_eq, strcmp_eq_zero,
        CString.text_chars] at this
      exact this.elim hne (fun h => h hname)

theorem fsFindFreeDirEntry_cases (s : State) :
    (∃ i < 128, fsFindFreeDirEntry s = some i ∧ (s.directory i).inode = 0) ∨
    (fsFindFreeDirEntry s = none ∧ ∀ i < 128, (s.directory i).inode ≠ 0) := by
  cases hscan : fsFindFreeDirEntry s with
  | some i =>
      obtain ⟨_, hi, hp, _⟩ := scan_some hscan
      exact Or.inl ⟨i, by simpa using hi, rfl, by simpa using hp⟩
  | none =>
      refine Or.inr ⟨rfl, fun i hi => ?_⟩
      simpa using scan_none hscan i (Nat.zero_le i) (by simpa using hi)

end Allocation

end SengKernel.Fs
