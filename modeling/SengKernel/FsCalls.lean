import SengKernel.FsState
import SengKernel.RunBasics

/- The six file calls of kernel/fs.c. -/
namespace SengKernel.Fs
open BoundedLoop MachineWord Str

/-- A null filename is `none`. -/
def fsCreateFile (s : State) (filename : Option CString) : Int × State :=
  match filename with
  | none => (-1, s)
  | some f =>
      if strlen f.chars = 0 ∨ strlen f.chars ≥ fsFilenameLen then (-1, s)
      else if fsFindInode s f ≠ 0 then (-1, s)
      else match fsFindFreeDirEntry s with
        | none => (-1, s)
        | some dirIdx =>
            let inode := fsAllocInode s
            if inode.1 = 0 then (-1, inode.2)
            else
              (0, setDirEntry inode.2 dirIdx
                { name := strncpy f.chars (fsFilenameLen - 1) ++ [0], inode := inode.1 })

/-- `fs_open` from the test of `inode_num` on. -/
def fsOpenInode (s : State) (inodeNum : Nat) : Int × State :=
  if inodeNum = 0 then (-1, s)
  else match fsFindFreeFd s with
    | none => (-1, s)
    | some fd => (fd, setDesc s fd { inode := inodeNum, offset := 0, valid := true })

def fsOpen (s : State) (filename : Option CString) (create : Int) : Int × State :=
  match filename with
  | none => (-1, s)
  | some f =>
      if fsFindInode s f = 0 ∧ create ≠ 0 then
        let made := fsCreateFile s (some f)
        if made.1 ≠ 0 then (-1, made.2) else fsOpenInode made.2 (fsFindInode made.2 f)
      else fsOpenInode s (fsFindInode s f)

/-- `fd < 0 || fd >= FS_MAX_OPEN_FILES || !open_files[fd].valid` -/
def badFd (s : State) (fd : Int) : Bool :=
  decide (fd < 0) || decide (fd ≥ (fsMaxOpenFiles : Nat)) || !(s.openFiles fd.toNat).valid

def fsClose (s : State) (fd : Int) : Int × State :=
  if badFd s fd then (-1, s)
  else (0, setDesc s fd.toNat { s.openFiles fd.toNat with valid := false })

/-- The part of a block that one pass of a transfer moves. -/
def passSize (offsetInBlock left : Nat) : Nat :=
  if fsBlockSize - offsetInBlock > left then left else fsBlockSize - offsetInBlock

/-- A call's result, with the caller's buffer as a read leaves it. -/
structure Reply where
  ret : Int
  buffer : Option (Nat → UInt8)

structure Reading where
  fs : State
  bytesRead : Nat
  buf : Nat → UInt8

def readPass (fd count : Nat) (x : Reading) : Option Reading :=
  let desc := x.fs.openFiles fd
  let blockIndex := desc.offset / fsBlockSize
  let offsetInBlock := desc.offset % fsBlockSize
  if blockIndex ≥ fsDirectBlocks then none
  else
    let dataBlock := (x.fs.inodes desc.inode).blocks blockIndex
    if dataBlock = 0 then none
    else
      let toRead := passSize offsetInBlock (count - x.bytesRead)
      some
        { fs := setDesc x.fs fd { desc with offset := desc.offset + toRead }
          bytesRead := x.bytesRead + toRead
          buf := memcpy x.buf x.bytesRead x.fs.ramdisk (fsBlockPtr dataBlock + offsetInBlock) toRead }

/-- `while (bytes_read < count)`; every pass moves a byte, so `count + 1` passes are enough. -/
def readLoop (fd count : Nat) (x : Reading) : Reading :=
  loopWhile (fun x => decide (x.bytesRead < count)) (readPass fd count) (count + 1) x

/-- The limit to the file size; `offset + count` is a 32-bit sum. -/
def readCount (desc : FileDesc) (inode : Inode) (count : Nat) : Nat :=
  if add32 desc.offset count > inode.size then inode.size - desc.offset else count

def fsRead (s : State) (fd : Int) (buffer : Option (Nat → UInt8)) (count : UInt32) : Reply × State :=
  if badFd s fd then (⟨-1, buffer⟩, s)
  else match buffer with
    | none => (⟨0, none⟩, s)
    | some buf =>
        if count = 0 then (⟨0, some buf⟩, s)
        else
          let desc := s.openFiles fd.toNat
          let inode := s.inodes desc.inode
          if desc.offset ≥ inode.size then (⟨0, some buf⟩, s)
          else
            let x := readLoop fd.toNat (readCount desc inode count.toNat) ⟨s, 0, buf⟩
            (⟨x.bytesRead, some x.buf⟩, x.fs)

/-- The block that a write needs, allocated if it is missing; `none` breaks the loop. -/
def ensureBlock (s : State) (inodeNum blockIndex : Nat) : Option State :=
  if (s.inodes inodeNum).blocks blockIndex = 0 then
    let newBlock := fsAllocBlock s
    if newBlock.1 = 0 then none
    else
      let inode := newBlock.2.inodes inodeNum
      some (setInode newBlock.2 inodeNum
        { inode with blocks := Function.update inode.blocks blockIndex newBlock.1 })
  else some s

/-- The copy into the block of the offset, with the new offset and file size. -/
def putBytes (s : State) (fd : Nat) (buf : Nat → UInt8) (bytesWritten toWrite : Nat) : State :=
  let desc := s.openFiles fd
  let inode := s.inodes desc.inode
  let blockPtr := fsBlockPtr (inode.blocks (desc.offset / fsBlockSize))
  let offset := desc.offset + toWrite
  setInode
    (setDesc
      { s with ramdisk := memcpy s.ramdisk (blockPtr + desc.offset % fsBlockSize) buf bytesWritten toWrite }
      fd { desc with offset := offset })
    desc.inode { inode with size := if offset > inode.size then offset else inode.size }

structure Writing where
  fs : State
  bytesWritten : Nat

def writePass (fd : Nat) (buf : Nat → UInt8) (count : Nat) (x : Writing) : Option Writing :=
  let desc := x.fs.openFiles fd
  if desc.offset / fsBlockSize ≥ fsDirectBlocks then none
  else
    (ensureBlock x.fs desc.inode (desc.offset / fsBlockSize)).map (fun s =>
      let toWrite := passSize (desc.offset % fsBlockSize) (count - x.bytesWritten)
      { fs := putBytes s fd buf x.bytesWritten toWrite, bytesWritten := x.bytesWritten + toWrite })

def writeLoop (fd : Nat) (buf : Nat → UInt8) (count : Nat) (x : Writing) : Writing :=
  loopWhile (fun x => decide (x.bytesWritten < count)) (writePass fd buf count) (count + 1) x

def fsWrite (s : State) (fd : Int) (buffer : Option (Nat → UInt8)) (count : UInt32) : Int × State :=
  if badFd s fd then (-1, s)
  else match buffer with
    | none => (0, s)
    | some buf =>
        if count = 0 then (0, s)
        else
          let x := writeLoop fd.toNat buf count.toNat ⟨s, 0⟩
          (x.bytesWritten, x.fs)

def freeDataBlocks (s : State) (inodeNum : Nat) : State :=
  forRange (fun i t =>
    if (t.inodes inodeNum).blocks i ≠ 0 then fsFreeBlock t ((t.inodes inodeNum).blocks i) else t)
    0 fsDirectBlocks s

/-- The first entry of the inode becomes unused. -/
def removeEntry (s : State) (inodeNum : Nat) : State :=
  match scan (fun i => (s.directory i).inode == inodeNum) 0 fsMaxDirEntries with
  | some i => setDirEntry s i { name := (s.directory i).name.set 0 0, inode := 0 }
  | none => s

def fsUnlink (s : State) (filename : Option CString) : Int × State :=
  match filename with
  | none => (-1, s)
  | some f =>
      let inodeNum := fsFindInode s f
      if inodeNum = 0 then (-1, s)
      else (0, removeEntry (fsFreeInode (freeDataBlocks s inodeNum) inodeNum) inodeNum)

inductive Call where
  | createFile (filename : Option CString)
  | openFile (filename : Option CString) (create : Int)
  | close (fd : Int)
  | read (fd : Int) (buffer : Option (Nat → UInt8)) (count : UInt32)
  | write (fd : Int) (buffer : Option (Nat → UInt8)) (count : UInt32)
  | unlink (filename : Option CString)

def plainReply (r : Int × State) : Reply × State := (⟨r.1, none⟩, r.2)

def call (s : State) : Call → Reply × State
  | .createFile filename => plainReply (fsCreateFile s filename)
  | .openFile filename create => plainReply (fsOpen s filename create)
  | .close fd => plainReply (fsClose s fd)
  | .read fd buffer count => fsRead s fd buffer count
  | .write fd buffer count => plainReply (fsWrite s fd buffer count)
  | .unlink filename => plainReply (fsUnlink s filename)

/-- One call and its reply. -/
def Step (s : State) (l : Call × Reply) (t : State) : Prop := call s l.1 = (l.2, t)

/-- The state and the replies of a sequence of calls. -/
def afterCalls (s : State) (calls : List Call) : State := calls.foldl (fun s c => (call s c).2) s

def trace : State → List Call → List (Call × Reply)
  | _, [] => []
  | s, c :: cs => (c, (call s c).1) :: trace (call s c).2 cs

theorem run_trace (s : State) (calls : List Call) :
    Transition.Run Step s (trace s calls) (afterCalls s calls) := by
  induction calls generalizing s with
  | nil => exact .nil s
  | cons c cs ih => exact .cons rfl (ih (call s c).2)

/-- Memory before `fs_init`, and two names. -/
def blankState : State :=
  { superblock := ⟨0, 0, 0, 0, 0, 0⟩, directory := fun _ => ⟨[], 0⟩, blockBitmap := fun _ => 0
    inodeBitmap := fun _ => 0, inodes := fun _ => ⟨0, fun _ => 0⟩, ramdisk := fun _ => 0
    openFiles := fun _ => ⟨0, 0, false⟩ }

def nameA : CString := ⟨[97], by decide⟩
def nameB : CString := ⟨[98], by decide⟩

theorem passSize_le (o left : Nat) : passSize o left ≤ left ∧ passSize o left ≤ fsBlockSize - o := by
  unfold passSize
  split <;> omega

theorem passSize_pos {o left : Nat} (ho : o < 4096) (hleft : 0 < left) : 0 < passSize o left := by
  simp only [passSize, fsBlockSize]
  split <;> omega

/-- One pass of a read. -/
theorem readPass_some {fd count : Nat} {x y : Reading} (h : readPass fd count x = some y) :
    (x.fs.openFiles fd).offset / 4096 < 8 ∧
    (x.fs.inodes (x.fs.openFiles fd).inode).blocks ((x.fs.openFiles fd).offset / 4096) ≠ 0 ∧
    y.fs = setDesc x.fs fd { x.fs.openFiles fd with
      offset := (x.fs.openFiles fd).offset + passSize ((x.fs.openFiles fd).offset % 4096) (count - x.bytesRead) } ∧
    y.bytesRead = x.bytesRead + passSize ((x.fs.openFiles fd).offset % 4096) (count - x.bytesRead) ∧
    y.buf = memcpy x.buf x.bytesRead x.fs.ramdisk
      ((x.fs.inodes (x.fs.openFiles fd).inode).blocks ((x.fs.openFiles fd).offset / 4096) * 4096 +
        (x.fs.openFiles fd).offset % 4096)
      (passSize ((x.fs.openFiles fd).offset % 4096) (count - x.bytesRead)) := by
  simp only [readPass] at h
  split at h
  · cases h
  · rename_i hidx
    split at h
    · cases h
    · rename_i hne
      cases h
      exact ⟨Nat.lt_of_not_le hidx, hne, rfl, rfl, rfl⟩

theorem readPass_moves {fd count : Nat} {x y : Reading} (hmore : x.bytesRead < count)
    (h : readPass fd count x = some y) : x.bytesRead < y.bytesRead ∧ y.bytesRead ≤ count := by
  obtain ⟨_, _, _, hmoved, _⟩ := readPass_some h
  have hpos : 0 < passSize ((x.fs.openFiles fd).offset % 4096) (count - x.bytesRead) :=
    passSize_pos (Nat.mod_lt _ (by decide)) (by omega)
  have hle := (passSize_le ((x.fs.openFiles fd).offset % 4096) (count - x.bytesRead)).1
  omega

theorem writePass_moves {fd count : Nat} {buf : Nat → UInt8} {x y : Writing} (hmore : x.bytesWritten < count)
    (h : writePass fd buf count x = some y) : x.bytesWritten < y.bytesWritten ∧ y.bytesWritten ≤ count := by
  simp only [writePass] at h
  split at h
  · cases h
  · obtain ⟨s, _, rfl⟩ := Option.map_eq_some_iff.mp h
    have hpos : 0 < passSize ((x.fs.openFiles fd).offset % fsBlockSize) (count - x.bytesWritten) :=
      passSize_pos (Nat.mod_lt _ (by decide)) (by omega)
    have hle := (passSize_le ((x.fs.openFiles fd).offset % fsBlockSize) (count - x.bytesWritten)).1
    dsimp only
    omega

/-- The read loop has ended when it returns, and more passes would change nothing. -/
theorem readLoop_ends (fd count : Nat) (x : Reading) :
    (¬ (readLoop fd count x).bytesRead < count ∨ readPass fd count (readLoop fd count x) = none) ∧
    ∀ k, loopWhile (fun x => decide (x.bytesRead < count)) (readPass fd count) (count + 1 + k) x =
      readLoop fd count x := by
  have hdec : ∀ y z : Reading, decide (y.bytesRead < count) = true → readPass fd count y = some z →
      count - z.bytesRead < count - y.bytesRead := by
    intro y z hmore hpass
    have hmore : y.bytesRead < count := of_decide_eq_true hmore
    have := readPass_moves hmore hpass
    omega
  have hfuel : count - x.bytesRead < count + 1 := by omega
  refine ⟨?_, fun k => loopWhile_more_fuel (fun y : Reading => count - y.bytesRead) hdec hfuel⟩
  exact (loopWhile_ends (fun y : Reading => count - y.bytesRead) hdec hfuel).imp of_decide_eq_false id

theorem writeLoop_ends (fd count : Nat) (buf : Nat → UInt8) (x : Writing) :
    (¬ (writeLoop fd buf count x).bytesWritten < count ∨ writePass fd buf count (writeLoop fd buf count x) = none) ∧
    ∀ k, loopWhile (fun x => decide (x.bytesWritten < count)) (writePass fd buf count) (count + 1 + k) x =
      writeLoop fd buf count x := by
  have hdec : ∀ y z : Writing, decide (y.bytesWritten < count) = true → writePass fd buf count y = some z →
      count - z.bytesWritten < count - y.bytesWritten := by
    intro y z hmore hpass
    have hmore : y.bytesWritten < count := of_decide_eq_true hmore
    have := writePass_moves hmore hpass
    omega
  have hfuel : count - x.bytesWritten < count + 1 := by omega
  refine ⟨?_, fun k => loopWhile_more_fuel (fun y : Writing => count - y.bytesWritten) hdec hfuel⟩
  exact (loopWhile_ends (fun y : Writing => count - y.bytesWritten) hdec hfuel).imp of_decide_eq_false id

/-- Bit `i` of the block bitmap taken, and its block linked at index `j` of inode `n`. -/
def growInode (s : State) (n j i : Nat) : State :=
  setInode (setFreeBlocks { s with blockBitmap := ByteBitmap.set s.blockBitmap i } (dec32 s.superblock.freeBlocks))
    n { s.inodes n with blocks := Function.update (s.inodes n).blocks j (36 + i) }

@[simp] theorem growInode_openFiles (s : State) (n j i : Nat) : (growInode s n j i).openFiles = s.openFiles := rfl

theorem growInode_size (s : State) (n j i m : Nat) : ((growInode s n j i).inodes m).size = (s.inodes m).size := by
  by_cases hm : m = n
  · subst m
    simp [growInode, setInode]
  · simp [growInode, setInode, setFreeBlocks, hm]

theorem growInode_blocks (s : State) (n j i m k : Nat) :
    ((growInode s n j i).inodes m).blocks k = if m = n ∧ k = j then 36 + i else (s.inodes m).blocks k := by
  by_cases hm : m = n
  · subst m
    by_cases hk : k = j
    · subst k
      simp [growInode, setInode]
    · simp [growInode, setInode, hk]
  · simp [growInode, setInode, setFreeBlocks, hm]

theorem ensureBlock_some {s t : State} {n j : Nat} (h : ensureBlock s n j = some t) :
    ((s.inodes n).blocks j ≠ 0 ∧ t = s) ∨
    ((s.inodes n).blocks j = 0 ∧ ∃ i < 220, ByteBitmap.test s.blockBitmap i = false ∧ t = growInode s n j i) := by
  simp only [ensureBlock] at h
  split at h
  · rename_i hzero
    refine Or.inr ⟨hzero, ?_⟩
    rcases fsAllocBlock_cases s with ⟨hnone, _⟩ | ⟨i, hi, hclear, hsome⟩
    · rw [hnone] at h
      cases h
    · rw [hsome, if_neg (by omega)] at h
      cases h
      exact ⟨i, hi, hclear, rfl⟩
  · rename_i hne
    cases h
    exact Or.inl ⟨hne, rfl⟩

theorem ensureBlock_none {s : State} {n j : Nat} (h : ensureBlock s n j = none) :
    (s.inodes n).blocks j = 0 ∧ ∀ i < 220, ByteBitmap.test s.blockBitmap i = true := by
  simp only [ensureBlock] at h
  split at h
  · rename_i hzero
    refine ⟨hzero, ?_⟩
    rcases fsAllocBlock_cases s with ⟨_, hall⟩ | ⟨i, _, _, hsome⟩
    · exact hall
    · rw [hsome, if_neg (by omega)] at h
      cases h
  · cases h

/-- One pass of a write: perhaps a new block, then the copy. -/
theorem writePass_some {fd count : Nat} {buf : Nat → UInt8} {x y : Writing} (h : writePass fd buf count x = some y) :
    (x.fs.openFiles fd).offset / 4096 < 8 ∧
    ∃ s, ensureBlock x.fs (x.fs.openFiles fd).inode ((x.fs.openFiles fd).offset / 4096) = some s ∧
      y = ⟨putBytes s fd buf x.bytesWritten
        (passSize ((x.fs.openFiles fd).offset % 4096) (count - x.bytesWritten)),
        x.bytesWritten + passSize ((x.fs.openFiles fd).offset % 4096) (count - x.bytesWritten)⟩ := by
  simp only [writePass] at h
  split at h
  · cases h
  · rename_i hidx
    obtain ⟨s, hs, rfl⟩ := Option.map_eq_some_iff.mp h
    exact ⟨Nat.lt_of_not_le hidx, s, hs, rfl⟩

/-- The loop rule of a write: what growing an inode and copying keep, the write keeps. -/
theorem writeLoop_invariant {fd count : Nat} {buf : Nat → UInt8} (P : State → Prop)
    (hgrow : ∀ s i, P s → (s.openFiles fd).offset / 4096 < 8 →
      (s.inodes (s.openFiles fd).inode).blocks ((s.openFiles fd).offset / 4096) = 0 → i < 220 →
      ByteBitmap.test s.blockBitmap i = false →
      P (growInode s (s.openFiles fd).inode ((s.openFiles fd).offset / 4096) i))
    (hput : ∀ s n w, P s → (s.openFiles fd).offset / 4096 < 8 →
      (s.inodes (s.openFiles fd).inode).blocks ((s.openFiles fd).offset / 4096) ≠ 0 →
      w ≤ 4096 - (s.openFiles fd).offset % 4096 → P (putBytes s fd buf n w))
    {x : Writing} (h : P x.fs) : P (writeLoop fd buf count x).fs := by
  refine loopWhile_invariant (fun x : Writing => P x.fs) (fun x y hx _ hpass => ?_) h
  obtain ⟨hidx, s, hs, rfl⟩ := writePass_some hpass
  have hw := (passSize_le ((x.fs.openFiles fd).offset % 4096) (count - x.bytesWritten)).2
  rcases ensureBlock_some hs with ⟨hne, rfl⟩ | ⟨hzero, i, hi, hclear, rfl⟩
  · exact hput x.fs _ _ hx hidx hne hw
  · have hgrown := hgrow x.fs i hx hidx hzero hi hclear
    refine hput _ _ _ hgrown ?_ ?_ ?_
    · rw [growInode_openFiles]
      exact hidx
    · rw [growInode_openFiles, growInode_blocks, if_pos ⟨rfl, rfl⟩]
      omega
    · rw [growInode_openFiles]
      exact hw

end SengKernel.Fs
