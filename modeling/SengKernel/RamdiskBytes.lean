import SengKernel.FsCalls

/- The bytes of the RAM disk: which record of kernel/fs.h each of them belongs to, and
   what a store from outside the file system does to that record. -/
namespace SengKernel.Fs
open BoundedLoop MachineWord Str

/-- Byte `i` of a word, the lowest first. -/
def wordByte (w : Nat) : Nat → UInt8
  | 0 => UInt8.ofNat w
  | i+1 => wordByte (w / 256) i

def setWordByte (w : Nat) (v : UInt8) : Nat → Nat
  | 0 => v.toNat + 256 * (w / 256)
  | i+1 => w % 256 + 256 * setWordByte (w / 256) v i

/-- The words of `superblock_t` in their order. -/
def superWord (b : Superblock) : Fin 6 → Nat
  | 0 => b.magic
  | 1 => b.totalBlocks
  | 2 => b.inodeBlocks
  | 3 => b.dataBlocks
  | 4 => b.freeBlocks
  | 5 => b.freeInodes

def setSuperWord (b : Superblock) (w : Nat) : Fin 6 → Superblock
  | 0 => { b with magic := w }
  | 1 => { b with totalBlocks := w }
  | 2 => { b with inodeBlocks := w }
  | 3 => { b with dataBlocks := w }
  | 4 => { b with freeBlocks := w }
  | 5 => { b with freeInodes := w }

/-- Where a byte is held: byte `i` of a word or of a name, or a byte by itself. -/
inductive Place where
  | super (k : Fin 6) (i : Nat)
  | name (e i : Nat)
  | entry (e i : Nat)
  | blockBits (b : Nat)
  | inodeBits (b : Nat)
  | size (n i : Nat)
  | block (n j i : Nat)
  | data (o : Nat)
  deriving DecidableEq, Repr

/-- The place of a byte of `ramdisk`; no record has the bytes after the superblock and
the `reserved` ones of the inodes. -/
def place (o : Nat) : Option Place :=
  if h : o < 24 then some (.super ⟨o / 4, by omega⟩ (o % 4))
  else if o < 4096 then none
  else if o < 8192 then
    if o % 32 < 28 then some (.name ((o - 4096) / 32) (o % 32)) else some (.entry ((o - 4096) / 32) (o % 32 - 28))
  else if o < 12288 then some (.blockBits (o - 8192))
  else if o < 16384 then some (.inodeBits (o - 12288))
  else if o < 147456 then
    if o % 128 < 4 then some (.size ((o - 16384) / 128) (o % 128))
    else if o % 128 < 36 then some (.block ((o - 16384) / 128) ((o % 128 - 4) / 4) (o % 4))
    else none
  else some (.data o)

def Place.offset : Place → Nat
  | .super k i => 4 * k + i
  | .name e i => 4096 + 32 * e + i
  | .entry e i => 4096 + 32 * e + 28 + i
  | .blockBits b => 8192 + b
  | .inodeBits b => 12288 + b
  | .size n i => 16384 + 128 * n + i
  | .block n j i => 16384 + 128 * n + 4 + 4 * j + i
  | .data o => o

def setNameByte (name : List UInt8) (i : Nat) (v : UInt8) : List UInt8 :=
  (List.range fsFilenameLen).map (fun j => if j = i then v else name.getD j 0)

def getByte (s : State) : Place → UInt8
  | .super k i => wordByte (superWord s.superblock k) i
  | .name e i => (s.directory e).name.getD i 0
  | .entry e i => wordByte (s.directory e).inode i
  | .blockBits b => s.blockBitmap b
  | .inodeBits b => s.inodeBitmap b
  | .size n i => wordByte (s.inodes n).size i
  | .block n j i => wordByte ((s.inodes n).blocks j) i
  | .data o => s.ramdisk o

def setByte (s : State) (v : UInt8) : Place → State
  | .super k i =>
      { s with superblock := setSuperWord s.superblock (setWordByte (superWord s.superblock k) v i) k }
  | .name e i => setDirEntry s e { s.directory e with name := setNameByte (s.directory e).name i v }
  | .entry e i => setDirEntry s e { s.directory e with inode := setWordByte (s.directory e).inode v i }
  | .blockBits b => { s with blockBitmap := Function.update s.blockBitmap b v }
  | .inodeBits b => { s with inodeBitmap := Function.update s.inodeBitmap b v }
  | .size n i => setInode s n { s.inodes n with size := setWordByte (s.inodes n).size v i }
  | .block n j i =>
      setInode s n { s.inodes n with
        blocks := Function.update (s.inodes n).blocks j (setWordByte ((s.inodes n).blocks j) v i) }
  | .data o => { s with ramdisk := Function.update s.ramdisk o v }

section Bytes

theorem wordByte_set (w i j : Nat) (v : UInt8) :
    wordByte (setWordByte w v i) j = if j = i then v else wordByte w j := by
  have hv := v.toNat_lt
  induction i generalizing w j with
  | zero =>
      cases j with
      | zero =>
          rw [if_pos rfl, setWordByte, wordByte]
          apply UInt8.toNat_inj.mp
          rw [UInt8.toNat_ofNat']
          omega
      | succ j =>
          have hdiv : (v.toNat + 256 * (w / 256)) / 256 = w / 256 := by omega
          rw [if_neg (Nat.succ_ne_zero j), setWordByte, wordByte, wordByte, hdiv]
  | succ i ih =>
      cases j with
      | zero =>
          rw [if_neg (Nat.succ_ne_zero i).symm, setWordByte, wordByte, wordByte]
          apply UInt8.toNat_inj.mp
          rw [UInt8.toNat_ofNat', UInt8.toNat_ofNat']
          omega
      | succ j =>
          have hdiv : (w % 256 + 256 * setWordByte (w / 256) v i) / 256 = setWordByte (w / 256) v i := by omega
          rw [setWordByte, wordByte, wordByte, hdiv, ih]
          simp only [Nat.succ_inj]

theorem superWord_set (b : Superblock) (w : Nat) (k l : Fin 6) :
    superWord (setSuperWord b w k) l = if l = k then w else superWord b l := by
  fin_cases k <;> fin_cases l <;> rfl

theorem getD_setNameByte (name : List UInt8) {i j : Nat} (hj : j < 28) (v : UInt8) :
    (setNameByte name i v).getD j 0 = if j = i then v else name.getD j 0 := by
  rw [setNameByte, List.getD_eq_getElem?_getD, List.getElem?_map, List.getElem?_range hj]
  rfl

theorem offset_of_place {o : Nat} {p : Place} (h : place o = some p) : p.offset = o := by
  unfold place at h
  split at h
  · cases h
    simp only [Place.offset]
    omega
  · split at h
    · cases h
    · split at h
      · split at h <;> cases h <;> simp only [Place.offset] <;> omega
      · split at h
        · cases h
          simp only [Place.offset]
          omega
        · split at h
          · cases h
            simp only [Place.offset]
            omega
          · split at h
            · split at h
              · cases h
                simp only [Place.offset]
                omega
              · split at h
                · cases h
                  simp only [Place.offset]
                  omega
                · cases h
            · cases h
              rfl

theorem name_of_place {o e i : Nat} (h : place o = some (.name e i)) : i < 28 := by
  have hoffset := offset_of_place h
  unfold place at h
  split at h
  · cases h
  · split at h
    · cases h
    · split at h
      · split at h
        · rename_i hname
          cases h
          exact hname
        · cases h
      · grind

/-- A byte that is stored is read back, and no other byte is. -/
theorem getByte_setByte (s : State) (v : UInt8) (p : Place) {q : Place} (hq : ∀ e i, q = .name e i → i < 28) :
    getByte (setByte s v p) q = if q = p then v else getByte s q := by
  cases p with
  | super k i =>
      cases q with
      | super l j =>
          simp only [getByte, setByte, superWord_set]
          by_cases hkl : l = k
          · subst hkl
            simp [wordByte_set]
          · simp [hkl]
      | _ => rfl
  | name e i =>
      cases q with
      | name e' j =>
          by_cases he : e' = e
          · subst he
            have hname := getD_setNameByte (s.directory e').name (i := i) (hq e' j rfl) v
            simp only [getByte, setByte, setDirEntry, Function.update_self, hname, Place.name.injEq, true_and]
          · simp [getByte, setByte, setDirEntry, he]
      | entry e' j =>
          by_cases he : e' = e
          · subst he
            simp [getByte, setByte, setDirEntry]
          · simp [getByte, setByte, setDirEntry, he]
      | _ => rfl
  | entry e i =>
      cases q with
      | name e' j =>
          by_cases he : e' = e
          · subst he
            simp [getByte, setByte, setDirEntry]
          · simp [getByte, setByte, setDirEntry, he]
      | entry e' j =>
          by_cases he : e' = e
          · subst he
            simp [getByte, setByte, setDirEntry, wordByte_set]
          · simp [getByte, setByte, setDirEntry, he]
      | _ => rfl
  | blockBits b =>
      cases q with
      | blockBits b' => simp [getByte, setByte, Function.update_apply]
      | _ => rfl
  | inodeBits b =>
      cases q with
      | inodeBits b' => simp [getByte, setByte, Function.update_apply]
      | _ => rfl
  | size n i =>
      cases q with
      | size n' j =>
          by_cases hn : n' = n
          · subst hn
            simp [getByte, setByte, setInode, wordByte_set]
          · simp [getByte, setByte, setInode, hn]
      | block n' j' j =>
          by_cases hn : n' = n
          · subst hn
            simp [getByte, setByte, setInode]
          · simp [getByte, setByte, setInode, hn]
      | _ => rfl
  | block n j i =>
      cases q with
      | size n' i' =>
          by_cases hn : n' = n
          · subst hn
            simp [getByte, setByte, setInode]
          · simp [getByte, setByte, setInode, hn]
      | block n' j' i' =>
          by_cases hn : n' = n
          · subst hn
            by_cases hj : j' = j
            · subst hj
              simp [getByte, setByte, setInode, wordByte_set]
            · simp [getByte, setByte, setInode, hj]
          · simp [getByte, setByte, setInode, hn]
      | _ => rfl
  | data o =>
      cases q with
      | data o' => simp [getByte, setByte, Function.update_apply]
      | _ => rfl

end Bytes

end SengKernel.Fs
