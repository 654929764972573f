import SengKernel.FsTwoRuns
import SengKernel.FsSplitting

/- What a new file shows of the deleted ones. A block is given out uncleared, so a read
   is safe only while every byte below the size was written by the file itself. -/
namespace SengKernel.Fs
open BoundedLoop MachineWord Str Transition

/-- A write through `d` would start beyond the end of the file, on a block that is there
or can be had. -/
def LeavesGap (s : State) (d : FileDesc) : Prop :=
  (s.inodes d.inode).size < d.offset ∧ d.offset / 4096 < 8 ∧ ensureBlock s d.inode (d.offset / 4096) ≠ none

/-- A pair of writes leaves no gap in inode `n`, and bytes that differ stay off its blocks. -/
def KeepsOff (n : Nat) (p : Twins) (c : Call × Call) : Prop :=
  ∀ (k : Nat) buf buf' count, c = (.write k (some buf) count, .write k (some buf') count) →
    (p.left.fs.openFiles k).valid = true → count ≠ 0 →
      ((p.left.fs.openFiles k).inode = n → ¬ LeavesGap p.left.fs (p.left.fs.openFiles k)) ∧
      ((∀ i < count.toNat, buf' i = buf i) ∨ Spared p.left.fs (p.left.fs.openFiles k).inode n)

/-- File `k` was made and is no longer listed. -/
def Deleted (h : History) (k : Nat) : Prop :=
  k < h.files ∧ ∀ e, Live h.fs e → h.born (h.fs.directory e).inode ≠ k

/-- Two histories that differ at most in the bytes written to the files in `hidden`, all of
them deleted when the pair `p` makes the next file. The steps after that meet `meets`,
which is told the inode of the new file. -/
structure TwinRun (hidden : Nat → Prop) (meets : Nat → Twins → Call × Call → Prop) (s : State) (p q r : Twins) :
    Prop where
  earlier : Reachable (TwinStep hidden) (startTwins s) p
  deleted : ∀ k, hidden k → Deleted p.left k
  made : ∃ c, TwinStep hidden p c q ∧ makesFile p.left.fs c.1 = true
  later : Reachable (When (meets (fsAllocInode p.left.fs).1) (TwinStep hidden)) q r

/-- Every read through a descriptor opened on file `f` returns the same on both sides. -/
def ReadsAgree (f : Nat) (p : Twins) : Prop :=
  ∀ k < 16, (p.left.fs.openFiles k).valid = true → p.left.target k = f → ∀ (buffer : Option (Nat → UInt8)) (count : UInt32),
    (p.left.fs.openFiles k).offset + count.toNat < 4294967296 →
      (fsRead p.right.fs k buffer count).1 = (fsRead p.left.fs k buffer count).1

/-- The file on inode `n` has all its blocks, and `r` holds the same bytes in it. -/
structure Agrees (n : Nat) (s : State) (r : Nat → UInt8) : Prop where
  filled : ∀ p < (s.inodes n).size, HasBlock s n p
  bytes : ∀ p < (s.inodes n).size, r (byteAddr s n p) = s.ramdisk (byteAddr s n p)

section Bytes

variable {s t : State} {r r' : Nat → UInt8} {n k : Nat} {buf buf' : Nat → UInt8}

/-- The same inode, and the same bytes in its blocks. -/
theorem Agrees.congr (h : Agrees n s r) (hinode : t.inodes n = s.inodes n)
    (hleft : ∀ p < (s.inodes n).size, t.ramdisk (byteAddr s n p) = s.ramdisk (byteAddr s n p))
    (hright : ∀ p < (s.inodes n).size, r' (byteAddr s n p) = r (byteAddr s n p)) : Agrees n t r' := by
  have haddr : ∀ p, byteAddr t n p = byteAddr s n p := fun p => by rw [byteAddr, byteAddr, hinode]
  refine ⟨fun p hp => ?_, fun p hp => ?_⟩
  · rw [hinode] at hp
    rw [HasBlock, hinode]
    exact h.filled p hp
  · rw [hinode] at hp
    rw [haddr, hleft p hp, hright p hp, h.bytes p hp]

/-- A cleared inode agrees with anything. -/
theorem agrees_of_empty (hsize : (s.inodes n).size = 0) (r : Nat → UInt8) : Agrees n s r := by
  refine ⟨fun p hp => ?_, fun p hp => ?_⟩ <;>
  · rw [hsize] at hp
    exact absurd hp (Nat.not_lt_zero p)

/-- A block linked at an index that had none is beyond the size. -/
theorem Agrees.grow (h : Agrees n s r) {m j i : Nat} (hzero : (s.inodes m).blocks j = 0) :
    Agrees n (growInode s m j i) r := by
  have hblock : ∀ p < (s.inodes n).size, ((growInode s m j i).inodes n).blocks (p / 4096) =
      (s.inodes n).blocks (p / 4096) := by
    intro p hp
    rw [growInode_blocks, if_neg]
    rintro ⟨rfl, rfl⟩
    exact (h.filled p hp).2 hzero
  refine ⟨fun p hp => ?_, fun p hp => ?_⟩
  · rw [growInode_size] at hp
    rw [HasBlock, hblock p hp]
    exact h.filled p hp
  · rw [growInode_size] at hp
    rw [byteAddr, hblock p hp]
    exact h.bytes p hp

/-- Equal copies keep equal bytes equal, and make those that they write equal. -/
theorem copies_agree {A m w count a : Nat} (hbuf : ∀ i < count, buf' i = buf i) (hfit : m + w ≤ count)
    (ha : A ≤ a ∧ a < A + w ∨ r a = r' a) : memcpy r A buf' m w a = memcpy r' A buf m w a := by
  rw [memcpy_apply, memcpy_apply]
  split
  · exact hbuf _ (by omega)
  · rename_i hout
    exact ha.resolve_left hout

theorem Agrees.put (h : Agrees n s r) {m w count : Nat} (hbuf : ∀ i < count, buf' i = buf i) (hfit : m + w ≤ count)
    (hidx : (s.openFiles k).offset / 4096 < 8)
    (hblock : (s.inodes (s.openFiles k).inode).blocks ((s.openFiles k).offset / 4096) ≠ 0)
    (hw : w ≤ 4096 - (s.openFiles k).offset % 4096)
    (hgap : (s.openFiles k).inode = n → (s.openFiles k).offset ≤ (s.inodes n).size) :
    Agrees n (putBytes s k buf m w) (memcpy r (byteAddr s (s.openFiles k).inode (s.openFiles k).offset) buf' m w) := by
  have haddr : ∀ p, byteAddr (putBytes s k buf m w) n p = byteAddr s n p := fun p => by
    rw [byteAddr, putBytes_blocks, byteAddr]
  -- a byte below the new size was below the old one, or is written now
  have hcases : ∀ p < ((putBytes s k buf m w).inodes n).size, p < (s.inodes n).size ∨
      (s.openFiles k).inode = n ∧ (s.openFiles k).offset ≤ p ∧ p < (s.openFiles k).offset + w := by
    intro p hp
    by_cases hn : (s.openFiles k).inode = n
    · have hle := hgap hn
      subst hn
      simp only [putBytes, setInode, Function.update_self] at hp
      split at hp <;> omega
    · rw [putBytes_size_of_ne s k buf m w (Ne.symm hn)] at hp
      exact Or.inl hp
  refine ⟨fun p hp => ?_, fun p hp => ?_⟩
  · rw [HasBlock, putBytes_blocks]
    rcases hcases p hp with hold | ⟨rfl, hlow, hhigh⟩
    · exact h.filled p hold
    · have hdiv : p / 4096 = (s.openFiles k).offset / 4096 := by omega
      rw [hdiv]
      exact ⟨hidx, hblock⟩
  · rw [haddr]
    refine copies_agree hbuf hfit ?_
    rcases hcases p hp with hold | ⟨rfl, hlow, hhigh⟩
    · exact Or.inr (h.bytes p hold)
    · have hdiv : p / 4096 = (s.openFiles k).offset / 4096 := by omega
      refine Or.inl ?_
      rw [byteAddr, byteAddr, hdiv]
      omega

/-- The copy moves the offset to at most the new size. -/
theorem putBytes_no_gap {m w : Nat} (hgap : (s.openFiles k).inode = n → (s.openFiles k).offset ≤ (s.inodes n).size)
    (hn : ((putBytes s k buf m w).openFiles k).inode = n) :
    ((putBytes s k buf m w).openFiles k).offset ≤ ((putBytes s k buf m w).inodes n).size := by
  rw [(putBytes_desc_inode s k buf m w k).1] at hn
  subst hn
  rw [putBytes_openFiles_self, putBytes_inode_self]
  exact Nat.le_max_right ..

/-- Two writes of the same bytes that leave no gap. -/
theorem Agrees.written (h : Agrees n s r) {count : Nat} (hbuf : ∀ i < count, buf' i = buf i)
    (hgap : (s.openFiles k).inode = n → (s.openFiles k).offset ≤ (s.inodes n).size) :
    ∃ r', (writeLoop k buf' count ⟨withBytes r s, 0⟩).fs = withBytes r' (writeLoop k buf count ⟨s, 0⟩).fs ∧
      Agrees n (writeLoop k buf count ⟨s, 0⟩).fs r' := by
  have hloop := writeLoop_withBytes (s := s) (r := r) buf buf' k count
    (fun t r => Agrees n t r ∧ ((t.openFiles k).inode = n → (t.openFiles k).offset ≤ (t.inodes n).size))
    (fun t r i ht _ hzero _ _ => ⟨ht.1.grow hzero, fun hn => by rw [growInode_size]; exact ht.2 hn⟩)
    (fun t r m w ht hidx hblock hw hfit =>
      ⟨ht.1.put hbuf hfit hidx hblock hw ht.2, fun hn => putBytes_no_gap ht.2 hn⟩) ⟨h, hgap⟩
  obtain ⟨r', heq, hagree, _⟩ := hloop
  exact ⟨r', congrArg Writing.fs heq, hagree⟩

/-- A write whose first pass breaks. -/
theorem writeLoop_blocked (count : Nat) (hnone : (s.openFiles k).offset / 4096 < 8 →
    ensureBlock s (s.openFiles k).inode ((s.openFiles k).offset / 4096) = none) :
    writeLoop k buf count ⟨s, 0⟩ = ⟨s, 0⟩ := by
  have hpass : writePass k buf count ⟨s, 0⟩ = none := by
    by_cases hidx : (s.openFiles k).offset / fsBlockSize ≥ fsDirectBlocks
    · exact if_pos hidx
    · exact (if_neg hidx).trans (congrArg (Option.map _) (hnone (Nat.lt_of_not_le hidx)))
  rw [writeLoop, loopWhile, hpass, ite_self]

/-- What a write leaves in the blocks of a file that its inode spares. -/
theorem Spared.write_ramdisk (h : Spared s (s.openFiles k).inode n) (buf : Nat → UInt8) (count : Nat) {p : Nat}
    (hp : HasBlock s n p) :
    (writeLoop k buf count ⟨s, 0⟩).fs.ramdisk (byteAddr s n p) = s.ramdisk (byteAddr s n p) := by
  obtain ⟨hinode, hbytes⟩ := h.write_keeps buf count
  have hlt : p < 32768 := by
    have := hp.1
    omega
  have hp' : HasBlock (writeLoop k buf count ⟨s, 0⟩).fs n p := by
    rw [HasBlock, hinode]
    exact hp
  have heq := hbytes p hlt
  rw [contentByte_some hp', contentByte_some hp, hinode] at heq
  exact Option.some.inj heq

/-- A pair of writes that keeps off inode `n`. -/
theorem Agrees.write (h : Agrees n s r) (fd : Int) (count : UInt32)
    (hkeeps : ∀ k : Nat, fd = k → (s.openFiles k).valid = true → count ≠ 0 →
      ((s.openFiles k).inode = n → ¬ LeavesGap s (s.openFiles k)) ∧
      ((∀ i < count.toNat, buf' i = buf i) ∨ Spared s (s.openFiles k).inode n)) :
    Agrees n (fsWrite s fd (some buf) count).2 (fsWrite (withBytes r s) fd (some buf') count).2.ramdisk := by
  rcases fsWrite_withBytes r s fd buf buf' count with ⟨hleft, hright⟩ | ⟨k, _, rfl, hvalid, hcount, hleft, hright⟩
  · rw [hleft, hright]
    exact h
  · rw [hleft, hright]
    obtain ⟨hgap, hsame | hspared⟩ := hkeeps k rfl hvalid hcount
    · by_cases hbeyond : (s.openFiles k).inode = n ∧ (s.inodes n).size < (s.openFiles k).offset
      · -- the write would leave a gap, so its first pass breaks
        have hnone : (s.openFiles k).offset / 4096 < 8 →
            ensureBlock s (s.openFiles k).inode ((s.openFiles k).offset / 4096) = none := by
          intro hidx
          by_contra hsome
          exact hgap hbeyond.1 ⟨hbeyond.1 ▸ hbeyond.2, hidx, hsome⟩
        rw [writeLoop_blocked count.toNat hnone, writeLoop_blocked count.toNat (fun hidx => ?_)]
        · exact h
        · rw [withBytes_openFiles, ensureBlock_withBytes, hnone hidx]
          rfl
      · obtain ⟨r', hloop, hagree⟩ := h.written hsame (k := k) (fun hn => by
          by_contra hlt
          exact hbeyond ⟨hn, Nat.lt_of_not_le hlt⟩)
        rw [hloop]
        exact hagree
    · have hright : Spared (withBytes r s) ((withBytes r s).openFiles k).inode n :=
        ⟨hspared.other, hspared.apart, hspared.taken⟩
      exact h.congr (hspared.write_keeps buf count.toNat).1
        (fun p hp => hspared.write_ramdisk buf count.toNat (h.filled p hp))
        (fun p hp => hright.write_ramdisk buf' count.toNat (h.filled p hp))

theorem Agrees.same (h : Agrees n s r) (hinode : t.inodes n = s.inodes n) (hramdisk : t.ramdisk = s.ramdisk) :
    Agrees n t r := h.congr hinode (fun _ _ => by rw [hramdisk]) (fun _ _ => rfl)

theorem Agrees.created (h : Agrees n s r) (i m : Nat) (f : CString) : Agrees n (newFile s i m f) r := by
  by_cases hn : n = m
  · refine agrees_of_empty ?_ r
    rw [newFile_inodes, hn, Function.update_self]
  · refine h.same ?_ rfl
    rw [newFile_inodes, Function.update_of_ne hn]

theorem Agrees.opened (h : Agrees n s r) (m : Nat) : Agrees n (fsOpenInode s m).2 r := by
  rcases fsOpenInode_cases s m with ⟨heq, _⟩ | ⟨_, k, _, _, _, heq⟩ <;> rw [heq]
  · exact h
  · exact h.same rfl rfl

/-- One pair of calls that keeps off inode `n`. -/
theorem Agrees.step {hidden : Nat → Prop} {p q : Twins} {c : Call × Call} (halike : Alike p) (howned : Owned p.left.fs)
    (h : Agrees n p.left.fs p.right.fs.ramdisk) (hkeeps : KeepsOff n p c) (step : TwinStep hidden p c q) :
    Agrees n q.left.fs q.right.fs.ramdisk := by
  obtain ⟨c, c'⟩ := c
  obtain ⟨hsame, hleft, hright⟩ := step
  have hright' : p.right.fs = withBytes p.right.fs.ramdisk p.left.fs := congrArg History.fs halike
  rw [← hleft, ← hright]
  change Agrees n (call p.left.fs c).2 (call p.right.fs c').2.ramdisk
  rw [hright']
  generalize p.right.fs.ramdisk = r at h
  have hwrites : ∀ fd buf buf' count, (c, c') = (.write fd (some buf) count, .write fd (some buf') count) →
      Agrees n (fsWrite p.left.fs fd (some buf) count).2 (fsWrite (withBytes r p.left.fs) fd (some buf') count).2.ramdisk := by
    intro fd buf buf' count heq
    exact h.write fd count (fun k hk => hkeeps k buf buf' count (by rw [heq, hk]))
  have hreads : ∀ fd buf buf' count,
      Agrees n (fsRead p.left.fs fd (some buf) count).2 (fsRead (withBytes r p.left.fs) fd (some buf') count).2.ramdisk := by
    intro fd buf buf' count
    rw [fsRead_withBytes r p.left.fs fd buf buf' count]
    rcases fsRead_frame p.left.fs fd (some buf) count with heq | ⟨k, _, _, _, o, heq⟩ <;> rw [heq]
    · exact h
    · exact h.same rfl rfl
  cases hsame with
  | read fd buf buf' count => exact hreads fd buf buf' count
  | write fd buf buf' count _ => exact hwrites fd buf buf' count rfl
  | same =>
      cases c with
      | createFile filename =>
          change Agrees n (fsCreateFile p.left.fs filename).2 (fsCreateFile (withBytes r p.left.fs) filename).2.ramdisk
          rw [fsCreateFile_withBytes]
          rcases fsCreateFile_cases p.left.fs filename with ⟨heq, _⟩ | ⟨f, i, m, _, _, heq⟩ <;> rw [heq]
          · exact h
          · exact h.created i m f
      | openFile filename create =>
          change Agrees n (fsOpen p.left.fs filename create).2 (fsOpen (withBytes r p.left.fs) filename create).2.ramdisk
          rw [fsOpen_withBytes]
          rcases fsOpen_cases p.left.fs filename create with ⟨_, heq | ⟨f, _, heq⟩⟩ | ⟨_, f, i, m, _, _, heq⟩ <;> rw [heq]
          · exact h
          · exact h.opened _
          · exact (h.created i m f).opened _
      | close fd =>
          change Agrees n (fsClose p.left.fs fd).2 (fsClose (withBytes r p.left.fs) fd).2.ramdisk
          rw [fsClose_withBytes]
          rcases fsClose_cases p.left.fs fd with ⟨_, heq⟩ | ⟨k, _, _, _, heq⟩ <;> rw [heq]
          · exact h
          · exact h.same rfl rfl
      | read fd buffer count =>
          cases buffer with
          | none =>
              change Agrees n (fsRead p.left.fs fd none count).2 (fsRead (withBytes r p.left.fs) fd none count).2.ramdisk
              rw [fsRead_none, fsRead_none]
              exact h
          | some buf => exact hreads fd buf buf count
      | write fd buffer count =>
          cases buffer with
          | none =>
              change Agrees n (fsWrite p.left.fs fd none count).2 (fsWrite (withBytes r p.left.fs) fd none count).2.ramdisk
              rw [fsWrite_none, fsWrite_none]
              exact h
          | some buf => exact hwrites fd buf buf count rfl
      | unlink filename =>
          change Agrees n (fsUnlink p.left.fs filename).2 (fsUnlink (withBytes r p.left.fs) filename).2.ramdisk
          rw [fsUnlink_withBytes]
          rcases howned.fsUnlink_cases filename with ⟨heq, _⟩ | ⟨f, i, u, _, _, _, _, heq, hu⟩ <;> rw [heq]
          · exact h
          · exact h.same (by rw [hu.inodes]) hu.ramdisk

end Bytes

/-- `P` holds of the files in use and their inodes: those listed, and those open. -/
structure Tagged (P : Nat → Nat → Prop) (h : History) : Prop where
  listed : ∀ e, Live h.fs e → P (h.born (h.fs.directory e).inode) (h.fs.directory e).inode
  opened : ∀ k < 16, (h.fs.openFiles k).valid = true → P (h.target k) (h.fs.openFiles k).inode

section Tags

variable {P : Nat → Nat → Prop} {h g : History} {c : Call}

theorem Tagged.mono {Q : Nat → Nat → Prop} (ht : Tagged P h) (hsub : ∀ k m, P k m → Q k m) : Tagged Q h :=
  ⟨fun e he => hsub _ _ (ht.listed e he), fun k hk hvalid => hsub _ _ (ht.opened k hk hvalid)⟩

/-- A call that lists nothing new and opens nothing. -/
theorem Tagged.keep (ht : Tagged P h) (hborn : g.born = h.born) (htarget : g.target = h.target)
    (hdir : ∀ e, Live g.fs e → Live h.fs e ∧ g.fs.directory e = h.fs.directory e)
    (hdesc : ∀ k, (g.fs.openFiles k).valid = true →
      (h.fs.openFiles k).valid = true ∧ (g.fs.openFiles k).inode = (h.fs.openFiles k).inode) : Tagged P g := by
  refine ⟨fun e he => ?_, fun k hk hvalid => ?_⟩
  · obtain ⟨hlive, hentry⟩ := hdir e he
    rw [hborn, hentry]
    exact ht.listed e hlive
  · obtain ⟨hvalid', hinode⟩ := hdesc k hvalid
    rw [htarget, hinode]
    exact ht.opened k hk hvalid'

theorem Tagged.same (ht : Tagged P h) (hborn : g.born = h.born) (htarget : g.target = h.target) (hfs : g.fs = h.fs) :
    Tagged P g := by
  refine ht.keep hborn htarget (fun e he => ?_) (fun k hvalid => ?_)
  · rw [hfs] at he ⊢
    exact ⟨he, rfl⟩
  · rw [hfs] at hvalid ⊢
    exact ⟨hvalid, rfl⟩

/-- A new file on inode `n`, which `P` allows. -/
theorem Tagged.created (ht : Tagged P h) (howned : Owned h.fs) {f : CString} {i n : Nat} (hc : Creatable h.fs f i n)
    (hmade : makesFile h.fs c = true) (hnew : P h.files n) (hfs : g.fs = newFile h.fs i n f)
    (hborn : g.born = bornAfter h c) (htarget : g.target = h.target) : Tagged P g := by
  refine ⟨fun e he => ?_, fun k hk hvalid => ?_⟩
  · rw [hfs] at he ⊢
    rw [hborn]
    rcases newFile_live he with ⟨_, hinode⟩ | ⟨_, hlive, hentry⟩
    · rw [hinode, bornAfter, hmade, if_pos rfl, hc.given, Function.update_self]
      exact hnew
    · rw [hentry, bornAfter_live howned hc hlive]
      exact ht.listed e hlive
  · rw [hfs] at hvalid ⊢
    rw [htarget]
    exact ht.opened k hk hvalid

/-- The end of `fs_open`: a listed file is opened, or nothing changes. -/
theorem Tagged.open {t : State} {f : CString} {filename : Option CString} {create : Int}
    (hopen : fsOpen h.fs filename create = fsOpenInode t (fsFindInode t f))
    (ht : Tagged P { h with fs := t, born := bornAfter h (.openFile filename create) }) :
    Tagged P (record h (.openFile filename create)) := by
  rcases fsOpenInode_cases t (fsFindInode t f) with ⟨hfail, _⟩ | ⟨hne, k, hk, hfree, _, hok⟩
  · refine ht.same rfl ?_ ?_
    · simp only [record, targetAfter, hopen, hfail]
      rfl
    · simp only [record, call, plainReply, hopen, hfail]
  · have hfs : (record h (.openFile filename create)).fs =
        setDesc t k { inode := fsFindInode t f, offset := 0, valid := true } := by
      simp only [record, call, plainReply, hopen, hok]
    have htarget : (record h (.openFile filename create)).target =
        Function.update h.target k (bornAfter h (.openFile filename create) (fsFindInode t f)) := by
      simp only [record, targetAfter, hopen, hok]
      rw [setDesc_self]
    refine ⟨fun e he => ?_, fun j hj hvalid => ?_⟩
    · rw [hfs] at he ⊢
      exact ht.listed e he
    · rw [hfs] at hvalid ⊢
      rw [htarget]
      by_cases hjk : j = k
      · obtain ⟨e, he, hinode, _⟩ := fsFindInode_live hne
        have htag := ht.listed e he
        rw [hjk, Function.update_self, setDesc_self]
        change P (bornAfter h (.openFile filename create) (t.directory e).inode) (t.directory e).inode at htag
        rw [hinode] at htag
        exact htag
      · rw [setDesc_of_ne _ _ hjk] at hvalid ⊢
        rw [Function.update_of_ne hjk]
        exact ht.opened j hj hvalid

theorem tagged_step (howned : Owned h.fs) (ht : Tagged P h)
    (hnew : makesFile h.fs c = true → P h.files (fsAllocInode h.fs).1) : Tagged P (record h c) := by
  have hstill : makesFile h.fs c = false → bornAfter h c = h.born := by
    intro hmade
    rw [bornAfter, hmade]
    rfl
  cases c with
  | createFile filename =>
      rcases fsCreateFile_cases h.fs filename with ⟨heq, _⟩ | ⟨f, i, n, _, hc, heq⟩
      · exact ht.same (hstill (by simp [makesFile, heq])) rfl (congrArg Prod.snd heq)
      · have hmade : makesFile h.fs (.createFile filename) = true := by simp [makesFile, heq]
        exact ht.created howned hc hmade (hc.given ▸ hnew hmade) (congrArg Prod.snd heq) rfl rfl
  | openFile filename create =>
      rcases fsOpen_cases h.fs filename create with ⟨hmade, heq | ⟨f, _, heq⟩⟩ | ⟨hmade, f, i, n, _, hc, heq⟩
      · refine ht.same (hstill hmade) ?_ (congrArg Prod.snd heq)
        simp only [record, targetAfter, heq]
        rfl
      · exact Tagged.open heq (ht.same (hstill hmade) rfl rfl)
      · exact Tagged.open heq (ht.created howned hc hmade (hc.given ▸ hnew hmade) rfl rfl rfl)
  | close fd =>
      refine ht.keep rfl rfl (fun e he => ?_) (fun k hvalid => ?_)
      · change Live (fsClose h.fs fd).2 e at he
        change _ ∧ (fsClose h.fs fd).2.directory e = _
        rcases fsClose_cases h.fs fd with ⟨_, heq⟩ | ⟨k, _, _, _, heq⟩ <;> rw [heq] at he ⊢ <;> exact ⟨he, rfl⟩
      · change ((fsClose h.fs fd).2.openFiles k).valid = true at hvalid
        change _ ∧ ((fsClose h.fs fd).2.openFiles k).inode = _
        rcases fsClose_cases h.fs fd with ⟨_, heq⟩ | ⟨j, _, _, _, heq⟩ <;> rw [heq] at hvalid ⊢
        · exact ⟨hvalid, rfl⟩
        · by_cases hkj : k = j
          · rw [hkj, setDesc_self] at hvalid
            cases hvalid
          · rw [setDesc_of_ne _ _ hkj] at hvalid ⊢
            exact ⟨hvalid, rfl⟩
  | read fd buffer count =>
      refine ht.keep rfl rfl (fun e he => ?_) (fun k hvalid => ?_)
      · change Live (fsRead h.fs fd buffer count).2 e at he
        change _ ∧ (fsRead h.fs fd buffer count).2.directory e = _
        rcases fsRead_frame h.fs fd buffer count with heq | ⟨k, _, _, _, o, heq⟩ <;> rw [heq] at he ⊢ <;> exact ⟨he, rfl⟩
      · change ((fsRead h.fs fd buffer count).2.openFiles k).valid = true at hvalid
        change _ ∧ ((fsRead h.fs fd buffer count).2.openFiles k).inode = _
        rcases fsRead_frame h.fs fd buffer count with heq | ⟨j, _, _, hj, o, heq⟩ <;> rw [heq] at hvalid ⊢
        · exact ⟨hvalid, rfl⟩
        · by_cases hkj : k = j
          · rw [hkj, setDesc_self]
            exact ⟨hj, rfl⟩
          · rw [setDesc_of_ne _ _ hkj] at hvalid ⊢
            exact ⟨hvalid, rfl⟩
  | write fd buffer count =>
      have hframe := fsWrite_frame h.fs fd buffer count
      refine ht.keep rfl rfl (fun e he => ?_) (fun k hvalid => ⟨(hframe.2 k).2 ▸ hvalid, (hframe.2 k).1⟩)
      have hentry : (record h (.write fd buffer count)).fs.directory e = h.fs.directory e := congrFun hframe.1 e
      exact ⟨⟨he.1, hentry ▸ he.2⟩, hentry⟩
  | unlink filename =>
      rcases howned.fsUnlink_cases filename with ⟨heq, _⟩ | ⟨f, i, t, rfl, hi, _, hfind, heq, hu⟩
      · exact ht.same rfl rfl (congrArg Prod.snd heq)
      · have hfs : (record h (.unlink (some f))).fs = t := congrArg Prod.snd heq
        refine ht.keep rfl rfl (fun e he => ?_) (fun k hvalid => ?_)
        · rw [hfs] at he ⊢
          exact (hu.live he).2
        · rw [hfs, hu.openFiles] at hvalid ⊢
          exact ⟨hvalid, rfl⟩

end Tags

section Runs

variable {hidden : Nat → Prop} {s : State} {p q r : Twins} {c : Call × Call}

/-- A read inside a file that agrees delivers the same bytes. -/
theorem Agrees.read {m : Nat → UInt8} {k : Nat} (h : Agrees (s.openFiles k).inode s m) (hk : k < 16)
    (hvalid : (s.openFiles k).valid = true) (buffer : Option (Nat → UInt8)) {count : UInt32}
    (hword : (s.openFiles k).offset + count.toNat < 4294967296) :
    (fsRead (withBytes m s) k buffer count).1 = (fsRead s k buffer count).1 := by
  have hgood : badFd s (k : Int) = false := badFd_eq_false.mpr ⟨k, hk, rfl, hvalid⟩
  cases buffer with
  | none => simp only [fsRead, badFd_withBytes, hgood, Bool.false_eq_true, if_false]
  | some buf =>
      rw [fsRead_eq hk hvalid, fsRead_eq (s := withBytes m s) hk hvalid, withBytes_openFiles, withBytes_inodes]
      by_cases hend : count = 0 ∨ (s.inodes (s.openFiles k).inode).size ≤ (s.openFiles k).offset
      · rw [if_pos hend, if_pos hend]
      · rw [if_neg hend, if_neg hend]
        have hlimit := readCount_le (i := s.inodes (s.openFiles k).inode) hword
        generalize readCount (s.openFiles k) (s.inodes (s.openFiles k).inode) count.toNat = limit at hlimit
        have hleft := readLoop_fetched s k limit buf
        have hright := readLoop_fetched (withBytes m s) k limit buf
        have hcount := (readLoop_withBytes m s k limit buf buf).1
        have hbuf : (readLoop k limit ⟨withBytes m s, 0, buf⟩).buf = (readLoop k limit ⟨s, 0, buf⟩).buf := by
          funext i
          by_cases hi : i < (readLoop k limit ⟨s, 0, buf⟩).bytesRead
          · have hle := hleft.le
            have hinside : (s.openFiles k).offset + i < (s.inodes (s.openFiles k).inode).size := by
              rw [not_or] at hend
              omega
            have hfrom := hleft.bytes i hi
            have hto := hright.bytes i (hcount ▸ hi)
            rw [contentByte_some (hleft.present i hi)] at hfrom
            rw [contentByte_some (hright.present i (hcount ▸ hi))] at hto
            rw [← Option.some.inj hfrom, ← Option.some.inj hto]
            exact h.bytes _ hinside
          · rw [hleft.rest i (Nat.le_of_not_lt hi), hright.rest i (by rw [hcount]; exact Nat.le_of_not_lt hi)]
        simp only [hcount, hbuf]

/-- A new file is empty. -/
theorem made_empty {t : State} {c : Call} (hmade : makesFile t c = true) :
    ((call t c).2.inodes (fsAllocInode t).1).size = 0 := by
  have hnew : ∀ {f i n}, Creatable t f i n → ((newFile t i n f).inodes (fsAllocInode t).1).size = 0 := by
    intro f i n hc
    rw [hc.given, newFile_inodes, Function.update_self]
  cases c with
  | createFile filename =>
      change ((fsCreateFile t filename).2.inodes _).size = 0
      rcases fsCreateFile_cases t filename with ⟨heq, _⟩ | ⟨f, i, n, _, hc, heq⟩
      · simp [makesFile, heq] at hmade
      · rw [heq]
        exact hnew hc
  | openFile filename create =>
      change ((fsOpen t filename create).2.inodes _).size = 0
      rcases fsOpen_cases t filename create with ⟨hnot, _⟩ | ⟨_, f, i, n, _, hc, heq⟩
      · rw [hnot] at hmade
        cases hmade
      · rw [heq]
        rcases fsOpenInode_cases (newFile t i n f) (fsFindInode (newFile t i n f) f) with
          ⟨hopen, _⟩ | ⟨_, k, _, _, _, hopen⟩ <;> rw [hopen]
        · exact hnew hc
        · exact hnew hc
  | close fd => cases hmade
  | read fd buffer count => cases hmade
  | write fd buffer count => cases hmade
  | unlink filename => cases hmade

/-- Alike, with files numbered in the order in which they were made. -/
structure Numbered (p : Twins) : Prop where
  alike : Alike p
  owned : Owned p.left.fs
  below : Tagged (fun k _ => k < p.left.files) p.left

theorem numbered_start (s : State) : Numbered (startTwins s) := by
  refine ⟨alike_start s, owned_init s, fun e he => (he.2 rfl).elim, fun k hk hvalid => ?_⟩
  simp only [startTwins, startHistory, fsInit, fsMaxOpenFiles, if_pos hk] at hvalid
  cases hvalid

theorem Numbered.owned_step (h : Numbered p) (step : TwinStep hidden p c q) : Owned q.left.fs := by
  rw [← step.2.1]
  exact Fs.owned_step (l := (c.1, (call p.left.fs c.1).1)) h.owned rfl

theorem Numbered.step (h : Numbered p) (step : TwinStep hidden p c q) : Numbered q := by
  refine ⟨h.alike.step step, h.owned_step step, ?_⟩
  rw [← step.2.1]
  refine tagged_step h.owned (h.below.mono (fun k _ hk => ?_)) (fun hmade => ?_)
  · simp only [record]
    split <;> omega
  · simp only [record, hmade, if_true]
    omega

/-- File `f` was made on inode `n`, and what it holds agrees. -/
structure Shown (f n : Nat) (p : Twins) : Prop where
  numbered : Numbered p
  agrees : Agrees n p.left.fs p.right.fs.ramdisk
  past : f < p.left.files
  onInode : Tagged (fun k m => k = f → m = n) p.left

theorem Numbered.shown (h : Numbered p) (step : TwinStep hidden p c q) (hmade : makesFile p.left.fs c.1 = true) :
    Shown p.left.files (fsAllocInode p.left.fs).1 q := by
  refine ⟨h.step step, agrees_of_empty ?_ _, ?_, ?_⟩
  · rw [← step.2.1]
    exact made_empty hmade
  · rw [← step.2.1]
    simp only [record, hmade, if_true]
    exact Nat.lt_succ_self _
  · rw [← step.2.1]
    refine tagged_step h.owned (h.below.mono (fun k _ hk heq => ?_)) (fun _ _ => rfl)
    exact absurd heq (Nat.ne_of_lt hk)

theorem Shown.step {f n : Nat} (h : Shown f n p) (hkeeps : KeepsOff n p c) (step : TwinStep hidden p c q) :
    Shown f n q := by
  refine ⟨h.numbered.step step, h.agrees.step h.numbered.alike h.numbered.owned hkeeps step, ?_, ?_⟩
  · have hpast := h.past
    rw [← step.2.1]
    simp only [record]
    split <;> omega
  · rw [← step.2.1]
    exact tagged_step h.numbered.owned h.onInode (fun _ heq => absurd heq.symm (Nat.ne_of_lt h.past))

theorem Shown.readsAgree {f n : Nat} (h : Shown f n p) : ReadsAgree f p := by
  intro k hk hvalid htarget buffer count hword
  have hinode := h.onInode.opened k hk hvalid htarget
  have hagrees := h.agrees
  rw [← hinode] at hagrees
  rw [congrArg History.fs h.numbered.alike]
  exact hagrees.read hk hvalid buffer hword

end Runs

/-- In every pair of histories whose writes keep off the file made after the deletions, its
reads return the same bytes, whatever the deleted files held. -/
theorem reads_agree {hidden : Nat → Prop} {s : State} {p q r : Twins} (run : TwinRun hidden KeepsOff s p q r) :
    ReadsAgree p.left.files r := by
  obtain ⟨before, hbefore⟩ := run.earlier
  obtain ⟨c, hmake, hmade⟩ := run.made
  obtain ⟨after, hafter⟩ := run.later
  have hnumbered : Numbered p := hbefore.invariant (fun _ _ _ h step => h.step step) (numbered_start s)
  have hshown : Shown p.left.files (fsAllocInode p.left.fs).1 r :=
    hafter.invariant (fun _ _ _ h step => h.step step.1 step.2) (hnumbered.shown hmake hmade)
  exact hshown.readsAgree

def twinRecord (p : Twins) (c : Call × Call) : Twins := ⟨record p.left c.1, record p.right c.2⟩

theorem twinStep_record {hidden : Nat → Prop} {p : Twins} {c : Call × Call} (h : SameBut hidden p.left c.1 c.2) :
    TwinStep hidden p c (twinRecord p c) := ⟨h, rfl, rfl⟩

/-- The same call on both sides. -/
def both (c : Call) : Call × Call := (c, c)

/-- `a` gets two bytes, which differ, and is removed. -/
def writtenApart : List (Call × Call) :=
  [both (.openFile (some nameA) 1), (.write 0 (some fun _ => 65) 2, .write 0 (some fun _ => 66) 2),
    both (.unlink (some nameA))]

def apartTwins : Twins := writtenApart.foldl twinRecord (startTwins blankState)

def shownTwins : Twins := twinRecord apartTwins (both (.openFile (some nameB) 1))

theorem run_apart : Reachable (TwinStep (· = 0)) (startTwins blankState) apartTwins := by
  refine ⟨writtenApart, .cons (twinStep_record (.same _)) (.cons (twinStep_record (.write _ _ _ _ (fun hother => ?_)))
    (.cons (twinStep_record (.same _)) (.nil _)))⟩
  exact (hother (by decide +kernel)).elim

/-- Up to the new file `b`, the two runs below are the same. -/
theorem twinRun_apart {meets : Nat → Twins → Call × Call → Prop} {c : Call × Call}
    (hsame : SameBut (· = 0) shownTwins.left c.1 c.2) (hmeets : meets (fsAllocInode apartTwins.left.fs).1 shownTwins c) :
    TwinRun (· = 0) meets blankState apartTwins shownTwins (twinRecord shownTwins c) := by
  refine ⟨run_apart, ?_, ⟨_, twinStep_record (.same _), by decide +kernel⟩,
    ⟨[c], .cons ⟨hmeets, twinStep_record hsame⟩ (.nil _)⟩⟩
  rintro k rfl
  have hnone : ∀ e < 128, (apartTwins.left.fs.directory e).inode = 0 := by decide +kernel
  exact ⟨by decide +kernel, fun e he => absurd (hnone e he.1) he.2⟩

/-- `b` is written through its own descriptor. -/
theorem reads_agree_sample :
    ReadsAgree apartTwins.left.files (twinRecord shownTwins (both (.write 1 (some fun _ => 88) 1))) := by
  refine reads_agree (twinRun_apart (.same _) (fun k buf buf' count heq _ _ => ?_))
  obtain ⟨hleft, hright⟩ := Prod.mk.inj heq
  injection hleft with hfd hbuf hcount
  injection hright with _ hbuf' _
  refine ⟨fun _ hgap => ?_, Or.inl (fun i _ => ?_)⟩
  · obtain rfl : k = 1 := by exact_mod_cast hfd.symm
    exact absurd hgap.1 (by decide +kernel)
  · rw [← Option.some.inj hbuf, ← Option.some.inj hbuf']

/-- The descriptor of the removed `a` writes beyond the end of `b`, which then shows two bytes of `a`. -/
theorem gap_discloses :
    ∃ hidden s p q r, TwinRun hidden (fun _ _ _ => True) s p q r ∧ ¬ ReadsAgree p.left.files r := by
  refine ⟨_, _, _, _, _, twinRun_apart (c := both (.write 0 (some fun _ => 88) 1)) (.same _) trivial, fun hagree => ?_⟩
  have hread := hagree 1 (by decide) (by decide +kernel) (by decide +kernel) (some fun _ => 0) 3 (by decide +kernel)
  have hbyte := congrArg (fun x => x.buffer.map (fun buf => buf 0)) hread
  exact absurd hbyte (by decide +kernel)

end SengKernel.Fs
