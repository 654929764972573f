import SengKernel.SpliceBasics
import SengKernel.FsReads

/- Transfers cut in two. A write is the same as its bytes written one at a time, so
   where the caller cuts it does not matter; a read goes as far as the blocks go. -/
namespace SengKernel.Fs
open BoundedLoop MachineWord Str Transition Splice

/-- One byte written at the offset of `k`. -/
def writeByte (s : State) (k : Nat) (b : UInt8) : Option State :=
  if (s.openFiles k).offset / fsBlockSize ≥ fsDirectBlocks then none
  else
    (ensureBlock s (s.openFiles k).inode ((s.openFiles k).offset / fsBlockSize)).map
      (fun u => putBytes u k (fun _ => b) 0 1)

/-- Bytes written one at a time until one finds no block; the number of them. -/
def storeBytes (k : Nat) : State → List UInt8 → State × Nat
  | s, [] => (s, 0)
  | s, b :: bs =>
      match writeByte s k b with
      | none => (s, 0)
      | some t => ((storeBytes k t bs).1, (storeBytes k t bs).2 + 1)

section Bytes

variable {s t u : State} {k : Nat} {buf : Nat → UInt8}

/-- Whether a byte can be written does not depend on the byte. -/
theorem writeByte_none {b : UInt8} (h : writeByte s k b = none) (b' : UInt8) : writeByte s k b' = none := by
  unfold writeByte at h ⊢
  split
  · rfl
  · rename_i hidx
    rw [if_neg hidx, Option.map_eq_none_iff] at h
    rw [h]
    rfl

theorem storeBytes_blocked {b : UInt8} (h : writeByte s k b = none) (bs : List UInt8) : storeBytes k s bs = (s, 0) := by
  cases bs with
  | nil => rfl
  | cons b' bs => simp only [storeBytes, writeByte_none h b']

/-- Bytes that are cut in two are stored the same. -/
theorem storeBytes_append (k : Nat) (s : State) (as bs : List UInt8) :
    storeBytes k s (as ++ bs) =
      ((storeBytes k (storeBytes k s as).1 bs).1, (storeBytes k s as).2 + (storeBytes k (storeBytes k s as).1 bs).2) := by
  induction as generalizing s with
  | nil => simp only [List.nil_append, storeBytes, Nat.zero_add]
  | cons a as ih =>
      cases ha : writeByte s k a with
      | none =>
          rw [storeBytes_blocked ha, storeBytes_blocked ha, storeBytes_blocked ha]
          rfl
      | some t =>
          simp only [List.cons_append, storeBytes, ha, ih]
          rw [Nat.add_right_comm]

theorem ensureBlock_present {n j : Nat} (h : (s.inodes n).blocks j ≠ 0) : ensureBlock s n j = some s := if_neg h

theorem ensureBlock_frame {n j : Nat} (h : ensureBlock s n j = some u) :
    u.openFiles = s.openFiles ∧ (u.inodes n).blocks j ≠ 0 := by
  rcases ensureBlock_some h with ⟨hne, rfl⟩ | ⟨_, i, _, _, rfl⟩
  · exact ⟨rfl, hne⟩
  · refine ⟨rfl, ?_⟩
    rw [growInode_blocks, if_pos ⟨rfl, rfl⟩]
    omega

theorem putBytes_openFiles_self (s : State) (k : Nat) (buf : Nat → UInt8) (b w : Nat) :
    (putBytes s k buf b w).openFiles k = { s.openFiles k with offset := (s.openFiles k).offset + w } := setDesc_self ..

theorem putBytes_inode_self (s : State) (k : Nat) (buf : Nat → UInt8) (b w : Nat) :
    (putBytes s k buf b w).inodes (s.openFiles k).inode = { s.inodes (s.openFiles k).inode with
      size := max (s.inodes (s.openFiles k).inode).size ((s.openFiles k).offset + w) } := by
  have hsize : (if (s.openFiles k).offset + w > (s.inodes (s.openFiles k).inode).size
      then (s.openFiles k).offset + w else (s.inodes (s.openFiles k).inode).size) =
      max (s.inodes (s.openFiles k).inode).size ((s.openFiles k).offset + w) := by
    split <;> omega
  simp only [putBytes, setInode, Function.update_self, hsize]

/-- A memory after two copies, the second right behind the first. -/
theorem copies_eq {buf' : Nat → UInt8} {b b' w w' p q a : Nat} {r : UInt8} (hq : q = p + w)
    (hbytes : ∀ i < w', buf' (b' + i) = buf (b + w + i)) :
    (if q ≤ a ∧ a < q + w' then buf' (b' + (a - q)) else if p ≤ a ∧ a < p + w then buf (b + (a - p)) else r) =
      if p ≤ a ∧ a < p + (w + w') then buf (b + (a - p)) else r := by
  by_cases hlate : q ≤ a ∧ a < q + w'
  · rw [if_pos hlate, if_pos (by omega), hbytes (a - q) (by omega)]
    congr 1
    omega
  · rw [if_neg hlate]
    by_cases hearly : p ≤ a ∧ a < p + w
    · rw [if_pos hearly, if_pos (by omega)]
    · rw [if_neg hearly, if_neg (by omega)]

/-- Two copies into one block are one. -/
theorem putBytes_putBytes {b b' w w' : Nat} {buf' : Nat → UInt8} (hfit : (s.openFiles k).offset % 4096 + w < 4096)
    (hbytes : ∀ i < w', buf' (b' + i) = buf (b + w + i)) :
    putBytes (putBytes s k buf b w) k buf' b' w' = putBytes s k buf b (w + w') := by
  have hdiv : ((s.openFiles k).offset + w) / 4096 = (s.openFiles k).offset / 4096 := by omega
  have hmod : ((s.openFiles k).offset + w) % 4096 = (s.openFiles k).offset % 4096 + w := by omega
  have hopen : (putBytes (putBytes s k buf b w) k buf' b' w').openFiles = (putBytes s k buf b (w + w')).openFiles := by
    change Function.update (Function.update s.openFiles k _) k { (putBytes s k buf b w).openFiles k with
      offset := ((putBytes s k buf b w).openFiles k).offset + w' } = Function.update s.openFiles k _
    rw [putBytes_openFiles_self, Function.update_idem, Nat.add_assoc]
  have hinodes : (putBytes (putBytes s k buf b w) k buf' b' w').inodes = (putBytes s k buf b (w + w')).inodes := by
    have hself := putBytes_inode_self (putBytes s k buf b w) k buf' b' w'
    rw [putBytes_openFiles_self] at hself
    funext n
    by_cases hn : n = (s.openFiles k).inode
    · subst hn
      rw [hself, putBytes_inode_self, putBytes_inode_self]
      simp only [Inode.mk.injEq, and_true]
      omega
    · have hn' : n ≠ ((putBytes s k buf b w).openFiles k).inode := by
        rw [putBytes_openFiles_self]
        exact hn
      exact ((Function.update_of_ne hn' ..).trans (Function.update_of_ne hn ..)).trans
        (Function.update_of_ne hn ..).symm
  have hramdisk : (putBytes (putBytes s k buf b w) k buf' b' w').ramdisk = (putBytes s k buf b (w + w')).ramdisk := by
    funext a
    have hinode : ((putBytes s k buf b w).openFiles k).inode = (s.openFiles k).inode := by rw [putBytes_openFiles_self]
    have hoffset : ((putBytes s k buf b w).openFiles k).offset = (s.openFiles k).offset + w := by
      rw [putBytes_openFiles_self]
    rw [putBytes_ramdisk, putBytes_ramdisk, putBytes_ramdisk, hinode, hoffset, putBytes_blocks, hdiv, hmod]
    exact copies_eq (Nat.add_assoc ..).symm hbytes
  generalize hx : putBytes (putBytes s k buf b w) k buf' b' w' = x at hopen hinodes hramdisk
  generalize hy : putBytes s k buf b (w + w') = y at hopen hinodes hramdisk
  have hrest : x.superblock = y.superblock ∧ x.directory = y.directory ∧ x.blockBitmap = y.blockBitmap ∧
      x.inodeBitmap = y.inodeBitmap := by
    rw [← hx, ← hy]
    exact ⟨rfl, rfl, rfl, rfl⟩
  exact State.mk.injEq .. ▸ ⟨hrest.1, hrest.2.1, hrest.2.2.1, hrest.2.2.2, hinodes, hramdisk, hopen⟩

theorem writeByte_some (hidx : (s.openFiles k).offset / 4096 < 8)
    (hens : ensureBlock s (s.openFiles k).inode ((s.openFiles k).offset / 4096) = some u) (b : UInt8) :
    writeByte s k b = some (putBytes u k (fun _ => b) 0 1) := by
  rw [writeByte, if_neg (Nat.not_le_of_lt hidx)]
  exact congrArg (Option.map _) hens

/-- A pass of the write loop is its bytes one at a time. -/
theorem storeBytes_pass (hidx : (s.openFiles k).offset / 4096 < 8)
    (hens : ensureBlock s (s.openFiles k).inode ((s.openFiles k).offset / 4096) = some u) (b w : Nat)
    (hw : w + 1 ≤ 4096 - (s.openFiles k).offset % 4096) :
    storeBytes k s (window buf b (w + 1)) = (putBytes u k buf b (w + 1), w + 1) := by
  obtain ⟨hopen, hpresent⟩ := ensureBlock_frame hens
  have hone : ∀ (v : State) (x : UInt8) (i : Nat), buf i = x → putBytes v k (fun _ => x) 0 1 = putBytes v k buf i 1 := by
    intro v x i hx
    simp only [putBytes, memcpy, hx]
  induction w with
  | zero =>
      have hwindow : window buf b (0 + 1) = [buf b] := rfl
      rw [hwindow]
      simp only [storeBytes, writeByte_some hidx hens, hone u (buf b) b rfl]
  | succ w ih =>
      have hlast : window buf b (w + 1 + 1) = window buf b (w + 1) ++ [buf (b + (w + 1))] := by
        rw [← window_append buf b (w + 1) 1]
        rfl
      have hdesc : (putBytes u k buf b (w + 1)).openFiles k =
          { s.openFiles k with offset := (s.openFiles k).offset + (w + 1) } := by
        rw [putBytes_openFiles_self, hopen]
      have hdiv : ((s.openFiles k).offset + (w + 1)) / 4096 = (s.openFiles k).offset / 4096 := by omega
      have hnext : writeByte (putBytes u k buf b (w + 1)) k (buf (b + (w + 1))) =
          some (putBytes (putBytes u k buf b (w + 1)) k (fun _ => buf (b + (w + 1))) 0 1) := by
        refine writeByte_some ?_ (ensureBlock_present ?_) _
        · rw [hdesc]
          dsimp only
          rw [hdiv]
          exact hidx
        · rw [hdesc, putBytes_blocks]
          dsimp only
          rw [hdiv]
          exact hpresent
      rw [hlast, storeBytes_append, ih (by omega)]
      simp only [storeBytes, hnext]
      rw [putBytes_putBytes (by rw [hopen]; omega) (fun i hi => by rw [show i = 0 by omega]; rfl)]

/-- The write loop stores the bytes of the buffer one after another. -/
theorem writeLoop_eq (s : State) (k : Nat) (buf : Nat → UInt8) (count : Nat) :
    storeBytes k s (window buf 0 count) =
      ((writeLoop k buf count ⟨s, 0⟩).fs, (writeLoop k buf count ⟨s, 0⟩).bytesWritten) := by
  have hinv : (writeLoop k buf count ⟨s, 0⟩).bytesWritten ≤ count ∧
      storeBytes k s (window buf 0 (writeLoop k buf count ⟨s, 0⟩).bytesWritten) =
        ((writeLoop k buf count ⟨s, 0⟩).fs, (writeLoop k buf count ⟨s, 0⟩).bytesWritten) := by
    refine loopWhile_invariant
      (fun x : Writing => x.bytesWritten ≤ count ∧
        storeBytes k s (window buf 0 x.bytesWritten) = (x.fs, x.bytesWritten))
      (fun x y hx hmore hpass => ?_) ⟨Nat.zero_le _, rfl⟩
    obtain ⟨_, hstored⟩ := hx
    have hmore : x.bytesWritten < count := of_decide_eq_true hmore
    have hle := (writePass_moves hmore hpass).2
    obtain ⟨hidx, u, hens, rfl⟩ := writePass_some hpass
    refine ⟨hle, ?_⟩
    dsimp only
    generalize hw : passSize ((x.fs.openFiles k).offset % 4096) (count - x.bytesWritten) = w
    have hroom : w ≤ 4096 - (x.fs.openFiles k).offset % 4096 := hw ▸ (passSize_le _ _).2
    have hpos : 0 < w := hw ▸ passSize_pos (Nat.mod_lt _ (by decide)) (by omega)
    obtain ⟨v, rfl⟩ := Nat.exists_eq_succ_of_ne_zero (Nat.ne_of_gt hpos)
    have happend := window_append buf 0 x.bytesWritten (v + 1)
    rw [Nat.zero_add] at happend
    rw [← happend, storeBytes_append, hstored]
    dsimp only
    rw [storeBytes_pass hidx hens x.bytesWritten v hroom]
  have hends := (writeLoop_ends k count buf ⟨s, 0⟩).1
  generalize writeLoop k buf count ⟨s, 0⟩ = x at hinv hends
  obtain ⟨hle, hstored⟩ := hinv
  rcases hends with hdone | hnone
  · rw [← Nat.le_antisymm hle (Nat.le_of_not_lt hdone)]
    exact hstored
  · -- the loop has stopped where the next byte finds no block
    have hblocked : writeByte x.fs k 0 = none := by
      simp only [writePass] at hnone
      rw [writeByte]
      split at hnone
      · rename_i hidx
        exact if_pos hidx
      · rename_i hidx
        rw [if_neg hidx, Option.map_eq_none_iff]
        exact Option.map_eq_none_iff.mp hnone
    have happend := window_append buf 0 x.bytesWritten (count - x.bytesWritten)
    rw [Nat.add_sub_cancel' hle] at happend
    rw [← happend, storeBytes_append, hstored, storeBytes_blocked hblocked]
    rfl

end Bytes

/-- The bytes that a read has delivered. -/
def delivered (r : Reply) : List UInt8 :=
  match r.buffer with
  | some buf => window buf 0 r.ret.toNat
  | none => []

/-- One write of `as ++ bs` is a write of `as` and a write of `bs`, wherever the strings lie
in memory. -/
def WritesJoin (s : State) (k : Nat) (as bs : List UInt8) : Prop :=
  ∀ r r' r'' : Nat → UInt8,
    fsWrite s k (some (overlay (as ++ bs) r)) (UInt32.ofNat (as ++ bs).length) =
      ((fsWrite s k (some (overlay as r')) (UInt32.ofNat as.length)).1 +
        (fsWrite (fsWrite s k (some (overlay as r')) (UInt32.ofNat as.length)).2 k (some (overlay bs r''))
          (UInt32.ofNat bs.length)).1,
      (fsWrite (fsWrite s k (some (overlay as r')) (UInt32.ofNat as.length)).2 k (some (overlay bs r''))
        (UInt32.ofNat bs.length)).2)

/-- One read of `m + n` bytes is a read of `m` and a read of `n`. -/
def ReadsJoin (s : State) (k : Nat) (m n : UInt32) : Prop :=
  ∀ buf buf' buf'' : Nat → UInt8,
    (fsRead s k (some buf) (m + n)).2 = (fsRead (fsRead s k (some buf') m).2 k (some buf'') n).2 ∧
    (fsRead s k (some buf) (m + n)).1.ret =
      (fsRead s k (some buf') m).1.ret + (fsRead (fsRead s k (some buf') m).2 k (some buf'') n).1.ret ∧
    delivered (fsRead s k (some buf) (m + n)).1 =
      delivered (fsRead s k (some buf') m).1 ++ delivered (fsRead (fsRead s k (some buf') m).2 k (some buf'') n).1

section Transfers

variable {s : State} {k : Nat}

/-- `fs_write` stores the bytes of its string. -/
theorem fsWrite_eq (hk : k < 16) (hvalid : (s.openFiles k).valid = true) (bs : List UInt8)
    (hlength : bs.length < 4294967296) (r : Nat → UInt8) :
    fsWrite s k (some (overlay bs r)) (UInt32.ofNat bs.length) = (((storeBytes k s bs).2 : Int), (storeBytes k s bs).1) := by
  have hgood : badFd s (k : Int) = false := badFd_eq_false.mpr ⟨k, hk, rfl, hvalid⟩
  have hcount : (UInt32.ofNat bs.length).toNat = bs.length := UInt32.toNat_ofNat_of_lt' hlength
  have hloop := writeLoop_eq s k (overlay bs r) bs.length
  rw [window_overlay] at hloop
  simp only [fsWrite, hgood, Bool.false_eq_true, if_false, Int.toNat_natCast]
  split
  · rename_i hzero
    rw [hzero, UInt32.toNat_zero] at hcount
    obtain rfl := List.eq_nil_of_length_eq_zero hcount.symm
    rfl
  · rw [hcount, hloop]

theorem writes_join (hk : k < 16) (hvalid : (s.openFiles k).valid = true) {as bs : List UInt8}
    (hlength : as.length + bs.length < 4294967296) : WritesJoin s k as bs := by
  intro r r' r''
  have hstill : ((fsWrite s k (some (overlay as r')) (UInt32.ofNat as.length)).2.openFiles k).valid = true := by
    rw [((fsWrite_frame s k (some (overlay as r')) (UInt32.ofNat as.length)).2 k).2]
    exact hvalid
  have hjoint := fsWrite_eq hk hvalid (as ++ bs) (by rw [List.length_append]; exact hlength) r
  have hfirst := fsWrite_eq hk hvalid as (by omega) r'
  rw [hfirst] at hstill
  have hsecond := fsWrite_eq hk hstill bs (by omega) r''
  rw [hjoint, hfirst, hsecond, storeBytes_append]
  exact Prod.ext (Int.natCast_add _ _) rfl

/-- What a read does when the sum of offset and count does not wrap: it ends with the
count, with the file, or where a block is missing. -/
structure ReadTo (s : State) (k count : Nat) (r : Nat) : Prop where
  le : r ≤ count
  inside : r ≤ (s.inodes (s.openFiles k).inode).size - (s.openFiles k).offset
  present : ∀ i < r, HasBlock s (s.openFiles k).inode ((s.openFiles k).offset + i)
  stop : r = count ∨ r = (s.inodes (s.openFiles k).inode).size - (s.openFiles k).offset ∨
    ¬ HasBlock s (s.openFiles k).inode ((s.openFiles k).offset + r)

theorem ReadTo.unique {count r r' : Nat} (h : ReadTo s k count r) (h' : ReadTo s k count r') : r = r' := by
  by_contra hne
  rcases Nat.lt_or_gt_of_ne hne with hlt | hgt
  · have hle := h'.le
    have hinside := h'.inside
    rcases h.stop with hdone | hend | hblocked
    · omega
    · omega
    · exact hblocked (h'.present r hlt)
  · have hle := h.le
    have hinside := h.inside
    rcases h'.stop with hdone | hend | hblocked
    · omega
    · omega
    · exact hblocked (h.present r' hgt)

/-- `fs_read` with a buffer. -/
theorem fsRead_to (hk : k < 16) (hvalid : (s.openFiles k).valid = true) (count : UInt32)
    (hword : (s.openFiles k).offset + count.toNat < 4294967296) (buf : Nat → UInt8) :
    ∃ r buf', ReadTo s k count.toNat r ∧
      fsRead s k (some buf) count =
        (⟨r, some buf'⟩, setDesc s k { s.openFiles k with offset := (s.openFiles k).offset + r }) ∧
      ∀ i < r, contentByte s (s.openFiles k).inode ((s.openFiles k).offset + i) = some (buf' i) := by
  have hread := fsRead_eq hk hvalid buf count
  split at hread
  · rename_i hnothing
    refine ⟨0, buf, ⟨Nat.zero_le _, Nat.zero_le _, fun i hi => absurd hi (Nat.not_lt_zero i), ?_⟩, ?_,
      fun i hi => absurd hi (Nat.not_lt_zero i)⟩
    · rcases hnothing with hzero | hend
      · exact Or.inl (by rw [hzero, UInt32.toNat_zero])
      · exact Or.inr (Or.inl (by omega))
    · rw [hread, Nat.add_zero]
      exact Prod.ext rfl (setDesc_same s k).symm
  · rename_i hneither
    rw [not_or, Nat.not_le] at hneither
    have hcount : readCount (s.openFiles k) (s.inodes (s.openFiles k).inode) count.toNat =
        min count.toNat ((s.inodes (s.openFiles k).inode).size - (s.openFiles k).offset) :=
      (readCount_le hword).resolve_right (Nat.not_le_of_lt hneither.2)
    have hfetched := readLoop_fetched s k
      (readCount (s.openFiles k) (s.inodes (s.openFiles k).inode) count.toNat) buf
    generalize readLoop k (readCount (s.openFiles k) (s.inodes (s.openFiles k).inode) count.toNat) ⟨s, 0, buf⟩ = x
      at hread hfetched
    rw [hcount] at hfetched
    have hle := hfetched.le
    refine ⟨x.bytesRead, x.buf, ⟨by omega, by omega, hfetched.present, ?_⟩, ?_, hfetched.bytes⟩
    · rcases hfetched.stop with hdone | hblocked
      · omega
      · exact Or.inr (Or.inr hblocked)
    · rw [hread, hfetched.fs]

/-- The second read goes on where the first has ended. -/
theorem ReadTo.join {m n r r' : Nat} (h : ReadTo s k m r)
    (h' : ReadTo (setDesc s k { s.openFiles k with offset := (s.openFiles k).offset + r }) k n r') :
    ReadTo s k (m + n) (r + r') := by
  obtain ⟨hle, hinside, hpresent, hstop⟩ := h
  obtain ⟨hle', hinside', hpresent', hstop'⟩ := h'
  simp only [setDesc_self] at hinside' hpresent' hstop'
  have hinside' : r' ≤ (s.inodes (s.openFiles k).inode).size - ((s.openFiles k).offset + r) := hinside'
  have hpresent' : ∀ i < r', HasBlock s (s.openFiles k).inode ((s.openFiles k).offset + r + i) := hpresent'
  have hstop' : r' = n ∨ r' = (s.inodes (s.openFiles k).inode).size - ((s.openFiles k).offset + r) ∨
      ¬ HasBlock s (s.openFiles k).inode ((s.openFiles k).offset + r + r') := hstop'
  refine ⟨by omega, by omega, fun i hi => ?_, ?_⟩
  · by_cases hfirst : i < r
    · exact hpresent i hfirst
    · have := hpresent' (i - r) (by omega)
      rwa [show (s.openFiles k).offset + r + (i - r) = (s.openFiles k).offset + i by omega] at this
  · -- a first read that met a missing block leaves nothing for the second
    rcases hstop with hdone | hend | hblocked
    · rcases hstop' with hdone' | hend' | hblocked'
      · exact Or.inl (by omega)
      · exact Or.inr (Or.inl (by omega))
      · exact Or.inr (Or.inr (by rw [← Nat.add_assoc]; exact hblocked'))
    · exact Or.inr (Or.inl (by omega))
    · have hnone : r' = 0 := by
        by_contra hne
        have := hpresent' 0 (Nat.pos_of_ne_zero hne)
        rw [Nat.add_zero] at this
        exact hblocked this
      exact Or.inr (Or.inr (by rw [hnone, Nat.add_zero]; exact hblocked))

theorem reads_join (hk : k < 16) (hvalid : (s.openFiles k).valid = true) {m n : UInt32}
    (hword : (s.openFiles k).offset + m.toNat + n.toNat < 4294967296) : ReadsJoin s k m n := by
  intro buf buf' buf''
  have hsum : (m + n).toNat = m.toNat + n.toNat := by
    rw [UInt32.toNat_add]
    exact Nat.mod_eq_of_lt (by omega)
  obtain ⟨r, b, hr, hread, hbytes⟩ := fsRead_to hk hvalid (m + n) (by rw [hsum]; omega) buf
  obtain ⟨r', b', hr', hread', hbytes'⟩ := fsRead_to hk hvalid m (by omega) buf'
  have hvalid' : ((setDesc s k { s.openFiles k with offset := (s.openFiles k).offset + r' }).openFiles k).valid = true := by
    rw [setDesc_self]
    exact hvalid
  have hword' : ((setDesc s k { s.openFiles k with offset := (s.openFiles k).offset + r' }).openFiles k).offset +
      n.toNat < 4294967296 := by
    have := hr'.le
    rw [setDesc_self]
    dsimp only
    omega
  obtain ⟨r'', b'', hr'', hread'', hbytes''⟩ := fsRead_to hk hvalid' n hword' buf''
  rw [hsum] at hr
  obtain rfl : r = r' + r'' := hr.unique (hr'.join hr'')
  rw [hread, hread']
  dsimp only
  rw [hread'']
  refine ⟨?_, Int.natCast_add _ _, ?_⟩
  · rw [setDesc_setDesc, setDesc_self]
    simp only [Nat.add_assoc]
  · simp only [delivered, Int.toNat_natCast]
    refine List.ext_getElem? (fun i => ?_)
    rw [List.getElem?_append, length_window, getElem?_window, getElem?_window, getElem?_window]
    simp only [Nat.zero_add]
    by_cases hfirst : i < r'
    · rw [if_pos (by omega), if_pos hfirst, if_pos hfirst]
      exact (hbytes i (by omega)).symm.trans (hbytes' i hfirst)
    · rw [if_neg hfirst]
      by_cases hsecond : i < r' + r''
      · have hbyte := hbytes'' (i - r') (by omega)
        rw [setDesc_self] at hbyte
        have hbyte : contentByte s (s.openFiles k).inode ((s.openFiles k).offset + r' + (i - r')) = some (b'' (i - r')) :=
          hbyte
        rw [show (s.openFiles k).offset + r' + (i - r') = (s.openFiles k).offset + i by omega] at hbyte
        rw [if_pos hsecond, if_pos (by omega)]
        exact (hbytes i hsecond).symm.trans hbyte
      · rw [if_neg hsecond, if_neg (by omega)]

end Transfers

/-- In every state, one transfer through a valid descriptor is any two that make it up. -/
theorem transfers_join (s : State) {k : Nat} (hk : k < 16) (hvalid : (s.openFiles k).valid = true) :
    (∀ as bs : List UInt8, as.length + bs.length < 4294967296 → WritesJoin s k as bs) ∧
    ∀ m n : UInt32, (s.openFiles k).offset + m.toNat + n.toNat < 4294967296 → ReadsJoin s k m n :=
  ⟨fun _ _ hlength => writes_join hk hvalid hlength, fun _ _ hword => reads_join hk hvalid hword⟩

theorem transfers_join_sample :
    (∀ as bs : List UInt8, as.length + bs.length < 4294967296 →
      WritesJoin (afterCalls (fsInit blankState) [.openFile (some nameA) 1]) 0 as bs) ∧
    ∀ m n : UInt32, ((afterCalls (fsInit blankState) [.openFile (some nameA) 1]).openFiles 0).offset + m.toNat +
      n.toNat < 4294967296 → ReadsJoin (afterCalls (fsInit blankState) [.openFile (some nameA) 1]) 0 m n :=
  transfers_join _ (by decide) (by decide +kernel)

end SengKernel.Fs
