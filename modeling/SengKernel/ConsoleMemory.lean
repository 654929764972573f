import SengKernel.RamdiskBytes
import SengKernel.FsOwnership
import SengKernel.VgaText

/- The console and the RAM disk in one physical memory. The linker places `ramdisk`
   and the hardware fixes the VGA cells, so that the two may overlap. -/
namespace SengKernel.Fs
open BoundedLoop MachineWord Str Vga Transition

/-- Physical memory: the records of the file system, and every other byte. -/
structure Memory where
  fs : State
  bytes : Nat → UInt8

/-- The record that holds a byte when `ramdisk` starts at `r`. -/
def recordAt (r a : Nat) : Option Place := if r ≤ a ∧ a < r + fsRamdiskSize then place (a - r) else none

def peek (r : Nat) (m : Memory) (a : Nat) : UInt8 :=
  match recordAt r a with
  | some p => getByte m.fs p
  | none => m.bytes a

def poke (r : Nat) (m : Memory) (a : Nat) (v : UInt8) : Memory :=
  match recordAt r a with
  | some p => { m with fs := setByte m.fs v p }
  | none => { m with bytes := Function.update m.bytes a v }

@[simp] abbrev vgaAddr : Nat := 0xB8000

/-- The address after the last of the 2000 cells. -/
@[simp] abbrev vgaEnd : Nat := 0xB8FA0

section Bytes

variable {r : Nat}

theorem recordAt_inj {a b : Nat} {p : Place} (ha : recordAt r a = some p) (hb : recordAt r b = some p) : a = b := by
  unfold recordAt at ha hb
  split at ha
  · split at hb
    · have := offset_of_place ha
      have := offset_of_place hb
      omega
    · cases hb
  · cases ha

theorem name_of_recordAt {a e i : Nat} (h : recordAt r a = some (.name e i)) : i < 28 := by
  unfold recordAt at h
  split at h
  · exact name_of_place h
  · cases h

/-- Memory is what was stored last. -/
theorem peek_poke (m : Memory) (a b : Nat) (v : UInt8) :
    peek r (poke r m a v) b = if b = a then v else peek r m b := by
  unfold peek poke
  cases hb : recordAt r b with
  | none =>
      cases ha : recordAt r a with
      | none => exact Function.update_apply ..
      | some p =>
          have hab : b ≠ a := by
            rintro rfl
            cases hb.symm.trans ha
          rw [if_neg hab]
  | some q =>
      cases ha : recordAt r a with
      | none =>
          have hab : b ≠ a := by
            rintro rfl
            cases ha.symm.trans hb
          rw [if_neg hab]
      | some p =>
          dsimp only
          rw [getByte_setByte _ _ _ (fun e i hq => name_of_recordAt (hq ▸ hb))]
          by_cases hab : b = a
          · subst hab
            rw [if_pos rfl, if_pos (Option.some.inj (hb.symm.trans ha))]
          · have hqp : q ≠ p := by
              rintro rfl
              exact hab (recordAt_inj hb ha)
            rw [if_neg hab, if_neg hqp]

end Bytes

/-- The VGA cells in physical memory. -/
def cells (r : Nat) : CellMemory Memory where
  read m k := ⟨peek r m (vgaAddr + 2 * k), peek r m (vgaAddr + 2 * k + 1)⟩
  write m k c := poke r (poke r m (vgaAddr + 2 * k) c.char) (vgaAddr + 2 * k + 1) c.attr
  read_write m k c j := by
    simp only [peek_poke]
    by_cases hj : j = k
    · subst hj
      rw [if_neg (by omega), if_pos rfl, if_pos rfl, if_pos rfl]
    · rw [if_neg (by omega), if_neg (by omega), if_neg (by omega), if_neg (by omega), if_neg hj]

abbrev Machine : Type := Screen Memory

inductive Act where
  | putchar (c : UInt8)
  | puts (str : Option (List UInt8))
  | clear (bg : VgaColor)
  | file (c : Call)

/-- The numbers that the calls use as indices lie in their tables. Past that the file
system would leave its records, which the model of its calls does not follow. -/
structure Intact (s : State) : Prop where
  blocks : ∀ n < 1024, ∀ j < 8, (s.inodes n).blocks j ≠ 0 → 36 ≤ (s.inodes n).blocks j ∧ (s.inodes n).blocks j < 256
  entries : ∀ i < 128, (s.directory i).inode < 1024
  descs : ∀ k < 16, (s.openFiles k).valid = true → (s.openFiles k).inode < 1024

/-- One call of the console or of the file system. -/
inductive MachineStep (r : Nat) (m : Machine) : Act × Option Reply → Machine → Prop
  | putchar (c : UInt8) : MachineStep r m (.putchar c, none) (vgaPutchar (cells r) m c)
  | puts (str : Option (List UInt8)) : MachineStep r m (.puts str, none) (vgaPuts (cells r) m str)
  | clear (bg : VgaColor) : MachineStep r m (.clear bg, none) (vgaClear (cells r) m bg)
  | file {c : Call} {reply : Reply} {s : State} (intact : Intact m.memory.fs) (step : Step m.memory.fs (c, reply) s) :
      MachineStep r m (.file c, some reply) { m with memory := { m.memory with fs := s } }

/-- After `fs_init`, with whatever else is in memory and on the screen. -/
def BootedAt (m : Machine) : Prop := OnScreen m ∧ ∃ s, m.memory.fs = fsInit s

/-- The calls of the file system in a history. -/
def fileLabels (labels : List (Act × Option Reply)) : List (Call × Reply) :=
  labels.filterMap (fun l => match l with
    | (.file c, some reply) => some (c, reply)
    | _ => none)

def isFile : Act → Bool
  | .file _ => true
  | _ => false

/-- Console output never changes the file system, and files never change the screen. -/
structure Undisturbed (r : Nat) : Prop where
  ramdisk : ∀ {boot m t : Machine} {labels l}, BootedAt boot → Run (MachineStep r) boot labels m → MachineStep r m l t →
    isFile l.1 = false → ∀ o < fsRamdiskSize, peek r t.memory (r + o) = peek r m.memory (r + o)
  reads : ∀ {boot m : Machine} {labels}, BootedAt boot → Run (MachineStep r) boot labels m →
    Run Step boot.memory.fs (fileLabels labels) m.memory.fs
  screen : ∀ {boot m t : Machine} {labels l}, BootedAt boot → Run (MachineStep r) boot labels m → MachineStep r m l t →
    isFile l.1 = true → ∀ k < 2000, (cells r).read t.memory k = (cells r).read m.memory k

section Steps

variable {r : Nat} {m t : Machine} {labels : List (Act × Option Reply)} {l : Act × Option Reply}

/-- What the console does is stores to cells, and the cursor stays on the screen. -/
theorem MachineStep.console (step : MachineStep r m l t) (hon : OnScreen m) (hl : isFile l.1 = false) :
    Reachable (Paint (cells r)) m.memory t.memory ∧ OnScreen t := by
  cases step with
  | putchar c => exact hon.vgaPutchar c
  | puts str => exact hon.vgaPuts str
  | clear bg => exact ⟨painted_vgaClear m bg, onScreen_vgaClear m bg⟩
  | file intact step => cases hl

theorem MachineStep.onScreen (step : MachineStep r m l t) (hon : OnScreen m) : OnScreen t := by
  cases hl : isFile l.1 with
  | false => exact (step.console hon hl).2
  | true =>
      cases step with
      | file intact step => exact ⟨hon.row, hon.col⟩
      | _ => cases hl

theorem onScreen_run (run : Run (MachineStep r) m labels t) (hon : OnScreen m) : OnScreen t :=
  run.invariant (fun _ _ _ hon step => step.onScreen hon) hon

end Steps

section Apart

variable {r : Nat} {m t : Machine} {labels : List (Act × Option Reply)} {l : Act × Option Reply}

theorem recordAt_none {a : Nat} (h : a < r) : recordAt r a = none := if_neg (fun hin => Nat.not_le_of_lt h hin.1)

/-- A store below the RAM disk is no store to it. -/
theorem poke_below {m : Memory} {a : Nat} (h : a < r) (v : UInt8) :
    (poke r m a v).fs = m.fs ∧ ∀ o, peek r (poke r m a v) (r + o) = peek r m (r + o) := by
  refine ⟨?_, fun o => ?_⟩
  · rw [poke, recordAt_none h]
  · rw [peek_poke, if_neg (by omega)]

theorem cell_below (h : vgaEnd ≤ r) {k : Nat} (hk : k < 2000) : vgaAddr + 2 * k < r ∧ vgaAddr + 2 * k + 1 < r := by
  simp only [vgaEnd] at h
  simp only [vgaAddr]
  omega

theorem painted_below (h : vgaEnd ≤ r) {mem mem' : Memory} (hpaint : Reachable (Paint (cells r)) mem mem') :
    mem'.fs = mem.fs ∧ ∀ o, peek r mem' (r + o) = peek r mem (r + o) := by
  obtain ⟨stores, run⟩ := hpaint
  refine run.invariant (I := fun x => x.fs = mem.fs ∧ ∀ o, peek r x (r + o) = peek r mem (r + o)) ?_ ⟨rfl, fun _ => rfl⟩
  rintro x ⟨k, c⟩ y ⟨hfs, hbytes⟩ ⟨hk, rfl⟩
  have hk : k < 2000 := hk
  obtain ⟨hchar, hattr⟩ := cell_below h hk
  obtain ⟨hfs1, hbytes1⟩ := poke_below (m := x) hchar c.char
  obtain ⟨hfs2, hbytes2⟩ := poke_below (m := poke r x (vgaAddr + 2 * k) c.char) hattr c.attr
  exact ⟨hfs2.trans (hfs1.trans hfs), fun o => (hbytes2 o).trans ((hbytes1 o).trans (hbytes o))⟩

/-- The file system of a history without overlap has seen its own calls only. -/
theorem run_file (h : vgaEnd ≤ r) (run : Run (MachineStep r) m labels t) (hon : OnScreen m) :
    Run Step m.memory.fs (fileLabels labels) t.memory.fs := by
  induction run with
  | nil => exact .nil _
  | @cons m u t l labels step rest ih =>
      have hrest := ih (step.onScreen hon)
      cases hl : isFile l.1 with
      | false =>
          have hsame := (painted_below h (step.console hon hl).1).1
          rw [hsame] at hrest
          obtain ⟨a, reply⟩ := l
          cases a with
          | file c => cases hl
          | _ => exact hrest
      | true =>
          cases step with
          | file intact step => exact .cons step hrest
          | _ => cases hl

end Apart

/-- The machine after `fs_init` with an empty memory otherwise. -/
def bootMachine : Machine := { memory := ⟨fsInit blankState, fun _ => 0⟩, cursorRow := 0, cursorCol := 0, curAttr := 7 }

theorem bootMachine_booted : BootedAt bootMachine := ⟨⟨Nat.zero_lt_succ 24, Nat.zero_lt_succ 79⟩, blankState, rfl⟩

/-- Printing and files leave each other alone exactly where the RAM disk starts after
the VGA cells. -/
theorem undisturbed_iff (r : Nat) : Undisturbed r ↔ vgaEnd ≤ r := by
  constructor
  · intro h
    by_contra hover
    have hover : r < 0xB8FA0 := Nat.lt_of_not_le hover
    -- the attribute of the last cell lies in the RAM disk, and two colours leave two bytes there
    obtain ⟨o, ho⟩ : ∃ o, r + o = vgaAddr + 2 * 1999 + 1 :=
      ⟨0xB8F9F - r, by simp only [vgaAddr]; omega⟩
    have hin : o < 1024 * 1024 := by
      simp only [vgaAddr] at ho
      omega
    have hsame := h.ramdisk bootMachine_booted (.cons (.clear .black) (.nil _)) (.clear .blue) rfl o hin
    have hattr : ∀ (m : Machine) (bg : VgaColor),
        peek r (vgaClear (cells r) m bg).memory (r + o) = vgaAttr .lightGrey bg := by
      intro m bg
      rw [ho]
      exact congrArg Cell.attr (read_vgaClear (M := cells r) m bg (k := 1999) (by omega))
    rw [hattr, hattr] at hsame
    exact absurd hsame (by decide)
  · intro h
    refine ⟨fun boot run step hl o _ => ?_, fun boot run => run_file h run boot.1, fun boot run step hl k hk => ?_⟩
    · exact (painted_below h (step.console (onScreen_run run boot.1) hl).1).2 o
    · obtain ⟨hchar, hattr⟩ := cell_below h hk
      cases step with
      | file intact step =>
          simp only [cells, peek, recordAt_none hchar, recordAt_none hattr]
      | _ => cases hl

theorem Owned.intact {s : State} (h : Owned s) : Intact s := by
  refine ⟨h.range, fun i hi => ?_, h.descRange⟩
  by_cases hdead : (s.directory i).inode = 0
  · rw [hdead]
    decide
  · exact h.inodeRange i ⟨hi, hdead⟩

/-- Where nothing overlaps, the records stay intact and every call is possible. -/
theorem intact_run {r : Nat} (h : vgaEnd ≤ r) {boot m : Machine} {labels : List (Act × Option Reply)}
    (booted : BootedAt boot) (run : Run (MachineStep r) boot labels m) : Intact m.memory.fs := by
  obtain ⟨hon, s, hs⟩ := booted
  have hrun := run_file h run hon
  rw [hs] at hrun
  exact (hrun.invariant (I := Owned) (fun _ _ _ howned step => owned_step howned step) (owned_init s)).intact

/-- A start of the RAM disk that puts its first data block over the first cells. -/
def overlapStart : Nat := 0x94000

def withFs (m : Machine) (s : State) : Machine := { m with memory := { m.memory with fs := s } }

def openA : Call := .openFile (some nameA) 1

def writeLetter : Call := .write 0 (some fun _ => 65) 1

def openedA : Machine := withFs bootMachine (call bootMachine.memory.fs openA).2

def writtenA : Machine := withFs openedA (call openedA.memory.fs writeLetter).2

def printedOver : Machine := vgaPutchar (cells overlapStart) writtenA 66

/-- What a new read of one byte from the file `a` delivers. -/
def firstByte (m : Machine) : Option UInt8 :=
  (fsRead (fsOpen m.memory.fs (some nameA) 0).2 1 (some fun _ => 0) 1).1.buffer.map (fun buf => buf 0)

theorem run_writtenA : Run (MachineStep overlapStart) bootMachine
    [(.file openA, some (call bootMachine.memory.fs openA).1),
      (.file writeLetter, some (call openedA.memory.fs writeLetter).1)] writtenA := by
  have step : Step (fsInit blankState) (openA, (call (fsInit blankState) openA).1) openedA.memory.fs := rfl
  exact .cons (.file (owned_init blankState).intact rfl)
    (.cons (.file (owned_step (owned_init blankState) step).intact rfl) (.nil _))

/-- The letter that the file was given is on the screen, and the letter printed over it
is what the file then holds. -/
theorem printing_changes_file :
    (0x10000 ≤ overlapStart ∧ overlapStart < 0xB8000) ∧
    (cells overlapStart).read writtenA.memory 0 = ⟨65, 0⟩ ∧ (cells overlapStart).read openedA.memory 0 = ⟨0, 0⟩ ∧
    firstByte writtenA = some 65 ∧ firstByte printedOver = some 66 ∧ ¬ Undisturbed overlapStart := by
  refine ⟨by decide, by decide +kernel, by decide +kernel, by decide +kernel, by decide +kernel, fun h => ?_⟩
  have hsame := h.ramdisk bootMachine_booted run_writtenA (.putchar 66) rfl 0x24000 (by decide)
  have hdiff : peek overlapStart printedOver.memory (overlapStart + 0x24000) ≠
      peek overlapStart writtenA.memory (overlapStart + 0x24000) := by decide +kernel
  exact hdiff hsame

end SengKernel.Fs
