import SengKernel.LoopBasics
import SengKernel.BitmapBasics
import SengKernel.MachineWords

/- kernel/pmm.c: the bitmap allocator of 4 KB page frames. Bit set: used or
   reserved; bit clear: free. -/
namespace SengKernel.Pmm
open BoundedLoop MachineWord

@[simp] abbrev pmmFrameSize : Nat := 4096
@[simp] abbrev pmmMaxFrames : Nat := 32768
@[simp] abbrev pmmBitmapSize : Nat := pmmMaxFrames / 8

/-- One entry of the BIOS memory map at 0x5000; the ACPI word is never read. -/
structure E820Entry where
  base : UInt64
  length : UInt64
  type : UInt32
  deriving DecidableEq, Repr

/-- The three statics of pmm.c. -/
structure State where
  bitmap : Nat → UInt8
  totalFramesCount : Nat
  usedFramesCount : Nat

def bitmapSet (p : State) (frame : Nat) : State := { p with bitmap := ByteBitmap.set p.bitmap frame }
def bitmapClear (p : State) (frame : Nat) : State := { p with bitmap := ByteBitmap.clear p.bitmap frame }
def bitmapTest (p : State) (frame : Nat) : Bool := ByteBitmap.test p.bitmap frame

/-- The body of the inner loop of `pmm_init`: a frame counts once, however many
entries cover it. -/
def freeUsableFrame (frame : Nat) (p : State) : State :=
  if bitmapTest p frame then
    { bitmapClear p frame with totalFramesCount := inc32 p.totalFramesCount }
  else p

/-- `first_frame` of an entry, cut to 32 bits as the cast does. -/
def firstFrame (e : E820Entry) : Nat := (e.base.toNat + pmmFrameSize - 1) / pmmFrameSize % wordSize

/-- `end` after its clip at 4 GiB; `base + length` is a 64-bit sum and may wrap. -/
def regionEnd (e : E820Entry) : Nat :=
  if (e.base + e.length).toNat > 0x100000000 then 0x100000000 else (e.base + e.length).toNat

/-- `last_frame` after its clip at 128 MiB. -/
def lastFrame (e : E820Entry) : Nat :=
  if regionEnd e / pmmFrameSize % wordSize > pmmMaxFrames then pmmMaxFrames
  else regionEnd e / pmmFrameSize % wordSize

/-- One pass of the E820 loop. -/
def freeUsableRegion (p : State) (e : E820Entry) : State :=
  if e.type ≠ 1 then p
  else if e.base.toNat ≥ 0x100000000 then p
  else forRange freeUsableFrame (firstFrame e) (lastFrame e - firstFrame e) p

/-- The body of the loop that takes the first megabyte back. -/
def reserveLowFrame (frame : Nat) (p : State) : State :=
  if bitmapTest p frame then p
  else if p.totalFramesCount > 0 then
    { bitmapSet p frame with totalFramesCount := p.totalFramesCount - 1 }
  else bitmapSet p frame

/-- `pmm_init` over the entries the bootloader stored. -/
def pmmInit (e820 : List E820Entry) (p : State) : State :=
  let marked : State :=
    { bitmap := fun i => if i < pmmBitmapSize then 0xFF else p.bitmap i
      totalFramesCount := 0
      usedFramesCount := 0 }
  let freed := e820.foldl freeUsableRegion marked
  { forRange reserveLowFrame 0 (0x100000 / pmmFrameSize) freed with usedFramesCount := 0 }

/-- First fit from frame 0; address 0 says that no frame is left. -/
def pmmAllocFrame (p : State) : UInt32 × State :=
  match scan (fun frame => !bitmapTest p frame) 0 pmmMaxFrames with
  | some frame =>
      (UInt32.ofNat (frame * pmmFrameSize),
        { bitmapSet p frame with usedFramesCount := inc32 p.usedFramesCount })
  | none => (0, p)

def pmmFreeFrame (p : State) (paddr : UInt32) : State :=
  if paddr = 0 then p
  else if paddr.toNat % pmmFrameSize ≠ 0 then p
  else
    let frame := paddr.toNat / pmmFrameSize
    if frame ≥ pmmMaxFrames then p
    else if bitmapTest p frame then
      if p.usedFramesCount > 0 then
        { bitmapClear p frame with usedFramesCount := p.usedFramesCount - 1 }
      else bitmapClear p frame
    else p

/-- The frames a program may still get. -/
def freeFrames (p : State) : Finset Nat := ByteBitmap.clearBits p.bitmap pmmMaxFrames

@[simp] theorem mem_freeFrames {p : State} {f : Nat} :
    f ∈ freeFrames p ↔ f < 32768 ∧ bitmapTest p f = false := by
  simp [freeFrames, bitmapTest]

@[simp] theorem bitmapTest_set (p : State) (i j : Nat) :
    bitmapTest (bitmapSet p i) j = (decide (j = i) || bitmapTest p j) := ByteBitmap.test_set _ i j

@[simp] theorem bitmapTest_clear (p : State) (i j : Nat) :
    bitmapTest (bitmapClear p i) j = (decide (j ≠ i) && bitmapTest p j) := ByteBitmap.test_clear _ i j

end SengKernel.Pmm
