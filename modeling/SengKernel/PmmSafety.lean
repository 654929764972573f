import SengKernel.PmmMap
import SengKernel.RunBasics

/- Sessions of the frame allocator: any order of allocations and frees with any
   32-bit argument. What is handed out is history, kept beside the state; the
   code itself cannot tell a reserved frame from an allocated one. -/
namespace SengKernel.Pmm
open BoundedLoop MachineWord Transition

inductive Call where
  | alloc
  | free (paddr : UInt32)
  deriving DecidableEq, Repr

/-- The allocator together with what its callers hold and have ever got. -/
structure Session where
  pmm : State
  handedOut : List UInt32
  returned : List UInt32

def boot (e820 : List E820Entry) (p : State) : Session := ⟨pmmInit e820 p, [], []⟩

def call (s : Session) : Call → Session
  | .alloc =>
      let addr := (pmmAllocFrame s.pmm).1
      if addr = 0 then { s with pmm := (pmmAllocFrame s.pmm).2 }
      else ⟨(pmmAllocFrame s.pmm).2, addr :: s.handedOut, addr :: s.returned⟩
  | .free paddr => ⟨pmmFreeFrame s.pmm paddr, s.handedOut.filter (fun a => a ≠ paddr), s.returned⟩

def Step (s : Session) (c : Call) (t : Session) : Prop := t = call s c

@[simp] theorem boot_pmm (e820 : List E820Entry) (p : State) : (boot e820 p).pmm = pmmInit e820 p := rfl

@[simp] theorem call_free_pmm (s : Session) (paddr : UInt32) :
    (call s (.free paddr)).pmm = pmmFreeFrame s.pmm paddr := rfl

theorem frame_toNat {f : Nat} (hf : f < 32768) : (UInt32.ofNat (f * pmmFrameSize)).toNat = 4096 * f := by
  rw [UInt32.toNat_ofNat', pmmFrameSize]
  omega

/-- Everything an allocation can do: the lowest free frame, or nothing. -/
theorem pmmAllocFrame_cases (p : State) :
    (∃ f ∈ freeFrames p, (∀ g ∈ freeFrames p, f ≤ g) ∧
      pmmAllocFrame p = (UInt32.ofNat (f * pmmFrameSize),
        { bitmapSet p f with usedFramesCount := inc32 p.usedFramesCount })) ∨
    (freeFrames p = ∅ ∧ pmmAllocFrame p = (0, p)) := by
  unfold pmmAllocFrame
  split
  · rename_i f hscan
    obtain ⟨_, hf, hclear, hbefore⟩ := scan_some hscan
    refine Or.inl ⟨f, mem_freeFrames.mpr ⟨by simpa using hf, by simpa using hclear⟩, ?_, rfl⟩
    intro g hg
    by_contra hlt
    have := hbefore g (Nat.zero_le g) (by omega)
    simp only [(mem_freeFrames.mp hg).2, Bool.not_false, Bool.true_eq_false] at this
  · rename_i hscan
    refine Or.inr ⟨?_, rfl⟩
    ext g
    simp only [mem_freeFrames, Finset.notMem_empty, iff_false, not_and]
    intro hg hclear
    have := scan_none hscan g (Nat.zero_le g) (by simpa using hg)
    simp only [hclear, Bool.not_false, Bool.true_eq_false] at this

/-- A set bit is cleared whoever owns the frame, and the counter goes down unless
it is zero. -/
theorem pmmFreeFrame_of_set {p : State} {paddr : UInt32} {f : Nat} (haddr : paddr.toNat = 4096 * f)
    (hpos : 0 < f) (hlt : f < 32768) (hset : bitmapTest p f = true) :
    pmmFreeFrame p paddr = { bitmapClear p f with usedFramesCount := p.usedFramesCount - 1 } := by
  have hzero : paddr ≠ 0 := by
    rintro rfl
    have : (0 : UInt32).toNat = 0 := rfl
    omega
  have haligned : ¬ paddr.toNat % pmmFrameSize ≠ 0 := by
    rw [pmmFrameSize]
    omega
  have hframe : paddr.toNat / pmmFrameSize = f := by
    rw [pmmFrameSize]
    omega
  have hrange : ¬ f ≥ pmmMaxFrames := Nat.not_le.mpr hlt
  simp only [pmmFreeFrame, hzero, haligned, hframe, hrange, hset, if_false, if_true]
  split
  · rfl
  · rename_i hused
    have : p.usedFramesCount - 1 = p.usedFramesCount := by omega
    rw [this]
    rfl

/-- Everything a free can do: the code's own checks reject the address, or the
bit of its frame is cleared. -/
theorem pmmFreeFrame_cases (p : State) (paddr : UInt32) :
    pmmFreeFrame p paddr = p ∨
    ∃ f, paddr.toNat = 4096 * f ∧ 0 < f ∧ f < 32768 ∧ f ∉ freeFrames p ∧
      pmmFreeFrame p paddr = { bitmapClear p f with usedFramesCount := p.usedFramesCount - 1 } := by
  by_cases hframe : ∃ f, paddr.toNat = 4096 * f ∧ 0 < f ∧ f < 32768 ∧ bitmapTest p f = true
  · obtain ⟨f, haddr, hpos, hlt, hset⟩ := hframe
    exact Or.inr ⟨f, haddr, hpos, hlt, by simp [hset], pmmFreeFrame_of_set haddr hpos hlt hset⟩
  · left
    unfold pmmFreeFrame
    split
    · rfl
    · rename_i hzero
      split
      · rfl
      · rename_i haligned
        simp only [pmmFrameSize, pmmMaxFrames] at haligned ⊢
        split
        · rfl
        · rename_i hrange
          split
          · rename_i hset
            have hpos : paddr.toNat ≠ 0 := fun h => hzero (UInt32.toNat_inj.mp h)
            exact (hframe ⟨paddr.toNat / 4096, by omega, by omega, by omega, hset⟩).elim
          · rfl

theorem freeFrames_usedFrames (p : State) (n : Nat) :
    freeFrames { p with usedFramesCount := n } = freeFrames p := rfl

/-- The free is rejected by the code's own checks, or it names a frame that the
memory map made allocatable. -/
def FreesAllocatable (e820 : List E820Entry) (s : Session) : Call → Prop
  | .alloc => True
  | .free paddr => paddr.toNat % 4096 = 0 → 0 < paddr.toNat → paddr.toNat / 4096 < 32768 →
      bitmapTest s.pmm (paddr.toNat / 4096) = true → Allocatable e820 (paddr.toNat / 4096)

/-- What callers rely on: an address just allocated is an allocatable frame that
nobody holds, and the counters describe the bitmap. -/
def FrameSafe (e820 : List E820Entry) (s : Session) : Prop :=
  s.pmm.totalFramesCount = s.pmm.usedFramesCount + (freeFrames s.pmm).card ∧
  ((pmmAllocFrame s.pmm).1 ≠ 0 → ∃ f, (pmmAllocFrame s.pmm).1.toNat = 4096 * f ∧
    Allocatable e820 f ∧ (pmmAllocFrame s.pmm).1 ∉ s.handedOut)

/-- The invariant behind `FrameSafe`: only allocatable frames are ever clear. -/
structure Sound (e820 : List E820Entry) (initial : State) (s : Session) : Prop where
  total : s.pmm.totalFramesCount = (freeFrames initial).card
  counted : s.pmm.totalFramesCount = s.pmm.usedFramesCount + (freeFrames s.pmm).card
  free : freeFrames s.pmm ⊆ freeFrames initial
  held : ∀ a ∈ s.handedOut, ∃ f, a.toNat = 4096 * f ∧ f ∈ freeFrames initial ∧ f ∉ freeFrames s.pmm
  returned : ∀ a ∈ s.returned, ∃ f, a.toNat = 4096 * f ∧ f ∈ freeFrames initial

theorem boot_sound (e820 : List E820Entry) (p : State) : Sound e820 (pmmInit e820 p) (boot e820 p) := by
  obtain ⟨hcount, hused, _⟩ := pmmInit_spec e820 p
  refine ⟨hcount, ?_, fun f hf => hf, ?_, ?_⟩
  · change (pmmInit e820 p).totalFramesCount =
      (pmmInit e820 p).usedFramesCount + (freeFrames (pmmInit e820 p)).card
    rw [hused, hcount, Nat.zero_add]
  · intro a ha
    cases ha
  · intro a ha
    cases ha

theorem sound_alloc {e820 : List E820Entry} {initial : State} {s : Session}
    (h : Sound e820 initial s) : Sound e820 initial (call s .alloc) := by
  rcases pmmAllocFrame_cases s.pmm with ⟨f, hf, _, hres⟩ | ⟨_, hres⟩
  · have hlt : f < 32768 := (mem_freeFrames.mp hf).1
    have hpos : 0 < (freeFrames s.pmm).card := Finset.card_pos.mpr ⟨f, hf⟩
    have htotal := freeFrames_card_le initial
    have hcounted := h.counted
    rw [h.total] at hcounted
    have hfree : freeFrames { bitmapSet s.pmm f with usedFramesCount := inc32 s.pmm.usedFramesCount } =
        (freeFrames s.pmm).erase f := (freeFrames_usedFrames _ _).trans (freeFrames_set s.pmm f)
    have hpmm : Sound e820 initial
        ⟨{ bitmapSet s.pmm f with usedFramesCount := inc32 s.pmm.usedFramesCount },
          s.handedOut, s.returned⟩ := by
      refine ⟨h.total, ?_, ?_, ?_, h.returned⟩
      · change s.pmm.totalFramesCount = inc32 s.pmm.usedFramesCount + _
        rw [hfree, Finset.card_erase_of_mem hf, inc32_of_lt (by omega), h.total]
        omega
      · rw [hfree]
        exact (Finset.erase_subset f _).trans h.free
      · intro a ha
        obtain ⟨g, hg, hinit, hset⟩ := h.held a ha
        refine ⟨g, hg, hinit, ?_⟩
        rw [hfree]
        exact fun hmem => hset (Finset.mem_of_mem_erase hmem)
    simp only [call, hres]
    split
    · exact hpmm
    · refine ⟨hpmm.total, hpmm.counted, hpmm.free, ?_, ?_⟩
      · intro a ha
        rcases List.mem_cons.mp ha with rfl | hold
        · refine ⟨f, frame_toNat hlt, h.free hf, ?_⟩
          rw [hfree]
          exact Finset.notMem_erase f _
        · exact hpmm.held a hold
      · intro a ha
        rcases List.mem_cons.mp ha with rfl | hold
        · exact ⟨f, frame_toNat hlt, h.free hf⟩
        · exact h.returned a hold
  · simpa only [call, hres, if_true] using h

theorem sound_free {e820 : List E820Entry} {p : State} {s : Session} {paddr : UInt32}
    (h : Sound e820 (pmmInit e820 p) s) (hok : FreesAllocatable e820 s (.free paddr)) :
    Sound e820 (pmmInit e820 p) (call s (.free paddr)) := by
  have hheld : ∀ a, a ∈ s.handedOut.filter (fun a => a ≠ paddr) → a ∈ s.handedOut ∧ a ≠ paddr := by
    intro a ha
    simpa using ha
  rcases pmmFreeFrame_cases s.pmm paddr with hres | ⟨f, haddr, hpos, hlt, hset, hres⟩
  · simp only [call, hres]
    exact ⟨h.total, h.counted, h.free, fun a ha => h.held a (hheld a ha).1, h.returned⟩
  · have hframe : paddr.toNat / 4096 = f := by omega
    have hbit : bitmapTest s.pmm f = true := by
      simpa only [mem_freeFrames, hlt, true_and, Bool.not_eq_false] using hset
    have hinit : f ∈ freeFrames (pmmInit e820 p) := by
      refine ((pmmInit_spec e820 p).2.2 f).mpr ?_
      rw [← hframe]
      exact hok (by omega) (by omega) (by omega) (by rw [hframe]; exact hbit)
    have hfree : freeFrames { bitmapClear s.pmm f with usedFramesCount := s.pmm.usedFramesCount - 1 } =
        insert f (freeFrames s.pmm) := (freeFrames_usedFrames _ _).trans (freeFrames_clear s.pmm hlt)
    have hsub : insert f (freeFrames s.pmm) ⊆ freeFrames (pmmInit e820 p) :=
      Finset.insert_subset hinit h.free
    -- the frame was missing from the free ones, so the counter is not zero
    have hused : 0 < s.pmm.usedFramesCount := by
      have hcard := Finset.card_le_card hsub
      rw [Finset.card_insert_of_notMem hset, ← h.total, h.counted] at hcard
      omega
    simp only [call, hres]
    refine ⟨h.total, ?_, ?_, ?_, h.returned⟩
    · change s.pmm.totalFramesCount = s.pmm.usedFramesCount - 1 + _
      rw [hfree, Finset.card_insert_of_notMem hset, h.counted]
      omega
    · rw [hfree]
      exact hsub
    · intro a ha
      obtain ⟨hold, hne⟩ := hheld a ha
      obtain ⟨g, hg, hginit, hgset⟩ := h.held a hold
      refine ⟨g, hg, hginit, ?_⟩
      rw [hfree, Finset.mem_insert]
      rintro (rfl | hmem)
      · exact hne (UInt32.toNat_inj.mp (by omega))
      · exact hgset hmem

theorem sound_step {e820 : List E820Entry} {p : State} {s t : Session} {c : Call}
    (h : Sound e820 (pmmInit e820 p) s) (step : When (FreesAllocatable e820) Step s c t) :
    Sound e820 (pmmInit e820 p) t := by
  obtain ⟨hok, rfl⟩ := step
  cases c with
  | alloc => exact sound_alloc h
  | free paddr => exact sound_free h hok

theorem run_sound {e820 : List E820Entry} {p : State} {s : Session} {calls : List Call}
    (run : Run (When (FreesAllocatable e820) Step) (boot e820 p) calls s) :
    Sound e820 (pmmInit e820 p) s :=
  run.invariant (fun _ _ _ h step => sound_step h step) (boot_sound e820 p)

theorem Sound.frameSafe {e820 : List E820Entry} {p : State} {s : Session}
    (h : Sound e820 (pmmInit e820 p) s) : FrameSafe e820 s := by
  refine ⟨h.counted, fun hne => ?_⟩
  rcases pmmAllocFrame_cases s.pmm with ⟨f, hf, _, hres⟩ | ⟨_, hres⟩
  · rw [hres]
    have hlt : f < 32768 := (mem_freeFrames.mp hf).1
    refine ⟨f, frame_toNat hlt, ((pmmInit_spec e820 p).2.2 f).mp (h.free hf), fun hmem => ?_⟩
    obtain ⟨g, hg, _, hset⟩ := h.held _ hmem
    rw [frame_toNat hlt] at hg
    have : f = g := by omega
    exact hset (this ▸ hf)
  · rw [hres] at hne
    exact (hne rfl).elim

/-- As long as no accepted free names a frame that `pmm_init` left reserved, the
allocator is safe in every state of every run. -/
theorem frame_safe_of_allocatable_frees (e820 : List E820Entry) (p : State) {calls : List Call}
    {s : Session} (run : Run (When (FreesAllocatable e820) Step) (boot e820 p) calls s) :
    FrameSafe e820 s := (run_sound run).frameSafe

/-- A 32 MiB machine as its firmware reports it. -/
def sampleMap : List E820Entry :=
  [⟨0x0, 0x9FC00, 1⟩, ⟨0x9FC00, 0x400, 2⟩, ⟨0xF0000, 0x10000, 2⟩, ⟨0x100000, 0x1EE0000, 1⟩,
    ⟨0x1FE0000, 0x20000, 2⟩, ⟨0xFFFC0000, 0x40000, 2⟩]

/-- The statics as the loader leaves them. -/
def blank : State := ⟨fun _ => 0, 0, 0⟩

theorem sampleMap_allocatable : Allocatable sampleMap 256 :=
  ⟨by decide, by decide, ⟨0x100000, 0x1EE0000, 1⟩, by decide, by decide⟩

/-- The first usable frame is taken and given back. -/
theorem frame_safe_of_allocatable_frees_sample :
    FrameSafe sampleMap (call (call (boot sampleMap blank) .alloc) (.free 0x100000)) :=
  have halloc : FreesAllocatable sampleMap (boot sampleMap blank) .alloc := trivial
  have hfree : FreesAllocatable sampleMap (call (boot sampleMap blank) .alloc) (.free 0x100000) :=
    fun _ _ _ _ => sampleMap_allocatable
  frame_safe_of_allocatable_frees sampleMap blank (.cons ⟨halloc, rfl⟩ (.cons ⟨hfree, rfl⟩ (.nil _)))

/-- A reserved frame that is freed is the next one allocated. -/
theorem alloc_after_reserved_free {p : State} (hlow : ∀ f < 256, bitmapTest p f = true) :
    (pmmAllocFrame (pmmFreeFrame p 0x1000)).1 = 0x1000 := by
  have hfreed : pmmFreeFrame p 0x1000 =
      { bitmapClear p 1 with usedFramesCount := p.usedFramesCount - 1 } :=
    pmmFreeFrame_of_set (f := 1) (by decide) (by decide) (by decide) (hlow 1 (by decide))
  have hfree : freeFrames (pmmFreeFrame p 0x1000) = insert 1 (freeFrames p) := by
    rw [hfreed, freeFrames_usedFrames, freeFrames_clear _ (by decide)]
  rcases pmmAllocFrame_cases (pmmFreeFrame p 0x1000) with ⟨f, hf, hleast, hres⟩ | ⟨hnone, _⟩
  · have hle := hleast 1 (by rw [hfree]; exact Finset.mem_insert_self _ _)
    have hzero : f ≠ 0 := by
      rintro rfl
      rw [hfree, Finset.mem_insert, mem_freeFrames, hlow 0 (by decide)] at hf
      exact absurd hf (by decide)
    have : f = 1 := by omega
    rw [hres, this]
    rfl
  · rw [hfree] at hnone
    exact absurd hnone (Finset.insert_ne_empty _ _)

/-- One free of a frame below the first megabyte, never allocated, is accepted;
the next allocation returns that frame. -/
theorem free_of_reserved_frame :
    ∃ s, Run Step (boot sampleMap blank) [.free 0x1000] s ∧ (pmmAllocFrame s.pmm).1 = 0x1000 ∧
      ¬ FrameSafe sampleMap s := by
  have hlow : ∀ f < 256, bitmapTest (pmmInit sampleMap blank) f = true := by
    intro f hf
    have hnot : f ∉ freeFrames (pmmInit sampleMap blank) := fun hmem => by
      have := ((pmmInit_spec sampleMap blank).2.2 f).mp hmem
      exact absurd this.1 (by omega)
    rw [mem_freeFrames, not_and, Bool.not_eq_false] at hnot
    exact hnot (by omega)
  have haddr := alloc_after_reserved_free hlow
  rw [← boot_pmm, ← call_free_pmm] at haddr
  refine ⟨call (boot sampleMap blank) (.free 0x1000), .cons rfl (.nil _), haddr, fun hsafe => ?_⟩
  obtain ⟨f, hf, hallocatable, _⟩ := hsafe.2 (by rw [haddr]; decide)
  rw [haddr] at hf
  have : (0x1000 : UInt32).toNat = 4096 := rfl
  exact absurd hallocatable.1 (by omega)

end SengKernel.Pmm
