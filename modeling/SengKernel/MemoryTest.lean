import SengKernel.PmmAccounting
import SengKernel.ShellText

/- cmd_meminfo of kernel/kernel.c: the counters of the frame allocator and its self-test,
   which takes up to 100 frames and gives them back. -/
namespace SengKernel.Pmm
open BoundedLoop MachineWord Transition Ksh

/-- `x * y` in 32 bits. -/
def mul32 (x y : Nat) : Nat := x * y % wordSize

/-- The locals of the self-test, the allocator and what has been printed. -/
structure SelfTest where
  pmm : State
  frames : Nat → UInt32
  allocated : Nat
  output : List Printed

/-- The first loop from `i` on, with `n` passes left. -/
def allocLoop (x : SelfTest) (i : Nat) : Nat → SelfTest
  | 0 => x
  | n+1 =>
      let addr := (pmmAllocFrame x.pmm).1
      let p := (pmmAllocFrame x.pmm).2
      if addr = 0 then { x with pmm := p, output := x.output ++ [.printf "Failed to allocate frame %d\n" [.int i]] }
      else allocLoop ⟨p, Function.update x.frames i addr, x.allocated + 1, x.output⟩ (i + 1) n

/-- The lines before the self-test, with the arithmetic of `uint32_t`. -/
def printCounters (total used free : Nat) : List Printed :=
  [.puts (ascii "\n"),
    .putsColor "Physical Memory Manager (L11 §3)\n" .lightCyan .black,
    .puts (ascii "---------------------------------------------\n"),
    .printf "Total frames : %u\n" [.int total],
    .printf "Used frames  : %u\n" [.int used],
    .printf "Free frames  : %u\n" [.int free],
    .printf "Frame size   : %u bytes\n" [.int (pmmFrameSize : Nat)],
    .printf "Total memory : %u KB\n" [.int (mul32 total pmmFrameSize / 1024 : Nat)],
    .printf "Used memory  : %u KB\n" [.int (mul32 used pmmFrameSize / 1024 : Nat)],
    .printf "Free memory  : %u KB\n" [.int (mul32 free pmmFrameSize / 1024 : Nat)],
    .puts (ascii "\n"),
    .putsColor "Self-test: Allocating and freeing 100 frames...\n" .yellow .black]

/-- `cmd_meminfo`; `frames` is on a stack with any contents. -/
def cmdMeminfo (stack : Nat → UInt32) (p : State) (output : List Printed) : State × List Printed :=
  let used := pmmUsedFrames p
  let output := output ++ printCounters (pmmTotalFrames p) used (pmmFreeFrames p)
  let x := allocLoop ⟨p, stack, 0, output⟩ 0 100
  let output := x.output ++
    [.printf "Allocated %d frames. Used frames now: %u\n" [.int x.allocated, .int (pmmUsedFrames x.pmm)]]
  let freed := forRange (fun i p => pmmFreeFrame p (x.frames i)) 0 x.allocated x.pmm
  let output := output ++ [.printf "Freed %d frames. Used frames now: %u\n" [.int x.allocated, .int (pmmUsedFrames freed)]]
  let output := output ++
    [if pmmUsedFrames freed = used then .putsColor "PASS: No memory leaks detected.\n" .lightGreen .black
      else .putsColor "FAIL: Memory leak detected!\n" .lightRed .black]
  (freed, output ++ [.puts (ascii "\n")])

/-- The same lines, in kilobytes of 4 a frame. -/
def reportedCounters (p : State) : List Printed :=
  [.puts (ascii "\n"),
    .putsColor "Physical Memory Manager (L11 §3)\n" .lightCyan .black,
    .puts (ascii "---------------------------------------------\n"),
    .printf "Total frames : %u\n" [.int (pmmTotalFrames p)],
    .printf "Used frames  : %u\n" [.int (pmmUsedFrames p)],
    .printf "Free frames  : %u\n" [.int (pmmFreeFrames p)],
    .printf "Frame size   : %u bytes\n" [.int 4096],
    .printf "Total memory : %u KB\n" [.int (4 * pmmTotalFrames p : Nat)],
    .printf "Used memory  : %u KB\n" [.int (4 * pmmUsedFrames p : Nat)],
    .printf "Free memory  : %u KB\n" [.int (4 * pmmFreeFrames p : Nat)],
    .puts (ascii "\n"),
    .putsColor "Self-test: Allocating and freeing 100 frames...\n" .yellow .black]

/-- What it prints of an allocator whose self-test gets `k` frames. -/
def memoryReport (p : State) (k : Nat) : List Printed :=
  reportedCounters p ++
  (if k < 100 then [.printf "Failed to allocate frame %d\n" [.int k]] else []) ++
  [.printf "Allocated %d frames. Used frames now: %u\n" [.int k, .int (pmmUsedFrames p + k : Nat)],
    .printf "Freed %d frames. Used frames now: %u\n" [.int k, .int (pmmUsedFrames p)],
    .putsColor "PASS: No memory leaks detected.\n" .lightGreen .black,
    .puts (ascii "\n")]

/-- Whatever has been freed: the counters are small and frame 0 stays reserved. -/
structure Bounded (p : State) : Prop where
  total : p.totalFramesCount ≤ 32768
  used : p.usedFramesCount + (freeFrames p).card ≤ 32768
  first : 0 ∉ freeFrames p

/-- `q` is `p` with some more frames taken. -/
structure Taken (p : State) (fs : List Nat) (q : State) : Prop where
  nodup : fs.Nodup
  clear : ∀ f ∈ fs, f ∈ freeFrames p
  test : ∀ j, bitmapTest q j = (decide (j ∈ fs) || bitmapTest p j)
  used : q.usedFramesCount = p.usedFramesCount + fs.length
  total : q.totalFramesCount = p.totalFramesCount

section Taking

variable {p q : State} {f : Nat} {fs : List Nat}

theorem taken_nil (p : State) : Taken p [] p :=
  ⟨List.nodup_nil, fun _ hf => absurd hf List.not_mem_nil, fun j => by simp, rfl, rfl⟩

/-- Nothing taken, nothing changed. -/
theorem Taken.eq (h : Taken p [] q) : q = p := by
  have hbitmap : q.bitmap = p.bitmap := by
    apply ByteBitmap.eq_of_test
    intro j
    have htest := h.test j
    rw [decide_eq_false List.not_mem_nil, Bool.false_or] at htest
    exact htest
  obtain ⟨bitmap, total, used⟩ := q
  cases hbitmap
  cases h.used
  cases h.total
  rfl

theorem Taken.freeFrames_eq (h : Taken p fs q) : freeFrames q = freeFrames p \ fs.toFinset := by
  ext f
  rw [Finset.mem_sdiff, mem_freeFrames, mem_freeFrames, h.test, List.mem_toFinset, Bool.or_eq_false_iff,
    decide_eq_false_iff_not]
  tauto

theorem Taken.card (h : Taken p fs q) : (freeFrames q).card + fs.length = (freeFrames p).card := by
  have hsub : fs.toFinset ⊆ freeFrames p := fun f hf => h.clear f (List.mem_toFinset.mp hf)
  have hcard := Finset.card_sdiff_add_card_eq_card hsub
  rw [List.toFinset_card_of_nodup h.nodup] at hcard
  rw [h.freeFrames_eq]
  exact hcard

theorem Bounded.address (hp : Bounded p) (hf : f ∈ freeFrames p) : UInt32.ofNat (f * pmmFrameSize) ≠ 0 := by
  intro hzero
  have hnum := frame_toNat (mem_freeFrames.mp hf).1
  rw [hzero] at hnum
  have : f = 0 := by
    change 0 = 4096 * f at hnum
    omega
  exact hp.first (this ▸ hf)

/-- The next allocation takes one more, or there are no more. -/
theorem Taken.alloc (h : Taken p fs q) (hp : Bounded p) :
    (∃ f ∈ freeFrames p, (pmmAllocFrame q).1 = UInt32.ofNat (f * pmmFrameSize) ∧
      Taken p (fs ++ [f]) (pmmAllocFrame q).2) ∨
    (fs.length = (freeFrames p).card ∧ pmmAllocFrame q = (0, q)) := by
  have hcard := h.card
  rcases pmmAllocFrame_cases q with ⟨f, hf, _, heq⟩ | ⟨hnone, heq⟩
  · have hfree := hf
    rw [h.freeFrames_eq, Finset.mem_sdiff, List.mem_toFinset] at hfree
    refine Or.inl ⟨f, hfree.1, by rw [heq], ?_⟩
    have hused := hp.used
    have hpos : 0 < (freeFrames q).card := Finset.card_pos.mpr ⟨f, hf⟩
    rw [heq]
    refine ⟨List.nodup_append.mpr ⟨h.nodup, List.nodup_singleton f, ?_⟩, ?_, ?_, ?_, h.total⟩
    · intro a ha b hb hab
      rw [List.mem_singleton] at hb
      exact hfree.2 (hb ▸ hab ▸ ha)
    · intro g hg
      rcases List.mem_append.mp hg with hold | hnew
      · exact h.clear g hold
      · exact List.mem_singleton.mp hnew ▸ hfree.1
    · intro j
      change bitmapTest (bitmapSet q f) j = _
      rw [bitmapTest_set, h.test, ← Bool.or_assoc]
      congr 1
      simp only [List.mem_append, List.mem_singleton, Bool.decide_or]
      exact Bool.or_comm _ _
    · change inc32 q.usedFramesCount = _
      rw [h.used, inc32_of_lt (by omega), List.length_append, List.length_singleton, Nat.add_assoc]
  · refine Or.inr ⟨?_, heq⟩
    rw [hnone, Finset.card_empty, Nat.zero_add] at hcard
    exact hcard

/-- A frame that was taken goes back. -/
theorem Taken.free (h : Taken p (f :: fs) q) (hp : Bounded p) :
    Taken p fs (pmmFreeFrame q (UInt32.ofNat (f * pmmFrameSize))) := by
  obtain ⟨hout, hnodup⟩ := List.nodup_cons.mp h.nodup
  have hf := h.clear f List.mem_cons_self
  have hlt := (mem_freeFrames.mp hf).1
  have hpos : 0 < f := Nat.pos_of_ne_zero (fun hzero => hp.first (hzero ▸ hf))
  have hset : bitmapTest q f = true := by
    rw [h.test, decide_eq_true List.mem_cons_self, Bool.true_or]
  rw [pmmFreeFrame_of_set (frame_toNat hlt) hpos hlt hset]
  refine ⟨hnodup, fun g hg => h.clear g (List.mem_cons_of_mem f hg), ?_, ?_, h.total⟩
  · intro j
    change bitmapTest (bitmapClear q f) j = _
    rw [bitmapTest_clear, h.test]
    by_cases hj : j = f
    · subst hj
      rw [(mem_freeFrames.mp hf).2]
      simp [hout]
    · simp [hj]
  · change q.usedFramesCount - 1 = _
    rw [h.used, List.length_cons]
    omega

/-- The array holds the addresses of the frames. -/
def Stored (frames : Nat → UInt32) (fs : List Nat) : Prop :=
  ∀ i, (hi : i < fs.length) → frames i = UInt32.ofNat (fs[i] * pmmFrameSize)

theorem Stored.concat {frames : Nat → UInt32} (h : Stored frames fs) (f : Nat) :
    Stored (Function.update frames fs.length (UInt32.ofNat (f * pmmFrameSize))) (fs ++ [f]) := by
  intro i hi
  rw [List.length_append, List.length_singleton] at hi
  by_cases hlast : i = fs.length
  · subst hlast
    rw [Function.update_self, List.getElem_append_right (Nat.le_refl _)]
    simp
  · have hold : i < fs.length := by omega
    rw [Function.update_of_ne hlast, List.getElem_append_left hold]
    exact h i hold

/-- The first loop takes as many frames as there are, and as it may. -/
theorem Taken.allocLoop (hp : Bounded p) {n : Nat} {x : SelfTest} (h : Taken p fs x.pmm) (hcount : x.allocated = fs.length)
    (hstored : Stored x.frames fs) (hroom : fs.length ≤ (freeFrames p).card) :
    ∃ gs, gs.length = min (fs.length + n) (freeFrames p).card ∧
      Taken p gs (allocLoop x fs.length n).pmm ∧ (allocLoop x fs.length n).allocated = gs.length ∧
      Stored (allocLoop x fs.length n).frames gs ∧
      (allocLoop x fs.length n).output = x.output ++
        (if gs.length < fs.length + n then [.printf "Failed to allocate frame %d\n" [.int gs.length]] else []) := by
  induction n generalizing fs x with
  | zero =>
      refine ⟨fs, by omega, h, hcount, hstored, ?_⟩
      rw [Nat.add_zero, if_neg (Nat.lt_irrefl _), List.append_nil]
      rfl
  | succ n ih =>
      rcases h.alloc hp with ⟨f, hf, haddr, htaken⟩ | ⟨hfull, heq⟩
      · have hlength : (fs ++ [f]).length = fs.length + 1 := by rw [List.length_append, List.length_singleton]
        have hmore := htaken.card
        obtain ⟨gs, hgs, hrest⟩ := ih
          (x := ⟨(pmmAllocFrame x.pmm).2, Function.update x.frames fs.length (pmmAllocFrame x.pmm).1, x.allocated + 1,
            x.output⟩) htaken (by rw [hcount, hlength]) (by rw [haddr]; exact hstored.concat f) (by omega)
        have hloop : Pmm.allocLoop x fs.length (n + 1) = Pmm.allocLoop
            ⟨(pmmAllocFrame x.pmm).2, Function.update x.frames fs.length (pmmAllocFrame x.pmm).1, x.allocated + 1,
              x.output⟩ (fs.length + 1) n := by
          rw [Pmm.allocLoop]
          exact if_neg (haddr ▸ hp.address hf)
        rw [hlength] at hgs hrest
        rw [hloop]
        refine ⟨gs, by omega, ?_⟩
        rw [show fs.length + (n + 1) = fs.length + 1 + n by omega]
        exact hrest
      · have hloop : Pmm.allocLoop x fs.length (n + 1) =
            { x with output := x.output ++ [.printf "Failed to allocate frame %d\n" [.int fs.length]] } := by
          rw [Pmm.allocLoop, heq]
          exact if_pos rfl
        rw [hloop]
        refine ⟨fs, by omega, h, hcount, hstored, ?_⟩
        rw [if_pos (by omega)]

/-- The second loop gives all of them back. -/
theorem Taken.freeLoop (h : Taken p fs q) (hp : Bounded p) {frames : Nat → UInt32} (hstored : Stored frames fs) :
    forRange (fun i q => pmmFreeFrame q (frames i)) 0 fs.length q = p := by
  have hloop : Taken p (fs.drop (0 + fs.length)) (forRange (fun i q => pmmFreeFrame q (frames i)) 0 fs.length q) := by
    refine forRange_invariant (fun i q => Taken p (fs.drop i) q) h ?_
    intro i q' _ hi htaken
    have hi : i < fs.length := by omega
    rw [List.drop_eq_getElem_cons hi] at htaken
    rw [hstored i hi]
    exact htaken.free hp
  rw [Nat.zero_add, List.drop_length] at hloop
  exact hloop.eq

end Taking

section Reports

variable {p : State}

theorem bounded_alloc (h : Bounded p) : Bounded (pmmAllocFrame p).2 := by
  rcases (taken_nil p).alloc h with ⟨f, _, _, htaken⟩ | ⟨_, heq⟩
  · have hcard := htaken.card
    have hused := htaken.used
    have hbefore := h.used
    refine ⟨htaken.total ▸ h.total, by omega, ?_⟩
    rw [htaken.freeFrames_eq, Finset.mem_sdiff]
    exact fun hzero => h.first hzero.1
  · rw [heq]
    exact h

theorem bounded_free (h : Bounded p) (paddr : UInt32) : Bounded (pmmFreeFrame p paddr) := by
  rcases pmmFreeFrame_cases p paddr with heq | ⟨f, _, hpos, hlt, hset, heq⟩
  · rw [heq]
    exact h
  · have hfree : freeFrames (bitmapClear p f) = insert f (freeFrames p) := freeFrames_clear p hlt
    have hcard : (freeFrames (bitmapClear p f)).card = (freeFrames p).card + 1 := by
      rw [hfree, Finset.card_insert_of_notMem hset]
    have hle := freeFrames_card_le (bitmapClear p f)
    have hbefore := h.used
    rw [heq]
    refine ⟨h.total, ?_, ?_⟩
    · rw [freeFrames_usedFrames]
      dsimp only
      omega
    · rw [freeFrames_usedFrames, hfree, Finset.mem_insert]
      exact fun hzero => hzero.elim (fun hf => Nat.ne_of_lt hpos hf) h.first

theorem bounded_boot (e820 : List E820Entry) (p : State) : Bounded (pmmInit e820 p) := by
  obtain ⟨hcount, hused, _⟩ := pmmInit_spec e820 p
  have hle := freeFrames_card_le (pmmInit e820 p)
  refine ⟨?_, ?_, zero_not_free e820 p⟩
  · rw [hcount]
    exact hle
  · rw [hused, Nat.zero_add]
    exact hle

theorem run_bounded {e820 : List E820Entry} {p : State} {s : Session} {calls : List Call}
    (run : Run Step (boot e820 p) calls s) : Bounded s.pmm := by
  refine run.invariant (I := fun s => Bounded s.pmm) ?_ (bounded_boot e820 p)
  intro s c t h step
  cases step
  cases c with
  | free paddr => exact bounded_free h paddr
  | alloc =>
      rw [call]
      split
      · exact bounded_alloc h
      · exact bounded_alloc h

theorem kilobytes {n : Nat} (h : n ≤ 32768) : mul32 n pmmFrameSize / 1024 = 4 * n := by
  rw [mul32, wordSize, pmmFrameSize]
  omega

/-- The self-test changes nothing and passes. -/
theorem Bounded.meminfo (h : Bounded p) (stack : Nat → UInt32) (output : List Printed) :
    cmdMeminfo stack p output = (p, output ++ memoryReport p (min 100 (freeFrames p).card)) := by
  have hstart : ∀ out, ∃ gs, gs.length = min (0 + 100) (freeFrames p).card ∧
      Taken p gs (allocLoop ⟨p, stack, 0, out⟩ 0 100).pmm ∧ (allocLoop ⟨p, stack, 0, out⟩ 0 100).allocated = gs.length ∧
      Stored (allocLoop ⟨p, stack, 0, out⟩ 0 100).frames gs ∧
      (allocLoop ⟨p, stack, 0, out⟩ 0 100).output = out ++
        (if gs.length < 0 + 100 then [.printf "Failed to allocate frame %d\n" [.int gs.length]] else []) :=
    fun out => (taken_nil p).allocLoop h (x := ⟨p, stack, 0, out⟩) rfl (fun i hi => absurd hi (Nat.not_lt_zero i))
      (Nat.zero_le _)
  have hfree : pmmFreeFrames p ≤ 32768 := by
    have htotal := h.total
    rw [pmmFreeFrames]
    split
    · omega
    · exact Nat.zero_le _
  have hused : pmmUsedFrames p ≤ 32768 := (Nat.le_add_right _ _).trans h.used
  have hcounters : printCounters (pmmTotalFrames p) (pmmUsedFrames p) (pmmFreeFrames p) = reportedCounters p := by
    have htotal : mul32 (pmmTotalFrames p) pmmFrameSize / 1024 = 4 * pmmTotalFrames p := kilobytes h.total
    rw [printCounters, htotal, kilobytes hused, kilobytes hfree]
    rfl
  obtain ⟨gs, hlength, htaken, hcount, hstored, hout⟩ := hstart (output ++ reportedCounters p)
  have hafter : pmmUsedFrames (allocLoop ⟨p, stack, 0, output ++ reportedCounters p⟩ 0 100).pmm =
      pmmUsedFrames p + gs.length := htaken.used
  have hfreed := htaken.freeLoop h hstored
  rw [Nat.zero_add] at hlength hout
  rw [← hlength, cmdMeminfo, hcounters]
  simp only [hcount, hout, hafter, hfreed, memoryReport, if_true, List.append_assoc]
  rfl

end Reports

/-- After any memory map and any calls of the allocator, with whatever addresses, `meminfo`
leaves the bitmap and both counters as they were and reports no leak; it gets 100 frames,
or all there are. -/
theorem meminfo_harmless (e820 : List E820Entry) (p : State) {s : Session} {calls : List Call}
    (run : Run Step (boot e820 p) calls s) (stack : Nat → UInt32) (output : List Printed) :
    cmdMeminfo stack s.pmm output = (s.pmm, output ++ memoryReport s.pmm (min 100 (freeFrames s.pmm).card)) :=
  (run_bounded run).meminfo stack output

/-- Also after a frame of the kernel's own memory has been freed. -/
theorem meminfo_harmless_sample :
    cmdMeminfo (fun _ => 0xCC) (call (boot sampleMap blank) (.free 0x1000)).pmm [] =
      ((call (boot sampleMap blank) (.free 0x1000)).pmm, [] ++ memoryReport (call (boot sampleMap blank) (.free 0x1000)).pmm
        (min 100 (freeFrames (call (boot sampleMap blank) (.free 0x1000)).pmm).card)) :=
  meminfo_harmless sampleMap blank (.cons rfl (.nil _)) (fun _ => 0xCC) []

end SengKernel.Pmm
