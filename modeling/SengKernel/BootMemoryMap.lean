import SengKernel.ByteOrder
import SengKernel.PmmRegions

/- boot/boot.asm: the loader collects the BIOS memory map, one interrupt an entry, and
   kernel/pmm.c reads it back from the same bytes. -/
namespace SengKernel.Pmm
open ByteOrder

@[simp] abbrev e820MapAddr : Nat := 0x5000
@[simp] abbrev e820CountAddr : Nat := 0x4FFC
@[simp] abbrev e820EntrySize : Nat := 24

/-- "SMAP", asked for in EDX and answered in EAX. -/
abbrev signature : UInt32 := 0x534D4150

/-- The memory and the registers that `.e820_next` keeps from turn to turn; DS and ES are 0. -/
structure Loader where
  mem : Memory
  ebx : UInt32
  di : UInt16
  bp : UInt16

/-- What `int 0x15` gives back. -/
structure Answer where
  carry : Bool
  eax : UInt32
  ebx : UInt32
  mem : Memory

/-- `mov dword [es:di + 20], 1`. -/
def beforeInt (s : Loader) : Loader := { s with mem := store s.mem (s.di + 20).toNat (bytes 4 1) }

/-- From `jc .e820_done` on; the flag is that of `jnz .e820_next`. -/
def afterInt (s : Loader) (a : Answer) : Loader × Bool :=
  let s := { s with mem := a.mem, ebx := a.ebx }
  if a.carry then (s, false)
  else if a.eax ≠ signature then (s, false)
  else ({ s with di := s.di + UInt16.ofNat e820EntrySize, bp := s.bp + 1 }, a.ebx ≠ 0)

/-- `.e820_next` against the answers of the BIOS; `none` while one is still due. -/
def e820Next : Loader → List Answer → Option Loader
  | _, [] => none
  | s, a :: answers =>
      match afterInt (beforeInt s) a with
      | (s, true) => e820Next s answers
      | (s, false) => some s

def loaderStart (mem : Memory) : Loader := ⟨mem, 0, UInt16.ofNat e820MapAddr, 0⟩

/-- `.e820_done`: the word that says how many entries there are. -/
def e820Done (s : Loader) : Memory := store s.mem e820CountAddr (bytes 2 s.bp.toNat)

/-- `entries[i]` of `pmm_init` at its address. -/
def entryAt (m : Memory) (a : Nat) : E820Entry :=
  ⟨UInt64.ofNat (read m a 8), UInt64.ofNat (read m (a + 8) 8), UInt32.ofNat (read m (a + 16) 4)⟩

/-- The entries that the loop of `pmm_init` goes through. -/
def e820Entries (m : Memory) : List E820Entry :=
  (List.range (read m e820CountAddr 2)).map (fun i => entryAt m (e820MapAddr + e820EntrySize * i))

/-- The first 20 bytes of an entry as the BIOS writes it. -/
def encode (e : E820Entry) : List UInt8 := bytes 8 e.base.toNat ++ (bytes 8 e.length.toNat ++ bytes 4 e.type.toNat)

/-- One call of the BIOS, which writes at most 24 bytes at ES:DI of the memory from the
count word to `limit`; what it does beyond is its own. -/
def Kept (limit : Nat) (s : Loader) (a : Answer) : Prop :=
  ∀ x, e820CountAddr ≤ x → x < limit → x < s.di.toNat ∨ s.di.toNat + e820EntrySize ≤ x → a.mem x = s.mem x

def Delivers (s : Loader) (a : Answer) (e : E820Entry) : Prop :=
  a.carry = false ∧ a.eax = signature ∧ Holds a.mem s.di.toNat (encode e)

def Declines (a : Answer) : Prop := a.carry = true ∨ a.eax ≠ signature

/-- The BIOS delivers the entries one after the other: EBX is 0 with the last one, or a
further call is declined. -/
inductive Served (limit : Nat) : Loader → List Answer → List E820Entry → Prop
  | declined {s : Loader} {a : Answer} (hkept : Kept limit (beforeInt s) a) (h : Declines a) : Served limit s [a] []
  | last {s : Loader} {a : Answer} {e : E820Entry} (hkept : Kept limit (beforeInt s) a)
      (h : Delivers (beforeInt s) a e) (hlast : a.ebx = 0) : Served limit s [a] [e]
  | more {s : Loader} {a : Answer} {e : E820Entry} {answers : List Answer} {es : List E820Entry}
      (hkept : Kept limit (beforeInt s) a) (h : Delivers (beforeInt s) a e) (hmore : a.ebx ≠ 0)
      (hrest : Served limit (afterInt (beforeInt s) a).1 answers es) : Served limit s (a :: answers) (e :: es)

/-- The entries lie in the table. -/
def Filled (m : Memory) (es : List E820Entry) : Prop :=
  ∀ i, (hi : i < es.length) → Holds m (e820MapAddr + e820EntrySize * i) (encode es[i])

/-- The registers say where the table ends. -/
structure Tabled (s : Loader) (es : List E820Entry) : Prop where
  count : s.bp.toNat = es.length
  place : s.di.toNat = e820MapAddr + e820EntrySize * es.length
  stored : Filled s.mem es

section Table

variable {m m' : Memory} {a : Nat} {e : E820Entry} {es : List E820Entry}

@[simp] theorem encode_length (e : E820Entry) : (encode e).length = 20 := by
  simp only [encode, List.length_append, bytes_length]

theorem entryAt_eq (h : Holds m a (encode e)) : entryAt m a = e := by
  obtain ⟨hbase, hrest⟩ := holds_append.mp h
  obtain ⟨hlength, htype⟩ := holds_append.mp hrest
  rw [bytes_length] at hlength htype
  rw [bytes_length] at htype
  have hbase' : read m a 8 = e.base.toNat := hbase.read_eq.trans (Nat.mod_eq_of_lt e.base.toNat_lt)
  have hlength' : read m (a + 8) 8 = e.length.toNat := hlength.read_eq.trans (Nat.mod_eq_of_lt e.length.toNat_lt)
  have htype' : read m (a + 16) 4 = e.type.toNat := htype.read_eq.trans (Nat.mod_eq_of_lt e.type.toNat_lt)
  rw [entryAt, hbase', hlength', htype', UInt64.ofNat_toNat, UInt64.ofNat_toNat, UInt32.ofNat_toNat]

theorem Filled.congr (h : Filled m es)
    (hsame : ∀ x, e820MapAddr ≤ x → x < e820MapAddr + e820EntrySize * es.length → m' x = m x) : Filled m' es := by
  intro i hi
  apply (h i hi).congr
  intro x hlow hhigh
  rw [encode_length] at hhigh
  apply hsame x
  · exact (Nat.le_add_right _ _).trans hlow
  · simp only [e820MapAddr, e820EntrySize] at *
    omega

theorem Filled.snoc (h : Filled m es) (hlast : Holds m (e820MapAddr + e820EntrySize * es.length) (encode e)) :
    Filled m (es ++ [e]) := by
  intro i hi
  by_cases hin : i < es.length
  · rw [List.getElem_append_left hin]
    exact h i hin
  · have heq : i = es.length := by
      rw [List.length_append, List.length_singleton] at hi
      omega
    subst heq
    rw [List.getElem_concat_length rfl]
    exact hlast

theorem Filled.entries (h : Filled m es) (hcount : read m e820CountAddr 2 = es.length) : e820Entries m = es := by
  rw [e820Entries, hcount]
  apply List.ext_getElem
  · rw [List.length_map, List.length_range]
  · intro i _ hi
    rw [List.getElem_map, List.getElem_range]
    exact entryAt_eq (h i hi)

end Table

section Turns

variable {limit : Nat} {s s' : Loader} {a : Answer} {e : E820Entry} {es prior : List E820Entry} {answers : List Answer}

theorem afterInt_declined (h : Declines a) : afterInt s a = ({ s with mem := a.mem, ebx := a.ebx }, false) := by
  unfold afterInt
  by_cases hcarry : a.carry = true
  · rw [if_pos hcarry]
  · rw [if_neg hcarry, if_pos (h.resolve_left hcarry)]

theorem afterInt_delivered (h : Delivers s a e) :
    afterInt s a = (Loader.mk a.mem a.ebx (s.di + 24) (s.bp + 1), decide (a.ebx ≠ 0)) := by
  unfold afterInt
  rw [h.1, h.2.1]
  rfl

/-- The dword before the interrupt and the interrupt leave the table up to DI. -/
theorem Tabled.kept (h : Tabled s es) (hkept : Kept limit (beforeInt s) a)
    (hroom : e820MapAddr + e820EntrySize * (es.length + 1) ≤ limit) (hlimit : limit ≤ 0x10000) : Filled a.mem es := by
  have hplace := h.place
  have hslot : (s.di + 20).toNat = s.di.toNat + 20 := by
    rw [UInt16.toNat_add]
    apply Nat.mod_eq_of_lt
    simp only [e820MapAddr, e820EntrySize] at *
    change s.di.toNat + 20 < 65536
    omega
  apply h.stored.congr
  intro x hlow hhigh
  rw [← hplace] at hhigh
  have hbefore : (beforeInt s).mem x = s.mem x := store_outside (Or.inl (by omega))
  rw [← hbefore]
  apply hkept x
  · exact (by decide : e820CountAddr ≤ e820MapAddr).trans hlow
  · simp only [e820MapAddr, e820EntrySize] at *
    omega
  · exact Or.inl hhigh

/-- A turn that delivers an entry. -/
theorem Tabled.delivered (h : Tabled s es) (hkept : Kept limit (beforeInt s) a) (hd : Delivers (beforeInt s) a e)
    (hroom : e820MapAddr + e820EntrySize * (es.length + 2) ≤ limit) (hlimit : limit ≤ 0x10000) :
    Tabled (afterInt (beforeInt s) a).1 (es ++ [e]) := by
  have hcount := h.count
  have hplace := h.place
  simp only [e820MapAddr, e820EntrySize] at hroom hplace
  rw [afterInt_delivered hd]
  constructor
  · change (s.bp + 1).toNat = _
    rw [UInt16.toNat_add, List.length_append, List.length_singleton, hcount]
    apply Nat.mod_eq_of_lt
    change es.length + 1 < 65536
    omega
  · change (s.di + 24).toNat = _
    rw [UInt16.toNat_add, List.length_append, List.length_singleton, hplace]
    change (20480 + 24 * es.length + 24) % 65536 = 20480 + 24 * (es.length + 1)
    omega
  · apply (h.kept hkept (by simp only [e820MapAddr, e820EntrySize]; omega) hlimit).snoc
    rw [← h.place]
    exact hd.2.2

/-- The loop ends when the BIOS does, with its entries behind those already there. -/
theorem Served.e820Next (h : Served limit s answers es) (htable : Tabled s prior)
    (hroom : e820MapAddr + e820EntrySize * (prior.length + es.length + 1) ≤ limit) (hlimit : limit ≤ 0x10000) :
    ∃ s', Pmm.e820Next s answers = some s' ∧ Tabled s' (prior ++ es) := by
  induction h generalizing prior with
  | @declined s a hkept h =>
      have hturn := afterInt_declined (s := beforeInt s) h
      refine ⟨(afterInt (beforeInt s) a).1, ?_, ?_⟩
      · simp only [Pmm.e820Next, hturn]
      · rw [hturn, List.append_nil]
        exact ⟨htable.count, htable.place, htable.kept hkept hroom hlimit⟩
  | @last s a e hkept h hlast =>
      have hturn := afterInt_delivered h
      refine ⟨(afterInt (beforeInt s) a).1, ?_, htable.delivered hkept h hroom hlimit⟩
      have hstop : decide (a.ebx ≠ 0) = false := decide_eq_false (not_not.mpr hlast)
      rw [hstop] at hturn
      simp only [Pmm.e820Next, hturn]
  | @more s a e answers es hkept h hmore hrest ih =>
      have hturn := afterInt_delivered h
      have hagain : decide (a.ebx ≠ 0) = true := decide_eq_true hmore
      rw [hagain] at hturn
      have hnext := htable.delivered hkept h
        (by simp only [e820MapAddr, e820EntrySize, List.length_cons] at hroom ⊢; omega) hlimit
      obtain ⟨s', hloop, hend⟩ := ih hnext
        (by simp only [e820MapAddr, e820EntrySize, List.length_append, List.length_cons, List.length_nil] at hroom ⊢; omega)
      refine ⟨s', ?_, ?_⟩
      · rw [hturn] at hloop
        simp only [Pmm.e820Next, hturn]
        exact hloop
      · rw [List.append_assoc] at hend
        exact hend

end Turns

/-- What has become of the memory map when the kernel runs. -/
structure Booted (mem : Memory) (answers : List Answer) (es : List E820Entry) (s : Loader) : Prop where
  collected : e820Next (loaderStart mem) answers = some s
  read : ∀ m : Memory, (∀ x, e820CountAddr ≤ x → x < e820MapAddr + e820EntrySize * es.length → m x = e820Done s x) →
    e820Entries m = es ∧ ∀ p f, f ∈ freeFrames (pmmInit (e820Entries m) p) ↔ Allocatable es f

/-- Where the table ends below `limit`, `pmm_init` works on the entries that the BIOS
delivered, in a memory that still has the table. -/
theorem boot_map {limit : Nat} {mem : Memory} {answers : List Answer} {es : List E820Entry}
    (h : Served limit (loaderStart mem) answers es) (hlimit : limit ≤ 0x10000)
    (hroom : e820MapAddr + e820EntrySize * (es.length + 1) ≤ limit) : ∃ s, Booted mem answers es s := by
  have hstart : Tabled (loaderStart mem) [] := ⟨rfl, rfl, fun i hi => absurd hi (Nat.not_lt_zero i)⟩
  obtain ⟨s, hloop, htable⟩ := h.e820Next hstart (by rwa [List.length_nil, Nat.zero_add]) hlimit
  rw [List.nil_append] at htable
  refine ⟨s, hloop, fun m hm => ?_⟩
  have hcount : read m e820CountAddr 2 = es.length := by
    have hword : Holds m e820CountAddr (bytes 2 s.bp.toNat) := by
      apply (holds_store s.mem e820CountAddr (bytes 2 s.bp.toNat)).congr
      intro x hlow hhigh
      apply hm x hlow
      rw [bytes_length] at hhigh
      simp only [e820CountAddr, e820MapAddr, e820EntrySize] at *
      omega
    rw [hword.read_eq, ← htable.count]
    exact Nat.mod_eq_of_lt s.bp.toNat_lt
  have hfilled : Filled m es := by
    apply htable.stored.congr
    intro x hlow hhigh
    have hbeyond : e820CountAddr + (bytes 2 s.bp.toNat).length ≤ x := by
      rw [bytes_length]
      exact (by decide : e820CountAddr + 2 ≤ e820MapAddr).trans hlow
    have hdone : e820Done s x = s.mem x := store_outside (Or.inr hbeyond)
    rw [← hdone]
    exact hm x ((by decide : e820CountAddr ≤ e820MapAddr).trans hlow) hhigh
  have hentries := hfilled.entries hcount
  refine ⟨hentries, fun p f => ?_⟩
  rw [hentries]
  exact (pmmInit_spec es p).2.2 f

/-- A BIOS that writes 20 bytes an entry and sets the carry flag behind the last one. -/
def biosAnswers : Loader → List E820Entry → List Answer
  | s, [] => [⟨true, 0x8600, 0, (beforeInt s).mem⟩]
  | s, e :: es =>
      let a : Answer := ⟨false, signature, 1, store (beforeInt s).mem s.di.toNat (encode e)⟩
      a :: biosAnswers (afterInt (beforeInt s) a).1 es

theorem biosAnswers_served (limit : Nat) (s : Loader) (es : List E820Entry) : Served limit s (biosAnswers s es) es := by
  induction es generalizing s with
  | nil => exact .declined (fun _ _ _ _ => rfl) (Or.inl rfl)
  | cons e es ih =>
      apply Served.more
      · intro x _ _ hout
        apply store_outside
        rw [encode_length]
        apply hout.imp_right
        intro h
        exact (Nat.add_le_add_left (by decide) _).trans h
      · exact ⟨rfl, rfl, holds_store _ _ _⟩
      · exact (by decide : (1 : UInt32) ≠ 0)
      · exact ih _

/-- With the stack of the loader, which grows down from 0x7C00, beyond the limit. -/
theorem boot_map_sample :
    ∃ s, Booted (fun _ => 0) (biosAnswers (loaderStart (fun _ => 0)) overlappingMap) overlappingMap s :=
  boot_map (biosAnswers_served 0x7000 _ _) (by decide) (by decide)

end SengKernel.Pmm
