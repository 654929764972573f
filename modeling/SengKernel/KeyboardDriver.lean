import SengKernel.KernelString

/- kernel/keyboard.c: scancodes, the two character tables and the one flag for
   both shift keys. A call of kb_getchar takes codes until one has a character. -/
namespace SengKernel.Kbd

/-- `sc_ascii`, up to its last character; the entries after it are 0. -/
def scAscii : List UInt8 :=
  [0, 27, 49, 50, 51, 52, 53, 54, 55, 56, 57, 48, 45, 61, 8,
   9, 113, 119, 101, 114, 116, 121, 117, 105, 111, 112, 91, 93, 10,
   0, 97, 115, 100, 102, 103, 104, 106, 107, 108, 59, 39, 96,
   0, 92, 122, 120, 99, 118, 98, 110, 109, 44, 46, 47,
   0, 42, 0, 32, 0,
   0, 0, 0, 0, 0, 0, 0, 0, 0, 0,
   0, 0,
   55, 56, 57, 45, 52, 53, 54, 43, 49, 50, 51, 48, 46]

/-- `sc_ascii_shift`, which has no numpad. -/
def scAsciiShift : List UInt8 :=
  [0, 27, 33, 64, 35, 36, 37, 94, 38, 42, 40, 41, 95, 43, 8,
   9, 81, 87, 69, 82, 84, 89, 85, 73, 79, 80, 123, 125, 10,
   0, 65, 83, 68, 70, 71, 72, 74, 75, 76, 58, 34, 126,
   0, 124, 90, 88, 67, 86, 66, 78, 77, 60, 62, 63,
   0, 42, 0, 32, 0]

/-- The table that a character is taken from. -/
inductive Layout where
  | plain
  | shifted
  deriving DecidableEq, Repr

def character (l : Layout) (sc : UInt8) : UInt8 :=
  match l with
  | .plain => scAscii.getD sc.toNat 0
  | .shifted => scAsciiShift.getD sc.toNat 0

/-- One round of the loop of `kb_getchar`: the flag after the code, and the
character when there is one to return. -/
def kbCode (shiftHeld : Bool) (sc : UInt8) : Bool × Option (Layout × UInt8) :=
  if sc &&& 0x80 ≠ 0 then
    let release := sc &&& 0x7F
    (if release = 0x2A ∨ release = 0x36 then false else shiftHeld, none)
  else if sc = 0x2A ∨ sc = 0x36 then (true, none)
  else
    let layout := if shiftHeld then Layout.shifted else Layout.plain
    let c := character layout sc
    (shiftHeld, if c ≠ 0 then some (layout, c) else none)

/-- A character that a call returned: its table, the codes read for it, the flag
left behind and the codes still to come. -/
structure Reading where
  layout : Layout
  char : UInt8
  read : List UInt8
  shiftHeld : Bool
  rest : List UInt8
  deriving DecidableEq, Repr

/-- `kb_getchar`; nothing while it still waits for a code. -/
def kbGetchar (shiftHeld : Bool) : List UInt8 → Option Reading
  | [] => none
  | sc :: codes =>
      match kbCode shiftHeld sc with
      | (held, none) => (kbGetchar held codes).map (fun r => { r with read := sc :: r.read })
      | (held, some (layout, c)) => some ⟨layout, c, [sc], held, codes⟩

/-- Up to `n` calls in a row. The codes of the earlier calls are kept in `read`. -/
def kbCalls : Nat → List UInt8 → Bool → List UInt8 → List Reading
  | 0, _, _, _ => []
  | n+1, history, shiftHeld, codes =>
      match kbGetchar shiftHeld codes with
      | none => []
      | some r =>
          { r with read := history ++ r.read } :: kbCalls n (history ++ r.read) r.shiftHeld r.rest

/-- The key has had a make code and no break code since. -/
def Held (key : UInt8) (codes : List UInt8) : Prop :=
  ∃ before after, codes = before ++ key :: after ∧ key + 0x80 ∉ after

/-- At least one of the two shift keys is down. -/
def ShiftDown (codes : List UInt8) : Prop := Held 0x2A codes ∨ Held 0x36 codes

def isShiftCode (sc : UInt8) : Bool := sc = 0x2A || sc = 0x36 || sc = 0xAA || sc = 0xB6

def lastShift (codes : List UInt8) : Option UInt8 := (codes.filter isShiftCode).getLast?

/-- One shift key was let go last, with the other still down. -/
def OtherDown (codes : List UInt8) : Prop :=
  ShiftDown codes ∧ (lastShift codes = some 0xAA ∨ lastShift codes = some 0xB6)

theorem held_nil (key : UInt8) : ¬ Held key [] := by
  rintro ⟨before, after, hcodes, _⟩
  exact List.append_ne_nil_of_right_ne_nil before (List.cons_ne_nil key after) hcodes.symm

theorem held_cons (key sc : UInt8) (codes : List UInt8) :
    Held key (sc :: codes) ↔ (sc = key ∧ key + 0x80 ∉ codes) ∨ Held key codes := by
  constructor
  · rintro ⟨before, after, hcodes, hafter⟩
    cases before with
    | nil =>
        obtain ⟨rfl, rfl⟩ := List.cons.inj hcodes
        exact Or.inl ⟨rfl, hafter⟩
    | cons b before =>
        obtain ⟨rfl, rfl⟩ := List.cons.inj hcodes
        exact Or.inr ⟨before, after, rfl, hafter⟩
  · rintro (⟨rfl, hafter⟩ | ⟨before, after, rfl, hafter⟩)
    · exact ⟨[], codes, rfl, hafter⟩
    · exact ⟨sc :: before, after, rfl, hafter⟩

instance decidableHeld (key : UInt8) : ∀ codes, Decidable (Held key codes)
  | [] => .isFalse (held_nil key)
  | sc :: codes =>
      haveI := decidableHeld key codes
      decidable_of_iff _ (held_cons key sc codes).symm

instance (codes : List UInt8) : Decidable (ShiftDown codes) := inferInstanceAs (Decidable (_ ∨ _))

instance (codes : List UInt8) : Decidable (OtherDown codes) := inferInstanceAs (Decidable (_ ∧ _))

/-- A code is one more step of the key's history. -/
theorem held_concat (key sc : UInt8) (codes : List UInt8) :
    Held key (codes ++ [sc]) ↔ sc = key ∨ (Held key codes ∧ sc ≠ key + 0x80) := by
  have hself : key + 0x80 ≠ key := by
    intro heq
    have h128 : (0x80 : UInt8) = 0 := UInt8.add_eq_left.mp heq
    cases h128
  induction codes with
  | nil =>
      rw [List.nil_append, held_cons]
      have hnil := held_nil key
      constructor
      · rintro (⟨hsc, _⟩ | hheld)
        · exact Or.inl hsc
        · exact absurd hheld hnil
      · rintro (hsc | ⟨hheld, _⟩)
        · exact Or.inl ⟨hsc, List.not_mem_nil⟩
        · exact absurd hheld hnil
  | cons b codes ih =>
      rw [List.cons_append, held_cons, held_cons, propext ih]
      constructor
      · rintro (⟨hb, hout⟩ | hsc | ⟨hheld, hne⟩)
        · rw [List.mem_append, List.mem_singleton, not_or] at hout
          exact Or.inr ⟨Or.inl ⟨hb, hout.1⟩, fun heq => hout.2 heq.symm⟩
        · exact Or.inl hsc
        · exact Or.inr ⟨Or.inr hheld, hne⟩
      · rintro (hsc | ⟨⟨hb, hout⟩ | hheld, hne⟩)
        · exact Or.inr (Or.inl hsc)
        · refine Or.inl ⟨hb, ?_⟩
          rw [List.mem_append, List.mem_singleton, not_or]
          exact ⟨hout, Ne.symm hne⟩
        · exact Or.inr (Or.inr ⟨hheld, hne⟩)

theorem lastShift_concat (codes : List UInt8) (sc : UInt8) :
    lastShift (codes ++ [sc]) = if isShiftCode sc then some sc else lastShift codes := by
  rw [lastShift, List.filter_append, List.filter_singleton]
  cases isShiftCode sc with
  | true => exact List.getLast?_concat
  | false =>
      rw [cond_false, List.append_nil]
      rfl

/-- The flag after some codes. -/
def flagAfter (shiftHeld : Bool) (codes : List UInt8) : Bool :=
  codes.foldl (fun held sc => (kbCode held sc).1) shiftHeld

@[simp] theorem flagAfter_cons (shiftHeld : Bool) (sc : UInt8) (codes : List UInt8) :
    flagAfter shiftHeld (sc :: codes) = flagAfter (kbCode shiftHeld sc).1 codes := rfl

theorem flagAfter_concat (shiftHeld : Bool) (codes : List UInt8) (sc : UInt8) :
    flagAfter shiftHeld (codes ++ [sc]) = (kbCode (flagAfter shiftHeld codes) sc).1 := by
  rw [flagAfter, List.foldl_append]
  rfl

section Codes

/-- A property of bytes is checked on all 256 of them. -/
theorem forall_byte {P : UInt8 → Prop} (h : ∀ n, n < 256 → P (UInt8.ofNat n)) (sc : UInt8) : P sc := by
  have := h sc.toNat sc.toNat_lt
  rwa [UInt8.ofNat_toNat] at this

theorem kbCode_flag (shiftHeld : Bool) (sc : UInt8) :
    (kbCode shiftHeld sc).1 =
      if sc = 0x2A ∨ sc = 0x36 then true else if sc = 0xAA ∨ sc = 0xB6 then false else shiftHeld := by
  revert sc
  cases shiftHeld with
  | true => exact forall_byte (by decide +kernel)
  | false => exact forall_byte (by decide +kernel)

/-- The character is that of the table that the flag selects, if there is one. -/
theorem kbCode_char (shiftHeld : Bool) (sc : UInt8) :
    (kbCode shiftHeld sc).2 =
      let layout := if shiftHeld then Layout.shifted else Layout.plain
      if character layout sc ≠ 0 then some (layout, character layout sc) else none := by
  revert sc
  cases shiftHeld with
  | true => exact forall_byte (by decide +kernel)
  | false => exact forall_byte (by decide +kernel)

theorem kbCode_some {shiftHeld : Bool} {sc c : UInt8} {l : Layout} (h : (kbCode shiftHeld sc).2 = some (l, c)) :
    l = (if shiftHeld then .shifted else .plain) ∧ character l sc ≠ 0 := by
  rw [kbCode_char] at h
  by_cases hchar : character (if shiftHeld then Layout.shifted else Layout.plain) sc ≠ 0
  · obtain ⟨hl, _⟩ := Prod.mk.inj (Option.some.inj ((if_pos hchar).symm.trans h))
    subst hl
    exact ⟨rfl, hchar⟩
  · cases (if_neg hchar).symm.trans h

/-- The codes of the shift keys have no character. -/
theorem character_of_shift (l : Layout) (sc : UInt8) (h : isShiftCode sc = true) : character l sc = 0 := by
  revert sc
  apply forall_byte
  cases l with
  | plain => decide +kernel
  | shifted => decide +kernel

end Codes

/-- The flag says whether the last code of a shift key was a make code. -/
theorem flagAfter_iff (codes : List UInt8) :
    flagAfter false codes = true ↔ lastShift codes = some 0x2A ∨ lastShift codes = some 0x36 := by
  induction codes using List.reverseRecOn with
  | nil => decide
  | append_singleton codes sc ih =>
      rw [flagAfter_concat, kbCode_flag, lastShift_concat]
      by_cases hmake : sc = 0x2A ∨ sc = 0x36
      · rw [if_pos hmake]
        rcases hmake with rfl | rfl <;> simp [isShiftCode]
      · rw [if_neg hmake]
        by_cases hbreak : sc = 0xAA ∨ sc = 0xB6
        · rw [if_pos hbreak]
          rcases hbreak with rfl | rfl <;> simp [isShiftCode]
        · have hother : isShiftCode sc = false := by
            rw [not_or] at hmake hbreak
            simp [isShiftCode, hmake, hbreak]
          rw [if_neg hbreak, hother, ih]
          rfl

/-- A make code that came last has its key down. -/
theorem held_of_lastShift {codes : List UInt8} {key : UInt8} (hkey : key = 0x2A ∨ key = 0x36)
    (h : lastShift codes = some key) : Held key codes := by
  induction codes using List.reverseRecOn with
  | nil => cases h
  | append_singleton codes sc ih =>
      rw [held_concat]
      rw [lastShift_concat] at h
      split at h
      · exact Or.inl (Option.some.inj h)
      · rename_i hother
        refine Or.inr ⟨ih h, ?_⟩
        rintro rfl
        rcases hkey with rfl | rfl <;> exact hother (by decide)

theorem lastShift_of_held {codes : List UInt8} {key : UInt8} (hkey : key = 0x2A ∨ key = 0x36) (h : Held key codes) :
    lastShift codes ≠ none := by
  obtain ⟨before, after, rfl, _⟩ := h
  have hshift : isShiftCode key = true := by rcases hkey with rfl | rfl <;> decide
  have hmem : key ∈ (before ++ key :: after).filter isShiftCode :=
    List.mem_filter.mpr ⟨List.mem_append_right before List.mem_cons_self, hshift⟩
  intro hnone
  rw [List.getLast?_eq_none_iff.mp hnone] at hmem
  cases hmem

theorem lastShift_cases {codes : List UInt8} {sc : UInt8} (h : lastShift codes = some sc) :
    sc = 0x2A ∨ sc = 0x36 ∨ sc = 0xAA ∨ sc = 0xB6 := by
  have hshift := (List.mem_filter.mp (List.mem_of_getLast? h)).2
  simpa [isShiftCode, or_assoc] using hshift

/-- The flag is right about the keys except while one is down and the other was let
go last. -/
theorem flagAfter_right (codes : List UInt8) :
    (flagAfter false codes = true ↔ ShiftDown codes) ↔ ¬ OtherDown codes := by
  rw [flagAfter_iff]
  constructor
  · rintro hright ⟨hdown, hlast⟩
    have hpress := hright.mpr hdown
    rcases hlast with hlast | hlast
    · rw [hlast] at hpress
      exact absurd hpress (by decide)
    · rw [hlast] at hpress
      exact absurd hpress (by decide)
  · intro hnot
    constructor
    · rintro (hlast | hlast)
      · exact Or.inl (held_of_lastShift (Or.inl rfl) hlast)
      · exact Or.inr (held_of_lastShift (Or.inr rfl) hlast)
    · intro hdown
      have hsome : lastShift codes ≠ none := by
        rcases hdown with hheld | hheld
        · exact lastShift_of_held (Or.inl rfl) hheld
        · exact lastShift_of_held (Or.inr rfl) hheld
      obtain ⟨sc, hsc⟩ := Option.ne_none_iff_exists'.mp hsome
      rcases lastShift_cases hsc with rfl | rfl | rfl | rfl
      · exact Or.inl hsc
      · exact Or.inr hsc
      · exact absurd ⟨hdown, Or.inl hsc⟩ hnot
      · exact absurd ⟨hdown, Or.inr hsc⟩ hnot

section Calls

/-- All that calls in a row return on some codes, code by code. -/
def readings (history : List UInt8) (shiftHeld : Bool) : List UInt8 → List Reading
  | [] => []
  | sc :: codes =>
      match kbCode shiftHeld sc with
      | (held, none) => readings (history ++ [sc]) held codes
      | (held, some (layout, c)) => ⟨layout, c, history ++ [sc], held, codes⟩ :: readings (history ++ [sc]) held codes

/-- The calls return one reading after the other. -/
theorem kbCalls_eq (n : Nat) (history : List UInt8) (shiftHeld : Bool) (codes : List UInt8) :
    kbCalls n history shiftHeld codes = (readings history shiftHeld codes).take n := by
  induction codes generalizing n history shiftHeld with
  | nil =>
      cases n with
      | zero => rfl
      | succ n => rfl
  | cons sc codes ih =>
      cases n with
      | zero => rw [kbCalls, List.take_zero]
      | succ n =>
          rcases hcode : kbCode shiftHeld sc with ⟨held, _ | ⟨layout, c⟩⟩
          · -- the code only moves the flag: the same call goes on
            have hrest := ih (n + 1) (history ++ [sc]) held
            rw [kbCalls] at hrest
            rw [kbCalls, kbGetchar, readings, hcode]
            simp only
            rw [← hrest]
            cases kbGetchar held codes with
            | none => rfl
            | some r => simp only [Option.map_some, List.append_assoc, List.singleton_append]
          · rw [kbCalls, kbGetchar, readings, hcode]
            simp only [List.take_succ_cons, ih]

theorem mem_readings {r : Reading} {history codes : List UInt8} {shiftHeld : Bool}
    (h : r ∈ readings history shiftHeld codes) :
    ∃ before sc after, codes = before ++ sc :: after ∧ r.read = history ++ before ++ [sc] ∧
      (kbCode (flagAfter shiftHeld before) sc).2 = some (r.layout, r.char) := by
  induction codes generalizing history shiftHeld with
  | nil => cases h
  | cons b codes ih =>
      rcases hcode : kbCode shiftHeld b with ⟨held, _ | ⟨layout, c⟩⟩
      · rw [readings, hcode] at h
        obtain ⟨before, sc, after, rfl, hread, hchar⟩ := ih h
        refine ⟨b :: before, sc, after, rfl, ?_, ?_⟩
        · rw [hread, List.append_assoc history, List.singleton_append]
        · rw [flagAfter_cons, hcode]
          exact hchar
      · rw [readings, hcode] at h
        rcases List.mem_cons.mp h with rfl | hlater
        · exact ⟨[], b, codes, rfl, by rw [List.append_nil], congrArg Prod.snd hcode⟩
        · obtain ⟨before, sc, after, rfl, hread, hchar⟩ := ih hlater
          refine ⟨b :: before, sc, after, rfl, ?_, ?_⟩
          · rw [hread, List.append_assoc history, List.singleton_append]
          · rw [flagAfter_cons, hcode]
            exact hchar

theorem readings_mem {history before after : List UInt8} {sc c : UInt8} {shiftHeld : Bool} {layout : Layout}
    (h : (kbCode (flagAfter shiftHeld before) sc).2 = some (layout, c)) :
    ∃ r, r ∈ readings history shiftHeld (before ++ sc :: after) ∧ r.layout = layout ∧
      r.read = history ++ before ++ [sc] := by
  induction before generalizing history shiftHeld with
  | nil =>
      have hcode : kbCode shiftHeld sc = ((kbCode shiftHeld sc).1, some (layout, c)) := Prod.ext rfl h
      refine ⟨⟨layout, c, history ++ [sc], (kbCode shiftHeld sc).1, after⟩, ?_, rfl, ?_⟩
      · rw [List.nil_append, readings, hcode]
        exact List.mem_cons_self
      · rw [List.append_nil]
  | cons b before ih =>
      have hrest : (kbCode (flagAfter (kbCode shiftHeld b).1 before) sc).2 = some (layout, c) := h
      obtain ⟨r, hr, hlayout, hread⟩ := @ih (history ++ [b]) _ hrest
      refine ⟨r, ?_, hlayout, ?_⟩
      · rw [List.cons_append, readings]
        rcases hcode : kbCode shiftHeld b with ⟨held, _ | ⟨layout', c'⟩⟩
        · rw [hcode] at hr
          exact hr
        · rw [hcode] at hr
          exact List.mem_cons_of_mem _ hr
      · rw [hread, List.append_assoc history, List.singleton_append]

end Calls

/-- A code with a character changes no shift key. -/
theorem shiftDown_concat {codes : List UInt8} {sc : UInt8} (h : isShiftCode sc = false) :
    ShiftDown (codes ++ [sc]) ↔ ShiftDown codes := by
  have hne : ∀ key, isShiftCode key = true → sc ≠ key := by
    rintro key hkey rfl
    rw [h] at hkey
    cases hkey
  have hkeep : ∀ key, isShiftCode key = true → isShiftCode (key + 0x80) = true →
      (Held key (codes ++ [sc]) ↔ Held key codes) := by
    intro key hmake hbreak
    rw [held_concat]
    constructor
    · rintro (heq | ⟨hheld, _⟩)
      · exact absurd heq (hne key hmake)
      · exact hheld
    · exact fun hheld => Or.inr ⟨hheld, hne _ hbreak⟩
  exact or_congr (hkeep 0x2A (by decide) (by decide)) (hkeep 0x36 (by decide) (by decide))

/-- The table that a character is taken from, as the keys say. -/
def FollowsKeys (codes : List UInt8) : Prop :=
  ∀ n r, r ∈ kbCalls n [] false codes → (r.layout = .shifted ↔ ShiftDown r.read)

/-- A code comes in whose unshifted entry is a character, while one shift key is
down and the other was let go last. -/
def TypedAfterRelease (codes : List UInt8) : Prop :=
  ∃ before sc after, codes = before ++ sc :: after ∧ OtherDown before ∧ character .plain sc ≠ 0

/-- Characters come from the table that the keys ask for exactly on the codes where
nothing is typed between the release of one shift key and that of the other. -/
theorem shift_follows_keys (codes : List UInt8) : FollowsKeys codes ↔ ¬ TypedAfterRelease codes := by
  constructor
  · rintro hfollows ⟨before, sc, after, rfl, hother, hchar⟩
    have hflag : flagAfter false before = false := by
      rw [← Bool.not_eq_true, flagAfter_iff]
      rintro (hlast | hlast) <;> rcases hother.2 with hrelease | hrelease <;>
        exact absurd (hlast.symm.trans hrelease) (by decide)
    have hcode : (kbCode (flagAfter false before) sc).2 = some (.plain, character .plain sc) := by
      rw [kbCode_char, hflag]
      exact if_pos hchar
    obtain ⟨r, hr, hlayout, hread⟩ := @readings_mem [] before after sc _ false .plain hcode
    obtain ⟨i, hi, hget⟩ := List.mem_iff_getElem.mp hr
    have hcall : r ∈ kbCalls (i + 1) [] false (before ++ sc :: after) := by
      rw [kbCalls_eq, ← hget]
      exact List.mem_take_iff_getElem.mpr ⟨i, by omega, rfl⟩
    have hshift : isShiftCode sc = false := by
      rw [← Bool.not_eq_true]
      exact fun hshift => hchar (character_of_shift .plain sc hshift)
    have hdown : ShiftDown r.read := by
      rw [hread]
      exact (shiftDown_concat hshift).mpr hother.1
    have := (hfollows (i + 1) r hcall).mpr hdown
    rw [hlayout] at this
    cases this
  · intro hnone n r hr
    rw [kbCalls_eq] at hr
    obtain ⟨before, sc, after, rfl, hread, hcode⟩ := mem_readings (List.mem_of_mem_take hr)
    obtain ⟨hlayout, hchar⟩ := kbCode_some hcode
    have hshift : isShiftCode sc = false := by
      rw [← Bool.not_eq_true]
      exact fun hshift => hchar (character_of_shift _ sc hshift)
    rw [hread, List.nil_append, shiftDown_concat hshift]
    cases hflag : flagAfter false before with
    | true =>
        have hlast := (flagAfter_iff before).mp hflag
        rw [hflag] at hlayout
        exact iff_of_true hlayout (hlast.imp (held_of_lastShift (Or.inl rfl)) (held_of_lastShift (Or.inr rfl)))
    | false =>
        have hplain : r.layout = .plain := by rw [hlayout, hflag]; rfl
        rw [hplain] at hchar ⊢
        refine iff_of_false (by decide) (fun hdown => ?_)
        -- the flag is down with a key still held: the character is one typed there
        have hother : OtherDown before := by
          by_contra hnot
          exact absurd (((flagAfter_right before).mpr hnot).mpr hdown) (by rw [hflag]; decide)
        exact hnone ⟨before, sc, after, rfl, hother, hchar⟩

/-- Both shift keys down, the left one let go, then the A key: `'a'` is returned with
the right one still held. -/
theorem shift_left_behind : ¬ FollowsKeys [0x2A, 0x36, 0xAA, 0x1E] := by
  intro hfollows
  have hr : (⟨.plain, 97, [0x2A, 0x36, 0xAA, 0x1E], false, []⟩ : Reading) ∈
      kbCalls 1 [] false [0x2A, 0x36, 0xAA, 0x1E] := by decide
  have hdown : ShiftDown [0x2A, 0x36, 0xAA, 0x1E] := by decide
  have := (hfollows 1 _ hr).mpr hdown
  cases this

end SengKernel.Kbd
