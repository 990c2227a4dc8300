import Rizzos.BasicGraphics
import Rizzos.StepRuns

set_option autoImplicit false

/-! The keyboard of `userinput/keyboard.c` and the table of `kb_scancode_translation.c`. -/
namespace Rizzos.Keyboard
open ByteMemory BootFiles BasicGraphics StepRuns

def uiKbLeftShift : Byte := 0x2A
def uiKbRightShift : Byte := 0x36
def uiKbEnter : Byte := 0x1C
def uiKbBackspace : Byte := 0x0E
def uiKbSpacebar : Byte := 0x39

/-- The characters of a row of the source's table stand on a line. -/
def uiKbQwertyAsciiTable : List Byte :=
  [0, 0, 49, 50,
   51, 52, 53, 54,
   55, 56, 57, 48,
   45, 61, 0, 0,
   113, 119, 101, 114,
   116, 121, 117, 105,
   111, 112, 91, 93,
   0, 0, 97, 115,
   100, 102, 103, 104,
   106, 107, 108, 59,
   39, 96, 0, 92,
   122, 120, 99, 118,
   98, 110, 109, 44,
   46, 47, 0, 42,
   0, 32]

/-- The two shift keys and the screen. `indices` and `typed` are histories, newest first: the
    indices used on the table, and the scancodes that called `BG_PutChar` with the character. -/
structure KeyboardState where
  isLeftShiftPressed : Bool
  isRightShiftPressed : Bool
  graphics : Graphics
  indices : List ℕ
  typed : List (Byte × Byte)

def initialKeyboard (graphics : Graphics) : KeyboardState :=
  ⟨false, false, { graphics with fontRead := [] }, [], []⟩

def KeyboardState.shift (s : KeyboardState) : Bool := s.isLeftShiftPressed || s.isRightShiftPressed

def tableAt (behind : Byte) (scancode : Byte) : Byte :=
  uiKbQwertyAsciiTable.getD scancode.toNat behind

/-- The character, and the index used if the table is read. -/
def uiKbQwertyTranslate (behind scancode : Byte) (uppercase : Bool) : Byte × List ℕ :=
  if scancode > 58 then (0, [])
  else if uppercase then (tableAt behind scancode - 32, [scancode.toNat])
  else (tableAt behind scancode, [scancode.toNat])

section Handler
variable (fb : FrameBuffer) (font : Psf1Font) (behind : Byte)

def putTyped (s : KeyboardState) (scancode chr : Byte) : KeyboardState :=
  { s with graphics := bgPutChar fb font chr s.graphics, typed := (scancode, chr) :: s.typed }

def uiHandleKeyboard (s : KeyboardState) (scancode : Byte) : KeyboardState :=
  if scancode = uiKbLeftShift then { s with isLeftShiftPressed := true }
  else if scancode = uiKbLeftShift + 0x80 then { s with isLeftShiftPressed := false }
  else if scancode = uiKbRightShift then { s with isRightShiftPressed := true }
  else if scancode = uiKbRightShift + 0x80 then { s with isRightShiftPressed := false }
  else if scancode = uiKbEnter then { s with graphics := bgNextLine fb s.graphics }
  else if scancode = uiKbSpacebar then putTyped fb font s scancode 32
  else if scancode = uiKbBackspace then { s with graphics := bgClearChar fb s.graphics }
  else
    let (ascii, indices) := uiKbQwertyTranslate behind scancode s.shift
    let s := { s with indices := indices ++ s.indices }
    if ascii ≠ 0 then putTyped fb font s scancode ascii else s

def handleScancodes (scancodes : List Byte) (s : KeyboardState) :
    KeyboardState :=
  scancodes.foldl (uiHandleKeyboard fb font behind) s

end Handler

/-! ### What a key leaves in the histories -/

/-- The keys that do not go through the table. -/
def specialKeys : List Byte :=
  [uiKbLeftShift, uiKbLeftShift + 0x80, uiKbRightShift, uiKbRightShift + 0x80, uiKbEnter,
    uiKbBackspace]

def keyChar (behind : Byte) (shift : Bool) (scancode : Byte) : Option Byte :=
  if scancode ∈ specialKeys then none
  else if scancode = uiKbSpacebar then some 32
  else
    let ascii := (uiKbQwertyTranslate behind scancode shift).1
    if ascii ≠ 0 then some ascii else none

def keyIndex (scancode : Byte) : Option ℕ :=
  if scancode ∈ specialKeys ∨ scancode = uiKbSpacebar ∨ scancode > 58 then none
  else some scancode.toNat

def glyphReads (font : Psf1Font) (chr : Byte) : List ℤ :=
  ((cells 8 16).map fun cell => fontPtr font chr + cell.y).reverse

section Effects
variable {fb : FrameBuffer} {font : Psf1Font}

theorem clearIfFull_fontRead (s : Graphics) : (clearIfFull fb s).fontRead = s.fontRead := by
  unfold clearIfFull clearBuffer
  split
  · rw [bgClearBg_eq]
    rfl
  · rfl

theorem bgPutChar_fontRead (chr : Byte) (s : Graphics) :
    (bgPutChar fb font chr s).fontRead = glyphReads font chr ++ s.fontRead := by
  unfold bgPutChar
  dsimp only
  rw [clearIfFull_fontRead, foldl_putCharCell]
  rfl

theorem bgNextLine_fontRead (s : Graphics) : (bgNextLine fb s).fontRead = s.fontRead :=
  clearIfFull_fontRead _

theorem bgClearChar_fontRead (s : Graphics) : (bgClearChar fb s).fontRead = s.fontRead := by
  unfold bgClearChar
  split
  · rw [foldl_clearCharCell]
    rfl
  · rfl

structure Effect (font : Psf1Font) (chr : Option Byte) (index : Option ℕ) (scancode : Byte)
    (s s' : KeyboardState) : Prop where
  indices : s'.indices = index.toList ++ s.indices
  typed : s'.typed = (chr.map fun c => (scancode, c)).toList ++ s.typed
  fontRead : s'.graphics.fontRead = chr.elim [] (glyphReads font) ++ s.graphics.fontRead

theorem effect_none {s s' : KeyboardState} {scancode : Byte} (hindices : s'.indices = s.indices)
    (htyped : s'.typed = s.typed) (hread : s'.graphics.fontRead = s.graphics.fontRead) :
    Effect font none none scancode s s' := ⟨hindices, htyped, hread⟩

theorem effect_putTyped (s : KeyboardState) (scancode chr : Byte) :
    Effect font (some chr) none scancode s (putTyped fb font s scancode chr) :=
  ⟨rfl, rfl, bgPutChar_fontRead chr s.graphics⟩

theorem effect_translated (behind : Byte) (s : KeyboardState) (scancode : Byte) :
    Effect font (if (uiKbQwertyTranslate behind scancode s.shift).1 ≠ 0 then
        some (uiKbQwertyTranslate behind scancode s.shift).1 else none)
      (if scancode > 58 then none else some scancode.toNat) scancode s
      (let (ascii, indices) := uiKbQwertyTranslate behind scancode s.shift
       let s := { s with indices := indices ++ s.indices }
       if ascii ≠ 0 then putTyped fb font s scancode ascii else s) := by
  have hindices : (uiKbQwertyTranslate behind scancode s.shift).2 =
      (if scancode > 58 then none else some scancode.toNat).toList := by
    unfold uiKbQwertyTranslate
    split
    · rfl
    · split <;> rfl
  dsimp only
  split
  · exact ⟨congrArg (· ++ s.indices) hindices, rfl, bgPutChar_fontRead _ s.graphics⟩
  · exact ⟨congrArg (· ++ s.indices) hindices, rfl, rfl⟩

theorem uiHandleKeyboard_effect (behind : Byte) (s : KeyboardState) (scancode : Byte) :
    Effect font (keyChar behind s.shift scancode) (keyIndex scancode) scancode s
      (uiHandleKeyboard fb font behind s scancode) := by
  by_cases hspecial : scancode ∈ specialKeys
  · rw [keyChar, keyIndex, if_pos hspecial, if_pos (.inl hspecial)]
    simp only [specialKeys, List.mem_cons, List.not_mem_nil, or_false] at hspecial
    rcases hspecial with rfl | rfl | rfl | rfl | rfl | rfl
    · exact effect_none rfl rfl rfl
    · exact effect_none rfl rfl rfl
    · exact effect_none rfl rfl rfl
    · exact effect_none rfl rfl rfl
    · exact effect_none rfl rfl (bgNextLine_fontRead s.graphics)
    · exact effect_none rfl rfl (bgClearChar_fontRead s.graphics)
  · have hindex : keyIndex scancode =
        if scancode = uiKbSpacebar ∨ scancode > 58 then none else some scancode.toNat :=
      if_congr (or_iff_right hspecial) rfl rfl
    rw [keyChar, hindex, if_neg hspecial, uiHandleKeyboard]
    simp only [specialKeys, List.mem_cons, List.not_mem_nil, or_false, not_or] at hspecial
    obtain ⟨hl, hl', hr, hr', he, hb⟩ := hspecial
    rw [if_neg hl, if_neg hl', if_neg hr, if_neg hr', if_neg he]
    by_cases hspace : scancode = uiKbSpacebar
    · rw [if_pos hspace, if_pos hspace, if_pos (.inl hspace)]
      exact effect_putTyped s scancode 32
    · rw [if_neg hspace, if_neg hspace, if_neg hb, if_congr (or_iff_right hspace) rfl rfl]
      exact effect_translated behind s scancode

end Effects

/-! ### What a key reads -/

/-- The entry of the table for a key, zero for the keys behind it. -/
def entry (scancode : Byte) : Byte := uiKbQwertyAsciiTable.getD scancode.toNat 0

/-- All that was read so far lies inside: the indices in the table, the glyph rows in the
    buffer, and no key with the entry zero has put a character on the screen. -/
structure TypingSafe (font : Psf1Font) (s : KeyboardState) : Prop where
  indices : ∀ i ∈ s.indices, i < uiKbQwertyAsciiTable.length
  typed : ∀ key ∈ s.typed, entry key.1 ≠ 0
  reads : ∀ offset ∈ s.graphics.fontRead, 0 ≤ offset ∧ offset < glyphBufferSize font.psfHeader

/-- The keys with the entry zero that nothing special is done for: an unused code, escape, tab,
    control and alt. -/
def zeroKeys : List Byte := [0, 1, 15, 29, 56]

/-- What keeps the reads of a key inside: it is not the key behind the table, it is not a key
    with the entry zero while a shift is held, and if it types, the glyphs have a row. -/
def KeySafe (font : Psf1Font) (shift : Bool) (scancode : Byte) : Prop :=
  scancode ≠ 58 ∧ ¬ (shift ∧ scancode ∈ zeroKeys) ∧
  (entry scancode ≠ 0 → 1 ≤ font.psfHeader.charsize.toNat)

/-- Every key of a run is safe with the shift keys as they are when it comes. -/
def RunSafe (fb : FrameBuffer) (font : Psf1Font) (behind : Byte) : KeyboardState → List Byte → Prop
  | _, [] => True
  | s, scancode :: scancodes => KeySafe font s.shift scancode ∧
      RunSafe fb font behind (uiHandleKeyboard fb font behind s scancode) scancodes

section Safety
variable {fb : FrameBuffer} {font : Psf1Font}

theorem glyphReads_inside_iff {chr : Byte} (hlo : 0 < chr.toInt) (hhi : chr.toInt ≤ 122) :
    (∀ offset ∈ glyphReads font chr, 0 ≤ offset ∧ offset < glyphBufferSize font.psfHeader) ↔
      1 ≤ font.psfHeader.charsize.toNat := by
  have hbuffer : font.psfHeader.charsize.toNat * 256 ≤ glyphBufferSize font.psfHeader ∧
      (font.psfHeader.charsize.toNat = 0 → glyphBufferSize font.psfHeader = 0) := by
    unfold glyphBufferSize
    split <;> omega
  unfold glyphReads fontPtr
  generalize font.psfHeader.charsize.toNat = charsize at hbuffer ⊢
  simp only [List.mem_reverse, List.forall_mem_map]
  constructor
  · intro h
    have hfirst := (h ⟨0, 0⟩ (mem_cells.2 (by decide))).2
    rcases Nat.eq_zero_or_pos charsize with hzero | hpos
    · rw [hzero, hbuffer.2 hzero, Nat.cast_zero, mul_zero] at hfirst
      exact absurd hfirst (by decide)
    · exact hpos
  · intro hpos cell hcell
    have hrow := (mem_cells.1 hcell).2
    have hscale : chr.toInt * charsize ≤ 122 * charsize := by
      gcongr
    have hstart : 0 ≤ chr.toInt * charsize := by positivity
    constructor
    · omega
    · omega

/-- What stands behind the table matters for one key only. -/
theorem keyChar_behind (behind : Byte) (shift : Bool) {scancode : Byte} (hkey : scancode ≠ 58) :
    keyChar behind shift scancode = keyChar 0 shift scancode := by
  have htranslate : uiKbQwertyTranslate behind scancode shift =
      uiKbQwertyTranslate 0 scancode shift := by
    unfold uiKbQwertyTranslate
    by_cases hgt : scancode > 58
    · rw [if_pos hgt, if_pos hgt]
    · have hlt : scancode.toNat < uiKbQwertyAsciiTable.length := by
        change scancode.toNat < 58
        have hle : scancode.toNat ≤ 58 := Nat.le_of_not_lt hgt
        have hne : scancode.toNat ≠ 58 := fun h => hkey (BitVec.eq_of_toNat_eq h)
        omega
      have hread : tableAt behind scancode = tableAt 0 scancode := by
        rw [tableAt, tableAt, List.getD_eq_getElem?_getD, List.getD_eq_getElem?_getD,
          List.getElem?_eq_getElem hlt]
        rfl
      rw [hread]
  unfold keyChar
  rw [htranslate]

theorem keyChar_letter (shift : Bool) {scancode : Byte} (hkey : scancode ≠ 58)
    (hzero : ¬ (shift ∧ scancode ∈ zeroKeys)) :
    ∀ c ∈ keyChar 0 shift scancode, entry scancode ≠ 0 ∧ 0 < c.toInt ∧ c.toInt ≤ 122 := by
  have h : ∀ shift : Bool, ∀ n < 256, BitVec.ofNat 8 n ≠ 58#8 →
      ¬ (shift ∧ BitVec.ofNat 8 n ∈ zeroKeys) → (keyChar 0 shift (BitVec.ofNat 8 n)).all fun c =>
      entry (BitVec.ofNat 8 n) ≠ 0 ∧ 0 < c.toInt ∧ c.toInt ≤ 122 := by decide +kernel
  intro c hc
  have hall := h shift scancode.toNat scancode.isLt
  rw [BitVec.ofNat_toNat, BitVec.setWidth_eq, Option.mem_def.1 hc] at hall
  have hall := hall hkey hzero
  exact of_decide_eq_true hall

theorem keyChar_isSome (shift : Bool) {scancode : Byte} (hkey : scancode ≠ 58)
    (hentry : entry scancode ≠ 0) : (keyChar 0 shift scancode).isSome := by
  have h : ∀ shift : Bool, ∀ n < 256, BitVec.ofNat 8 n ≠ 58#8 → entry (BitVec.ofNat 8 n) ≠ 0 →
      (keyChar 0 shift (BitVec.ofNat 8 n)).isSome := by decide +kernel
  have hall := h shift scancode.toNat scancode.isLt
  rw [BitVec.ofNat_toNat, BitVec.setWidth_eq] at hall
  exact hall hkey hentry

theorem keyIndex_lt {scancode : Byte} (hkey : scancode ≠ 58) :
    ∀ i ∈ keyIndex scancode, i < uiKbQwertyAsciiTable.length := by
  have hne : scancode.toNat ≠ 58 := fun h => hkey (BitVec.eq_of_toNat_eq h)
  intro i hi
  unfold keyIndex at hi
  split at hi
  · exact absurd hi (Option.not_mem_none i)
  · rename_i hplain
    push Not at hplain
    have hle : scancode.toNat ≤ 58 := Nat.le_of_not_lt hplain.2.2
    rw [← Option.some.inj hi]
    change scancode.toNat < 58
    omega

/-- With a shift held, a key with the entry zero types. -/
theorem keyChar_zeroKey {scancode : Byte} (h : scancode ∈ zeroKeys) :
    entry scancode = 0 ∧ (keyChar 0 true scancode).isSome := by
  have hall : ∀ b ∈ zeroKeys, entry b = 0 ∧ (keyChar 0 true b).isSome := by decide
  exact hall scancode h

theorem keySafe_iff (behind : Byte) (shift : Bool) (scancode : Byte) :
    ((∀ i ∈ keyIndex scancode, i < uiKbQwertyAsciiTable.length) ∧
      (∀ c ∈ keyChar behind shift scancode, entry scancode ≠ 0) ∧
      ∀ c ∈ keyChar behind shift scancode, ∀ offset ∈ glyphReads font c,
        0 ≤ offset ∧ offset < glyphBufferSize font.psfHeader) ↔ KeySafe font shift scancode := by
  unfold KeySafe
  by_cases hkey : scancode = 58
  · rw [hkey]
    apply iff_of_false
    · exact fun h => absurd (h.1 58 (by decide)) (by decide)
    · exact fun h => h.1 rfl
  · rw [keyChar_behind behind shift hkey]
    by_cases hzero : shift ∧ scancode ∈ zeroKeys
    · obtain ⟨hentry, hsome⟩ := keyChar_zeroKey hzero.2
      obtain ⟨c, hc⟩ := Option.isSome_iff_exists.1 hsome
      rw [hzero.1]
      apply iff_of_false
      · exact fun h => h.2.1 c hc hentry
      · exact fun h => h.2.1 ⟨rfl, hzero.2⟩
    · have hletter := keyChar_letter shift hkey hzero
      constructor
      · rintro ⟨-, -, hreads⟩
        refine ⟨hkey, hzero, fun hentry => ?_⟩
        obtain ⟨c, hc⟩ := Option.isSome_iff_exists.1 (keyChar_isSome shift hkey hentry)
        obtain ⟨_, hlo, hhi⟩ := hletter c hc
        exact (glyphReads_inside_iff hlo hhi).1 (hreads c hc)
      · rintro ⟨-, -, hsize⟩
        refine ⟨keyIndex_lt hkey, fun c hc => (hletter c hc).1, fun c hc => ?_⟩
        obtain ⟨hentry, hlo, hhi⟩ := hletter c hc
        exact (glyphReads_inside_iff hlo hhi).2 (hsize hentry)

/-- One key keeps all reads inside exactly when it is safe. -/
theorem typingSafe_step_iff (behind : Byte) (s : KeyboardState) (scancode : Byte) :
    TypingSafe font (uiHandleKeyboard fb font behind s scancode) ↔
      KeySafe font s.shift scancode ∧ TypingSafe font s := by
  have heffect : Effect font (keyChar behind s.shift scancode) (keyIndex scancode) scancode s
      (uiHandleKeyboard fb font behind s scancode) := uiHandleKeyboard_effect behind s scancode
  rw [← keySafe_iff behind]
  have hsplit : TypingSafe font (uiHandleKeyboard fb font behind s scancode) ↔
      ((∀ i ∈ (keyIndex scancode).toList, i < uiKbQwertyAsciiTable.length) ∧
        ∀ i ∈ s.indices, i < uiKbQwertyAsciiTable.length) ∧
      ((∀ key ∈ ((keyChar behind s.shift scancode).map fun c => (scancode, c)).toList,
        entry key.1 ≠ 0) ∧ ∀ key ∈ s.typed, entry key.1 ≠ 0) ∧
      ((∀ offset ∈ (keyChar behind s.shift scancode).elim [] (glyphReads font),
        0 ≤ offset ∧ offset < glyphBufferSize font.psfHeader) ∧
        ∀ offset ∈ s.graphics.fontRead,
          0 ≤ offset ∧ offset < glyphBufferSize font.psfHeader) := by
    rw [← List.forall_mem_append, ← List.forall_mem_append, ← List.forall_mem_append,
      ← heffect.indices, ← heffect.typed, ← heffect.fontRead]
    exact ⟨fun h => ⟨h.indices, h.typed, h.reads⟩, fun h => ⟨h.1, h.2.1, h.2.2⟩⟩
  rw [hsplit]
  cases keyChar behind s.shift scancode with
  | none =>
    constructor
    · rintro ⟨⟨hindex, hindices⟩, ⟨-, htyped⟩, -, hreads⟩
      exact ⟨⟨by simpa using hindex, by simp, by simp⟩, hindices, htyped, hreads⟩
    · rintro ⟨⟨hindex, -, -⟩, hindices, htyped, hreads⟩
      exact ⟨⟨by simpa using hindex, hindices⟩, ⟨by simp, htyped⟩, by simp, hreads⟩
  | some c =>
    constructor
    · rintro ⟨⟨hindex, hindices⟩, ⟨hentry, htyped⟩, hread, hreads⟩
      exact ⟨⟨by simpa using hindex, by simpa using hentry, by simpa using hread⟩, hindices,
        htyped, hreads⟩
    · rintro ⟨⟨hindex, hentry, hread⟩, hindices, htyped, hreads⟩
      exact ⟨⟨by simpa using hindex, hindices⟩, ⟨by simpa using hentry, htyped⟩,
        by simpa using hread, hreads⟩

theorem typingSafe_run_iff (behind : Byte) (scancodes : List Byte) (s : KeyboardState) :
    TypingSafe font (handleScancodes fb font behind scancodes s) ↔
      RunSafe fb font behind s scancodes ∧ TypingSafe font s := by
  have hstep : ∀ s scancode, True → (TypingSafe font (uiHandleKeyboard fb font behind s scancode) ↔
      KeySafe font s.shift scancode ∧ TypingSafe font s) :=
    fun s scancode _ => typingSafe_step_iff behind s scancode
  exact @foldl_good_iff _ _ _ _ (fun _ => True) _ (RunSafe fb font behind) (fun _ => trivial)
    (fun _ _ _ => Iff.rfl) (fun _ _ _ => trivial) hstep scancodes s trivial

end Safety

/-- Typing stays in the tables when the key behind the table is not used, no key without a
    character is used while a shift is held, and the glyphs have a row. -/
theorem handleScancodes_typingSafe_iff (fb : FrameBuffer) (font : Psf1Font) (behind : Byte)
    (graphics : Graphics) (scancodes : List Byte) :
    TypingSafe font (handleScancodes fb font behind scancodes (initialKeyboard graphics)) ↔
      RunSafe fb font behind (initialKeyboard graphics) scancodes := by
  have hstart : TypingSafe font (initialKeyboard graphics) :=
    ⟨fun _ h => absurd h List.not_mem_nil, fun _ h => absurd h List.not_mem_nil,
      fun _ h => absurd h List.not_mem_nil⟩
  rw [typingSafe_run_iff, and_iff_left hstart]

/-- A screen of 640 by 480 pixels, and a font with glyphs of 16 rows. -/
def textScreen : FrameBuffer := ⟨1228800, 640, 480, 640, by decide, by decide⟩
def textFont : Psf1Font := ⟨⟨psf1Magic0, psf1Magic1, 0, 16⟩, fun _ => 0⟩

/-- Caps lock reads behind the table, and escape draws something while a shift is held. -/
theorem not_typingSafe_keys :
    ¬ TypingSafe textFont (handleScancodes textScreen textFont 0 [0x3A]
      (initialKeyboard (initialGraphics fun _ => 0))) ∧
    ¬ TypingSafe textFont (handleScancodes textScreen textFont 0 [0x2A, 0x01]
      (initialKeyboard (initialGraphics fun _ => 0))) := by
  rw [typingSafe_run_iff, typingSafe_run_iff]
  constructor
  · exact fun h => h.1.1.1 rfl
  · exact fun h => h.1.2.1.2.1 (by decide)

end Rizzos.Keyboard
