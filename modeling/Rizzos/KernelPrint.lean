import Rizzos.CursorTransparency
import Rizzos.SprintfReading

set_option autoImplicit false

/-!
# What the kernel prints

`print` of `graphics/basic_graphics.c` writes its text to an array of 512 characters and puts it on
the console. All calls of the kernel are here, those of `Panic` at the end.
-/
namespace Rizzos.KernelPrint
open ByteMemory BootFiles CInt Numerals StbSprintf SprintfNumbers SprintfCopy SprintfFormat
open SprintfReading BasicGraphics ConsoleBounds CursorTransparency ScatteredWrites

def charOp (c : Byte) : ConsoleOp :=
  if c = ch '\n' then .nextLine else if c = ch '\t' then .putTab else .putChar c

/-- The loop over `str` ends at the first zero. -/
def printOps (text : List Byte) : List ConsoleOp := (text.takeWhile fun c => c ≠ 0#8).map charOp

def strSize : ℕ := 512

section Print
variable (fb : FrameBuffer) (font : Psf1Font) (m : Mem) (buf : ℕ)

/-- `str` is at `buf`. There is no result when the text with its zero does not fit. -/
def print (va : ℕ → BitVec 64) (fmt fuel : ℕ) (s : Graphics) : Option Graphics := do
  let r ← stbspVsprintf m buf va fmt fuel
  if r.out.length < strSize then some (consoleRun fb font (printOps r.out) s) else none

def bgSetBgColor (color : Color) (s : Graphics) : Graphics := { s with bgColor := color }

structure PanicTexts where
  notice : ℕ
  title : ℕ
  error : ℕ
  message : BitVec 64

def panic (texts : PanicTexts) (fuel : ℕ) (s : Graphics) : Option Graphics := do
  let s := bgSetBgColor 0xFF2B1E19 s
  let s := bgClearBg fb s
  let s := bgResetCursor s
  let s ← print fb font m buf (fun _ => 0) texts.notice fuel s
  let s ← print fb font m buf (fun _ => 0) texts.title fuel s
  print fb font m buf (fun _ => texts.message) texts.error fuel s

end Print

/-! ### The calls -/

/-- The calls of `print` with their arguments. The first line of `Panic` is any text without a
    conversion. -/
inductive PrintCall where
  | hello
  | initialized
  | device (vendorID deviceID : BitVec 16)
  | buffer
  | rootDirectory (sector : BitVec 32)
  | byte (value : Byte)
  | notice (text : List Byte)
  | title
  | error (message : List Byte)
deriving DecidableEq, Repr

def PrintCall.format : PrintCall → List Byte
  | .hello => "Hello World From Kernel!\n".toList.map ch
  | .initialized => "Kernel Initialized.\n".toList.map ch
  | .device _ _ => "venderID: %X, DeviceID: %d\n".toList.map ch
  | .buffer => "printing the buffer!\n".toList.map ch
  | .rootDirectory _ => "first root dir sector: %d\n".toList.map ch
  | .byte _ => "%X ".toList.map ch
  | .notice text => text
  | .title => "---- KERNEL PANIC ----\n".toList.map ch
  | .error _ => "Error: %s\n".toList.map ch

/-- The arguments as the call passes them: what is narrower than an `int` has become one. -/
def PrintCall.Passes (m : Mem) (va : ℕ → BitVec 64) : PrintCall → Prop
  | .device vendorID deviceID =>
      (va 0).setWidth 32 = vendorID.setWidth 32 ∧ (va 1).setWidth 32 = deviceID.setWidth 32
  | .rootDirectory sector => (va 0).setWidth 32 = sector
  | .byte value => (va 0).setWidth 32 = value.setWidth 32
  | .notice text => ch '%' ∉ text ∧ text.length < strSize
  | .error message => va 0 ≠ 0 ∧ TextAt m (va 0).toNat message ∧ message.length + 8 < strSize
  | _ => True

def upperHex (n : ℕ) : List Byte :=
  numeral (fun d => hexu.getD d 0) false 4 16 (digitCount 16 n) n

def signedDecimal (x : ℤ) : List Byte :=
  (if x < 0 then [ch '-'] else []) ++ numeral decimalChar false 3 10 (digitCount 10 x.natAbs) x.natAbs

/-- A sector from 2^31 on is printed as a negative number. -/
def PrintCall.text : PrintCall → List Byte
  | .device vendorID deviceID => "venderID: ".toList.map ch ++ (upperHex vendorID.toNat ++
      (", DeviceID: ".toList.map ch ++ (signedDecimal deviceID.toNat ++ [ch '\n'])))
  | .rootDirectory sector => "first root dir sector: ".toList.map ch ++
      (signedDecimal sector.toInt ++ [ch '\n'])
  | .byte value => upperHex value.toNat ++ [ch ' ']
  | .error message => "Error: ".toList.map ch ++ (message ++ [ch '\n'])
  | call => call.format

section Calls
variable {m : Mem} {va : ℕ → BitVec 64}

theorem Formats.text (xs : List Byte) {cs t : List Byte} {i n : ℕ} {k : List (ℕ × ℤ)}
    (hxs : ch '%' ∉ xs) (h : Formats m va cs i (n + xs.length) t k) : Formats m va (xs ++ cs) i n (xs ++ t) k := by
  induction xs generalizing n with
  | nil => exact h
  | cons x xs ih =>
    obtain ⟨hx, hrest⟩ := not_or.1 (List.mem_cons.not.1 hxs)
    refine .literal (Ne.symm hx) (ih hrest ?_)
    rwa [List.length_cons, ← Nat.add_assoc, Nat.add_right_comm] at h

theorem Formats.plain {c : Byte} {rest t text : List Byte} {i n : ℕ} {k : List (ℕ × ℤ)}
    (hmodifiers : modifiersOf va (c :: rest) i = ⟨{}, 0, -1, i, c :: rest⟩)
    (hv : meaning m va c {} 0 (-1) i = some ⟨text, none, 1⟩)
    (h : Formats m va rest (i + 1) (n + text.length) t k) :
    Formats m va (ch '%' :: c :: rest) i n (text ++ t) k := by
  have hrest : (modifiersOf va (c :: rest) i).rest = c :: rest := by rw [hmodifiers]
  refine Formats.conversion (k := k) hrest (v := ⟨text, none, 1⟩) ?_ ?_
  · rw [hmodifiers]
    exact hv
  · rw [hmodifiers]
    exact h

theorem layout_plain (negative : Bool) (lead s : List Byte) (group : ℕ) :
    layout { negative := negative } 0 0 lead s group = lead ++ s := by
  simp [layout, fill]

theorem meaning_upperHex {i n : ℕ} (h : ((va i).setWidth 32).toNat = n) :
    meaning m va (ch 'X') {} 0 (-1) i = some ⟨upperHex n, none, 1⟩ := by
  have hn : unsignedArg va {} i = n := h
  have hlt : n < 2 ^ 64 := hn ▸ unsignedArg_lt _ _
  have hcount : radixCount false hexadecimal (-1) n = digitCount 16 n := max_eq_left (Nat.zero_le _)
  have hshort := (radix_too_long_iff (.inr (.inr rfl)) hlt (fun d => hexu.getD d 0) false (-1)).not.2
    (by decide)
  rw [hcount] at hshort
  change radixMeaning va hexu hexadecimal [] {} 0 (-1) i = _
  rw [radixMeaning, hn]
  dsimp only
  rw [hcount, if_neg (by omega), if_pos (not_lt.1 hshort)]
  change some (⟨layout {} 0 0 (if n = 0 then [] else []) (upperHex n) 4, none, 1⟩ : Meaning) = _
  rw [show layout {} 0 0 _ (upperHex n) 4 = _ from layout_plain false _ _ 4, ite_self,
    List.nil_append]

theorem meaning_signedDecimal {i : ℕ} {x : ℤ} (h : ((va i).setWidth 32).toInt = x) :
    meaning m va (ch 'd') {} 0 (-1) i = some ⟨signedDecimal x, none, 1⟩ := by
  have harg : integerArg va true {} i = (x.natAbs, decide (x < 0)) := by
    have hvalue := magnitude_value ((va i).setWidth 32) true
    rw [h] at hvalue
    change (if true = true ∧ ((va i).setWidth 32).toInt < 0 then
      ((-(va i).setWidth 32).toNat, true) else (((va i).setWidth 32).toNat, false)) = _
    rw [h]
    by_cases hneg : x < 0
    · rw [if_pos ⟨rfl, hneg⟩] at hvalue ⊢
      rw [decide_eq_true hneg]
      simp only [if_true] at hvalue
      congr 1
      omega
    · rw [if_neg fun hboth => hneg hboth.2] at hvalue ⊢
      rw [decide_eq_false hneg]
      simp only [Bool.false_eq_true, if_false, if_true] at hvalue
      congr 1
      omega
  change integerMeaning va true {} 0 (-1) i = _
  rw [integerMeaning, harg]
  change some (⟨layout { negative := decide (x < 0) } 0 0 _ _ 3, none, 1⟩ : Meaning) = _
  rw [layout_plain, signedDecimal]
  by_cases hneg : x < 0
  · simp [leadSign, hneg]
  · simp [leadSign, hneg]

theorem stringAt_textAt {a limit : ℕ} {cs : List Byte} (h : TextAt m a cs)
    (hlimit : cs.length ≤ limit) : stringAt m limit a = cs := by
  induction cs generalizing a limit with
  | nil =>
    have hend : load8 m a = 0#8 := h
    cases limit with
    | zero => rfl
    | succ limit => rw [stringAt, if_pos hend]
  | cons c cs ih =>
    obtain ⟨limit, rfl⟩ : ∃ n, limit = n + 1 := ⟨limit - 1, by rw [List.length_cons] at hlimit; omega⟩
    rw [stringAt, h.1, if_neg h.2.1, ih h.2.2 (Nat.le_of_succ_le_succ hlimit)]

theorem meaning_string {i : ℕ} {message : List Byte} (hnull : va i ≠ 0)
    (h : TextAt m (va i).toNat message) (hlength : message.length + 8 < strSize) :
    meaning m va (ch 's') {} 0 (-1) i = some ⟨message, none, 1⟩ := by
  have hstring : stringAt m (2 ^ 32 - 1) (va i).toNat = message := by
    apply stringAt_textAt h
    rw [strSize] at hlength
    omega
  change some (⟨layout {} 0 0 [] (if va i = 0 then _ else stringAt m (2 ^ 32 - 1) (va i).toNat) 0,
    none, 1⟩ : Meaning) = _
  rw [if_neg hnull, hstring, show layout {} 0 0 [] message 0 = _ from layout_plain false [] _ 0,
    List.nil_append]

/-- The text of a call is what its format stands for with its arguments. -/
theorem formats_call {call : PrintCall} (h : call.Passes m va) :
    Formats m va call.format 0 0 call.text [] := by
  have hliteral : ∀ (xs : List Byte) (i n : ℕ), ch '%' ∉ xs → Formats m va xs i n xs [] := by
    intro xs i n hxs
    have htext : Formats m va (xs ++ []) i n (xs ++ []) [] := Formats.text xs hxs .done
    rwa [List.append_nil] at htext
  cases call with
  | hello => exact hliteral _ 0 0 (by decide)
  | initialized => exact hliteral _ 0 0 (by decide)
  | buffer => exact hliteral _ 0 0 (by decide)
  | title => exact hliteral _ 0 0 (by decide)
  | notice text => exact hliteral text 0 0 h.1
  | device vendorID deviceID =>
    have hvendor : ((va 0).setWidth 32).toNat = vendorID.toNat := by
      have := vendorID.isLt
      rw [h.1, BitVec.toNat_setWidth]
      omega
    have hdevice : ((va 1).setWidth 32).toInt = deviceID.toNat := by
      have := deviceID.isLt
      rw [h.2, BitVec.toInt_eq_toNat_cond, BitVec.toNat_setWidth, if_pos (by omega)]
      omega
    refine Formats.text ("venderID: ".toList.map ch) (by decide) ?_
    refine Formats.plain rfl (meaning_upperHex hvendor) ?_
    refine Formats.text (", DeviceID: ".toList.map ch) (by decide) ?_
    exact Formats.plain rfl (meaning_signedDecimal hdevice) (hliteral [ch '\n'] _ _ (by decide))
  | rootDirectory sector =>
    have hsector : ((va 0).setWidth 32).toInt = sector.toInt := by rw [show _ = sector from h]
    refine Formats.text ("first root dir sector: ".toList.map ch) (by decide) ?_
    exact Formats.plain rfl (meaning_signedDecimal hsector) (hliteral [ch '\n'] _ _ (by decide))
  | byte value =>
    have hvalue : ((va 0).setWidth 32).toNat = value.toNat := by
      have := value.isLt
      rw [show (va 0).setWidth 32 = value.setWidth 32 from h, BitVec.toNat_setWidth]
      omega
    exact Formats.plain rfl (meaning_upperHex hvalue) (hliteral [ch ' '] _ _ (by decide))
  | error message =>
    refine Formats.text ("Error: ".toList.map ch) (by decide) ?_
    exact Formats.plain rfl (meaning_string h.1 h.2.1 h.2.2) (hliteral [ch '\n'] _ _ (by decide))

theorem upperHex_length {n : ℕ} (h : n < 2 ^ 32) : (upperHex n).length ≤ 8 := by
  have hcount : digitCount 16 n ≤ 8 := (digitCount_le_iff (by decide) (by decide)).2 (by omega)
  rw [upperHex, numeral_length (by decide)]
  simpa using hcount

theorem signedDecimal_length {x : ℤ} (h : x.natAbs < 10 ^ 10) : (signedDecimal x).length ≤ 11 := by
  have hcount : digitCount 10 x.natAbs ≤ 10 := (digitCount_le_iff (by decide) (by decide)).2 h
  rw [signedDecimal, List.length_append, numeral_length (by decide)]
  split <;> simp <;> omega

theorem signedDecimal_length_of_range {x : ℤ} (hlo : -2 ^ 31 ≤ x) (hhi : x < 2 ^ 31) :
    (signedDecimal x).length ≤ 11 :=
  signedDecimal_length (by omega)

theorem text_length {call : PrintCall} (h : call.Passes m va) : call.text.length < strSize := by
  cases call with
  | hello => decide
  | initialized => decide
  | buffer => decide
  | title => decide
  | notice text => exact h.2
  | device vendorID deviceID =>
    have hvendor : (upperHex vendorID.toNat).length ≤ 8 := upperHex_length (by omega)
    have hdevice : (signedDecimal deviceID.toNat).length ≤ 11 :=
      signedDecimal_length_of_range (by omega) (by omega)
    have hfirst : ("venderID: ".toList.map ch).length = 10 := rfl
    have hsecond : (", DeviceID: ".toList.map ch).length = 12 := rfl
    change (_ ++ (_ ++ (_ ++ (_ ++ [ch '\n'])))).length < 512
    simp only [List.length_append, List.length_singleton, hfirst, hsecond]
    omega
  | rootDirectory sector =>
    have hsector : (signedDecimal sector.toInt).length ≤ 11 :=
      signedDecimal_length_of_range (BitVec.le_toInt sector) BitVec.toInt_lt
    have hfirst : ("first root dir sector: ".toList.map ch).length = 23 := rfl
    change (_ ++ (_ ++ [ch '\n'])).length < 512
    simp only [List.length_append, List.length_singleton, hfirst]
    omega
  | byte value =>
    have hvalue : (upperHex value.toNat).length ≤ 8 := upperHex_length (by omega)
    change (_ ++ [ch ' ']).length < 512
    simp only [List.length_append, List.length_singleton]
    omega
  | error message =>
    have hmessage : message.length + 8 < 512 := h.2.2
    have hfirst : ("Error: ".toList.map ch).length = 7 := rfl
    change (_ ++ (message ++ [ch '\n'])).length < 512
    simp only [List.length_append, List.length_singleton, hfirst]
    omega

theorem print_text {fb : FrameBuffer} {font : Psf1Font} {fmt : ℕ} {call : PrintCall}
    (h : call.Passes m va) (hformat : TextAt m fmt call.format) (buf : ℕ) {fuel : ℕ}
    (hfuel : 4 * call.format.length + 5 ≤ fuel) (s : Graphics) :
    print fb font m buf va fmt fuel s = some (consoleRun fb font (printOps call.text) s) := by
  have hlength := text_length h
  have hshort : call.text.length < 2 ^ 31 := hlength.trans (by rw [strSize]; omega)
  obtain ⟨f, i, heq⟩ := stbspVsprintf_eq hformat (formats_call h) hshort buf hfuel
  rw [print, heq, Option.bind_eq_bind, Option.bind_some, if_pos hlength]

/-- Whatever the values are that it is called with, no call of the kernel writes behind `str`, and
    its text is on the console afterwards. -/
theorem print_call {fb : FrameBuffer} {font : Psf1Font} {fmt : ℕ} {call : PrintCall}
    (h : call.Passes m va) (hformat : TextAt m fmt call.format) (buf : ℕ) {fuel : ℕ}
    (hfuel : 4 * call.format.length + 5 ≤ fuel) (s : Graphics) :
    call.text.length < strSize ∧ print fb font m buf va fmt fuel s =
      some (consoleRun fb font (printOps call.text) s) :=
  ⟨text_length h, print_text h hformat buf hfuel s⟩

def deviceMem : Mem := fun x => (PrintCall.device 0 0).format.getD x 0#8

theorem print_call_device :
    (PrintCall.device 0x8086 0x2922).text.length < strSize ∧
    print smallScreen blockFont deviceMem 0x7000 (fun i => if i = 0 then 0x8086 else 0x2922) 0 120
        (initialGraphics fun _ => 0) =
      some (consoleRun smallScreen blockFont (printOps (PrintCall.device 0x8086 0x2922).text)
        (initialGraphics fun _ => 0)) := by
  have hpasses : (PrintCall.device 0x8086 0x2922).Passes deviceMem
      fun i => if i = 0 then 0x8086 else 0x2922 := ⟨by decide, by decide⟩
  exact print_call hpasses (by decide) 0x7000 (by decide) _

end Calls

/-! ### The screen of `Panic` -/

section Panic
variable {fb : FrameBuffer} {font : Psf1Font} {m : Mem}

structure PanicTexts.Holds (texts : PanicTexts) (m : Mem) (notice message : List Byte) : Prop where
  notice_at : TextAt m texts.notice notice
  notice_plain : ch '%' ∉ notice
  notice_fits : notice.length < strSize
  title_at : TextAt m texts.title PrintCall.title.format
  error_at : TextAt m texts.error (PrintCall.error message).format
  message_ne : texts.message ≠ 0
  message_at : TextAt m texts.message.toNat message
  message_fits : message.length + 8 < strSize

def panicOps (notice message : List Byte) : List ConsoleOp :=
  printOps notice ++ printOps PrintCall.title.text ++ printOps (PrintCall.error message).text

theorem panic_eq {texts : PanicTexts} {notice message : List Byte}
    (h : texts.Holds m notice message) (buf : ℕ) {fuel : ℕ} (hfuel : 4 * strSize + 5 ≤ fuel)
    (s : Graphics) : panic fb font m buf texts fuel s =
      some (consoleRun fb font (panicOps notice message)
        (bgResetCursor (bgClearBg fb (bgSetBgColor 0xFF2B1E19 s)))) := by
  have hnotice := h.notice_fits
  rw [strSize] at hfuel hnotice
  have htitle : PrintCall.title.format.length = 23 := rfl
  have herror : (PrintCall.error message).format.length = 10 := rfl
  have hnoticePasses : (PrintCall.notice notice).Passes m fun _ => 0 :=
    ⟨h.notice_plain, h.notice_fits⟩
  have htitlePasses : PrintCall.title.Passes m fun _ => 0 := trivial
  have herrorPasses : (PrintCall.error message).Passes m fun _ => texts.message :=
    ⟨h.message_ne, h.message_at, h.message_fits⟩
  have hfirst : ∀ s, print fb font m buf (fun _ => 0) texts.notice fuel s =
      some (consoleRun fb font (printOps notice) s) := fun s =>
    print_text hnoticePasses h.notice_at buf (by change 4 * notice.length + 5 ≤ fuel; omega) s
  have hsecond : ∀ s, print fb font m buf (fun _ => 0) texts.title fuel s =
      some (consoleRun fb font (printOps PrintCall.title.text) s) := fun s =>
    print_text htitlePasses h.title_at buf (by omega) s
  have hthird : ∀ s, print fb font m buf (fun _ => texts.message) texts.error fuel s =
      some (consoleRun fb font (printOps (PrintCall.error message).text) s) := fun s =>
    print_text herrorPasses h.error_at buf (by omega) s
  simp only [panic, hfirst, hsecond, hthird, Option.bind_eq_bind, Option.bind_some, panicOps,
    consoleRun, List.foldl_append]

/-- What a run of the console draws depends on the cursor and the colours only. -/
theorem consoleRun_drawsAlike (ops : List ConsoleOp) : DrawsAlike (consoleRun fb font ops) := by
  induction ops with
  | nil => exact drawsAlike_move id
  | cons op ops ih => exact (consoleStep_drawsAlike fb font op).comp ih

theorem bgClearBg_pixels (s : Graphics) {k : ℕ} (hk : k < (fb.bufferSize + 3) / 4) :
    (bgClearBg fb s).pixels k = s.bgColor := by
  have hpixel : ∀ i, fb.pixel (fb.pointAt i) = i := fun i => Nat.mod_add_div' i _
  have hnodup : ((List.range ((fb.bufferSize + 3) / 4)).map
      fun i => fb.pixel (fb.pointAt i)).Nodup := by
    simp only [hpixel, List.map_id']
    exact List.nodup_range
  have hpaint : scatter (fun i => fb.pixel (fb.pointAt i)) (fun _ => some s.bgColor)
      (List.range ((fb.bufferSize + 3) / 4)) s.pixels (fb.pixel (fb.pointAt k)) = s.bgColor :=
    scatter_position hnodup (List.mem_range.2 hk) s.pixels
  rw [hpixel] at hpaint
  rw [bgClearBg_eq]
  exact hpaint

/-- Whatever was on the screen, the screen of a panic is the same all over the buffer, and so is
    the place of the cursor. -/
theorem panic_screen {texts : PanicTexts} {notice message : List Byte}
    (h : texts.Holds m notice message) (buf : ℕ) {fuel : ℕ} (hfuel : 4 * strSize + 5 ≤ fuel)
    {s t : Graphics} (hcolor : s.color = t.color) :
    ∃ s' t', panic fb font m buf texts fuel s = some s' ∧ panic fb font m buf texts fuel t = some t' ∧
      s'.cursorPosition = t'.cursorPosition ∧
      ∀ k < (fb.bufferSize + 3) / 4, s'.pixels k = t'.pixels k := by
  refine ⟨_, _, panic_eq h buf hfuel s, panic_eq h buf hfuel t, ?_⟩
  obtain ⟨top, p, heffect⟩ := consoleRun_drawsAlike (panicOps notice message)
    ⟨defaultCurX, defaultCurY⟩ t.color 0xFF2B1E19
  have hclear : ∀ u : Graphics, (bgResetCursor (bgClearBg fb (bgSetBgColor 0xFF2B1E19 u))).color =
      u.color ∧ (bgResetCursor (bgClearBg fb (bgSetBgColor 0xFF2B1E19 u))).bgColor =
        0xFF2B1E19 := by
    intro u
    rw [bgClearBg_eq]
    exact ⟨rfl, rfl⟩
  have hs := heffect _ rfl ((hclear s).1.trans hcolor) (hclear s).2
  have ht := heffect _ rfl (hclear t).1 (hclear t).2
  refine ⟨hs.cursorPosition.trans ht.cursorPosition.symm, fun k hk => ?_⟩
  rw [hs.pixels, ht.pixels, overlay, overlay]
  have hpixel : ∀ u, (bgResetCursor (bgClearBg fb (bgSetBgColor 0xFF2B1E19 u))).pixels k =
      0xFF2B1E19 := fun u => bgClearBg_pixels (bgSetBgColor 0xFF2B1E19 u) hk
  rw [hpixel, hpixel]

/-- A notice of two lines and the text of a page fault, each text in its own page. -/
def panicNotice : List Byte := "stack\nbroken".toList.map ch
def pageFault : List Byte := "Page Fault Detected!".toList.map ch

def panicMem : Mem := fun x =>
  if x < 0x1000 then panicNotice.getD x 0#8
  else if x < 0x2000 then PrintCall.title.format.getD (x - 0x1000) 0#8
  else if x < 0x3000 then (PrintCall.error []).format.getD (x - 0x2000) 0#8
  else pageFault.getD (x - 0x3000) 0#8

theorem panic_screen_pageFault :
    ∃ s' t', panic smallScreen blockFont panicMem 0x7000 ⟨0, 0x1000, 0x2000, 0x3000⟩ 2053
        (initialGraphics fun _ => 0) = some s' ∧
      panic smallScreen blockFont panicMem 0x7000 ⟨0, 0x1000, 0x2000, 0x3000⟩ 2053
        (initialGraphics fun _ => 0xFF) = some t' ∧
      s'.cursorPosition = t'.cursorPosition ∧
      ∀ k < (smallScreen.bufferSize + 3) / 4, s'.pixels k = t'.pixels k := by
  have htexts : PanicTexts.Holds ⟨0, 0x1000, 0x2000, 0x3000⟩ panicMem panicNotice pageFault :=
    ⟨by decide, by decide, by decide, by decide, by decide, by decide, by decide, by decide⟩
  exact panic_screen htexts 0x7000 (by decide) rfl

end Panic

end Rizzos.KernelPrint
