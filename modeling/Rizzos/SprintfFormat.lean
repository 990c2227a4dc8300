import Rizzos.SprintfCopy

set_option autoImplicit false

/-!
# What a format means

The text that a format stands for with its arguments, read character by character and written
without buffers, and that `stbsp_vsprintf` writes that text.
-/
namespace Rizzos.SprintfFormat
open ByteMemory CInt Numerals StbSprintf SprintfNumbers SprintfCopy

/-! ### The grammar -/

section Grammar
variable (va : ℕ → BitVec 64)

def flagsOf : List Byte → Flags → Flags × List Byte
  | [], fl => (fl, [])
  | c :: cs, fl =>
    match setFlag c fl with
    | some fl => flagsOf cs fl
    | none => if c = ch '0' then ({ fl with leadingZero := true }, cs) else (fl, c :: cs)

def numberOf (cs : List Byte) : ℤ × List Byte :=
  ((cs.takeWhile isDigit).foldl addDigit 0, cs.dropWhile isDigit)

def fieldOf (cs : List Byte) (i : ℕ) : ℤ × List Byte × ℕ :=
  if cs.headD 0#8 = ch '*' then (((va i).setWidth 32).toInt, cs.tail, i + 1)
  else ((numberOf cs).1, (numberOf cs).2, i)

def precisionOf (cs : List Byte) (i : ℕ) : ℤ × List Byte × ℕ :=
  if cs.headD 0#8 = ch '.' then fieldOf va cs.tail i else (-1, cs, i)

def sizeOf (cs : List Byte) (fl : Flags) : Flags × List Byte :=
  let c := cs.getD 0 0#8
  let d := cs.getD 1 0#8
  let e := cs.getD 2 0#8
  if c = ch 'h' then ({ fl with halfWidth := true }, cs.drop (if d = ch 'h' then 2 else 1))
  else if c = ch 'l' then ({ fl with intMax := true }, cs.drop (if d = ch 'l' then 2 else 1))
  else if c = ch 'j' ∨ c = ch 'z' ∨ c = ch 't' then ({ fl with intMax := true }, cs.drop 1)
  else if c = ch 'I' then
    if d = ch '6' ∧ e = ch '4' then ({ fl with intMax := true }, cs.drop 3)
    else if d = ch '3' ∧ e = ch '2' then (fl, cs.drop 3)
    else ({ fl with intMax := true }, cs.drop 1)
  else (fl, cs)

structure Modifiers where
  fl : Flags
  fw : ℤ
  pr : ℤ
  i : ℕ
  rest : List Byte
deriving DecidableEq, Repr

def modifiersOf (cs : List Byte) (i : ℕ) : Modifiers :=
  let flags := flagsOf cs {}
  let width := fieldOf va flags.2 i
  let precision := precisionOf va width.2.1 width.2.2
  let size := sizeOf precision.2.1 flags.1
  ⟨size.1, width.1, precision.1, precision.2.2, size.2⟩

end Grammar

/-! ### The conversions -/

section Meaning
variable (m : Mem) (va : ℕ → BitVec 64)

/-- What a conversion writes, the pointer at which it stores the count of characters, and how many
    arguments it takes. -/
structure Meaning where
  text : List Byte
  counted : Option ℕ
  used : ℕ
deriving DecidableEq, Repr

def stringMeaning (fl : Flags) (fw pr : ℤ) (i : ℕ) : Meaning :=
  let limit := if pr ≥ 0 then pr.toNat else 2 ^ 32 - 1
  let text := if va i = 0 then ("null".toList.map ch).take limit
    else stringAt m limit (va i).toNat
  ⟨layout fl fw.toNat 0 [] text 0, none, 1⟩

def integerMeaning (signed : Bool) (fl : Flags) (fw pr : ℤ) (i : ℕ) : Option Meaning :=
  let (n, negative) := integerArg va signed fl i
  let text := numeral decimalChar fl.tripletComma 3 10 (digitCount 10 n) n
  if fl.metricSuffix then none
  else some ⟨layout fl fw.toNat pr.toNat (leadSign { fl with negative := negative }) text 3,
    none, 1⟩

def unsignedArg (fl : Flags) (i : ℕ) : ℕ :=
  if fl.intMax then (va i).toNat else ((va i).setWidth 32).toNat

/-- A number that the array `num` has no room for has no meaning. -/
def radixMeaning (h : List Byte) (r : Radix) (lead : List Byte) (fl : Flags) (fw pr : ℤ) (i : ℕ) :
    Option Meaning :=
  let n := unsignedArg va fl i
  let lead := if n = 0 then [] else lead
  let text := numeral (fun d => h.getD d 0) fl.tripletComma r.group (Radix.base r)
    (radixCount fl.tripletComma r pr n) n
  if n = 0 ∧ pr = 0 then some ⟨layout fl fw.toNat 0 [] [] 0, none, 1⟩
  else if text.length ≤ stbspNumsz then
    some ⟨layout fl fw.toNat pr.toNat lead text r.group, none, 1⟩
  else none

def binaryMeaning (h : List Byte) (fl : Flags) : ℤ → ℤ → ℕ → Option Meaning :=
  radixMeaning va h binary (if fl.leading0x then [ch '0', h.getD 0xb 0] else []) fl

def octalMeaning (fl : Flags) : ℤ → ℤ → ℕ → Option Meaning :=
  radixMeaning va hexu octal (if fl.leading0x then [ch '0'] else []) fl

def hexMeaning (h : List Byte) (fl : Flags) : ℤ → ℤ → ℕ → Option Meaning :=
  radixMeaning va h hexadecimal (if fl.leading0x then [ch '0', h.getD 16 0] else []) fl

def meaning (c : Byte) (fl : Flags) (fw pr : ℤ) (i : ℕ) : Option Meaning :=
  if c = ch 's' then some (stringMeaning m va fl fw pr i)
  else if c = ch 'c' then some ⟨layout fl fw.toNat 0 [] [(va i).setWidth 8] 0, none, 1⟩
  else if c = ch 'n' then some ⟨[], some (va i).toNat, 1⟩
  else if floatConversions.contains c then none
  else if c = ch 'B' then binaryMeaning va hexu fl fw pr i
  else if c = ch 'b' then binaryMeaning va hex fl fw pr i
  else if c = ch 'o' then octalMeaning va fl fw pr i
  else if c = ch 'p' then hexMeaning va hex { fl with intMax := true, leadingZero := false } fw 16 i
  else if c = ch 'X' then hexMeaning va hexu fl fw pr i
  else if c = ch 'x' then hexMeaning va hex fl fw pr i
  else if c = ch 'u' then integerMeaning va false fl fw pr i
  else if c = ch 'i' ∨ c = ch 'd' then integerMeaning va true fl fw pr i
  else some ⟨[c], none, 0⟩

/-- `Formats cs i n t k`: from the argument `i` on and behind `n` characters, the format `cs`
    stands for the text `t` and stores the counts `k`. -/
inductive Formats : List Byte → ℕ → ℕ → List Byte → List (ℕ × ℤ) → Prop
  | done {i n : ℕ} : Formats [] i n [] []
  | literal {c : Byte} {cs t : List Byte} {i n : ℕ} {k : List (ℕ × ℤ)} (hc : c ≠ ch '%')
      (h : Formats cs i (n + 1) t k) : Formats (c :: cs) i n (c :: t) k
  | conversion {cs rest t : List Byte} {c : Byte} {i n : ℕ} {k : List (ℕ × ℤ)} {v : Meaning}
      (hrest : (modifiersOf va cs i).rest = c :: rest)
      (hv : meaning m va c (modifiersOf va cs i).fl (modifiersOf va cs i).fw
        (modifiersOf va cs i).pr (modifiersOf va cs i).i = some v)
      (h : Formats rest ((modifiersOf va cs i).i + v.used) (n + v.text.length) t k) :
      Formats (ch '%' :: cs) i n (v.text ++ t) ((v.counted.map fun d => (d, (n : ℤ))).toList ++ k)

end Meaning

/-! ### The conversions of the source -/

section Conversions
variable {m : Mem} {va : ℕ → BitVec 64}

theorem toInt_lt (x : BitVec 32) : x.toInt < 2 ^ 31 := by
  have := BitVec.toInt_lt (x := x)
  simpa using this

theorem int32_lt (x : ℤ) : int32 x < 2 ^ 31 := by
  unfold int32
  omega

/-- What the source makes of a conversion, against its meaning. -/
def Agrees (converted : Option Converted) (i : ℕ) (v : Meaning) : Prop :=
  match v.counted with
  | none => ∃ p, converted = some (.text p (i + v.used)) ∧ ∀ bf, scopy bf p = v.text
  | some d => converted = some (.count d (i + v.used)) ∧ v.text = []

theorem text_agrees {p : Piece} {group i u : ℕ} (htz : p.tz = 0) (htail : p.tail = [])
    (hfw : p.fw < 2 ^ 31) (hpr : p.pr < 2 ^ 31) (hgroup : p.cs / 2 ^ 24 = group)
    (hcs : p.cs % 2 ^ 24 % (group + 1) = p.s.length % (group + 1))
    (hlen : (layout p.fl p.fw.toNat p.pr.toNat p.lead p.s group).length < 2 ^ 31) :
    Agrees (some (.text p (i + u))) i
      ⟨layout p.fl p.fw.toNat p.pr.toNat p.lead p.s group, none, u⟩ :=
  ⟨p, rfl, fun bf => scopy_eq bf htz htail hfw hpr hgroup hcs hlen⟩

/-- The counts of a number's length and of its groups do not run into each other. -/
theorem text_agrees_number {p : Piece} {group i u : ℕ} (htz : p.tz = 0) (htail : p.tail = [])
    (hfw : p.fw < 2 ^ 31) (hpr : p.pr < 2 ^ 31) (hcs : p.cs = p.s.length + group * 2 ^ 24)
    (hs : p.s.length ≤ 512)
    (hlen : (layout p.fl p.fw.toNat p.pr.toNat p.lead p.s group).length < 2 ^ 31) :
    Agrees (some (.text p (i + u))) i
      ⟨layout p.fl p.fw.toNat p.pr.toNat p.lead p.s group, none, u⟩ := by
  apply text_agrees htz htail hfw hpr _ _ hlen
  · omega
  · rw [hcs, show (p.s.length + group * 2 ^ 24) % 2 ^ 24 = p.s.length by omega]

theorem text_agrees_plain {p : Piece} {i u : ℕ} (htz : p.tz = 0) (htail : p.tail = [])
    (hfw : p.fw < 2 ^ 31) (hpr : p.pr = 0) (hcs : p.cs = 0)
    (hlen : (layout p.fl p.fw.toNat 0 p.lead p.s 0).length < 2 ^ 31) :
    Agrees (some (.text p (i + u))) i ⟨layout p.fl p.fw.toNat 0 p.lead p.s 0, none, u⟩ := by
  refine ⟨p, rfl, fun bf => ?_⟩
  have hzero : p.pr.toNat = 0 := congrArg Int.toNat hpr
  have heq := scopy_eq (p := p) bf htz htail hfw (by rw [hpr]; norm_num) rfl
    (by rw [hcs]; simp [Nat.mod_one])
  rw [hzero, hcs] at heq
  exact heq hlen

theorem stringText_agrees {fl : Flags} {fw pr : ℤ} {i : ℕ} (hfw : fw < 2 ^ 31)
    (hlen : (stringMeaning m va fl fw pr i).text.length < 2 ^ 31) :
    Agrees (some (stringText m va fl fw pr i)) i (stringMeaning m va fl fw pr i) := by
  have hzero : (va i).toNat = 0 ↔ va i = 0 := by
    rw [← BitVec.toNat_inj]
    rfl
  have htext : ∀ limit, (if (va i).toNat = 0 then ("null".toList.map ch).take limit
      else (List.range (strlenLimited m (va i).toNat limit)).map fun k =>
        load8 m ((va i).toNat + k)) =
      if va i = 0 then ("null".toList.map ch).take limit
      else stringAt m limit (va i).toNat := by
    intro limit
    rw [if_congr hzero rfl rfl, strlenLimited_eq, stringAt_eq]
  unfold stringText
  dsimp only
  rw [htext]
  exact text_agrees_plain rfl rfl hfw rfl rfl hlen

theorem integerArg_lt (signed : Bool) (fl : Flags) (i : ℕ) : (integerArg va signed fl i).1 < 2 ^ 64 := by
  unfold integerArg
  split
  · dsimp only
    split <;> exact BitVec.isLt _
  · dsimp only
    split <;> exact (BitVec.isLt _).trans (by decide)

theorem integerText_agrees {signed : Bool} {fl : Flags} {fw pr : ℤ} {i : ℕ} {v : Meaning}
    (hfw : fw < 2 ^ 31) (hpr : pr < 2 ^ 31) (hv : integerMeaning va signed fl fw pr i = some v)
    (hlen : v.text.length < 2 ^ 31) :
    Agrees (integerText va signed fl fw pr i) i v := by
  have hn : (integerArg va signed fl i).1 < 2 ^ 64 := integerArg_lt signed fl i
  unfold integerMeaning at hv
  unfold integerText
  generalize integerArg va signed fl i = arg at hn hv ⊢
  obtain ⟨n, negative⟩ := arg
  dsimp only at hn hv ⊢
  by_cases hmetric : fl.metricSuffix
  · rw [if_pos hmetric] at hv
    cases hv
  · rw [if_neg hmetric] at hv ⊢
    obtain rfl := Option.some.inj hv
    rw [decimalText_eq hn]
    have hcount : digitCount 10 n ≤ 20 := (digitCount_le_iff (by decide) (by decide)).2 (by omega)
    have hs : (numeral decimalChar fl.tripletComma 3 10 (digitCount 10 n) n).length ≤ 512 := by
      rw [numeral_length (by decide)]
      split <;> omega
    have hprecision : (if pr < 0 then 0 else pr).toNat = pr.toNat := by
      split <;> omega
    rw [← hprecision] at hlen ⊢
    refine text_agrees_number rfl rfl hfw ?_ rfl hs hlen
    change (if pr < 0 then 0 else pr) < 2 ^ 31
    split <;> omega

theorem unsignedArg_lt (fl : Flags) (i : ℕ) : unsignedArg va fl i < 2 ^ 64 := by
  unfold unsignedArg
  split
  · exact BitVec.isLt _
  · exact (BitVec.isLt _).trans (by decide)

theorem radixText_agrees {h : List Byte} {r : Radix} {lead : List Byte} {fl : Flags} {fw pr : ℤ}
    {i : ℕ} {v : Meaning} (hshift : 0 < r.shift) (hg : 0 < r.group) (hfw : fw < 2 ^ 31)
    (hpr : pr < 2 ^ 31) (hv : radixMeaning va h r lead fl fw pr i = some v)
    (hlen : v.text.length < 2 ^ 31) :
    Agrees (radixText va h r lead fl fw pr i) i v := by
  have hn : unsignedArg va fl i < 2 ^ 64 := unsignedArg_lt fl i
  unfold radixMeaning at hv
  unfold radixText
  rw [← unsignedArg]
  generalize unsignedArg va fl i = n at hn hv ⊢
  dsimp only at hv ⊢
  rw [radixLoop_text hshift hg hn]
  generalize numeral (fun d => h.getD d 0) fl.tripletComma r.group (Radix.base r)
    (radixCount fl.tripletComma r pr n) n = text at hv ⊢
  by_cases hnone : n = 0 ∧ pr = 0
  · rw [if_pos hnone] at hv ⊢
    obtain rfl := Option.some.inj hv
    rw [if_pos hnone.1, hnone.2]
    exact text_agrees_plain rfl rfl hfw rfl rfl hlen
  · rw [if_neg hnone] at hv ⊢
    by_cases hs : text.length ≤ stbspNumsz
    · rw [if_pos hs] at hv
      rw [if_neg (by omega)]
      obtain rfl := Option.some.inj hv
      exact text_agrees_number rfl rfl hfw hpr rfl hs hlen
    · rw [if_neg hs] at hv
      cases hv

theorem Agrees.ite {q : Prop} [Decidable q] {x y : Option Converted} {u w : Option Meaning} {i : ℕ}
    {v : Meaning} (hx : u = some v → Agrees x i v) (hy : w = some v → Agrees y i v)
    (hv : (if q then u else w) = some v) : Agrees (if q then x else y) i v := by
  by_cases hq : q
  · rw [if_pos hq] at hv ⊢
    exact hx hv
  · rw [if_neg hq] at hv ⊢
    exact hy hv

theorem convert_agrees {c : Byte} {fl : Flags} {fw pr : ℤ} {i : ℕ} {v : Meaning}
    (hfw : fw < 2 ^ 31) (hpr : pr < 2 ^ 31) (hv : meaning m va c fl fw pr i = some v)
    (hlen : v.text.length < 2 ^ 31) : Agrees (convert m va c fl fw pr i) i v := by
  have hradix : ∀ {h : List Byte} {r : Radix} {lead : List Byte} {fl : Flags} {pr : ℤ},
      0 < r.shift → 0 < r.group → pr < 2 ^ 31 → radixMeaning va h r lead fl fw pr i = some v →
      Agrees (radixText va h r lead fl fw pr i) i v :=
    fun hshift hgroup hpr hv => radixText_agrees hshift hgroup hfw hpr hv hlen
  have hinteger : ∀ {signed : Bool}, integerMeaning va signed fl fw pr i = some v →
      Agrees (integerText va signed fl fw pr i) i v :=
    fun hv => integerText_agrees hfw hpr hv hlen
  unfold meaning at hv
  unfold convert
  refine .ite (fun hv => ?string) (.ite (fun hv => ?char) (.ite (fun hv => ?count)
    (.ite (fun hv => ?float) (.ite (hradix (by decide) (by decide) hpr)
    (.ite (hradix (by decide) (by decide) hpr) (.ite (hradix (by decide) (by decide) hpr)
    (.ite (hradix (by decide) (by decide) (by norm_num)) (.ite (hradix (by decide) (by decide) hpr)
    (.ite (hradix (by decide) (by decide) hpr) (.ite hinteger (.ite hinteger
    fun hv => ?other))))))))))) hv
  case string =>
    obtain rfl := Option.some.inj hv
    exact stringText_agrees hfw hlen
  case char =>
    obtain rfl := Option.some.inj hv
    exact text_agrees_plain rfl rfl hfw rfl rfl hlen
  case count =>
    obtain rfl := Option.some.inj hv
    exact ⟨rfl, rfl⟩
  case float => cases hv
  case other =>
    obtain rfl := Option.some.inj hv
    exact text_agrees_plain (p := ⟨{}, 0, 0, 0, [c], [], [], 0⟩) (i := i) (u := 0) rfl rfl
      (by norm_num) rfl rfl hlen

end Conversions

/-! ### The grammar of the source -/

section Parsing
variable {m : Mem}

theorem flagsLoop_eq {fuel f : ℕ} {cs : List Byte} (h : TextAt m f cs) (hfuel : cs.length < fuel)
    (fl : Flags) : ∃ f', TextAt m f' (flagsOf cs fl).2 ∧
      flagsLoop m fuel f fl = some ((flagsOf cs fl).1, f') := by
  induction fuel generalizing f cs fl with
  | zero => omega
  | succ fuel ih =>
    rw [flagsLoop]
    cases cs with
    | nil =>
      have hend : load8 m f = 0#8 := h
      have hno : setFlag 0#8 fl = none := rfl
      rw [hend, hno]
      exact ⟨f, h, rfl⟩
    | cons c cs =>
      have hrest := h.2.2
      rw [h.1, flagsOf]
      cases hflag : setFlag c fl with
      | some fl => exact ih hrest (Nat.lt_of_succ_lt_succ hfuel) fl
      | none =>
        dsimp only
        split
        · exact ⟨f + 1, hrest, rfl⟩
        · exact ⟨f, h, rfl⟩

theorem numberLoop_eq {fuel f : ℕ} {cs : List Byte} (h : TextAt m f cs) (hfuel : cs.length < fuel)
    (x : ℤ) : ∃ f', TextAt m f' (cs.dropWhile isDigit) ∧
      numberLoop m fuel f x = some ((cs.takeWhile isDigit).foldl addDigit x, f') := by
  induction fuel generalizing f cs x with
  | zero => omega
  | succ fuel ih =>
    rw [numberLoop]
    cases cs with
    | nil =>
      have hend : load8 m f = 0#8 := h
      rw [hend]
      exact ⟨f, h, rfl⟩
    | cons c cs =>
      have hrest := h.2.2
      rw [h.1, List.dropWhile_cons, List.takeWhile_cons]
      split
      · exact ih hrest (Nat.lt_of_succ_lt_succ hfuel) _
      · exact ⟨f, h, rfl⟩

section Arguments
variable (va : ℕ → BitVec 64)

theorem fieldNumber_eq {fuel f : ℕ} {cs : List Byte} (h : TextAt m f cs)
    (hfuel : cs.length < fuel) (i : ℕ) : ∃ f', TextAt m f' (fieldOf va cs i).2.1 ∧
      fieldNumber m va fuel f i =
        some ((fieldOf va cs i).1, f', (fieldOf va cs i).2.2) := by
  unfold fieldNumber fieldOf
  rw [h.char]
  split
  · rename_i hstar
    refine ⟨f + 1, h.tail ?_, rfl⟩
    rw [h.char, hstar]
    decide
  · obtain ⟨f', htext, heq⟩ := numberLoop_eq h hfuel 0
    exact ⟨f', htext, by rw [heq]; rfl⟩

theorem fieldPrecision_eq {fuel f : ℕ} {cs : List Byte} (h : TextAt m f cs)
    (hfuel : cs.length < fuel) (i : ℕ) : ∃ f', TextAt m f' (precisionOf va cs i).2.1 ∧
      fieldPrecision m va fuel f i =
        some ((precisionOf va cs i).1, f', (precisionOf va cs i).2.2) := by
  unfold fieldPrecision precisionOf
  rw [h.char]
  split
  · rename_i hpoint
    have htail := h.tail (by rw [h.char, hpoint]; decide)
    exact fieldNumber_eq va htail (by rw [List.length_tail]; omega) i
  · exact ⟨f, h, rfl⟩

theorem sizeOverride_eq {f : ℕ} {cs : List Byte} (h : TextAt m f cs) (fl : Flags) :
    ∃ f', TextAt m f' (sizeOf cs fl).2 ∧ sizeOverride m f fl = ((sizeOf cs fl).1, f') := by
  have hchar : ∀ k, (∀ j < k, cs.getD j 0#8 ≠ 0#8) → load8 m (f + k) = cs.getD k 0#8 := by
    intro k hk
    rw [(h.drop k hk).char, List.headD_eq_head?_getD, List.head?_drop, List.getD_eq_getElem?_getD]
  have hfirst : load8 m f = cs.getD 0 0#8 := hchar 0 (by simp)
  unfold sizeOverride sizeOf
  dsimp only
  rw [hfirst]
  by_cases hzero : cs.getD 0 0#8 = 0#8
  · rw [hzero]
    exact ⟨f, h, rfl⟩
  · have hone : ∀ j < 1, cs.getD j 0#8 ≠ 0#8 := by
      intro j hj
      rwa [Nat.lt_one_iff.1 hj]
    have htwo : cs.getD 1 0#8 ≠ 0#8 → ∀ j < 2, cs.getD j 0#8 ≠ 0#8 := by
      intro hne j hj
      interval_cases j
      · exact hzero
      · exact hne
    have hthree : cs.getD 1 0#8 ≠ 0#8 → cs.getD 2 0#8 ≠ 0#8 → ∀ j < 3, cs.getD j 0#8 ≠ 0#8 := by
      intro hne hne' j hj
      interval_cases j
      · exact hzero
      · exact hne
      · exact hne'
    have hthird : ∀ x y : Byte, x ≠ 0#8 →
        (cs.getD 1 0#8 = x ∧ load8 m (f + 2) = y ↔ cs.getD 1 0#8 = x ∧ cs.getD 2 0#8 = y) := by
      intro x y hx
      apply and_congr_right
      rintro rfl
      rw [hchar 2 (htwo hx)]
    rw [hchar 1 hone, if_congr (hthird _ _ (by decide)) rfl (if_congr (hthird _ _ (by decide)) rfl rfl)]
    by_cases hc : cs.getD 0 0#8 = ch 'h'
    · rw [if_pos hc, if_pos hc]
      split
      · rename_i hd
        exact ⟨f + 2, h.drop 2 (htwo (by rw [hd]; decide)), rfl⟩
      · exact ⟨f + 1, h.drop 1 hone, rfl⟩
    rw [if_neg hc, if_neg hc]
    by_cases hc : cs.getD 0 0#8 = ch 'l'
    · rw [if_pos hc, if_pos hc]
      split
      · rename_i hd
        exact ⟨f + 2, h.drop 2 (htwo (by rw [hd]; decide)), rfl⟩
      · exact ⟨f + 1, h.drop 1 hone, rfl⟩
    rw [if_neg hc, if_neg hc]
    split
    · exact ⟨f + 1, h.drop 1 hone, rfl⟩
    split
    · split
      · rename_i hd
        exact ⟨f + 3, h.drop 3 (hthree (by rw [hd.1]; decide) (by rw [hd.2]; decide)), rfl⟩
      split
      · rename_i hd
        exact ⟨f + 3, h.drop 3 (hthree (by rw [hd.1]; decide) (by rw [hd.2]; decide)), rfl⟩
      · exact ⟨f + 1, h.drop 1 hone, rfl⟩
    · exact ⟨f, h, rfl⟩

theorem fieldOf_lt (cs : List Byte) (i : ℕ) : (fieldOf va cs i).1 < 2 ^ 31 := by
  have hfold : ∀ (ds : List Byte) (x : ℤ), x < 2 ^ 31 → ds.foldl addDigit x < 2 ^ 31 := by
    intro ds
    induction ds with
    | nil => exact fun x hx => hx
    | cons d ds ih => exact fun x _ => ih _ (int32_lt _)
  unfold fieldOf
  split
  · exact toInt_lt _
  · exact hfold _ 0 (by norm_num)

theorem precisionOf_lt (cs : List Byte) (i : ℕ) : (precisionOf va cs i).1 < 2 ^ 31 := by
  unfold precisionOf
  split
  · exact fieldOf_lt va _ _
  · norm_num

theorem flagsOf_length (cs : List Byte) (fl : Flags) : (flagsOf cs fl).2.length ≤ cs.length := by
  induction cs generalizing fl with
  | nil => rfl
  | cons c cs ih =>
    rw [flagsOf]
    cases setFlag c fl with
    | some fl => exact (ih fl).trans (Nat.le_succ _)
    | none =>
      dsimp only
      split
      · exact Nat.le_succ _
      · exact le_rfl

theorem fieldOf_length (cs : List Byte) (i : ℕ) : (fieldOf va cs i).2.1.length ≤ cs.length := by
  unfold fieldOf
  split
  · rw [List.length_tail]
    exact Nat.sub_le _ _
  · exact (List.dropWhile_suffix _).length_le

theorem precisionOf_length (cs : List Byte) (i : ℕ) :
    (precisionOf va cs i).2.1.length ≤ cs.length := by
  unfold precisionOf
  split
  · exact (fieldOf_length va _ _).trans (by rw [List.length_tail]; exact Nat.sub_le _ _)
  · exact le_rfl

theorem sizeOf_length (cs : List Byte) (fl : Flags) : (sizeOf cs fl).2.length ≤ cs.length := by
  have hdrop : ∀ k, (cs.drop k).length ≤ cs.length := by
    intro k
    rw [List.length_drop]
    exact Nat.sub_le _ _
  unfold sizeOf
  dsimp only
  repeat' split
  all_goals first | exact hdrop _ | exact le_rfl

theorem modifiersOf_length (cs : List Byte) (i : ℕ) :
    (modifiersOf va cs i).rest.length ≤ cs.length :=
  (sizeOf_length _ _).trans ((precisionOf_length va _ _).trans
    ((fieldOf_length va _ _).trans (flagsOf_length _ _)))

theorem replacement_eq (buf fuel : ℕ) {r : Run} {cs rest : List Byte} {c : Byte} {v : Meaning}
    (h : TextAt m r.f cs) (hfuel : cs.length < fuel)
    (hrest : (modifiersOf va cs r.i).rest = c :: rest)
    (hv : meaning m va c (modifiersOf va cs r.i).fl (modifiersOf va cs r.i).fw
      (modifiersOf va cs r.i).pr (modifiersOf va cs r.i).i = some v)
    (hlen : v.text.length < 2 ^ 31) (hout : r.out.length < 2 ^ 31) :
    ∃ f', TextAt m f' rest ∧ replacement m buf va fuel r =
      some ⟨f', (modifiersOf va cs r.i).i + v.used, r.out ++ v.text,
        r.counts ++ (v.counted.map fun d => (d, (r.out.length : ℤ))).toList⟩ := by
  have hflags := flagsOf_length cs {}
  have hwidth := fieldOf_length va (flagsOf cs {}).2 r.i
  have hfuel1 : (flagsOf cs {}).2.length < fuel := by omega
  have hfuel2 : (fieldOf va (flagsOf cs {}).2 r.i).2.1.length < fuel := by omega
  obtain ⟨f1, h1, heq1⟩ := flagsLoop_eq h hfuel {}
  obtain ⟨f2, h2, heq2⟩ := fieldNumber_eq va h1 hfuel1 r.i
  obtain ⟨f3, h3, heq3⟩ := fieldPrecision_eq va h2 hfuel2 (fieldOf va (flagsOf cs {}).2 r.i).2.2
  obtain ⟨f4, h4, heq4⟩ := sizeOverride_eq h3 (flagsOf cs {}).1
  have htext : TextAt m f4 (c :: rest) := by
    rw [← hrest]
    exact h4
  have hchar : load8 m f4 = c := htext.1
  have hagrees : Agrees (convert m va c (modifiersOf va cs r.i).fl (modifiersOf va cs r.i).fw
      (modifiersOf va cs r.i).pr (modifiersOf va cs r.i).i) (modifiersOf va cs r.i).i v :=
    convert_agrees (fieldOf_lt va _ _) (precisionOf_lt va _ _) hv hlen
  refine ⟨f4 + 1, htext.2.2, ?_⟩
  simp only [replacement, heq1, heq2, heq3, heq4, hchar, Option.bind_eq_bind, Option.bind_some]
  unfold Agrees at hagrees
  cases hcounted : v.counted with
  | none =>
    rw [hcounted] at hagrees
    obtain ⟨p, hp, htext⟩ := hagrees
    change (convert m va c (modifiersOf va cs r.i).fl (modifiersOf va cs r.i).fw
      (modifiersOf va cs r.i).pr (modifiersOf va cs r.i).i).bind _ = _
    rw [hp, Option.bind_some]
    simp [htext]
  | some d =>
    rw [hcounted] at hagrees
    obtain ⟨hd, htext⟩ := hagrees
    change (convert m va c (modifiersOf va cs r.i).fl (modifiersOf va cs r.i).fw
      (modifiersOf va cs r.i).pr (modifiersOf va cs r.i).i).bind _ = _
    rw [hd, Option.bind_some]
    simp [htext, int32_ofNat_of_lt hout]

end Arguments

end Parsing

/-! ### The whole format -/

section Whole
variable {m : Mem} {va : ℕ → BitVec 64}

theorem Formats.literal_append {cs t : List Byte} {i n : ℕ} {k : List (ℕ × ℤ)}
    (h : Formats m va cs i n t k) : ∃ t', t = SprintfCopy.literal cs ++ t' ∧
      Formats m va (fromPercent cs) i (n + (SprintfCopy.literal cs).length) t' k := by
  induction h with
  | done => exact ⟨[], rfl, .done⟩
  | @literal c cs t i n k hc h ih =>
    obtain ⟨t', rfl, hrest⟩ := ih
    have hlit : SprintfCopy.literal (c :: cs) = c :: SprintfCopy.literal cs := by
      simp [SprintfCopy.literal, hc]
    have hfrom : fromPercent (c :: cs) = fromPercent cs := by
      simp [fromPercent, hc]
    rw [hlit, hfrom, List.length_cons]
    refine ⟨t', rfl, ?_⟩
    rwa [show n + ((SprintfCopy.literal cs).length + 1) =
      n + 1 + (SprintfCopy.literal cs).length by omega]
  | conversion hrest hv h _ =>
    exact ⟨_, rfl, .conversion hrest hv h⟩

theorem formatLoop_eq (buf : ℕ) {fuel : ℕ} {r : Run} {cs t : List Byte} {k : List (ℕ × ℤ)}
    (h : TextAt m r.f cs) (hformats : Formats m va cs r.i r.out.length t k)
    (hlen : (r.out ++ t).length < 2 ^ 31) (hfuel : 4 * cs.length + 5 ≤ fuel) :
    ∃ f i, formatLoop m buf va fuel r = some ⟨f, i, r.out ++ t, r.counts ++ k⟩ := by
  induction fuel generalizing r cs t k with
  | zero => omega
  | succ fuel ih =>
    have hliteral : (SprintfCopy.literal cs).length ≤ cs.length := (List.takeWhile_prefix _).length_le
    have hturns : turns (SprintfCopy.literal cs).length .align ≤ fuel := by
      simp only [turns]
      omega
    obtain ⟨f', htext, hcopy⟩ := copyText_eq (p := .align) h trivial hturns r.out
    obtain ⟨t', rfl, hrest⟩ := hformats.literal_append
    have hhead : ∀ c ds, fromPercent cs = c :: ds → c = ch '%' := by
      intro c ds heq
      have hnot := List.head?_dropWhile_not (fun c => decide (c ≠ ch '%')) cs
      rw [show cs.dropWhile (fun c => decide (c ≠ ch '%')) = c :: ds from heq] at hnot
      simpa using hnot
    have hlength : (fromPercent cs).length ≤ cs.length := (List.dropWhile_suffix _).length_le
    rw [formatLoop, hcopy]
    generalize fromPercent cs = ds at htext hrest hhead hlength ⊢
    rw [← List.append_assoc] at hlen ⊢
    cases hrest with
    | done => exact ⟨f', r.i, by simp [endOf]⟩
    | literal hc _ => exact absurd (hhead _ _ rfl) hc
    | @conversion cs' rest t c _ _ k v hrest hv h =>
      rw [← List.append_assoc] at hlen ⊢
      rw [List.length_append, List.length_append, List.length_append] at hlen
      have hmore : rest.length < cs'.length := by
        have := modifiersOf_length va cs' r.i
        rw [hrest, List.length_cons] at this
        omega
      rw [List.length_cons] at hlength
      obtain ⟨g, hg, hstep⟩ := replacement_eq va buf fuel
        (r := ⟨f' + 1, r.i, r.out ++ SprintfCopy.literal cs, r.counts⟩) htext.2.2 (by omega)
        hrest hv (by omega) (by rw [List.length_append]; omega)
      obtain ⟨g', j, hloop⟩ := ih (r := ⟨g, (modifiersOf va cs' r.i).i + v.used,
        r.out ++ SprintfCopy.literal cs ++ v.text, r.counts ++ (v.counted.map fun d =>
          (d, ((r.out ++ SprintfCopy.literal cs).length : ℤ))).toList⟩) hg
        (by simpa [Nat.add_assoc] using h)
        (by rw [List.length_append, List.length_append, List.length_append]; omega) (by omega)
      refine ⟨g', j, ?_⟩
      change (replacement m buf va fuel ⟨f' + 1, r.i, r.out ++ SprintfCopy.literal cs,
        r.counts⟩).bind (formatLoop m buf va fuel) = _
      rw [hstep, Option.bind_some, hloop]
      simp

theorem stbspVsprintf_eq {fmt : ℕ} {cs t : List Byte} {k : List (ℕ × ℤ)}
    (h : TextAt m fmt cs) (hformats : Formats m va cs 0 0 t k) (hlen : t.length < 2 ^ 31)
    (buf : ℕ) {fuel : ℕ} (hfuel : 4 * cs.length + 5 ≤ fuel) :
    ∃ f i, stbspVsprintf m buf va fmt fuel = some ⟨f, i, t, k⟩ :=
  formatLoop_eq (r := ⟨fmt, 0, [], []⟩) buf h hformats (by simpa using hlen) hfuel

/-- `stbsp_vsprintf` ends, and it writes what the format stands for. The scanning by words, the
    chunks of the copying, the parts of eight digits and the order in which a text is put together
    make no difference. -/
theorem stbspVsprintf_formats {fmt : ℕ} {cs t : List Byte} {k : List (ℕ × ℤ)}
    (h : TextAt m fmt cs) (hformats : Formats m va cs 0 0 t k) (hlen : t.length < 2 ^ 31)
    (buf : ℕ) {fuel : ℕ} (hfuel : 4 * cs.length + 5 ≤ fuel) :
    ∃ r, stbspVsprintf m buf va fmt fuel = some r ∧ r.out = t ∧ r.counts = k := by
  obtain ⟨f, i, heq⟩ := stbspVsprintf_eq h hformats hlen buf hfuel
  exact ⟨_, heq, rfl, rfl⟩

end Whole

def tableFormat : List Byte := "0x%08X\n".toList.map ch

def tableMem : Mem := fun x => tableFormat.getD x 0#8

theorem stbspVsprintf_formats_table :
    ∃ r, stbspVsprintf tableMem 0 (fun _ => 0x8086#64) 0 40 = some r ∧
      r.out = "0x00008086\n".toList.map ch ∧ r.counts = [] := by
  have htext : TextAt tableMem 0 tableFormat := by decide
  have hformats : Formats tableMem (fun _ => 0x8086#64) tableFormat 0 0
      ("0x00008086\n".toList.map ch) [] := by
    refine .literal (by decide) (.literal (by decide) ?_)
    have hrest : (modifiersOf (fun _ => 0x8086#64) ("%08X\n".toList.map ch).tail 0).rest =
        ch 'X' :: [10#8] := rfl
    exact Formats.conversion (v := ⟨"00008086".toList.map ch, none, 1⟩) hrest (by decide +kernel)
      (.literal (by decide) .done)
  exact stbspVsprintf_formats htext hformats (by decide) 0 (by decide)

end Rizzos.SprintfFormat
