import Rizzos.SprintfFormat

set_option autoImplicit false

/-!
# Reading back what a conversion of an integer writes

A reader that knows the base passes over blanks, signs, commas and prefixes, and it finds the
argument. Whether there is a text at all depends on the room in the array `num`.
-/
namespace Rizzos.SprintfReading
open ByteMemory CInt Numerals StbSprintf SprintfNumbers SprintfCopy SprintfFormat

/-! ### A reader of numbers -/

section Reader
variable {b : ℕ}

def digitValue (b : ℕ) (c : Byte) : Option ℕ :=
  let d := if 48 ≤ c.toNat ∧ c.toNat ≤ 57 then c.toNat - 48
    else if 65 ≤ c.toNat ∧ c.toNat ≤ 70 then c.toNat - 55
    else if 97 ≤ c.toNat ∧ c.toNat ≤ 102 then c.toNat - 87
    else b
  if d < b then some d else none

def readNumber (b : ℕ) (text : List Byte) : ℕ :=
  Nat.ofDigits b (text.filterMap (digitValue b)).reverse

def readInteger (b : ℕ) (text : List Byte) : ℤ :=
  if text.contains (ch '-') then -(readNumber b text : ℤ) else readNumber b text

/-- A character that adds nothing in front of a number. -/
def IsBlank (b : ℕ) (c : Byte) : Prop := digitValue b c = none ∨ digitValue b c = some 0

instance (b : ℕ) (c : Byte) : Decidable (IsBlank b c) :=
  inferInstanceAs (Decidable (digitValue b c = none ∨ digitValue b c = some 0))

/-- A short text that may stand in front of a number and is no minus sign. -/
def Leads (b : ℕ) (lead : List Byte) : Prop :=
  lead.length ≤ 2 ∧ (∀ c ∈ lead, IsBlank b c) ∧ ch '-' ∉ lead

instance (b : ℕ) (lead : List Byte) : Decidable (Leads b lead) :=
  inferInstanceAs (Decidable (lead.length ≤ 2 ∧ (∀ c ∈ lead, IsBlank b c) ∧ ch '-' ∉ lead))

theorem Leads.nil : Leads b [] := by simp [Leads]

theorem ofDigits_zeros {ds : List ℕ} (h : ∀ d ∈ ds, d = 0) : Nat.ofDigits b ds = 0 := by
  induction ds with
  | nil => rfl
  | cons d ds ih =>
    rw [Nat.ofDigits_cons, h d List.mem_cons_self, ih fun d hd => h d (List.mem_cons_of_mem _ hd)]
    simp

theorem readNumber_blanks {xs : List Byte} (h : ∀ c ∈ xs, IsBlank b c) (s : List Byte) :
    readNumber b (xs ++ s) = readNumber b s := by
  have hzero : ∀ d ∈ (xs.filterMap (digitValue b)).reverse, d = 0 := by
    intro d hd
    obtain ⟨c, hc, hvalue⟩ := List.mem_filterMap.1 (List.mem_reverse.1 hd)
    rcases h c hc with hnone | hsome
    · rw [hnone] at hvalue
      cases hvalue
    · rw [hsome] at hvalue
      exact (Option.some.inj hvalue).symm
  rw [readNumber, List.filterMap_append, List.reverse_append, Nat.ofDigits_append,
    ofDigits_zeros hzero, Nat.mul_zero, Nat.add_zero, ← readNumber]

theorem readNumber_behind {ys : List Byte} (h : ∀ c ∈ ys, digitValue b c = none) (s : List Byte) :
    readNumber b (s ++ ys) = readNumber b s := by
  rw [readNumber, List.filterMap_append, List.filterMap_eq_nil_iff.2 h, List.append_nil, ← readNumber]

theorem readNumber_numeral {char : ℕ → Byte} (hchar : ∀ d < b, digitValue b (char d) = some d)
    (hcomma : digitValue b comma = none) (hb : 0 < b) (commas : Bool) (g k n : ℕ) :
    readNumber b (numeral char commas g b k n) = Nat.ofDigits b (places b k n) := by
  have hdigits : ((places b k n).map char).filterMap (digitValue b) = places b k n := by
    rw [List.filterMap_map]
    conv_rhs => rw [← List.filterMap_some (l := places b k n)]
    exact List.filterMap_congr fun d hd => hchar d (mem_places_lt hb hd)
  have hgrouped : (grouped commas g ((places b k n).map char)).filterMap (digitValue b) =
      places b k n := by
    unfold grouped
    split
    · rw [separate, filterMap_separateFrom hcomma, hdigits]
    · exact hdigits
  rw [readNumber, numeral, List.filterMap_reverse, hgrouped, List.reverse_reverse]

theorem blank_space : digitValue b (ch ' ') = none := by
  simp [digitValue, ch]

theorem blank_comma : digitValue b comma = none := by
  simp [digitValue, comma, ch]

theorem blank_zero : IsBlank b (ch '0') := by
  simp [IsBlank, digitValue, ch, Nat.pos_iff_ne_zero, em]

theorem mem_fill {commas : Bool} {group length n : ℕ} {c : Byte}
    (h : c ∈ fill commas group length n) : c = comma ∨ c = ch '0' := by
  unfold fill at h
  split at h
  · obtain ⟨k, -, rfl⟩ := List.mem_map.1 h
    split
    · exact .inl rfl
    · exact .inr rfl
  · exact .inr (List.eq_of_mem_replicate h)

theorem readInteger_layout {fl : Flags} {fw pr group : ℕ} {lead s : List Byte}
    (hlead : ∀ c ∈ lead, IsBlank b c) (hs : ch '-' ∉ s) :
    readInteger b (layout fl fw pr lead s group) =
      if ch '-' ∈ lead then -(readNumber b s : ℤ) else readNumber b s := by
  have hspaces : ∀ n, ∀ c ∈ List.replicate n (ch ' '), digitValue b c = none := by
    intro n c hc
    rw [List.eq_of_mem_replicate hc, blank_space]
  have hfill : ∀ commas length n, ∀ c ∈ fill commas group length n, IsBlank b c := by
    intro commas length n c hc
    rcases mem_fill hc with rfl | rfl
    · exact .inl blank_comma
    · exact blank_zero
  have hminus : ∀ commas length n, ch '-' ∉ fill commas group length n := by
    intro commas length n hc
    rcases mem_fill hc with h | h <;> exact absurd h (by decide)
  have hminus' : ∀ n, ch '-' ∉ List.replicate n (ch ' ') := by
    intro n hc
    exact absurd (List.eq_of_mem_replicate hc) (by decide)
  have hsign : ch '-' ∈ layout fl fw pr lead s group ↔ ch '-' ∈ lead := by
    unfold layout
    cases fl.leftJust <;> cases fl.leadingZero <;>
      simp only [Bool.false_eq_true, if_true, if_false, List.mem_append, hminus, hminus', hs,
        or_false, false_or]
  have hvalue : readNumber b (layout fl fw pr lead s group) = readNumber b s := by
    unfold layout
    cases fl.leftJust <;> cases fl.leadingZero <;>
      simp only [Bool.false_eq_true, if_true, if_false, readNumber_behind (hspaces _),
        List.append_assoc, readNumber_blanks hlead, readNumber_blanks (hfill _ _ _),
        readNumber_blanks fun c hc => Or.inl (hspaces _ c hc)]
  rw [readInteger, hvalue]
  exact if_congr (List.contains_iff_mem.trans hsign) rfl rfl

end Reader

/-! ### The room for a number -/

section Room
variable {m : Mem} {va : ℕ → BitVec 64}

/-- The conversions that write a number into `num`, with their bases. -/
def numberBase (c : Byte) : Option ℕ :=
  if c = ch 'd' ∨ c = ch 'i' ∨ c = ch 'u' then some 10
  else if c = ch 'b' ∨ c = ch 'B' then some 2
  else if c = ch 'o' then some 8
  else if c = ch 'x' ∨ c = ch 'X' ∨ c = ch 'p' then some 16
  else none

/-- A precision that asks for more characters than `num` has. A group of three octal digits may
    come with a comma that nobody asked for. -/
def Overruns (c : Byte) (fl : Flags) (pr : ℤ) : Prop :=
  c ≠ ch 'p' ∧ (512 < pr ∨ c = ch 'o' ∧ fl.tripletComma = true ∧ pr = 512)

theorem radix_too_long_iff {r : Radix} (hr : r = binary ∨ r = octal ∨ r = hexadecimal) {n : ℕ}
    (hn : n < 2 ^ 64) (char : ℕ → Byte) (commas : Bool) (pr : ℤ) :
    stbspNumsz < (numeral char commas r.group (Radix.base r) (radixCount commas r pr n) n).length ↔
      512 < pr ∨ r = octal ∧ commas = true ∧ pr = 512 := by
  have hshift : 0 < r.shift := by rcases hr with rfl | rfl | rfl <;> decide
  have hgroup : 0 < r.group := by rcases hr with rfl | rfl | rfl <;> decide
  have hcount : digitCount (Radix.base r) n ≤ 64 := by
    have hbase : 1 < Radix.base r := Nat.one_lt_two_pow hshift.ne'
    exact (digitCount_le_iff hbase (by decide)).2 (hn.trans_le (Nat.pow_le_pow_left hbase 64))
  rw [numeral_length hgroup, radixCount, stbspNumsz]
  generalize digitCount (Radix.base r) n = count at hcount
  cases commas with
  | false =>
    simp only [Bool.false_eq_true, if_false, false_and, and_false, or_false]
    omega
  | true =>
    rcases hr with rfl | rfl | rfl
    · simp [binary, octal]
      omega
    · simp [octal]
      omega
    · simp [hexadecimal, octal]
      omega

theorem radixText_eq_none_iff {h : List Byte} {r : Radix} {lead : List Byte} {fl : Flags}
    {fw pr : ℤ} {i : ℕ} (hr : r = binary ∨ r = octal ∨ r = hexadecimal) :
    radixText va h r lead fl fw pr i = none ↔
      512 < pr ∨ r = octal ∧ fl.tripletComma = true ∧ pr = 512 := by
  have hshift : 0 < r.shift := by rcases hr with rfl | rfl | rfl <;> decide
  have hgroup : 0 < r.group := by rcases hr with rfl | rfl | rfl <;> decide
  have hn : unsignedArg va fl i < 2 ^ 64 := unsignedArg_lt fl i
  unfold radixText
  rw [← unsignedArg]
  generalize unsignedArg va fl i = n at hn ⊢
  dsimp only
  rw [radixLoop_text hshift hgroup hn]
  by_cases hnone : n = 0 ∧ pr = 0
  · rw [if_pos hnone]
    simp [hnone.2]
  · rw [if_neg hnone, ← radix_too_long_iff hr hn (fun d => h.getD d 0)]
    simp

theorem numberBase_cases {b : ℕ} {c : Byte} (h : numberBase c = some b) :
    b = 10 ∧ (c = ch 'd' ∨ c = ch 'i' ∨ c = ch 'u') ∨ b = 2 ∧ (c = ch 'b' ∨ c = ch 'B') ∨
      b = 8 ∧ c = ch 'o' ∨ b = 16 ∧ (c = ch 'x' ∨ c = ch 'X' ∨ c = ch 'p') := by
  unfold numberBase at h
  grind

/-- The conversions whose digits have no bound of their own fill `num` as far as their precision
    says. -/
theorem convert_overruns_iff {b : ℕ} {c : Byte} (hc : numberBase c = some b) (hb : b ≠ 10)
    {fl : Flags} {fw pr : ℤ} {i : ℕ} : convert m va c fl fw pr i = none ↔ Overruns c fl pr := by
  have hbinary : ¬ binary = octal := by decide
  have hhex : ¬ hexadecimal = octal := by decide
  have hradix : ∀ {h : List Byte} {r : Radix} {lead : List Byte},
      r = binary ∨ r = octal ∨ r = hexadecimal → (r = octal ↔ c = ch 'o') → c ≠ ch 'p' →
      (radixText va h r lead fl fw pr i = none ↔ Overruns c fl pr) := by
    intro h r lead hr hoctal hp
    rw [radixText_eq_none_iff hr, Overruns, hoctal, and_iff_right hp]
  rcases numberBase_cases hc with ⟨hten, -⟩ | ⟨-, rfl | rfl⟩ | ⟨-, rfl⟩ | ⟨-, rfl | rfl | rfl⟩
  · exact absurd hten hb
  · exact hradix (.inl rfl) (iff_of_false hbinary (by decide)) (by decide)
  · exact hradix (.inl rfl) (iff_of_false hbinary (by decide)) (by decide)
  · exact hradix (.inr (.inl rfl)) (iff_of_true rfl rfl) (by decide)
  · exact hradix (.inr (.inr rfl)) (iff_of_false hhex (by decide)) (by decide)
  · exact hradix (.inr (.inr rfl)) (iff_of_false hhex (by decide)) (by decide)
  · -- the precision of a pointer is the source's own
    have hpointer : convert m va (ch 'p') fl fw pr i = pointerText va fl fw i := rfl
    have hsixteen : pointerText va fl fw i = none ↔ (512 : ℤ) < 16 ∨ _ :=
      radixText_eq_none_iff (.inr (.inr rfl))
    rw [hpointer, hsixteen]
    exact iff_of_false (by simp) (fun h => h.1 rfl)

theorem convert_overruns_iff_octal :
    convert (fun _ => 0) (fun _ => 8#64) (ch 'o') { tripletComma := true } 0 512 0 = none ↔
      Overruns (ch 'o') { tripletComma := true } 512 :=
  convert_overruns_iff rfl (by decide)

end Room

/-! ### The argument in the text -/

section Reading
variable {m : Mem} {va : ℕ → BitVec 64}

/-- The argument of a conversion of an integer. The half widths change nothing. -/
def argument (va : ℕ → BitVec 64) (c : Byte) (fl : Flags) (i : ℕ) : ℤ :=
  if c = ch 'd' ∨ c = ch 'i' then
    if fl.intMax then (va i).toInt else ((va i).setWidth 32).toInt
  else if c = ch 'p' then (va i).toNat
  else unsignedArg va fl i

/-- What a conversion of an integer needs in order to write all of its text: room for its digits,
    and a precision that leaves the length with its sign below 2^31. -/
def HasText (c : Byte) (fl : Flags) (pr : ℤ) : Prop :=
  if numberBase c = some 10 then fl.metricSuffix = false ∧ pr < 2 ^ 31 - 2
  else ¬ Overruns c fl pr

/-- A meaning with a text that reads as `x`. -/
def MeansNumber (v : Option Meaning) (b : ℕ) (x : ℤ) : Prop :=
  ∃ text, v = some ⟨text, none, 1⟩ ∧ text.length < 2 ^ 31 ∧ readInteger b text = x

theorem layout_length_le (fl : Flags) (fw pr : ℕ) (lead s : List Byte) (group : ℕ) :
    (layout fl fw pr lead s group).length ≤ max fw (max pr s.length + lead.length) := by
  rw [layout_length]
  split <;> omega

theorem minus_not_mem_numeral {b : ℕ} {char : ℕ → Byte}
    (hchar : ∀ d < b, digitValue b (char d) = some d) (hb : 0 < b) (commas : Bool) (g k n : ℕ) :
    ch '-' ∉ numeral char commas g b k n := by
  have hdigit : ch '-' ∉ (places b k n).map char := by
    intro hmem
    obtain ⟨d, hd, heq⟩ := List.mem_map.1 hmem
    have hnone : digitValue b (ch '-') = none := by simp [digitValue, ch]
    rw [← heq, hchar d (mem_places_lt hb hd)] at hnone
    cases hnone
  intro hmem
  rw [numeral, List.mem_reverse, grouped] at hmem
  split at hmem
  · rcases mem_separateFrom hmem with hcomma | hmem
    · exact absurd hcomma (by decide)
    · exact hdigit hmem
  · exact hdigit hmem

theorem radixMeaning_reads {h lead : List Byte} {r : Radix} {fl : Flags} {fw pr : ℤ} {i : ℕ}
    (hr : r = binary ∨ r = octal ∨ r = hexadecimal)
    (hdigits : ∀ d < Radix.base r, digitValue (Radix.base r) (h.getD d 0) = some d)
    (hlead : Leads (Radix.base r) lead) (hfw : fw < 2 ^ 31)
    (hroom : ¬ (512 < pr ∨ r = octal ∧ fl.tripletComma = true ∧ pr = 512)) :
    MeansNumber (radixMeaning va h r lead fl fw pr i) (Radix.base r) (unsignedArg va fl i) := by
  have hshift : 0 < r.shift := by rcases hr with rfl | rfl | rfl <;> decide
  have hbase : 1 < Radix.base r := Nat.one_lt_two_pow hshift.ne'
  have hn : unsignedArg va fl i < 2 ^ 64 := unsignedArg_lt fl i
  unfold radixMeaning
  generalize unsignedArg va fl i = n at hn ⊢
  dsimp only
  have hlong := (radix_too_long_iff hr hn (fun d => h.getD d 0) fl.tripletComma pr).not.2 hroom
  have hsize : stbspNumsz = 512 := rfl
  have hvalue := readNumber_numeral hdigits blank_comma (by omega) fl.tripletComma r.group
    (radixCount fl.tripletComma r pr n) n
  have hdigit := minus_not_mem_numeral hdigits (by omega) fl.tripletComma r.group
    (radixCount fl.tripletComma r pr n) n
  have hwhole : n < Radix.base r ^ radixCount fl.tripletComma r pr n :=
    (lt_pow_digitCount hbase n).trans_le (Nat.pow_le_pow_right (by omega) (le_max_left _ _))
  rw [ofDigits_places_of_lt hwhole] at hvalue
  generalize numeral (fun d => h.getD d 0) fl.tripletComma r.group (Radix.base r)
    (radixCount fl.tripletComma r pr n) n = text at hlong hvalue hdigit ⊢
  have hused : Leads (Radix.base r) (if n = 0 then [] else lead) := by
    split
    · exact .nil
    · exact hlead
  by_cases hnone : n = 0 ∧ pr = 0
  · rw [if_pos hnone]
    refine ⟨_, rfl, (layout_length_le _ _ _ _ _ _).trans_lt ?_, ?_⟩
    · simp only [List.length_nil]
      omega
    · rw [readInteger_layout (by simp) (by simp), hnone.1]
      simp [readNumber]
  · rw [if_neg hnone, if_pos (not_lt.1 hlong)]
    refine ⟨_, rfl, (layout_length_le _ _ _ _ _ _).trans_lt ?_, ?_⟩
    · have hlength := hused.1
      omega
    · rw [readInteger_layout hused.2.1 hdigit, if_neg hused.2.2, hvalue]

theorem magnitude_value {w : ℕ} (x : BitVec w) (signed : Bool) :
    let arg := if signed = true ∧ x.toInt < 0 then ((-x).toNat, true) else (x.toNat, false)
    (if arg.2 then -(arg.1 : ℤ) else arg.1) = if signed then x.toInt else (x.toNat : ℤ) := by
  have hlt := x.isLt
  have hint := BitVec.toInt_eq_toNat_cond x
  have hneg := BitVec.toNat_neg x
  by_cases h : signed = true ∧ x.toInt < 0
  · have hbig : ¬ 2 * x.toNat < 2 ^ w := by
      intro hsmall
      rw [if_pos hsmall] at hint
      omega
    rw [if_neg hbig] at hint
    rw [Nat.mod_eq_of_lt (by omega)] at hneg
    dsimp only
    rw [if_pos h, if_pos h.1, if_pos rfl, hneg, hint]
    omega
  · dsimp only
    rw [if_neg h, if_neg Bool.false_ne_true]
    cases signed with
    | false => rfl
    | true =>
      have hpos : ¬ x.toInt < 0 := fun hlt => h ⟨rfl, hlt⟩
      rw [if_pos rfl, hint]
      split
      · rfl
      · rename_i hbig
        rw [if_neg hbig] at hint
        omega

theorem integerArg_value (signed : Bool) (fl : Flags) (i : ℕ) :
    (if (integerArg va signed fl i).2 then -((integerArg va signed fl i).1 : ℤ)
      else (integerArg va signed fl i).1) =
      if signed then if fl.intMax then (va i).toInt else ((va i).setWidth 32).toInt
      else unsignedArg va fl i := by
  unfold integerArg unsignedArg
  cases fl.intMax with
  | false => exact magnitude_value ((va i).setWidth 32) signed
  | true => exact magnitude_value (va i) signed

theorem integerMeaning_reads (signed : Bool) {fl : Flags} {fw pr : ℤ} {i : ℕ}
    (hmetric : fl.metricSuffix = false) (hfw : fw < 2 ^ 31) (hpr : pr < 2 ^ 31 - 2) :
    MeansNumber (integerMeaning va signed fl fw pr i) 10
      (if signed then if fl.intMax then (va i).toInt else ((va i).setWidth 32).toInt
        else unsignedArg va fl i) := by
  have hdigits : ∀ d < 10, digitValue 10 (decimalChar d) = some d := by decide
  have hn : (integerArg va signed fl i).1 < 2 ^ 64 := integerArg_lt signed fl i
  rw [← integerArg_value]
  unfold integerMeaning
  generalize integerArg va signed fl i = arg at hn ⊢
  obtain ⟨n, negative⟩ := arg
  dsimp only at hn ⊢
  have hcount : digitCount 10 n ≤ 20 := (digitCount_le_iff (by decide) (by decide)).2 (by omega)
  have hlength := numeral_length (g := 3) (by decide) decimalChar fl.tripletComma 10
    (digitCount 10 n) n
  have hvalue := readNumber_numeral hdigits blank_comma (by decide) fl.tripletComma 3
    (digitCount 10 n) n
  have hdigit := minus_not_mem_numeral hdigits (by decide) fl.tripletComma 3 (digitCount 10 n) n
  rw [ofDigits_places_of_lt (lt_pow_digitCount (by decide) n)] at hvalue
  generalize numeral decimalChar fl.tripletComma 3 10 (digitCount 10 n) n = text
    at hlength hvalue hdigit ⊢
  rw [if_neg (by simp [hmetric])]
  have hshort : text.length ≤ 30 := by
    rw [hlength]
    split <;> omega
  have hsign : (leadSign { fl with negative := negative }).length ≤ 1 ∧
      (∀ c ∈ leadSign { fl with negative := negative }, IsBlank 10 c) ∧
      (ch '-' ∈ leadSign { fl with negative := negative } ↔ negative = true) := by
    have hblank : IsBlank 10 (ch '-') ∧ IsBlank 10 (ch ' ') ∧ IsBlank 10 (ch '+') :=
      ⟨.inl rfl, .inl rfl, .inl rfl⟩
    have hother : ch '-' ≠ ch ' ' ∧ ch '-' ≠ ch '+' := by decide
    unfold leadSign
    cases negative <;> cases fl.leadingSpace <;> cases fl.leadingPlus <;> simp [hblank, hother]
  refine ⟨_, rfl, (layout_length_le _ _ _ _ _ _).trans_lt (by omega), ?_⟩
  rw [readInteger_layout hsign.2.1 hdigit, hvalue]
  exact if_congr hsign.2.2 rfl rfl

theorem meaning_reads {b : ℕ} {c : Byte} (hc : numberBase c = some b) {fl : Flags} {fw pr : ℤ}
    (hfw : fw < 2 ^ 31) (htext : HasText c fl pr) (i : ℕ) :
    MeansNumber (meaning m va c fl fw pr i) b (argument va c fl i) := by
  have hlead : ∀ {lead : List Byte}, Leads b lead → Leads b (if fl.leading0x then lead else []) := by
    intro lead hlead
    split
    · exact hlead
    · exact .nil
  have hbinary : ∀ h ∈ [hex, hexu], (∀ d < 2, digitValue 2 (h.getD d 0) = some d) ∧
      Leads 2 [ch '0', h.getD 0xb 0] := by decide
  have hoctal : (∀ d < 8, digitValue 8 (hexu.getD d 0) = some d) ∧ Leads 8 [ch '0'] := by decide
  have hhex : ∀ h ∈ [hex, hexu], (∀ d < 16, digitValue 16 (h.getD d 0) = some d) ∧
      Leads 16 [ch '0', h.getD 16 0] := by decide
  have hbin : ¬ binary = octal := by decide
  have hhexadecimal : ¬ hexadecimal = octal := by decide
  have hlower : hex ∈ [hex, hexu] := List.mem_cons_self
  have hupper : hexu ∈ [hex, hexu] := List.mem_cons_of_mem _ List.mem_cons_self
  rcases numberBase_cases hc with ⟨rfl, hten⟩ | ⟨rfl, htwo⟩ | ⟨rfl, rfl⟩ | ⟨rfl, hsixteen⟩
  · rw [HasText, if_pos hc] at htext
    rcases hten with rfl | rfl | rfl
    · exact integerMeaning_reads true htext.1 hfw htext.2
    · exact integerMeaning_reads true htext.1 hfw htext.2
    · exact integerMeaning_reads false htext.1 hfw htext.2
  · have hroom : ¬ Overruns c fl pr := by
      rwa [HasText, if_neg (by rw [hc]; decide)] at htext
    rcases htwo with rfl | rfl
    · exact radixMeaning_reads (.inl rfl) (hbinary hex hlower).1 (hlead (hbinary hex hlower).2) hfw
        fun h => hroom ⟨by decide, h.imp_right fun h => absurd h.1 (by decide)⟩
    · exact radixMeaning_reads (.inl rfl) (hbinary hexu hupper).1 (hlead (hbinary hexu hupper).2)
        hfw fun h => hroom ⟨by decide, h.imp_right fun h => absurd h.1 (by decide)⟩
  · have hroom : ¬ Overruns (ch 'o') fl pr := by
      rwa [HasText, if_neg (by decide)] at htext
    exact radixMeaning_reads (.inr (.inl rfl)) hoctal.1 (hlead hoctal.2) hfw
      fun h => hroom ⟨by decide, h.imp_right fun h => ⟨rfl, h.2⟩⟩
  · have hroom : ¬ Overruns c fl pr := by
      rwa [HasText, if_neg (by rw [hc]; decide)] at htext
    rcases hsixteen with rfl | rfl | rfl
    · exact radixMeaning_reads (.inr (.inr rfl)) (hhex hex hlower).1 (hlead (hhex hex hlower).2) hfw
        fun h => hroom ⟨by decide, h.imp_right fun h => absurd h.1 (by decide)⟩
    · exact radixMeaning_reads (.inr (.inr rfl)) (hhex hexu hupper).1
        (hlead (hhex hexu hupper).2) hfw
        fun h => hroom ⟨by decide, h.imp_right fun h => absurd h.1 (by decide)⟩
    · -- a pointer is read with all of its bits and the source's own precision
      exact radixMeaning_reads (.inr (.inr rfl)) (hhex hex hlower).1 (hlead (hhex hex hlower).2) hfw
        fun h => by rcases h with h | h <;> exact absurd h (by simp [octal, hexadecimal])

/-- Whatever the flags, the width, the precision and the size of a conversion of an integer, the
    text that `stbsp_vsprintf` writes for it reads as its argument. -/
theorem stbspVsprintf_reads {fmt b : ℕ} {cs : List Byte} {c : Byte}
    (h : TextAt m fmt (ch '%' :: cs)) (hrest : (modifiersOf va cs 0).rest = [c])
    (hc : numberBase c = some b)
    (htext : HasText c (modifiersOf va cs 0).fl (modifiersOf va cs 0).pr)
    (buf : ℕ) {fuel : ℕ} (hfuel : 4 * cs.length + 9 ≤ fuel) :
    ∃ r, stbspVsprintf m buf va fmt fuel = some r ∧ r.counts = [] ∧
      readInteger b r.out = argument va c (modifiersOf va cs 0).fl (modifiersOf va cs 0).i := by
  obtain ⟨text, hmeaning, hlen, hreads⟩ :=
    meaning_reads (m := m) hc (fieldOf_lt va _ _) htext (modifiersOf va cs 0).i
  have hformats : Formats m va (ch '%' :: cs) 0 0 (text ++ []) ([] ++ []) :=
    .conversion hrest hmeaning .done
  rw [List.append_nil] at hformats
  have hturns : 4 * (ch '%' :: cs).length + 5 ≤ fuel := by
    rw [List.length_cons]
    omega
  obtain ⟨f, i, heq⟩ := stbspVsprintf_eq h hformats hlen buf hturns
  exact ⟨_, heq, rfl, hreads⟩

def groupedFormat : List Byte := "%'020ld".toList.map ch

def groupedMem : Mem := fun x => groupedFormat.getD x 0#8

theorem stbspVsprintf_reads_negative :
    ∃ r, stbspVsprintf groupedMem 0 (fun _ => BitVec.ofInt 64 (-9876543210)) 0 40 = some r ∧
      r.counts = [] ∧ readInteger 10 r.out = -9876543210 := by
  have htext : TextAt groupedMem 0 (ch '%' :: groupedFormat.tail) := by decide
  have hroom : HasText (ch 'd')
      (modifiersOf (fun _ => BitVec.ofInt 64 (-9876543210)) groupedFormat.tail 0).fl
      (modifiersOf (fun _ => BitVec.ofInt 64 (-9876543210)) groupedFormat.tail 0).pr :=
    ⟨rfl, by decide⟩
  exact stbspVsprintf_reads htext rfl rfl hroom 0 (by decide)

end Reading

end Rizzos.SprintfReading
