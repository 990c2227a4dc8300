import Rizzos.SprintfNumbers

set_option autoImplicit false

/-!
# What the loops over words of `lib/stb_sprintf.h` come to

Text is scanned and copied a word at a time where its address allows it. That makes no difference
to what is found and what is written.
-/
namespace Rizzos.SprintfCopy
open ByteMemory WordScan CInt StbSprintf SprintfNumbers
open WordFill (wordByte)

def TextAt (m : Mem) : ℕ → List Byte → Prop
  | f, [] => load8 m f = 0#8
  | f, c :: cs => load8 m f = c ∧ c ≠ 0#8 ∧ TextAt m (f + 1) cs

instance TextAt.decidable (m : Mem) : ∀ f cs, Decidable (TextAt m f cs)
  | f, [] => inferInstanceAs (Decidable (load8 m f = 0#8))
  | f, c :: cs =>
    have := TextAt.decidable m (f + 1) cs
    inferInstanceAs (Decidable (load8 m f = c ∧ c ≠ 0#8 ∧ TextAt m (f + 1) cs))

def stringAt (m : Mem) : ℕ → ℕ → List Byte
  | 0, _ => []
  | limit + 1, s => if load8 m s = 0#8 then [] else load8 m s :: stringAt m limit (s + 1)

section Words
variable {m : Mem}

theorem endTest_iff (a : ℕ) : (wordAt m a - ones) &&& (~~~wordAt m a &&& tops) ≠ 0#32 ↔
    ∃ i < 4, load8 m (a + i) = 0#8 := by
  rw [zeroByte_iff]
  apply exists_congr
  intro i
  apply and_congr_right
  intro hi
  rw [wordAt, wordByte_load32 m a hi]

theorem percentTest_iff (a : ℕ) :
    ((wordAt m a ^^^ 0x25252525#32) - ones) &&& (~~~wordAt m a &&& tops) ≠ 0#32 ↔
      ∃ i < 4, load8 m (a + i) = ch '%' := by
  have hpercent : ∀ i < 4, wordByte (0x25252525#32).toNat i = ch '%' := by decide
  rw [sameByte_iff _ (by decide)]
  apply exists_congr
  intro i
  apply and_congr_right
  intro hi
  rw [wordAt, wordByte_load32 m a hi, hpercent i hi]

theorem TextAt.char {f : ℕ} {cs : List Byte} (h : TextAt m f cs) :
    load8 m f = cs.headD 0#8 := by
  cases cs with
  | nil => exact h
  | cons c cs => exact h.1

theorem TextAt.tail {f : ℕ} {cs : List Byte} (h : TextAt m f cs) (hne : load8 m f ≠ 0#8) :
    TextAt m (f + 1) cs.tail := by
  cases cs with
  | nil => exact absurd h hne
  | cons c cs => exact h.2.2

theorem TextAt.drop {f : ℕ} {cs : List Byte} (h : TextAt m f cs) (k : ℕ)
    (hne : ∀ j < k, cs.getD j 0#8 ≠ 0#8) : TextAt m (f + k) (cs.drop k) := by
  induction k generalizing f cs with
  | zero => exact h
  | succ k ih =>
    cases cs with
    | nil => exact absurd rfl (hne 0 (Nat.succ_pos k))
    | cons c cs =>
      rw [show f + (k + 1) = f + 1 + k by omega]
      exact ih h.2.2 fun j hj => hne (j + 1) (by omega)

theorem TextAt.four {f : ℕ} {cs : List Byte} (h : TextAt m f cs)
    (hne : ∀ i < 4, load8 m (f + i) ≠ 0#8) :
    ∃ rest, cs = load8 m f :: load8 m (f + 1) :: load8 m (f + 2) :: load8 m (f + 3) :: rest ∧
      TextAt m (f + 4) rest := by
  have hstep : ∀ {g : ℕ} {ds : List Byte}, TextAt m g ds → load8 m g ≠ 0#8 →
      ∃ rest, ds = load8 m g :: rest ∧ TextAt m (g + 1) rest := by
    intro g ds hg hchar
    cases ds with
    | nil => exact absurd hg hchar
    | cons c ds => exact ⟨ds, by rw [hg.1], hg.2.2⟩
  obtain ⟨r0, rfl, h1⟩ := hstep h (hne 0 (by decide))
  obtain ⟨r1, rfl, h2⟩ := hstep h1 (hne 1 (by decide))
  obtain ⟨r2, rfl, h3⟩ := hstep h2 (hne 2 (by decide))
  obtain ⟨r3, rfl, h4⟩ := hstep h3 (hne 3 (by decide))
  exact ⟨r3, rfl, h4⟩

end Words

/-! ### The length of a string -/

section Strlen
variable (m : Mem)

theorem strlenBytes_eq (limit sn : ℕ) :
    strlenBytes m limit sn = sn + (stringAt m limit sn).length := by
  induction limit generalizing sn with
  | zero => rfl
  | succ limit ih =>
    rw [strlenBytes, stringAt]
    split
    · rfl
    · rw [ih, List.length_cons]
      omega

theorem stringAt_four {sn : ℕ} (h : ∀ i < 4, load8 m (sn + i) ≠ 0#8) (limit : ℕ) :
    (stringAt m (limit + 4) sn).length = (stringAt m limit (sn + 4)).length + 4 := by
  have h0 : load8 m sn ≠ 0#8 := h 0 (by decide)
  simp [stringAt, h0, h 1 (by decide), h 2 (by decide), h 3 (by decide), Nat.add_assoc]

theorem strlenWords_eq (limit sn : ℕ) :
    strlenWords m limit sn = sn + (stringAt m limit sn).length := by
  induction limit using Nat.strong_induction_on generalizing sn with
  | _ limit ih =>
    by_cases hfour : 4 ≤ limit
    · obtain ⟨rest, rfl⟩ : ∃ n, limit = n + 4 := ⟨limit - 4, by omega⟩
      rw [strlenWords]
      split
      · exact strlenBytes_eq m _ sn
      · rename_i hzero
        have hnone : ∀ i < 4, load8 m (sn + i) ≠ 0#8 := by
          intro i hi hend
          exact hzero ((endTest_iff sn).2 ⟨i, hi, hend⟩)
        rw [ih rest (by omega), stringAt_four m hnone]
        omega
    · have hbytes : strlenWords m limit sn = strlenBytes m limit sn := by
        interval_cases limit <;> rfl
      rw [hbytes, strlenBytes_eq]

theorem strlenAlign_eq (limit sn : ℕ) :
    strlenAlign m limit sn = sn + (stringAt m limit sn).length := by
  induction limit generalizing sn with
  | zero =>
    rw [strlenAlign]
    split
    · exact strlenWords_eq m 0 sn
    · rfl
  | succ limit ih =>
    rw [strlenAlign]
    split
    · exact strlenWords_eq m _ sn
    · rw [stringAt]
      split
      · rfl
      · rw [ih, List.length_cons]
        omega

theorem strlenLimited_eq (s limit : ℕ) :
    strlenLimited m s limit = (stringAt m limit s).length := by
  rw [strlenLimited, strlenAlign_eq, Nat.add_sub_cancel_left]

theorem stringAt_eq (s limit : ℕ) : (List.range (stringAt m limit s).length).map
    (fun k => load8 m (s + k)) = stringAt m limit s := by
  induction limit generalizing s with
  | zero => rfl
  | succ limit ih =>
    rw [stringAt]
    split
    · rfl
    · rw [List.length_cons, List.range_succ_eq_map, List.map_cons, List.map_map, Nat.add_zero]
      conv_rhs => rw [← ih (s + 1)]
      congr 1
      apply List.map_congr_left
      intro k _
      exact congrArg (load8 m) (by simp only [Nat.succ_eq_add_one]; omega)

end Strlen

/-! ### The text between two conversions -/

section Text
variable {m : Mem}

def literal (cs : List Byte) : List Byte := cs.takeWhile fun c => c ≠ ch '%'

def fromPercent (cs : List Byte) : List Byte := cs.dropWhile fun c => c ≠ ch '%'

def endOf (cs : List Byte) : CopyEnd := if cs = [] then .endfmt else .scandd

/-- An upper bound on the turns from a place in the loop on, with `n` characters to copy. -/
def turns (n : ℕ) : CopyAt → ℕ
  | .align => 4 * n + 4
  | .words => 4 * n + 3
  | .schk1 => 4 * n + 2
  | .schk2 => 4 * n + 1

def Reachable (f : ℕ) (cs : List Byte) : CopyAt → Prop
  | .align => True
  | .words => f % 4 = 0
  | .schk1 => True
  | .schk2 => cs.head? ≠ some (ch '%')

theorem TextAt.head? {f : ℕ} {cs : List Byte} (h : TextAt m f cs) {c : Byte} (hc : c ≠ 0#8) :
    cs.head? = some c ↔ load8 m f = c := by
  cases cs with
  | nil =>
    rw [h.char]
    exact iff_of_false (by simp) (Ne.symm hc)
  | cons d cs => rw [h.1, List.head?_cons, Option.some_inj]

theorem copyText_eq {fuel f : ℕ} {p : CopyAt} {cs : List Byte} (h : TextAt m f cs)
    (hp : Reachable f cs p) (hfuel : turns (literal cs).length p ≤ fuel) (out : List Byte) :
    ∃ f', TextAt m f' (fromPercent cs) ∧
      copyText m fuel p f out = some (endOf (fromPercent cs), f', out ++ literal cs) := by
  have hchar : ch '%' ≠ 0#8 := by decide
  induction fuel generalizing f p cs out with
  | zero => cases p <;> simp [turns] at hfuel
  | succ fuel ih =>
    cases p with
    | align =>
      rw [copyText]
      split
      · exact ih (p := .schk1) h trivial (by simp only [turns] at hfuel ⊢; omega) out
      · rename_i haligned
        exact ih (p := .words) h (not_not.1 haligned)
          (by simp only [turns] at hfuel ⊢; omega) out
    | words =>
      rw [copyText]
      split
      · exact ih (p := .schk1) h trivial (by simp only [turns] at hfuel ⊢; omega) out
      · rename_i hpercent
        have hno : ∀ i < 4, load8 m (f + i) ≠ ch '%' := by
          intro i hi heq
          exact hpercent ((percentTest_iff f).2 ⟨i, hi, heq⟩)
        split
        · have hhead : cs.head? ≠ some (ch '%') := (h.head? hchar).not.2 (hno 0 (by decide))
          exact ih (p := .schk2) h hhead (by simp only [turns] at hfuel ⊢; omega) out
        · rename_i hend
          have hnone : ∀ i < 4, load8 m (f + i) ≠ 0#8 := by
            intro i hi heq
            exact hend ((endTest_iff f).2 ⟨i, hi, heq⟩)
          obtain ⟨rest, rfl, hrest⟩ := h.four hnone
          have hlit : literal (load8 m f :: load8 m (f + 1) :: load8 m (f + 2) ::
              load8 m (f + 3) :: rest) =
              load8 m f :: load8 m (f + 1) :: load8 m (f + 2) :: load8 m (f + 3) ::
                literal rest := by
            simp [literal, hno 1 (by decide), hno 2 (by decide), hno 3 (by decide),
              show load8 m f ≠ ch '%' from hno 0 (by decide)]
          have hfrom : fromPercent (load8 m f :: load8 m (f + 1) :: load8 m (f + 2) ::
              load8 m (f + 3) :: rest) = fromPercent rest := by
            simp [fromPercent, hno 1 (by decide), hno 2 (by decide), hno 3 (by decide),
              show load8 m f ≠ ch '%' from hno 0 (by decide)]
          have hbyte : ∀ i < 4, wordByte (wordAt m f).toNat i = load8 m (f + i) :=
            fun i hi => wordByte_load32 m f hi
          have hplace : Reachable (f + 4) rest .words := by
            change (f + 4) % 4 = 0
            have : f % 4 = 0 := hp
            omega
          rw [hlit] at hfuel
          rw [hfrom, hlit, hbyte 0 (by decide), hbyte 1 (by decide), hbyte 2 (by decide),
            hbyte 3 (by decide)]
          simpa using ih (p := .words) hrest hplace
            (by simp only [turns, List.length_cons] at hfuel ⊢; omega)
            (out ++ [load8 m f, load8 m (f + 1), load8 m (f + 2), load8 m (f + 3)])
    | schk1 =>
      rw [copyText]
      split
      · rename_i hpercent
        obtain ⟨rest, rfl⟩ : ∃ rest, cs = ch '%' :: rest := by
          have hhead := (h.head? hchar).2 hpercent
          cases cs with
          | nil => cases hhead
          | cons c cs => exact ⟨cs, by rw [Option.some.inj hhead]⟩
        exact ⟨f, h, by simp [fromPercent, literal, endOf]⟩
      · rename_i hpercent
        exact ih (p := .schk2) h ((h.head? hchar).not.2 hpercent)
          (by simp only [turns] at hfuel ⊢; omega) out
    | schk2 =>
      rw [copyText]
      cases cs with
      | nil =>
        rw [if_pos (show load8 m f = 0#8 from h)]
        exact ⟨f, h, by simp [fromPercent, literal, endOf]⟩
      | cons c cs =>
        obtain ⟨hc, hne, hrest⟩ := h
        have hpercent : c ≠ ch '%' := fun heq => hp (congrArg some heq)
        have hlit : literal (c :: cs) = c :: literal cs := by simp [literal, hpercent]
        have hfrom : fromPercent (c :: cs) = fromPercent cs := by simp [fromPercent, hpercent]
        rw [hlit] at hfuel
        rw [hc, if_neg hne, hfrom, hlit]
        simpa using ih (p := .align) hrest trivial
          (by simp only [turns, List.length_cons] at hfuel ⊢; omega) (out ++ [c])

end Text

/-! ### A text in its field -/

section Field

theorem padBytes_eq (c : Byte) (i : ℕ) : padBytes c i = List.replicate i c := by
  induction i with
  | zero => rfl
  | succ i ih => rw [padBytes, ih, List.replicate_succ]

theorem padWords_eq (c : Byte) (i : ℕ) : padWords c i = List.replicate i c := by
  induction i using Nat.strong_induction_on with
  | _ i ih =>
    by_cases hfour : 4 ≤ i
    · obtain ⟨rest, rfl⟩ : ∃ n, i = n + 4 := ⟨i - 4, by omega⟩
      rw [padWords, ih rest (by omega)]
      rfl
    · have hbytes : padWords c i = padBytes c i := by
        interval_cases i <;> rfl
      rw [hbytes, padBytes_eq]

theorem padAlign_eq (c : Byte) (bf i : ℕ) : padAlign c bf i = List.replicate i c := by
  induction i generalizing bf with
  | zero => rfl
  | succ i ih =>
    rw [padAlign]
    split
    · exact padWords_eq c _
    · rw [ih, List.replicate_succ]

theorem copyString_eq (s : List Byte) : copyString s = s := by
  induction s using copyString.induct with
  | case1 a b c d s ih => rw [copyString, ih]
  | case2 s hless => rw [copyString]; exact hless

/-- `n` zeros in front of `length` characters, with a comma in each place that is the last one of
    `group` others. -/
def fill (commas : Bool) (group length n : ℕ) : List Byte :=
  if commas then
    (List.range n).reverse.map fun k =>
      if (length + k) % (group + 1) = group then comma else ch '0'
  else List.replicate n (ch '0')

theorem fill_length (commas : Bool) (group length n : ℕ) :
    (fill commas group length n).length = n := by
  unfold fill
  split <;> simp

/-- The count of characters since the last comma is that of the place to write to. -/
theorem commaZeros_eq (c length n : ℕ) :
    commaZeros c n (c - (n + length) % (c + 1)) = fill true c length n := by
  induction n with
  | zero => rfl
  | succ n ih =>
    have hmod : (n + length) % (c + 1) < c + 1 := Nat.mod_lt _ (Nat.succ_pos c)
    have hstep : (n + 1 + length) % (c + 1) =
        if (n + length) % (c + 1) = c then 0 else (n + length) % (c + 1) + 1 := by
      rw [show n + 1 + length = n + length + 1 by omega, Nat.add_mod_eq_add_mod_right 1
        (Nat.mod_mod (n + length) (c + 1)).symm]
      split
      · rename_i hlast
        rw [hlast, Nat.mod_self]
      · exact Nat.mod_eq_of_lt (by omega)
    have hfill : fill true c length (n + 1) =
        (if (n + length) % (c + 1) = c then comma else ch '0') :: fill true c length n := by
      simp [fill, List.range_succ, Nat.add_comm length n]
    rw [hfill, hstep, commaZeros, ← ih]
    by_cases hlast : (n + length) % (c + 1) = c
    · simp [hlast]
    · rw [if_neg hlast, if_neg hlast, if_neg (by omega)]
      congr 2
      omega

/-- The text of a conversion in its field. A field with leading zeros has no blanks, and the
    zeros that its width asks for and those that the precision asks for are not added up. -/
def layout (fl : Flags) (fw pr : ℕ) (lead s : List Byte) (group : ℕ) : List Byte :=
  let blank := fw - (max pr s.length + lead.length)
  let zeros := pr - s.length
  if fl.leftJust then
    lead ++ fill fl.tripletComma group s.length zeros ++ s ++ List.replicate blank (ch ' ')
  else if fl.leadingZero then
    lead ++ fill fl.tripletComma group s.length (max blank zeros) ++ s
  else List.replicate blank (ch ' ') ++ lead ++ fill false group s.length zeros ++ s

theorem layout_length (fl : Flags) (fw pr : ℕ) (lead s : List Byte) (group : ℕ) :
    (layout fl fw pr lead s group).length =
      if fl.leftJust = false ∧ fl.leadingZero then
        lead.length + s.length + max (fw - (max pr s.length + lead.length)) (pr - s.length)
      else max fw (max pr s.length + lead.length) := by
  unfold layout
  cases hleft : fl.leftJust <;> cases hzero : fl.leadingZero <;>
    simp [fill_length] <;> omega

/-- The zeros, with the count of the last comma's distance as the source finds it. -/
theorem zeros_eq {group length cs : ℕ} (commas : Prop) [Decidable commas] (bf : ℕ)
    (hcs : cs % 2 ^ 24 % (group + 1) = length % (group + 1)) {n : ℕ} (hn : n < 2 ^ 31) :
    (if commas then
      commaZeros group (n : ℤ).toNat
        (group - uint32 ((n : ℤ) + (cs % 2 ^ 24 : ℕ)) % (group + 1))
      else padAlign (ch '0') bf (n : ℤ).toNat) = fill (decide commas) group length n := by
  have hlow : cs % 2 ^ 24 < 2 ^ 24 := Nat.mod_lt _ (by decide)
  by_cases hcommas : commas
  · rw [if_pos hcommas, uint32_add (by omega), Nat.add_mod, hcs, ← Nat.add_mod, decide_eq_true hcommas]
    exact commaZeros_eq group length n
  · rw [if_neg hcommas, padAlign_eq, decide_eq_false hcommas]
    rfl

theorem remains_eq {x : ℤ} {n : ℕ} (hx : x < 2 ^ 31) (hn : n < 2 ^ 31) :
    int32 ((if x < int32 n then int32 n else x) - n) = (x.toNat - n : ℕ) := by
  rw [int32_ofNat_of_lt hn]
  have hmore : (if x < n then (n : ℤ) else x) - n = (x.toNat - n : ℕ) := by
    split <;> omega
  rw [hmore]
  exact int32_ofNat_of_lt (by omega)

theorem scopy_eq (bf : ℕ) {p : Piece} {group : ℕ} (htz : p.tz = 0) (htail : p.tail = [])
    (hfw : p.fw < 2 ^ 31) (hpr : p.pr < 2 ^ 31) (hgroup : p.cs / 2 ^ 24 = group)
    (hcs : p.cs % 2 ^ 24 % (group + 1) = p.s.length % (group + 1))
    (hlen : (layout p.fl p.fw.toNat p.pr.toNat p.lead p.s group).length < 2 ^ 31) :
    scopy bf p = layout p.fl p.fw.toNat p.pr.toNat p.lead p.s group := by
  have hleast : max p.pr.toNat p.s.length + p.lead.length < 2 ^ 31 := by
    rw [layout_length] at hlen
    split at hlen <;> omega
  have hs : p.s.length < 2 ^ 31 := by omega
  have hfits : p.fw.toNat - (max p.pr.toNat p.s.length + p.lead.length) < 2 ^ 31 ∧
      p.pr.toNat - p.s.length < 2 ^ 31 := by
    omega
  have hprecision : (if p.pr < int32 p.s.length then int32 p.s.length else p.pr) =
      (max p.pr.toNat p.s.length : ℕ) := by
    rw [int32_ofNat_of_lt hs]
    split <;> omega
  have hn : uint32 (((max p.pr.toNat p.s.length : ℕ) : ℤ) + p.lead.length + (0 : ℕ) + 0) =
      max p.pr.toNat p.s.length + p.lead.length := by
    rw [Nat.cast_zero, add_zero, add_zero]
    exact uint32_add (hleast.trans (by decide))
  have hblank := remains_eq hfw hleast
  have hzeros := remains_eq hpr hs
  rw [hprecision] at hzeros
  unfold scopy
  simp only [htz, htail, List.length_nil, hprecision, hn, hblank, hzeros, hgroup]
  generalize hb : p.fw.toNat - (max p.pr.toNat p.s.length + p.lead.length) = blank at hfits
  generalize hz : p.pr.toNat - p.s.length = zeros at hfits
  have hcount : (if ¬p.fl.leftJust = true ∧ p.fl.leadingZero = true then max (blank : ℤ) zeros
      else zeros) =
      ((if ¬p.fl.leftJust = true ∧ p.fl.leadingZero = true then max blank zeros else zeros : ℕ) :
        ℤ) := by
    split
    · exact (Nat.cast_max blank zeros).symm
    · rfl
  have hbound : (if ¬p.fl.leftJust = true ∧ p.fl.leadingZero = true then max blank zeros
      else zeros) < 2 ^ 31 := by
    split
    · exact max_lt hfits.1 hfits.2
    · exact hfits.2
  simp only [hcount, zeros_eq _ _ hcs hbound]
  simp only [padAlign_eq, copyString_eq, layout, hb, hz]
  cases p.fl.leftJust <;> cases p.fl.leadingZero <;> simp

end Field

end Rizzos.SprintfCopy
