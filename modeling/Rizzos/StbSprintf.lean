import Rizzos.CInt
import Rizzos.WordScan

set_option autoImplicit false

/-!
# `lib/stb_sprintf.h` without a callback

`stbsp_vsprintf` reads the format and the strings of its arguments from memory as it was at the
call. What it writes, the characters of the buffer and the counts of `%n`, is kept in lists, so the
model is the code's as long as no store reaches the format or a string that is read later.
A slot of the argument list holds 64 bits, and `va i` is slot `i`. There is no result where the
source goes on to floating point or writes in front of the array `num`.
-/
namespace Rizzos.StbSprintf
open ByteMemory WordScan CInt
open WordFill (wordByte)

def ch (c : Char) : Byte := BitVec.ofNat 8 c.toNat

structure Flags where
  leftJust : Bool := false
  leadingPlus : Bool := false
  leadingSpace : Bool := false
  leading0x : Bool := false
  leadingZero : Bool := false
  intMax : Bool := false
  tripletComma : Bool := false
  negative : Bool := false
  metricSuffix : Bool := false
  halfWidth : Bool := false
  metricNoSpace : Bool := false
  metric1024 : Bool := false
  metricJedec : Bool := false
deriving DecidableEq, Repr

def hex : List Byte := "0123456789abcdefxp".toList.map ch
def hexu : List Byte := "0123456789ABCDEFXP".toList.map ch

/-- `stbsp__comma`, which the kernel leaves as it is. -/
def comma : Byte := ch ','

def digitPairs : List Byte :=
  ("00010203040506070809101112131415161718192021222324" ++
   "25262728293031323334353637383940414243444546474849" ++
   "50515253545556575859606162636465666768697071727374" ++
   "75767778798081828384858687888990919293949596979899").toList.map ch

def stbspNumsz : ℕ := 512

def leadSign (fl : Flags) : List Byte :=
  if fl.negative then [ch '-']
  else if fl.leadingSpace then [ch ' ']
  else if fl.leadingPlus then [ch '+']
  else []

/-! ### Scanning by words -/

section Scan
variable (m : Mem)

def wordAt (a : ℕ) : Word := BitVec.ofNat 32 (load32 m a)

/-- The last of the loops of `stbsp__strlen_limited`: the address at which it stops. -/
def strlenBytes : ℕ → ℕ → ℕ
  | 0, sn => sn
  | limit + 1, sn => if load8 m sn = 0#8 then sn else strlenBytes limit (sn + 1)

def strlenWords : ℕ → ℕ → ℕ
  | limit + 4, sn =>
    if (wordAt m sn - ones) &&& (~~~wordAt m sn &&& tops) ≠ 0#32 then strlenBytes m (limit + 4) sn
    else strlenWords limit (sn + 4)
  | limit, sn => strlenBytes m limit sn

def strlenAlign : ℕ → ℕ → ℕ
  | 0, sn => if sn % 4 = 0 then strlenWords m 0 sn else sn
  | limit + 1, sn =>
    if sn % 4 = 0 then strlenWords m (limit + 1) sn
    else if load8 m sn = 0#8 then sn
    else strlenAlign limit (sn + 1)

def strlenLimited (s limit : ℕ) : ℕ := strlenAlign m limit s - s

/-- The places in the loop that copies text: `while (f & 3)`, the two labels, and the loop over
    words. -/
inductive CopyAt where
  | align
  | schk1
  | schk2
  | words
deriving DecidableEq, Repr

inductive CopyEnd where
  | scandd
  | endfmt
deriving DecidableEq, Repr

def copyText : ℕ → CopyAt → ℕ → List Byte → Option (CopyEnd × ℕ × List Byte)
  | 0, _, _, _ => none
  | fuel + 1, .align, f, out => copyText fuel (if f % 4 ≠ 0 then .schk1 else .words) f out
  | fuel + 1, .schk1, f, out =>
    if load8 m f = ch '%' then some (.scandd, f, out) else copyText fuel .schk2 f out
  | fuel + 1, .schk2, f, out =>
    if load8 m f = 0#8 then some (.endfmt, f, out)
    else copyText fuel .align (f + 1) (out ++ [load8 m f])
  | fuel + 1, .words, f, out =>
    let v := wordAt m f
    let c := ~~~v &&& tops
    if ((v ^^^ 0x25252525#32) - ones) &&& c ≠ 0#32 then copyText fuel .schk1 f out
    else if (v - ones) &&& c ≠ 0#32 then copyText fuel .schk2 f out
    else copyText fuel .words (f + 4)
      (out ++ [wordByte v.toNat 0, wordByte v.toNat 1, wordByte v.toNat 2, wordByte v.toNat 3])

end Scan

/-! ### The modifiers of a conversion -/

section Modifiers
variable (m : Mem) (va : ℕ → BitVec 64)

def setFlag (c : Byte) (fl : Flags) : Option Flags :=
  if c = ch '-' then some { fl with leftJust := true }
  else if c = ch '+' then some { fl with leadingPlus := true }
  else if c = ch ' ' then some { fl with leadingSpace := true }
  else if c = ch '#' then some { fl with leading0x := true }
  else if c = 39#8 then some { fl with tripletComma := true }
  else if c = ch '$' then
    if fl.metricSuffix then
      if fl.metric1024 then some { fl with metricJedec := true }
      else some { fl with metric1024 := true }
    else some { fl with metricSuffix := true }
  else if c = ch '_' then some { fl with metricNoSpace := true }
  else none

def flagsLoop : ℕ → ℕ → Flags → Option (Flags × ℕ)
  | 0, _, _ => none
  | fuel + 1, f, fl =>
    match setFlag (load8 m f) fl with
    | some fl => flagsLoop fuel (f + 1) fl
    | none =>
      if load8 m f = ch '0' then some ({ fl with leadingZero := true }, f + 1) else some (fl, f)

def isDigit (c : Byte) : Bool := 48 ≤ c.toNat && c.toNat ≤ 57

/-- A number goes on as `x * 10 + c - '0'` in a signed 32-bit integer. -/
def addDigit (x : ℤ) (c : Byte) : ℤ := int32 (x * 10 + c.toNat - 48)

def numberLoop : ℕ → ℕ → ℤ → Option (ℤ × ℕ)
  | 0, _, _ => none
  | fuel + 1, f, x =>
    if isDigit (load8 m f) then numberLoop fuel (f + 1) (addDigit x (load8 m f)) else some (x, f)

def fieldNumber (fuel f i : ℕ) : Option (ℤ × ℕ × ℕ) :=
  if load8 m f = ch '*' then some (((va i).setWidth 32).toInt, f + 1, i + 1)
  else (numberLoop m fuel f 0).map fun r => (r.1, r.2, i)

def fieldPrecision (fuel f i : ℕ) : Option (ℤ × ℕ × ℕ) :=
  if load8 m f = ch '.' then fieldNumber m va fuel (f + 1) i else some (-1, f, i)

def sizeOverride (f : ℕ) (fl : Flags) : Flags × ℕ :=
  let c := load8 m f
  if c = ch 'h' then
    ({ fl with halfWidth := true }, if load8 m (f + 1) = ch 'h' then f + 2 else f + 1)
  else if c = ch 'l' then
    ({ fl with intMax := true }, if load8 m (f + 1) = ch 'l' then f + 2 else f + 1)
  else if c = ch 'j' ∨ c = ch 'z' ∨ c = ch 't' then ({ fl with intMax := true }, f + 1)
  else if c = ch 'I' then
    if load8 m (f + 1) = ch '6' ∧ load8 m (f + 2) = ch '4' then
      ({ fl with intMax := true }, f + 3)
    else if load8 m (f + 1) = ch '3' ∧ load8 m (f + 2) = ch '2' then (fl, f + 3)
    else ({ fl with intMax := true }, f + 1)
  else (fl, f)

end Modifiers

/-! ### Numbers, written towards the front of `num` -/

section Numbers

/-- The characters from `s` to the end of `num`, the digits since the last comma, and how far `s`
    is from `o`. -/
structure Digits where
  s : List Byte
  l : ℕ
  room : ℕ
deriving DecidableEq, Repr

/-- A turn that writes a digit, with the turn before it if that writes a comma. -/
def putDigit (fl : Flags) (d : ℕ) (t : Digits) : Digits :=
  let c : Byte := BitVec.ofNat 8 (d + 48)
  if fl.tripletComma then
    if t.l = 3 then ⟨c :: comma :: t.s, 1, t.room - 1⟩ else ⟨c :: t.s, t.l + 1, t.room - 1⟩
  else ⟨c :: t.s, t.l, t.room - 1⟩

def pairsLoop : ℕ → ℕ → Digits → Digits
  | 0, _, t => t
  | fuel + 1, n, t =>
    let k := n % 100 * 2
    let t : Digits := ⟨digitPairs.getD k 0 :: digitPairs.getD (k + 1) 0 :: t.s, t.l, t.room - 2⟩
    if n / 100 = 0 then t else pairsLoop fuel (n / 100) t

def digitsLoop (fl : Flags) : ℕ → ℕ → Digits → Digits
  | 0, _, t => t
  | fuel + 1, n, t => if n = 0 then t else digitsLoop fl fuel (n / 10) (putDigit fl (n % 10) t)

def zerosLoop (fl : Flags) : ℕ → Digits → Digits
  | 0, t => t
  | room + 1, t => zerosLoop fl room (putDigit fl 0 t)

/-- The loop over parts of eight digits. A number of 64 bits has three of them, and one of 32
    bits has ten digits at most. -/
def decimalLoop (fl : Flags) : ℕ → ℕ → Digits → List Byte
  | 0, _, t => t.s
  | parts + 1, n64, t =>
    let n := if n64 ≥ 100000000 then n64 % 100000000 else n64
    let n64 := if n64 ≥ 100000000 then n64 / 100000000 else 0
    let t := { t with room := 8 }
    let t := if fl.tripletComma then digitsLoop fl 10 n t else pairsLoop 5 n t
    if n64 = 0 then if t.s.head? = some (ch '0') then t.s.tail else t.s
    else decimalLoop fl parts n64 (zerosLoop fl t.room t)

def decimalText (fl : Flags) (n64 : ℕ) : List Byte :=
  let s := decimalLoop fl 3 n64 ⟨[], 0, 0⟩
  if s = [] then [ch '0'] else s

/-- What the radixes pack into `l`: the bits of a digit and the digits between two commas. -/
structure Radix where
  shift : ℕ
  group : ℕ
deriving DecidableEq, Repr

def binary : Radix := ⟨1, 8⟩
def octal : Radix := ⟨3, 3⟩
def hexadecimal : Radix := ⟨4, 4⟩

/-- The loop of `radixnum`. A turn takes a digit off the number or brings the text nearer to the
    precision. -/
def radixLoop (fl : Flags) (h : List Byte) (r : Radix) (pr : ℤ) : ℕ → ℕ → ℕ → List Byte → List Byte
  | 0, _, _, s => s
  | fuel + 1, n64, l, s =>
    let s := h.getD (n64 &&& (2 ^ r.shift - 1)) 0 :: s
    let n64 := n64 >>> r.shift
    if ¬ (n64 ≠ 0 ∨ (s.length : ℤ) < pr) then s
    else if fl.tripletComma then
      if l + 1 = r.group then radixLoop fl h r pr fuel n64 0 (comma :: s)
      else radixLoop fl h r pr fuel n64 (l + 1) s
    else radixLoop fl h r pr fuel n64 l s

end Numbers

/-! ### Copying to the buffer -/

section Copy

def padBytes (c : Byte) : ℕ → List Byte
  | 0 => []
  | i + 1 => c :: padBytes c i

def padWords (c : Byte) : ℕ → List Byte
  | i + 4 => c :: c :: c :: c :: padWords c i
  | i => padBytes c i

/-- The loops that write a character `i` times from `bf` on: up to a multiple of four, by words,
    and what is left. -/
def padAlign (c : Byte) : ℕ → ℕ → List Byte
  | _, 0 => []
  | bf, i + 1 => if bf % 4 = 0 then padWords c (i + 1) else c :: padAlign c (bf + 1) i

/-- Zeros with commas: `cs` counts the characters since the last comma. -/
def commaZeros (c : ℕ) : ℕ → ℕ → List Byte
  | 0, _ => []
  | i + 1, cs => if cs = c then comma :: commaZeros c i 0 else ch '0' :: commaZeros c i (cs + 1)

def copyString : List Byte → List Byte
  | a :: b :: c :: d :: s => a :: b :: c :: d :: copyString s
  | s => s

/-- What a conversion hands to `scopy`. -/
structure Piece where
  fl : Flags
  fw : ℤ
  pr : ℤ
  tz : ℤ
  s : List Byte
  lead : List Byte
  tail : List Byte
  cs : ℕ
deriving DecidableEq, Repr

/-- The characters written from `bf` on. -/
def scopy (bf : ℕ) (p : Piece) : List Byte :=
  let pr := if p.pr < int32 p.s.length then int32 p.s.length else p.pr
  let n := uint32 (pr + p.lead.length + p.tail.length + p.tz)
  let fw := if p.fw < int32 n then int32 n else p.fw
  let fw := int32 (fw - n)
  let pr := int32 (pr - p.s.length)
  let zeros := ¬ p.fl.leftJust ∧ p.fl.leadingZero
  let pr := if zeros then max fw pr else pr
  let fw := if zeros then 0 else fw
  let commas := p.fl.tripletComma ∧ (p.fl.leftJust ∨ p.fl.leadingZero)
  -- the leader goes between the spaces and the zeros, and it is written if there are none too
  let spaces := if p.fl.leftJust then [] else padAlign (ch ' ') bf fw.toNat
  let bf := bf + spaces.length + p.lead.length
  let c : ℕ := p.cs / 2 ^ 24
  let cs : ℕ := p.cs % 2 ^ 24
  let behind : ℕ := c - uint32 (pr + (cs : ℤ)) % (c + 1)
  let fill := if commas then commaZeros c pr.toNat behind
    else padAlign (ch '0') bf pr.toNat
  let bf := bf + fill.length + p.s.length
  let trailing := padAlign (ch '0') bf p.tz.toNat
  let bf := bf + trailing.length + p.tail.length
  let after := if p.fl.leftJust then padAlign (ch ' ') bf fw.toNat else []
  spaces ++ p.lead ++ fill ++ copyString p.s ++ trailing ++ p.tail ++ after

end Copy

/-! ### The conversions -/

section Conversions
variable (m : Mem) (va : ℕ → BitVec 64)

/-- What a conversion comes to: characters to copy, or the pointer argument of `%n`, and the
    next slot of the arguments. -/
inductive Converted where
  | text (p : Piece) (i : ℕ)
  | count (d i : ℕ)
deriving DecidableEq, Repr

def stringText (fl : Flags) (fw pr : ℤ) (i : ℕ) : Converted :=
  let limit := if pr ≥ 0 then pr.toNat else 2 ^ 32 - 1
  let s := (va i).toNat
  let text := if s = 0 then ("null".toList.map ch).take limit
    else (List.range (strlenLimited m s limit)).map fun k => load8 m (s + k)
  .text ⟨fl, fw, 0, 0, text, [], [], 0⟩ (i + 1)

def charText (fl : Flags) (fw : ℤ) (i : ℕ) : Converted :=
  .text ⟨fl, fw, 0, 0, [(va i).setWidth 8], [], [], 0⟩ (i + 1)

def integerArg (signed : Bool) (fl : Flags) (i : ℕ) : ℕ × Bool :=
  if fl.intMax then
    let i64 := va i
    if signed ∧ i64.toInt < 0 then ((-i64).toNat, true) else (i64.toNat, false)
  else
    let i32 := (va i).setWidth 32
    if signed ∧ i32.toInt < 0 then ((-i32).toNat, true) else (i32.toNat, false)

def integerText (signed : Bool) (fl : Flags) (fw pr : ℤ) (i : ℕ) : Option Converted :=
  let (n64, negative) := integerArg va signed fl i
  let fl := { fl with negative := negative }
  if fl.metricSuffix then none
  else
    let s := decimalText fl n64
    let pr := if pr < 0 then 0 else pr
    some (.text ⟨fl, fw, pr, 0, s, leadSign fl, [], s.length + 3 * 2 ^ 24⟩ (i + 1))

def radixText (h : List Byte) (r : Radix) (lead : List Byte) (fl : Flags) (fw pr : ℤ) (i : ℕ) :
    Option Converted :=
  let n64 := if fl.intMax then (va i).toNat else ((va i).setWidth 32).toNat
  let lead := if n64 = 0 then [] else lead
  if n64 = 0 ∧ pr = 0 then some (.text ⟨fl, fw, pr, 0, [], lead, [], 0⟩ (i + 1))
  else
    let s := radixLoop fl h r pr (64 + pr.toNat) n64 0 []
    if s.length > stbspNumsz then none
    else some (.text ⟨fl, fw, pr, 0, s, lead, [], s.length + r.group * 2 ^ 24⟩ (i + 1))

def binaryText (h : List Byte) (fl : Flags) (fw pr : ℤ) (i : ℕ) : Option Converted :=
  radixText va h binary (if fl.leading0x then [ch '0', h.getD 0xb 0] else []) fl fw pr i

def octalText (fl : Flags) (fw pr : ℤ) (i : ℕ) : Option Converted :=
  radixText va hexu octal (if fl.leading0x then [ch '0'] else []) fl fw pr i

def hexText (h : List Byte) (fl : Flags) (fw pr : ℤ) (i : ℕ) : Option Converted :=
  radixText va h hexadecimal (if fl.leading0x then [ch '0', h.getD 16 0] else []) fl fw pr i

def pointerText (fl : Flags) (fw : ℤ) (i : ℕ) : Option Converted :=
  hexText va hex { fl with intMax := true, leadingZero := false } fw 16 i

def floatConversions : List Byte := "AaGgEef".toList.map ch

def convert (c : Byte) (fl : Flags) (fw pr : ℤ) (i : ℕ) : Option Converted :=
  if c = ch 's' then some (stringText m va fl fw pr i)
  else if c = ch 'c' then some (charText va fl fw i)
  else if c = ch 'n' then some (.count (va i).toNat (i + 1))
  else if floatConversions.contains c then none
  else if c = ch 'B' then binaryText va hexu fl fw pr i
  else if c = ch 'b' then binaryText va hex fl fw pr i
  else if c = ch 'o' then octalText va fl fw pr i
  else if c = ch 'p' then pointerText va fl fw i
  else if c = ch 'X' then hexText va hexu fl fw pr i
  else if c = ch 'x' then hexText va hex fl fw pr i
  else if c = ch 'u' then integerText va false fl fw pr i
  else if c = ch 'i' ∨ c = ch 'd' then integerText va true fl fw pr i
  else some (.text ⟨{}, 0, 0, 0, [c], [], [], 0⟩ i)

end Conversions

section Loop
variable (m : Mem) (buf : ℕ) (va : ℕ → BitVec 64)

/-- The next character of the format, the next slot of the arguments, the characters of the
    buffer, and the stores of `%n`. -/
structure Run where
  f : ℕ
  i : ℕ
  out : List Byte
  counts : List (ℕ × ℤ)
deriving DecidableEq, Repr

def replacement (fuel : ℕ) (r : Run) : Option Run := do
  let (fl, f) ← flagsLoop m fuel r.f {}
  let (fw, f, i) ← fieldNumber m va fuel f r.i
  let (pr, f, i) ← fieldPrecision m va fuel f i
  let (fl, f) := sizeOverride m f fl
  match ← convert m va (load8 m f) fl fw pr i with
  | .text p i => some ⟨f + 1, i, r.out ++ scopy (buf + r.out.length) p, r.counts⟩
  | .count d i => some ⟨f + 1, i, r.out, r.counts ++ [(d, int32 r.out.length)]⟩

def formatLoop : ℕ → Run → Option Run
  | 0, _ => none
  | fuel + 1, r =>
    match copyText m fuel .align r.f r.out with
    | none => none
    | some (.endfmt, f, out) => some { r with f := f, out := out }
    | some (.scandd, f, out) =>
      (replacement m buf va fuel { r with f := f + 1, out := out }).bind (formatLoop fuel)

/-- The run up to the store of the terminating zero behind `out`. The value returned is the length
    of `out`. Neither `out`, when it is put at `buf`, nor the stores of `counts` may reach what the
    format and its strings are read from, as C asks of the arguments of `sprintf`. -/
def stbspVsprintf (fmt fuel : ℕ) : Option Run := formatLoop m buf va fuel ⟨fmt, 0, [], []⟩

end Loop

end Rizzos.StbSprintf
