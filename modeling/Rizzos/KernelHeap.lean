import Rizzos.Memory
import Rizzos.LinkedList

set_option autoImplicit false

/-! The kernel heap of `memory/heap.c`. The heap lies in virtual memory; what mapping a fresh
page does to the rest of the machine is a parameter. -/
namespace Rizzos.KernelHeap
open ByteMemory Memory LinkedList

/-- Virtual memory and the statics of the heap. `derefs` is a history: the header pointers
    read or written through so far, newest first. -/
structure Heap (β : Type) where
  mem : Mem
  heapStart : ℕ
  heapEnd : ℕ
  lastHdr : ℕ
  derefs : List ℕ
  env : β

/-- `sizeof(HeapSegHdr)`; the members lie at 0, 8, 16 and 24. -/
def hdrSize : ℕ := 32

section Model
variable {β : Type}

def hdrLenght (h : Heap β) (seg : ℕ) : ℕ := load64 h.mem seg
def hdrNext (h : Heap β) (seg : ℕ) : ℕ := load64 h.mem (seg + 8)
def hdrLast (h : Heap β) (seg : ℕ) : ℕ := load64 h.mem (seg + 16)
def hdrFree (h : Heap β) (seg : ℕ) : Bool := load8 h.mem (seg + 24) != 0#8

def visit (seg : ℕ) (h : Heap β) : Heap β := { h with derefs := seg :: h.derefs }

def setLastHdr (seg : ℕ) (h : Heap β) : Heap β := { h with lastHdr := seg }

def setLenght (seg lenght : ℕ) (h : Heap β) : Heap β :=
  visit seg { h with mem := store64 h.mem seg lenght }

def setNext (seg next : ℕ) (h : Heap β) : Heap β :=
  visit seg { h with mem := store64 h.mem (seg + 8) next }

def setLast (seg last : ℕ) (h : Heap β) : Heap β :=
  visit seg { h with mem := store64 h.mem (seg + 16) last }

def setFree (seg : ℕ) (free : Bool) (h : Heap β) : Heap β :=
  visit seg { h with mem := store8 h.mem (seg + 24) (if free then 1#8 else 0#8) }

/-- The four assignments of `MEM_HeapSegHdrSplit` that link the new header in. The first one
    goes through `hshdr->next`, also when that is null. -/
def linkSplitHdr (hshdr newSplitHdr : ℕ) (h : Heap β) : Heap β :=
  let h := setLast (hdrNext h hshdr) newSplitHdr h
  let h := setNext newSplitHdr (hdrNext h hshdr) h
  let h := setNext hshdr newSplitHdr h
  setLast newSplitHdr hshdr h

/-- The three assignments that give the two headers their lengths. The new header's `lenght`
    is the length split off the front, not that of the rest. -/
def fillSplitHdr (hshdr newSplitHdr splitLenght : ℕ) (h : Heap β) : Heap β :=
  let h := setLenght newSplitHdr splitLenght h
  let h := setFree newSplitHdr (hdrFree h hshdr) h
  setLenght hshdr splitLenght h

/-- The difference is an `int64_t`, so one of `2 ^ 63` or more is negative and below `0x10`. -/
def memHeapSegHdrSplit (hshdr splitLenght : ℕ) (h : Heap β) : ℕ × Heap β :=
  if splitLenght < 0x10 then (0, h)
  else
    let h := visit hshdr h
    let splitSeqLenght := wrapSub (wrapSub (hdrLenght h hshdr) splitLenght) hdrSize
    if 2 ^ 63 ≤ splitSeqLenght ∨ splitSeqLenght < 0x10 then (0, h)
    else
      let newSplitHdr := wrap (hshdr + splitLenght + hdrSize)
      let h := linkSplitHdr hshdr newSplitHdr h
      let h := fillSplitHdr hshdr newSplitHdr splitLenght h
      (newSplitHdr, setLastHdr (if h.lastHdr = hshdr then newSplitHdr else h.lastHdr) h)

def linkBack (next hshdr : ℕ) (h : Heap β) : Heap β :=
  if next ≠ 0 then setLast next hshdr h else h

/-- The two assignments that make a segment as long as itself and the next one. -/
def absorbNext (hshdr : ℕ) (h : Heap β) : Heap β :=
  let h := setLenght hshdr
    (wrap (hdrLenght h hshdr + wrap (hdrLenght h (hdrNext h hshdr) + hdrSize))) h
  setNext hshdr (hdrNext h (hdrNext h hshdr)) h

/-- Whether the next segment is free is not looked at. -/
def memHeapSegHdrCombineForward (hshdr : ℕ) (h : Heap β) : Heap β :=
  let h := visit hshdr h
  if hdrNext h hshdr = 0 then h
  else if hdrFree h hshdr = false then h
  else
    let h := setLastHdr (if hdrNext h hshdr = h.lastHdr then hshdr else h.lastHdr) h
    let h := visit (hdrNext h hshdr) h
    absorbNext hshdr (linkBack (hdrNext h (hdrNext h hshdr)) hshdr h)

def memHeapSegHdrCombineBackward (hshdr : ℕ) (h : Heap β) : Heap β :=
  let h := visit hshdr h
  if hdrLast h hshdr ≠ 0 then
    let h := visit (hdrLast h hshdr) h
    if hdrFree h (hdrLast h hshdr) = true then
      memHeapSegHdrCombineForward (hdrLast h hshdr) h
    else h
  else h

def memFree (addr : ℕ) (h : Heap β) : Heap β :=
  let segment := wrapSub addr hdrSize
  let h := setFree segment true h
  let h := memHeapSegHdrCombineForward segment h
  memHeapSegHdrCombineBackward segment h

/-- The `while` loop of `MEM_Malloc`: the segment to take, `some none` at the end of the list
    and `none` when the fuel runs out. -/
def findSegment (size : ℕ) : ℕ → ℕ → Heap β → Option (Option ℕ) × Heap β
  | 0, _, h => (none, h)
  | fuel + 1, currentSeg, h =>
    let h := visit currentSeg h
    if hdrFree h currentSeg = true ∧ hdrLenght h currentSeg ≥ size then
      (some (some currentSeg), h)
    else if hdrNext h currentSeg = 0 then (some none, h)
    else findSegment size fuel (hdrNext h currentSeg) h

def takeSegment (currentSeg size : ℕ) (h : Heap β) : ℕ × Heap β :=
  let h := if hdrLenght h currentSeg > size then (memHeapSegHdrSplit currentSeg size h).2 else h
  (wrap (currentSeg + hdrSize), setFree currentSeg false h)

/-- `size` rounded up to a multiple of 16, in 64 bits. -/
def roundUp (unit size : ℕ) : ℕ :=
  if size % unit > 0 then wrap (size - size % unit + unit) else size

section Env
variable (mapPage : ℕ → β → β)

/-- `pageCount` turns of a loop that maps a fresh page at `pos` and moves on by one page. -/
def mapPages (pos : ℕ) : ℕ → Heap β → ℕ × Heap β
  | 0, h => (pos, h)
  | i + 1, h =>
    let (pos, h) := mapPages pos i h
    (wrap (pos + frameSize), { h with env := mapPage pos h.env })

def memInitializeHeap (heapAddress pageCount : ℕ) (h : Heap β) : Heap β :=
  let h := (mapPages mapPage heapAddress pageCount h).2
  let heapLenght := wrap (pageCount * frameSize)
  let h := { h with heapStart := heapAddress, heapEnd := wrap (heapAddress + heapLenght) }
  let startSeg := heapAddress
  let h := setLenght startSeg (wrapSub heapLenght hdrSize) h
  let h := setNext startSeg 0 h
  let h := setLast startSeg 0 h
  let h := setFree startSeg true h
  setLastHdr startSeg h

def memExpandHeap (lenght : ℕ) (h : Heap β) : Heap β :=
  let lenght := roundUp frameSize lenght
  let pageCount := lenght / frameSize
  let newSegment := h.heapEnd
  let (heapEnd, h) := mapPages mapPage h.heapEnd pageCount h
  let h := { h with heapEnd := heapEnd }
  let h := setFree newSegment true h
  let h := setLast newSegment h.lastHdr h
  let h := setNext h.lastHdr newSegment h
  let h := setLastHdr newSegment h
  let h := setNext newSegment 0 h
  let h := setLenght newSegment (wrapSub lenght hdrSize) h
  memHeapSegHdrCombineBackward newSegment h

/-- The result is `none` when the fuel, which bounds the recursion and each search, runs out. -/
def memMalloc : ℕ → ℕ → Heap β → Option (ℕ × Heap β)
  | 0, _, _ => none
  | fuel + 1, size, h =>
    let size := roundUp 0x10 size
    if size = 0 then some (0, h)
    else
      match findSegment size fuel h.heapStart h with
      | (none, _) => none
      | (some (some currentSeg), h) => some (takeSegment currentSeg size h)
      | (some none, h) => memMalloc fuel size (memExpandHeap mapPage size h)

end Env

end Model

end Rizzos.KernelHeap
