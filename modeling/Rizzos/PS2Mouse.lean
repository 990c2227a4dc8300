import Rizzos.BasicGraphics

set_option autoImplicit false

/-! The PS/2 mouse of `userinput/mouse.c`: bytes are framed to packets, and a packet is acted
on when the next byte arrives. -/
namespace Rizzos.PS2Mouse
open ByteMemory CInt BasicGraphics

structure Packet where
  first : Byte
  second : Byte
  third : Byte
deriving DecidableEq, Repr

structure Position where
  x : ℤ
  y : ℤ
deriving DecidableEq, Repr

/-- The statics of the file and those of the screen. `processed` and `discarded` are
    histories: the packets acted on, in their order, and the bytes dropped because a packet
    was ready. -/
structure Mouse where
  skip : Bool
  mouseCycle : ℕ
  mousePacket : Packet
  isMousePacketReady : Bool
  mousePosition : Position
  graphics : Graphics
  processed : List Packet
  discarded : List Byte

def initialMouse (graphics : Graphics) : Mouse where
  skip := true
  mouseCycle := 0
  mousePacket := ⟨0, 0, 0⟩
  isMousePacketReady := false
  mousePosition := ⟨100, 100⟩
  graphics := graphics
  processed := []
  discarded := []

def ps2XSign : Byte := 0b00010000
def ps2YSign : Byte := 0b00100000
def ps2XOverflow : Byte := 0b01000000
def ps2YOverflow : Byte := 0b10000000

def Packet.has (packet : Packet) (bit : Byte) : Bool := packet.first &&& bit != 0

def negated (byte : Byte) : Byte := BitVec.ofInt 8 (256 - byte.toNat)

/-- The distance a byte stands for, with what an overflow adds to it. The byte of a negative
    distance is replaced in the packet. -/
def magnitude (negative overflow : Bool) (byte : Byte) (extra : ℤ) : Byte × ℤ :=
  let byte := if negative then negated byte else byte
  (byte, byte.toNat + if overflow then extra else 0)

/-- The two tests at the edges of the screen, against an unsigned bound. -/
def clampTo (bound : ℕ) (z : ℤ) : ℤ :=
  let z := if z < 0 then 0 else z
  if z > bound then bound else z

/-- The packet after its bytes were negated in place, and the position it moves to. -/
def movePosition (fb : FrameBuffer) (packet : Packet) (p : Position) : Packet × Position :=
  let (second, dx) :=
    magnitude (packet.has ps2XSign) (packet.has ps2XOverflow) packet.second (255 * 2)
  let (third, dy) := magnitude (packet.has ps2YSign) (packet.has ps2YOverflow) packet.third 255
  let x := if packet.has ps2XSign then p.x - dx else p.x + dx
  let y := if packet.has ps2YSign then p.y + dy else p.y - dy
  (⟨packet.first, second, third⟩,
    ⟨clampTo (uint32 (fb.width - 8)) x, clampTo (uint32 (fb.height - 16)) y⟩)

def uiPS2MouseProcessPacket (fb : FrameBuffer) (s : Mouse) : Mouse :=
  if ¬ s.isMousePacketReady then s
  else
    let (packet, p) := movePosition fb s.mousePacket s.mousePosition
    { s with mousePacket := packet
             mousePosition := p
             graphics := bgDrawCursor fb (uint32 p.x) (uint32 p.y) s.graphics
             isMousePacketReady := false
             processed := s.processed ++ [s.mousePacket] }

def takeByte (data : Byte) (s : Mouse) : Mouse :=
  if s.isMousePacketReady then { s with discarded := s.discarded ++ [data] }
  else
    match s.mouseCycle with
    | 0 =>
      if data &&& 0b00001000 = 0 then s
      else { s with mousePacket := { s.mousePacket with first := data }, mouseCycle := 1 }
    | 1 => { s with mousePacket := { s.mousePacket with second := data }, mouseCycle := 2 }
    | 2 => { s with mousePacket := { s.mousePacket with third := data }
                    isMousePacketReady := true
                    mouseCycle := 0 }
    | _ => s

def uiPS2MouseHandle (fb : FrameBuffer) (s : Mouse) (data : Byte) : Mouse :=
  let s := uiPS2MouseProcessPacket fb s
  if s.skip then { s with skip := false } else takeByte data s

def handleBytes (fb : FrameBuffer) (bytes : List Byte) (s : Mouse) : Mouse :=
  bytes.foldl (uiPS2MouseHandle fb) s

/-! ### Framing -/

/-- The complete packets of a sequence of bytes: bytes without bit 3 are dropped in front of a
    packet, and a packet is a byte with it and the next two. -/
def framing : List Byte → List Packet
  | a :: b :: c :: rest =>
    if a &&& 0b00001000 = 0 then framing (b :: c :: rest) else ⟨a, b, c⟩ :: framing rest
  | _ => []

/-- The framing with a byte at a time: the complete packets, and the bytes of the next one. -/
structure Framer where
  packets : List Packet
  pending : List Byte

def Framer.step (r : Framer) (data : Byte) : Framer :=
  match r.pending with
  | [] => if data &&& 0b00001000 = 0 then r else { r with pending := [data] }
  | [a] => { r with pending := [a, data] }
  | a :: b :: _ => ⟨r.packets ++ [⟨a, b, data⟩], []⟩

theorem foldl_step_packets (bytes : List Byte) (packets : List Packet) :
    (bytes.foldl Framer.step ⟨packets, []⟩).packets = packets ++ framing bytes := by
  fun_induction framing bytes generalizing packets with
  | case1 a b c rest hdrop ih =>
    rw [← ih]
    change (List.foldl Framer.step (Framer.step ⟨packets, []⟩ a) (b :: c :: rest)).packets = _
    rw [Framer.step]
    dsimp only
    rw [if_pos hdrop]
  | case2 a b c rest htake ih =>
    have hfirst : Framer.step ⟨packets, []⟩ a = ⟨packets, [a]⟩ := if_neg htake
    rw [List.foldl_cons, hfirst]
    change (List.foldl Framer.step ⟨packets ++ [⟨a, b, c⟩], []⟩ rest).packets = _
    rw [ih, List.append_assoc]
    rfl
  | case3 bytes hshort =>
    rw [List.append_nil]
    match bytes, hshort with
    | [], _ => rfl
    | [a], _ =>
      change (if _ then _ else _ : Framer).packets = _
      split <;> rfl
    | [a, b], _ =>
      change (Framer.step (if _ then _ else _) b).packets = _
      split
      · change (if _ then _ else _ : Framer).packets = _
        split <;> rfl
      · rfl
    | a :: b :: c :: rest, hshort => exact absurd rfl (hshort a b c rest)

structure Frames (s : Mouse) (r : Framer) : Prop where
  started : s.skip = false
  cycle : s.mouseCycle = r.pending.length
  short : r.pending.length ≤ 2
  bytes : r.pending = [s.mousePacket.first, s.mousePacket.second].take s.mouseCycle
  waiting : s.isMousePacketReady = true → r.pending = []
  packets : r.packets = s.processed ++ if s.isMousePacketReady then [s.mousePacket] else []
  kept : s.discarded = []

section Handler
variable {fb : FrameBuffer} {s : Mouse} {r : Framer}

theorem processPacket_ready (h : s.isMousePacketReady = false) :
    uiPS2MouseProcessPacket fb s = s := by
  rw [uiPS2MouseProcessPacket, if_pos (by rw [h]; decide)]

theorem Frames.process (fb : FrameBuffer) (h : Frames s r) :
    Frames (uiPS2MouseProcessPacket fb s) r ∧
    (uiPS2MouseProcessPacket fb s).isMousePacketReady = false ∧
    (uiPS2MouseProcessPacket fb s).processed = r.packets := by
  cases hready : s.isMousePacketReady with
  | false =>
    have hpackets := h.packets
    rw [hready] at hpackets
    rw [processPacket_ready hready]
    exact ⟨h, hready, (hpackets.trans (List.append_nil _)).symm⟩
  | true =>
    have hpackets := h.packets
    have hpending := h.waiting hready
    have hcycle := h.cycle
    rw [hready] at hpackets
    rw [hpending] at hcycle
    rw [uiPS2MouseProcessPacket, if_neg (by rw [hready]; decide)]
    refine ⟨⟨h.started, h.cycle, h.short, ?_, ?_, ?_, h.kept⟩, rfl, hpackets.symm⟩
    · change r.pending = List.take s.mouseCycle _
      rw [hcycle, hpending]
      rfl
    · exact fun hfalse => absurd hfalse Bool.false_ne_true
    · exact hpackets.trans (List.append_nil _).symm

theorem Frames.take (h : Frames s r) (hready : s.isMousePacketReady = false) (data : Byte) :
    Frames (takeByte data s) (r.step data) := by
  obtain ⟨hstarted, hcycle, hshort, hbytes, _, hpackets, hkept⟩ := h
  rw [hready] at hpackets
  rw [takeByte, if_neg (by rw [hready]; decide)]
  have hcases : s.mouseCycle = 0 ∨ s.mouseCycle = 1 ∨ s.mouseCycle = 2 := by omega
  rcases hcases with h0 | h1 | h2
  · rw [h0] at hbytes
    rw [h0, Framer.step, hbytes]
    change Frames (if _ then _ else _) (if _ then _ else _)
    split
    · exact ⟨hstarted, h0.trans (congrArg List.length hbytes).symm, hshort,
        hbytes.trans (by rw [h0]), fun _ => hbytes, by rw [hready]; exact hpackets, hkept⟩
    · refine ⟨hstarted, rfl, Nat.le_succ 1, rfl, fun hfalse => ?_, ?_, hkept⟩
      · exact absurd (hready.symm.trans hfalse) (by decide)
      · dsimp only
        rw [hready]
        exact hpackets
  · rw [h1] at hbytes
    rw [h1, Framer.step, hbytes]
    refine ⟨hstarted, rfl, Nat.le_refl 2, rfl, fun hfalse => ?_, ?_, hkept⟩
    · exact absurd (hready.symm.trans hfalse) (by decide)
    · dsimp only
      rw [hready]
      exact hpackets
  · rw [h2] at hbytes
    rw [h2, Framer.step, hbytes]
    refine ⟨hstarted, rfl, Nat.zero_le 2, rfl, fun _ => rfl, ?_, hkept⟩
    change r.packets ++ _ = s.processed ++ _
    rw [hpackets]
    change s.processed ++ [] ++ _ = _
    rw [List.append_nil]
    rfl

/-- One byte: what was pending is acted on, and the byte is framed. -/
theorem Frames.handle (fb : FrameBuffer) (h : Frames s r) (data : Byte) :
    Frames (uiPS2MouseHandle fb s data) (r.step data) ∧
    (uiPS2MouseHandle fb s data).processed = r.packets := by
  obtain ⟨hframes, hready, hprocessed⟩ := h.process fb
  have htaken := hframes.take hready data
  have hkept : (takeByte data (uiPS2MouseProcessPacket fb s)).processed = r.packets := by
    rw [← hprocessed]
    generalize uiPS2MouseProcessPacket fb s = t
    unfold takeByte
    split
    · rfl
    · split
      · split <;> rfl
      · rfl
      · rfl
      · rfl
  rw [uiPS2MouseHandle, if_neg (by rw [hframes.started]; decide)]
  exact ⟨htaken, hkept⟩

theorem Frames.handleBytes (fb : FrameBuffer) (h : Frames s r) (bytes : List Byte) :
    Frames (handleBytes fb bytes s) (bytes.foldl Framer.step r) := by
  induction bytes generalizing s r with
  | nil => exact h
  | cons data bytes ih => exact ih (h.handle fb data).1

end Handler

theorem frames_first (fb : FrameBuffer) (graphics : Graphics) (data : Byte) :
    Frames (uiPS2MouseHandle fb (initialMouse graphics) data) ⟨[], []⟩ := by
  have hprocess : uiPS2MouseProcessPacket fb (initialMouse graphics) = initialMouse graphics :=
    processPacket_ready rfl
  rw [uiPS2MouseHandle, hprocess]
  exact ⟨rfl, rfl, Nat.zero_le 2, rfl, fun h => absurd h Bool.false_ne_true, rfl, rfl⟩

/-- The packets acted on are those of the framing without the first byte, which is skipped,
    and the last one, which completes what is acted on later. -/
theorem handleBytes_frames (fb : FrameBuffer) (graphics : Graphics) (bytes : List Byte) :
    (handleBytes fb bytes (initialMouse graphics)).processed = framing bytes.tail.dropLast ∧
    (∃ pending, pending.length ≤ 1 ∧ framing bytes.tail =
      (handleBytes fb bytes (initialMouse graphics)).processed ++ pending) ∧
    (handleBytes fb bytes (initialMouse graphics)).mouseCycle ≤ 2 ∧
    (handleBytes fb bytes (initialMouse graphics)).discarded = [] := by
  cases bytes with
  | nil => exact ⟨rfl, ⟨[], Nat.zero_le 1, rfl⟩, Nat.zero_le 2, rfl⟩
  | cons first bytes =>
    have hstart := frames_first fb graphics first
    change (handleBytes fb bytes (uiPS2MouseHandle fb (initialMouse graphics) first)).processed =
      framing bytes.dropLast ∧ (∃ pending, pending.length ≤ 1 ∧ framing bytes =
        (handleBytes fb bytes (uiPS2MouseHandle fb (initialMouse graphics) first)).processed ++
          pending) ∧
      (handleBytes fb bytes (uiPS2MouseHandle fb (initialMouse graphics) first)).mouseCycle ≤ 2 ∧
      (handleBytes fb bytes (uiPS2MouseHandle fb (initialMouse graphics) first)).discarded = []
    have hbefore : (uiPS2MouseHandle fb (initialMouse graphics) first).processed = [] := by
      have h := hstart.packets
      exact (List.append_eq_nil_iff.1 h.symm).1
    generalize uiPS2MouseHandle fb (initialMouse graphics) first = s at hstart hbefore
    have hframes := hstart.handleBytes fb bytes
    have hpackets := hframes.packets
    rw [foldl_step_packets, List.nil_append] at hpackets
    have hcycle : (handleBytes fb bytes s).mouseCycle ≤ 2 := hframes.cycle.trans_le hframes.short
    refine ⟨?_, ⟨_, ?_, hpackets⟩, hcycle, hframes.kept⟩
    · cases bytes using List.reverseRecOn with
      | nil => exact hbefore
      | append_singleton bytes data =>
        have hlast := ((hstart.handleBytes fb bytes).handle fb data).2
        rw [foldl_step_packets, List.nil_append] at hlast
        rw [List.dropLast_concat, ← hlast, handleBytes, List.foldl_append]
        rfl
    · split
      · exact Nat.le_refl 1
      · exact Nat.zero_le 1

end Rizzos.PS2Mouse
