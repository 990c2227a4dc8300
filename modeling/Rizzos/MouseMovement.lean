import Rizzos.MouseCursor
import Rizzos.PS2Mouse
import Rizzos.StepRuns

set_option autoImplicit false

/-! Where the mouse pointer goes: the bounds of its position, and the deltas of the packets. -/
namespace Rizzos.MouseMovement
open ByteMemory CInt BasicGraphics MouseCursor PS2Mouse StepRuns

/-! ### Bounds -/

structure PositionInside (fb : FrameBuffer) (p : Position) : Prop where
  x_nonneg : 0 ≤ p.x
  x_le : p.x ≤ fb.width - 8
  y_nonneg : 0 ≤ p.y
  y_le : p.y ≤ fb.height - 16

theorem clampTo_nonneg (bound : ℕ) (z : ℤ) : 0 ≤ clampTo bound z := by
  unfold clampTo
  dsimp only
  split_ifs <;> omega

theorem clampTo_le (bound : ℕ) (z : ℤ) : clampTo bound z ≤ bound := by
  unfold clampTo
  dsimp only
  split_ifs <;> omega

section Bounds
variable {fb : FrameBuffer}

theorem edge_x (hwidth : 12 ≤ fb.width) : (uint32 (fb.width - 8) : ℤ) = fb.width - 8 := by
  have h : uint32 (fb.width - 8) = fb.width - 8 := uint32_sub (y := 8) (by omega) fb.width_lt
  omega

theorem edge_y (hheight : 19 ≤ fb.height) : (uint32 (fb.height - 16) : ℤ) = fb.height - 16 := by
  have h : uint32 (fb.height - 16) = fb.height - 16 := uint32_sub (y := 16) (by omega) fb.height_lt
  omega

theorem movePosition_inside (hwidth : 12 ≤ fb.width) (hheight : 19 ≤ fb.height) (packet : Packet)
    (p : Position) : PositionInside fb (movePosition fb packet p).2 := by
  have hx := clampTo_le (uint32 (fb.width - 8))
  have hy := clampTo_le (uint32 (fb.height - 16))
  rw [edge_x hwidth] at hx
  rw [edge_y hheight] at hy
  exact ⟨clampTo_nonneg _ _, hx _, clampTo_nonneg _ _, hy _⟩

theorem bgDrawCursor_onScreen (hwidth : 12 ≤ fb.width) (hheight : 19 ≤ fb.height) (x y : ℕ)
    {s : Graphics} (hlast : InBounds fb s.lastMouseCurPos)
    (h : ∀ p ∈ s.touched, fb.OnScreen p) :
    ∀ p ∈ (bgDrawCursor fb x y s).touched, fb.OnScreen p := by
  have hoffset := clampOffset_inBounds hwidth hheight x y
  unfold bgDrawCursor clearLastMouseCurPos
  dsimp only
  rw [foldl_drawCursorCell, foldl_clearLastCell]
  change ∀ p ∈ cursorPoints _ _ ++ (drawnPoints _ _ _ ++ s.touched), fb.OnScreen p
  rw [List.forall_mem_append, List.forall_mem_append]
  refine ⟨?_, ?_, h⟩
  · intro p hp
    obtain ⟨cell, hcell, rfl⟩ := mem_cursorPoints.1 hp
    exact hoffset.onScreen hcell
  · intro p hp
    obtain ⟨cell, hcell, _, rfl⟩ := mem_drawnPoints.1 hp
    exact hlast.onScreen hcell

/-- Between two bytes: the position is on the screen from the first packet on, and so is every
    pixel that the pointer came to. -/
structure MouseInside (fb : FrameBuffer) (s : Mouse) : Prop where
  position : s.processed ≠ [] → PositionInside fb s.mousePosition
  last : InBounds fb s.graphics.lastMouseCurPos
  touched : ∀ p ∈ s.graphics.touched, fb.OnScreen p

theorem processPacket_inside (hwidth : 12 ≤ fb.width) (hheight : 19 ≤ fb.height) {s : Mouse}
    (h : MouseInside fb s) : MouseInside fb (uiPS2MouseProcessPacket fb s) := by
  unfold uiPS2MouseProcessPacket
  split
  · exact h
  · refine ⟨fun _ => movePosition_inside hwidth hheight _ _, ?_, ?_⟩
    · exact clampOffset_inBounds hwidth hheight _ _
    · exact bgDrawCursor_onScreen hwidth hheight _ _ h.last h.touched

theorem takeByte_inside {s : Mouse} (h : MouseInside fb s) (data : Byte) :
    MouseInside fb (takeByte data s) := by
  obtain ⟨hposition, hlast, htouched⟩ := h
  unfold takeByte
  split
  · exact ⟨hposition, hlast, htouched⟩
  · split
    · split <;> exact ⟨hposition, hlast, htouched⟩
    · exact ⟨hposition, hlast, htouched⟩
    · exact ⟨hposition, hlast, htouched⟩
    · exact ⟨hposition, hlast, htouched⟩

theorem handle_inside (hwidth : 12 ≤ fb.width) (hheight : 19 ≤ fb.height) {s : Mouse}
    (h : MouseInside fb s) (data : Byte) : MouseInside fb (uiPS2MouseHandle fb s data) := by
  have hprocess := processPacket_inside hwidth hheight h
  unfold uiPS2MouseHandle
  dsimp only
  split
  · exact ⟨hprocess.position, hprocess.last, hprocess.touched⟩
  · exact takeByte_inside hprocess data

theorem handleBytes_inside (hwidth : 12 ≤ fb.width) (hheight : 19 ≤ fb.height) {s : Mouse}
    (h : MouseInside fb s) (bytes : List Byte) : MouseInside fb (handleBytes fb bytes s) := by
  induction bytes generalizing s with
  | nil => exact h
  | cons data bytes ih => exact ih (handle_inside hwidth hheight h data)

end Bounds

def bootMouse : Mouse := initialMouse (initialGraphics fun _ => 0)

/-- After any bytes, the mouse is on the screen once a packet was acted on, and every pixel
    that drawing the pointer read or wrote is on it as well. -/
theorem handleBytes_onScreen {fb : FrameBuffer} (hwidth : 12 ≤ fb.width) (hheight : 19 ≤ fb.height)
    (graphics : Graphics) (hlast : graphics.lastMouseCurPos = ⟨0, 0⟩)
    (htouched : graphics.touched = []) (bytes : List Byte) :
    ((handleBytes fb bytes (initialMouse graphics)).processed ≠ [] →
      PositionInside fb (handleBytes fb bytes (initialMouse graphics)).mousePosition) ∧
    ∀ p ∈ (handleBytes fb bytes (initialMouse graphics)).graphics.touched, fb.OnScreen p := by
  have hstart : MouseInside fb (initialMouse graphics) := by
    refine ⟨fun h => absurd rfl h, ?_, ?_⟩
    · change InBounds fb graphics.lastMouseCurPos
      rw [hlast]
      constructor
      · change 0 + 11 ≤ fb.width
        omega
      · change 0 + 18 ≤ fb.height
        omega
    · change ∀ p ∈ graphics.touched, _
      rw [htouched]
      exact fun p hp => absurd hp List.not_mem_nil
  have hinside := handleBytes_inside hwidth hheight hstart bytes
  exact ⟨hinside.position, hinside.touched⟩

theorem handleBytes_onScreen_tiny :
    ((handleBytes tinyScreen [0, 8, 255, 0, 0] bootMouse).processed ≠ [] →
      PositionInside tinyScreen
        (handleBytes tinyScreen [0, 8, 255, 0, 0] bootMouse).mousePosition) ∧
    ∀ p ∈ (handleBytes tinyScreen [0, 8, 255, 0, 0] bootMouse).graphics.touched,
      tinyScreen.OnScreen p :=
  handleBytes_onScreen le_rfl le_rfl (initialGraphics fun _ => 0) rfl rfl _

/-! ### Deltas -/

/-- The reference: a delta is the byte less 256 when its sign bit is set. -/
def delta (byte : Byte) (sign : Bool) : ℤ := byte.toNat - if sign then 256 else 0

def clamp (z lo hi : ℤ) : ℤ := max lo (min z hi)

def moved (fb : FrameBuffer) (p : Position) (packet : Packet) : Position where
  x := clamp (p.x + delta packet.second (packet.has ps2XSign)) 0 (fb.width - 8)
  y := clamp (p.y - delta packet.third (packet.has ps2YSign)) 0 (fb.height - 16)

def receive (fb : FrameBuffer) (s : Mouse) (packet : Packet) : Mouse :=
  uiPS2MouseProcessPacket fb { s with mousePacket := packet, isMousePacketReady := true }

def receiveAll (fb : FrameBuffer) (packets : List Packet) (s : Mouse) : Mouse :=
  packets.foldl (receive fb) s

/-- The largest deltas, by 256 to the left or down, make no difference. -/
def DeltasFit (fb : FrameBuffer) (p : Position) (packet : Packet) : Prop :=
  (packet.has ps2XSign ∧ packet.second = 0 →
    clamp (p.x - 256) 0 (fb.width - 8) = clamp p.x 0 (fb.width - 8)) ∧
  (packet.has ps2YSign ∧ packet.third = 0 →
    clamp (p.y + 256) 0 (fb.height - 16) = clamp p.y 0 (fb.height - 16))

/-- They make no difference at the positions that the reference passes. -/
def RunDeltasFit (fb : FrameBuffer) : Position → List Packet → Prop
  | _, [] => True
  | p, packet :: packets => DeltasFit fb p packet ∧ RunDeltasFit fb (moved fb p packet) packets

def NoOverflow (packet : Packet) : Prop :=
  packet.has ps2XOverflow = false ∧ packet.has ps2YOverflow = false

instance (packet : Packet) : Decidable (NoOverflow packet) :=
  inferInstanceAs (Decidable (_ ∧ _))

section Deltas
variable {fb : FrameBuffer}

theorem clampTo_eq (bound : ℕ) (z : ℤ) : clampTo bound z = clamp z 0 bound := by
  unfold clampTo clamp
  dsimp only
  split_ifs <;> omega

theorem negated_toNat (byte : Byte) : (negated byte).toNat = (256 - byte.toNat) % 256 := by
  have := byte.isLt
  rw [negated, BitVec.toNat_ofInt]
  omega

theorem magnitude_signed (negative : Bool) (byte : Byte) (extra : ℤ) :
    (if negative then -(magnitude negative false byte extra).2
      else (magnitude negative false byte extra).2) =
      if negative ∧ byte = 0 then 0 else delta byte negative := by
  have hlt := byte.isLt
  cases negative with
  | false => simp [magnitude, delta]
  | true =>
    have hneg := negated_toNat byte
    by_cases hzero : byte = 0
    · rw [hzero]
      rfl
    · have hpos : byte.toNat ≠ 0 := fun h => hzero (BitVec.eq_of_toNat_eq h)
      simp only [magnitude, delta, if_true, hzero, and_false, if_false, Bool.false_eq_true]
      omega

theorem movePosition_eq (hwidth : 12 ≤ fb.width) (hheight : 19 ≤ fb.height) {packet : Packet}
    (h : NoOverflow packet) (p : Position) : (movePosition fb packet p).2 =
      ⟨clamp (p.x + if packet.has ps2XSign ∧ packet.second = 0 then 0
          else delta packet.second (packet.has ps2XSign)) 0 (fb.width - 8),
        clamp (p.y - if packet.has ps2YSign ∧ packet.third = 0 then 0
          else delta packet.third (packet.has ps2YSign)) 0 (fb.height - 16)⟩ := by
  obtain ⟨hx, hy⟩ := h
  rw [← magnitude_signed _ packet.second (255 * 2), ← magnitude_signed _ packet.third 255,
    ← edge_x hwidth, ← edge_y hheight, ← clampTo_eq, ← clampTo_eq]
  unfold movePosition
  rw [hx, hy]
  dsimp only
  congr 1
  · split <;> rfl
  · split
    · rw [sub_neg_eq_add]
    · rfl

/-- A delta of -256 is lost. -/
theorem delta_of_zero {byte : Byte} {sign : Bool} (h : sign ∧ byte = 0) :
    delta byte sign = -256 := by
  rw [delta, h.1, h.2]
  rfl

theorem movePosition_moved_iff (hwidth : 12 ≤ fb.width) (hheight : 19 ≤ fb.height)
    {packet : Packet} (h : NoOverflow packet) (p : Position) :
    (movePosition fb packet p).2 = moved fb p packet ↔ DeltasFit fb p packet := by
  rw [movePosition_eq hwidth hheight h, moved, Position.mk.injEq, DeltasFit]
  apply and_congr
  · by_cases hlost : packet.has ps2XSign ∧ packet.second = 0
    · rw [if_pos hlost, delta_of_zero hlost, add_zero, forall_prop_of_true hlost]
      exact eq_comm
    · rw [if_neg hlost]
      exact iff_of_true rfl fun hfalse => absurd hfalse hlost
  · by_cases hlost : packet.has ps2YSign ∧ packet.third = 0
    · rw [if_pos hlost, delta_of_zero hlost, sub_zero, forall_prop_of_true hlost, sub_neg_eq_add]
      exact eq_comm
    · rw [if_neg hlost]
      exact iff_of_true rfl fun hfalse => absurd hfalse hlost

theorem receive_mousePosition (s : Mouse) (packet : Packet) :
    (receive fb s packet).mousePosition = (movePosition fb packet s.mousePosition).2 := by
  rw [receive, uiPS2MouseProcessPacket, if_neg (not_not.2 rfl)]

end Deltas

/-- The mouse follows the reference through a run exactly when no delta of 256 counts there. -/
theorem receiveAll_moves_iff {fb : FrameBuffer} (hwidth : 12 ≤ fb.width) (hheight : 19 ≤ fb.height)
    (s : Mouse) (packets : List Packet) (hpackets : ∀ packet ∈ packets, NoOverflow packet) :
    (∀ before, before <+: packets → (receiveAll fb before s).mousePosition =
      before.foldl (moved fb) s.mousePosition) ↔ RunDeltasFit fb s.mousePosition packets := by
  induction packets generalizing s with
  | nil =>
    apply iff_of_true _ trivial
    intro before hbefore
    rw [List.prefix_nil.1 hbefore]
    rfl
  | cons packet packets ih =>
    obtain ⟨hpacket, hrest⟩ := List.forall_mem_cons.1 hpackets
    have hstep := movePosition_moved_iff hwidth hheight hpacket s.mousePosition
    rw [← receive_mousePosition] at hstep
    have ih := ih (receive fb s packet) hrest
    have hsplit : (∀ before, before <+: packet :: packets →
        (receiveAll fb before s).mousePosition = before.foldl (moved fb) s.mousePosition) ↔
        ∀ before, before <+: packets → (receiveAll fb before (receive fb s packet)).mousePosition =
          before.foldl (moved fb) (moved fb s.mousePosition packet) :=
      forall_prefix_cons.trans (and_iff_right rfl)
    rw [hsplit, RunDeltasFit]
    constructor
    · intro hall
      have hfirst : (receive fb s packet).mousePosition = moved fb s.mousePosition packet :=
        hall [] List.nil_prefix
      rw [← hfirst] at hall ⊢
      exact ⟨hstep.1 hfirst, ih.1 hall⟩
    · rintro ⟨hfits, hrun⟩
      have hfirst := hstep.2 hfits
      rw [← hfirst] at hrun ⊢
      exact ih.2 hrun

theorem receiveAll_moves_iff_tiny :
    (∀ before, before <+: [⟨0x38, 200, 0⟩] →
      (receiveAll tinyScreen before bootMouse).mousePosition =
        before.foldl (moved tinyScreen) bootMouse.mousePosition) ↔
      RunDeltasFit tinyScreen bootMouse.mousePosition [⟨0x38, 200, 0⟩] :=
  receiveAll_moves_iff le_rfl le_rfl bootMouse _ (by decide)

def svgaScreen : FrameBuffer := ⟨1920000, 800, 600, 800, by decide, by decide⟩

/-- A packet with the delta -256, and a mouse that does not move. -/
theorem not_moved_left : NoOverflow ⟨0x18, 0, 0⟩ ∧
    (receiveAll svgaScreen [⟨0x18, 0, 0⟩] bootMouse).mousePosition ≠
      [⟨0x18, 0, 0⟩].foldl (moved svgaScreen) bootMouse.mousePosition := by
  refine ⟨by decide, ?_⟩
  change (receive svgaScreen _ _).mousePosition ≠ _
  rw [receive_mousePosition]
  decide

end Rizzos.MouseMovement
