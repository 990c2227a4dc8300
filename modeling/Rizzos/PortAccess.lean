import Rizzos.ByteMemory

set_option autoImplicit false

/-!
# Programs and ports

What a program does to its ports is a trace, the oldest event first. A device answers a read as it
likes, by all that went before. The state of a device is what its steps make of a trace.
-/
namespace Rizzos.PortAccess
open ByteMemory

inductive PortEvent where
  | read (port : ℕ) (value : Byte)
  | write (port : ℕ) (value : Byte)
deriving DecidableEq, Repr

abbrev Trace := List PortEvent

/-- The byte that a read of a port returns after a trace. -/
abbrev Device := Trace → ℕ → Byte

def writePort (port : ℕ) (value : Byte) (t : Trace) : Trace := t ++ [.write port value]

def readPort (dev : Device) (port : ℕ) (t : Trace) : Byte × Trace :=
  (dev t port, t ++ [.read port (dev t port)])

/-- Reads of a port until one is as wanted, `n` of them at most. -/
def poll (dev : Device) (port : ℕ) (ready : Byte → Bool) : ℕ → Trace → Trace
  | 0, t => t
  | n + 1, t =>
    let (value, t) := readPort dev port t
    if ready value then t else poll dev port ready n t

def writes : Trace → List (ℕ × Byte)
  | [] => []
  | .read _ _ :: t => writes t
  | .write port value :: t => (port, value) :: writes t

def reads (port : ℕ) : Trace → List Byte
  | [] => []
  | .read p value :: t => if p = port then value :: reads port t else reads port t
  | .write _ _ :: t => reads port t

def replay {σ : Type} (step : σ → PortEvent → σ) (s : σ) (t : Trace) : σ := t.foldl step s

/-- A trace that ends with a wanted answer, or with `n` others in a row. -/
def Polled (port : ℕ) (ready : Byte → Bool) (n : ℕ) (t : Trace) : Prop :=
  (∃ before value, t = before ++ [.read port value] ∧ ready value = true) ∨
  ∃ (before : Trace) (values : List Byte), t = before ++ values.map (.read port) ∧
    values.length = n ∧ ∀ value ∈ values, ready value = false

/-- Every event of a trace meets its condition on what went before it. -/
def Guarded (Needs : PortEvent → Trace → Prop) (t : Trace) : Prop :=
  ∀ before e after, t = before ++ e :: after → Needs e before

section Polling
variable {dev : Device} {port : ℕ} {ready : Byte → Bool}

theorem poll_eq (dev : Device) (port : ℕ) (ready : Byte → Bool) (n : ℕ) (t : Trace) : ∃ values : List Byte,
    poll dev port ready n t = t ++ values.map (.read port) ∧
    ((∃ before value, values = before ++ [value] ∧ ready value = true) ∨
      values.length = n ∧ ∀ value ∈ values, ready value = false) := by
  induction n generalizing t with
  | zero => exact ⟨[], (List.append_nil t).symm, .inr ⟨rfl, by simp⟩⟩
  | succ n ih =>
    rw [poll]
    cases hready : ready (dev t port) with
    | true =>
      refine ⟨[dev t port], ?_, .inl ⟨[], _, rfl, hready⟩⟩
      simp [readPort, hready]
    | false =>
      obtain ⟨values, heq, hvalues⟩ := ih (readPort dev port t).2
      refine ⟨dev t port :: values, ?_, ?_⟩
      · simp only [readPort, hready, Bool.false_eq_true, if_false] at heq ⊢
        rw [heq]
        simp
      · rcases hvalues with ⟨before, value, rfl, hlast⟩ | ⟨hlength, hnone⟩
        · exact .inl ⟨dev t port :: before, value, rfl, hlast⟩
        · exact .inr ⟨by rw [List.length_cons, hlength], List.forall_mem_cons.2 ⟨hready, hnone⟩⟩

theorem polled_poll (n : ℕ) (t : Trace) : Polled port ready n (poll dev port ready n t) := by
  obtain ⟨values, heq, ⟨before, value, rfl, hready⟩ | ⟨hlength, hnone⟩⟩ := poll_eq dev port ready n t
  · refine .inl ⟨t ++ before.map (.read port), value, ?_, hready⟩
    rw [heq]
    simp
  · exact .inr ⟨t, values, heq, hlength, hnone⟩

theorem prefix_poll (n : ℕ) (t : Trace) : t <+: poll dev port ready n t := by
  obtain ⟨values, heq, -⟩ := poll_eq dev port ready n t
  rw [heq]
  exact List.prefix_append t _

theorem writes_append (t u : Trace) : writes (t ++ u) = writes t ++ writes u := by
  induction t with
  | nil => rfl
  | cons e t ih => cases e <;> simp [writes, ih]

theorem reads_append (p : ℕ) (t u : Trace) : reads p (t ++ u) = reads p t ++ reads p u := by
  induction t with
  | nil => rfl
  | cons e t ih =>
    cases e with
    | read q value =>
      by_cases hq : q = p
      · simp [reads, hq, ih]
      · simp [reads, hq, ih]
    | write q value => exact ih

theorem reads_poll {p : ℕ} (hp : port ≠ p) (n : ℕ) (t : Trace) :
    reads p (poll dev port ready n t) = reads p t := by
  obtain ⟨values, heq, -⟩ := poll_eq dev port ready n t
  have hnone : ∀ values : List Byte, reads p (values.map (.read port)) = [] := by
    intro values
    induction values with
    | nil => rfl
    | cons value values ih => rw [List.map_cons, reads, if_neg hp, ih]
  rw [heq, reads_append, hnone, List.append_nil]

theorem reads_writePort (p : ℕ) (value : Byte) (t : Trace) :
    reads p (writePort port value t) = reads p t := by
  rw [writePort, reads_append]
  exact List.append_nil _

theorem writes_reads (values : List Byte) : writes (values.map (.read port)) = [] := by
  induction values with
  | nil => rfl
  | cons value values ih => exact ih

@[simp] theorem writes_poll (n : ℕ) (t : Trace) : writes (poll dev port ready n t) = writes t := by
  obtain ⟨values, heq, -⟩ := poll_eq dev port ready n t
  rw [heq, writes_append, writes_reads, List.append_nil]

@[simp] theorem writes_writePort (value : Byte) (t : Trace) :
    writes (writePort port value t) = writes t ++ [(port, value)] := by
  rw [writePort, writes_append]
  rfl

@[simp] theorem writes_readPort (t : Trace) : writes (readPort dev port t).2 = writes t := by
  rw [readPort, writes_append]
  exact List.append_nil _

end Polling

section Replay
variable {σ : Type} {step : σ → PortEvent → σ}

@[simp] theorem replay_writePort (s : σ) (port : ℕ) (value : Byte) (t : Trace) :
    replay step s (writePort port value t) = step (replay step s t) (.write port value) := by
  simp [replay, writePort]

@[simp] theorem replay_readPort (s : σ) (dev : Device) (port : ℕ) (t : Trace) :
    replay step s (readPort dev port t).2 =
      step (replay step s t) (.read port (dev t port)) := by
  simp [replay, readPort]

theorem replay_reads {port : ℕ} (h : ∀ s value, step s (.read port value) = s) (s : σ) (t : Trace)
    (values : List Byte) : replay step s (t ++ values.map (.read port)) = replay step s t := by
  rw [replay, replay, List.foldl_append]
  generalize t.foldl step s = s
  induction values with
  | nil => rfl
  | cons value values ih => rwa [List.map_cons, List.foldl_cons, h]

/-- Polls of a port that does nothing to the device. -/
theorem replay_poll {port : ℕ} (h : ∀ s value, step s (.read port value) = s) (s : σ)
    (dev : Device) (ready : Byte → Bool) (n : ℕ) (t : Trace) :
    replay step s (poll dev port ready n t) = replay step s t := by
  obtain ⟨values, heq, -⟩ := poll_eq dev port ready n t
  rw [heq, replay_reads h]

end Replay

section Guards
variable {Needs : PortEvent → Trace → Prop}

theorem guarded_nil : Guarded Needs [] := by
  intro before e after h
  exact absurd h.symm (by simp)

theorem guarded_append_singleton {t : Trace} {e : PortEvent} :
    Guarded Needs (t ++ [e]) ↔ Guarded Needs t ∧ Needs e t := by
  constructor
  · intro h
    refine ⟨fun before e' after heq => ?_, h t e [] rfl⟩
    exact h before e' (after ++ [e]) (by rw [heq, List.append_assoc, List.cons_append])
  · rintro ⟨h, he⟩ before e' after heq
    rcases List.eq_nil_or_concat after with rfl | ⟨after, last, rfl⟩
    · obtain ⟨rfl, hlast⟩ := List.append_inj' heq rfl
      rwa [← (List.cons.inj hlast).1]
    · rw [List.concat_eq_append, ← List.cons_append, ← List.append_assoc] at heq
      exact h before e' after (List.append_inj' heq rfl).1

theorem Guarded.poll {t : Trace} (h : Guarded Needs t) {port : ℕ}
    (hneeds : ∀ value t, Needs (.read port value) t) (dev : Device) (ready : Byte → Bool) (n : ℕ) :
    Guarded Needs (poll dev port ready n t) := by
  induction n generalizing t with
  | zero => exact h
  | succ n ih =>
    have hread : Guarded Needs (readPort dev port t).2 :=
      guarded_append_singleton.2 ⟨h, hneeds _ _⟩
    rw [PortAccess.poll]
    dsimp only
    split
    · exact hread
    · exact ih hread

end Guards

end Rizzos.PortAccess
