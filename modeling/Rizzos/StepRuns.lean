import Mathlib.Tactic

set_option autoImplicit false

/-!
# Runs of a step function

A run folds a step over a list of inputs. The rules are for what holds at the end of a run, and
for what holds at the end of all its prefixes.
-/
namespace Rizzos.StepRuns

section Runs
variable {σ ι : Type}

/-- What holds after every prefix of a run holds before its first step and after every prefix
    that begins with it. -/
theorem forall_prefix_cons {P : List ι → Prop} {i : ι} {l : List ι} :
    (∀ before, before <+: i :: l → P before) ↔ P [] ∧ ∀ before, before <+: l → P (i :: before) := by
  constructor
  · intro h
    constructor
    · exact h [] List.nil_prefix
    · intro before hbefore
      exact h _ (List.cons_prefix_cons.2 ⟨rfl, hbefore⟩)
  · intro h before hbefore
    rcases List.prefix_cons_iff.1 hbefore with rfl | ⟨rest, rfl, hrest⟩
    · exact h.1
    · exact h.2 rest hrest

/-- A run ends in a good state exactly when it begins in one and each step meets its condition,
    if that is so of one step from a state with the invariant. -/
theorem foldl_good_iff {step : σ → ι → σ} {Good Inv : σ → Prop} {Meets : σ → ι → Prop}
    {Run : σ → List ι → Prop} (hnil : ∀ s, Run s [])
    (hcons : ∀ s i l, Run s (i :: l) ↔ Meets s i ∧ Run (step s i) l)
    (hinv : ∀ s i, Inv s → Inv (step s i))
    (hstep : ∀ s i, Inv s → (Good (step s i) ↔ Meets s i ∧ Good s)) (l : List ι) {s : σ}
    (h : Inv s) : Good (l.foldl step s) ↔ Run s l ∧ Good s := by
  induction l generalizing s with
  | nil => exact (and_iff_right (hnil s)).symm
  | cons i l ih =>
    rw [List.foldl_cons, ih (hinv s i h), hstep s i h, hcons]
    exact and_left_comm.trans and_assoc.symm

end Runs

end Rizzos.StepRuns
