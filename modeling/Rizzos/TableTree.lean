import Mathlib.Tactic

set_option autoImplicit false

/-!
# Trees of tables linked through their entries

`entries t i` is what entry `i` of the node `t` points to. A path is the list of the
indices followed from the root, the last one first. Nodes on paths shorter than the
depth are tables; a path of full length ends in a leaf, which may be any node.
-/
namespace Rizzos.TableTree

variable {φ ι : Type}

def lookup (entries : φ → ι → Option φ) (root : φ) : List ι → Option φ
  | [] => some root
  | i :: p => (lookup entries root p).bind fun t => entries t i

def IsTable (entries : φ → ι → Option φ) (root : φ) (depth : ℕ) (t : φ) : Prop :=
  ∃ p : List ι, p.length < depth ∧ lookup entries root p = some t

def Separate (entries : φ → ι → Option φ) (root : φ) (depth : ℕ) : Prop :=
  ∀ p q t, p.length < depth → q.length < depth → lookup entries root p = some t →
    lookup entries root q = some t → p = q

variable {entries entries' : φ → ι → Option φ} {root t x : φ} {depth : ℕ} {p : List ι} {i : ι}

theorem lookup_cons_of_some (h : lookup entries root p = some t) :
    lookup entries root (i :: p) = entries t i := by
  rw [lookup, h]
  rfl

theorem lookup_cons_of_none (h : lookup entries root p = none) :
    lookup entries root (i :: p) = none := by
  rw [lookup, h]
  rfl

theorem lookup_suffix_isSome {p q : List ι} (hpq : p <:+ q)
    (h : (lookup entries root q).isSome) : (lookup entries root p).isSome := by
  induction q with
  | nil => rwa [List.suffix_nil.1 hpq]
  | cons i q ih =>
    obtain rfl | hpq := List.suffix_cons_iff.1 hpq
    · exact h
    · refine ih hpq ?_
      cases hq : lookup entries root q with
      | none =>
        rw [lookup_cons_of_none hq] at h
        exact h
      | some t => rfl

theorem isTable_root (h : 0 < depth) : IsTable entries root depth root := ⟨[], h, rfl⟩

theorem lookup_congr (h : ∀ t, IsTable entries root depth t → entries' t = entries t)
    {p : List ι} (hp : p.length ≤ depth) : lookup entries' root p = lookup entries root p := by
  induction p with
  | nil => rfl
  | cons i p ih =>
    rw [List.length_cons] at hp
    rw [lookup, lookup, ih (by omega)]
    cases ht : lookup entries root p with
    | none => rfl
    | some t =>
      change entries' t i = entries t i
      rw [h t ⟨p, by omega, ht⟩]

theorem lookup_congr_suffix {p : List ι} (h : ∀ q t, q <:+ p → q ≠ p →
    lookup entries root q = some t → entries' t = entries t) :
    lookup entries' root p = lookup entries root p := by
  induction p with
  | nil => rfl
  | cons i p ih =>
    have hne : ∀ q, q <:+ p → q ≠ i :: p := by
      rintro q hq rfl
      have := hq.length_le
      rw [List.length_cons] at this
      omega
    have ih := ih fun q t hq _ => h q t (hq.trans (List.suffix_cons i p)) (hne q hq)
    cases ht : lookup entries root p with
    | none => rw [lookup_cons_of_none ht, lookup_cons_of_none (ih.trans ht)]
    | some t =>
      rw [lookup_cons_of_some ht, lookup_cons_of_some (ih.trans ht),
        h p t (List.suffix_cons i p) (hne p List.suffix_rfl) ht]

theorem isTable_congr (h : ∀ t, IsTable entries root depth t → entries' t = entries t) :
    IsTable entries' root depth t ↔ IsTable entries root depth t := by
  refine exists_congr fun p => and_congr_right fun hp => ?_
  rw [lookup_congr h (by omega)]

theorem Separate.congr (hs : Separate entries root depth)
    (h : ∀ t, IsTable entries root depth t → entries' t = entries t) :
    Separate entries' root depth := by
  intro p q t hp hq ht ht'
  rw [lookup_congr h (by omega)] at ht ht'
  exact hs p q t hp hq ht ht'

theorem lookup_of_empty (h : ∀ i, entries root i = none) (p : List ι) (hp : p ≠ []) :
    lookup entries root p = none := by
  induction p with
  | nil => exact absurd rfl hp
  | cons i p ih =>
    cases p with
    | nil => exact h i
    | cons j p => exact lookup_cons_of_none (ih (by simp))

theorem separate_of_empty (h : ∀ i, entries root i = none) : Separate entries root depth := by
  have hnil : ∀ p t, lookup entries root p = some t → p = [] := by
    intro p t ht
    by_contra hp
    rw [lookup_of_empty h p hp] at ht
    cases ht
  intro p q t _ _ hp hq
  rw [hnil p t hp, hnil q t hq]

theorem isTable_of_empty (h : ∀ i, entries root i = none) (ht : IsTable entries root depth t) :
    t = root := by
  obtain ⟨p, _, hp⟩ := ht
  cases p with
  | nil => exact (Option.some.inj hp).symm
  | cons i p =>
    rw [lookup_of_empty h _ (by simp)] at hp
    cases hp

/-- Entry `i` of the table `t` on path `p` now points to `x`: a leaf, or an empty new table
    where there was none. -/
structure Linked (entries entries' : φ → ι → Option φ) (root : φ) (depth : ℕ) (p : List ι)
    (i : ι) (t x : φ) : Prop where
  short : p.length < depth
  table : lookup entries root p = some t
  set : entries' t i = some x
  keep : ∀ t' j, IsTable entries root depth t' → t' ≠ t ∨ j ≠ i → entries' t' j = entries t' j
  target : p.length + 1 = depth ∨
    entries t i = none ∧ ¬ IsTable entries root depth x ∧ ∀ j, entries' x j = none

theorem Linked.lookup [DecidableEq ι] (h : Linked entries entries' root depth p i t x)
    (hs : Separate entries root depth) {q : List ι} (hq : q.length ≤ depth) :
    lookup entries' root q = if q = i :: p then some x else lookup entries root q := by
  induction q with
  | nil => rw [if_neg (by simp)]; rfl
  | cons j r ih =>
    rw [List.length_cons] at hq
    have ih := ih (by omega)
    by_cases hr : r = i :: p
    · -- below the new link there is nothing, before and after
      rw [if_pos hr] at ih
      subst hr
      rw [List.length_cons] at hq
      obtain hleaf | ⟨hnone, _, hempty⟩ := h.target
      · omega
      · rw [if_neg (fun e => by simpa using congrArg List.length e), lookup_cons_of_some ih,
          hempty, lookup_cons_of_none ((lookup_cons_of_some h.table).trans hnone)]
    · rw [if_neg hr] at ih
      cases ht : TableTree.lookup entries root r with
      | none =>
        rw [lookup_cons_of_none (ih.trans ht), lookup_cons_of_none ht, if_neg]
        rintro ⟨⟩
        rw [h.table] at ht
        cases ht
      | some t' =>
        rw [lookup_cons_of_some (ih.trans ht), lookup_cons_of_some ht]
        by_cases hhere : t' = t ∧ j = i
        · obtain ⟨rfl, rfl⟩ := hhere
          rw [hs r p t' (by omega) h.short ht h.table, if_pos rfl, h.set]
        · rw [h.keep t' j ⟨r, by omega, ht⟩ (by tauto), if_neg]
          rintro ⟨⟩
          rw [h.table] at ht
          exact hhere ⟨(Option.some.inj ht).symm, rfl⟩

/-- The tables after a link: the old ones, and `x` when it is a new table. -/
theorem Linked.isTable [DecidableEq ι] (h : Linked entries entries' root depth p i t x)
    (hs : Separate entries root depth) {t' : φ} (ht : IsTable entries' root depth t') :
    IsTable entries root depth t' ∨
      t' = x ∧ ¬ IsTable entries root depth x ∧ ∀ j, entries' x j = none := by
  obtain ⟨q, hq, e⟩ := ht
  rw [h.lookup hs (by omega)] at e
  by_cases hqp : q = i :: p
  · rw [if_pos hqp] at e
    subst hqp
    rw [List.length_cons] at hq
    obtain hleaf | ⟨_, hfresh⟩ := h.target
    · omega
    · exact .inr ⟨(Option.some.inj e).symm, hfresh⟩
  · rw [if_neg hqp] at e
    exact .inl ⟨q, hq, e⟩

theorem Linked.separate [DecidableEq ι] (h : Linked entries entries' root depth p i t x)
    (hs : Separate entries root depth) : Separate entries' root depth := by
  -- a path to the new table is the new path
  have hnew : ∀ q, q.length < depth → q ≠ i :: p → (i :: p).length < depth →
      TableTree.lookup entries root q ≠ some x := by
    intro q hq _ hp e
    rw [List.length_cons] at hp
    obtain hleaf | ⟨_, hfresh, _⟩ := h.target
    · omega
    · exact hfresh ⟨q, hq, e⟩
  intro q r t' hq hr hqt hrt
  rw [h.lookup hs (by omega)] at hqt hrt
  by_cases hqp : q = i :: p <;> by_cases hrp : r = i :: p
  · rw [hqp, hrp]
  · rw [if_pos hqp] at hqt
    rw [if_neg hrp] at hrt
    exact absurd (hrt.trans hqt.symm) (hnew r hr hrp (hqp ▸ hq))
  · rw [if_neg hqp] at hqt
    rw [if_pos hrp] at hrt
    exact absurd (hqt.trans hrt.symm) (hnew q hq hqp (hrp ▸ hr))
  · rw [if_neg hqp] at hqt
    rw [if_neg hrp] at hrt
    exact hs q r t' hq hr hqt hrt

end Rizzos.TableTree
