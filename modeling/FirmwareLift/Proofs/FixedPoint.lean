import FirmwareLift.Iteration
import Mathlib.Logic.Function.Iterate

/-!
# Reaching a fixed point

A pass is repeated until it is idle. If it always gains weight otherwise, and the weight is bounded,
it comes to rest. Where a pass of several visits is idle, each of them is, if none takes back what
another did. As soon as such passes have led as far as the place of rest, one more ends them.
-/

namespace FirmwareLift

/-- Repeated until it is idle, the pass leads from `state` to `final`; there is no limit. -/
inductive Settles {σ : Type} (pass : σ → σ) :
    (state : σ) → (passes : Nat) → (final : σ) → Prop where
  | idle {state : σ} : pass state = state → Settles pass state 1 state
  | active {state final : σ} {passes : Nat} : pass state ≠ state →
      Settles pass (pass state) passes final → Settles pass state (passes + 1) final

section

variable {σ : Type} {pass : σ → σ} {state final : σ} {passes : Nat}

theorem Settles.fixed (h : Settles pass state passes final) : pass final = final := by
  induction h with
  | idle hfixed => exact hfixed
  | active _ _ ih => exact ih

theorem Settles.keeps {Inv : σ → Prop} (h : Settles pass state passes final)
    (hpass : ∀ s, Inv s → Inv (pass s)) (hstate : Inv state) : Inv final := by
  induction h with
  | idle => exact hstate
  | active _ _ ih => exact ih (hpass _ hstate)

/-- Where so many passes lead to the place of rest, one more finds out. -/
theorem Settles.passes_le {n : Nat} (h : Settles pass state passes final)
    (hn : pass^[n] state = final) : passes ≤ n + 1 := by
  induction h generalizing n with
  | idle => omega
  | @active state final passes hmoved hrest ih =>
      cases n with
      | zero =>
          rw [Function.iterate_zero_apply] at hn
          exact absurd (hn ▸ hrest.fixed) hmoved
      | succ n =>
          have hpasses := ih hn
          omega

variable [DecidableEq σ] (Inv : σ → Prop) (weight : σ → Nat) {bound limit : Nat}

theorem settle_of_fixed (h : pass state = state) : settle pass (limit + 1) state = (1, state) := by
  rw [settle, if_pos h]

/-- A limit that exceeds what weight there is to gain is never met. -/
theorem settles_settle (hpass : ∀ s, Inv s → Inv (pass s))
    (hweight : ∀ s, Inv s → pass s ≠ s → weight s < weight (pass s))
    (hbound : ∀ s, Inv s → weight s ≤ bound) (hstate : Inv state)
    (hlimit : bound < weight state + limit) :
    Settles pass state (settle pass limit state).1 (settle pass limit state).2 := by
  induction limit generalizing state with
  | zero => exact absurd (hbound state hstate) (Nat.not_le.2 hlimit)
  | succ limit ih =>
      by_cases hfixed : pass state = state
      · rw [settle, if_pos hfixed]
        exact .idle hfixed
      · have hgain := hweight state hstate hfixed
        rw [settle, if_neg hfixed]
        exact .active hfixed (ih (hpass state hstate) (by omega))

end

variable {σ α : Type} {Inv : σ → Prop} {le : σ → σ → Prop} {visit : σ → α → σ} {xs : List α}
  {state : σ}

/-- Visits that keep an invariant and move every state the same way along an order. -/
structure OneWay (Inv : σ → Prop) (le : σ → σ → Prop) (visit : σ → α → σ) (xs : List α) : Prop where
  refl : ∀ s, le s s
  trans : ∀ s t u, le s t → le t u → le s u
  antisymm : ∀ s t, Inv s → Inv t → le s t → le t s → s = t
  keeps : ∀ s, Inv s → ∀ x ∈ xs, Inv (visit s x)
  moves : ∀ s, Inv s → ∀ x ∈ xs, le s (visit s x)

namespace OneWay

theorem tail {x : α} (h : OneWay Inv le visit (x :: xs)) : OneWay Inv le visit xs where
  refl := h.refl
  trans := h.trans
  antisymm := h.antisymm
  keeps s hs y hy := h.keeps s hs y (List.mem_cons_of_mem x hy)
  moves s hs y hy := h.moves s hs y (List.mem_cons_of_mem x hy)

theorem visits (h : OneWay Inv le visit xs) (hstate : Inv state) :
    Inv (xs.foldl visit state) ∧ le state (xs.foldl visit state) := by
  induction xs generalizing state with
  | nil => exact ⟨hstate, h.refl state⟩
  | cons x rest ih =>
      obtain ⟨hkept, hmoved⟩ := ih h.tail (h.keeps state hstate x List.mem_cons_self)
      exact ⟨hkept, h.trans _ _ _ (h.moves state hstate x List.mem_cons_self) hmoved⟩

/-- What the visit to a member makes, from a state on the way, is not taken back. -/
theorem exists_visit (h : OneWay Inv le visit xs) (hstate : Inv state) {x : α} (hx : x ∈ xs) :
    ∃ s, Inv s ∧ le state s ∧ le (visit s x) (xs.foldl visit state) := by
  induction xs generalizing state with
  | nil => cases hx
  | cons y rest ih =>
      have hkept := h.keeps state hstate y List.mem_cons_self
      have hmoved := h.moves state hstate y List.mem_cons_self
      rcases List.mem_cons.1 hx with rfl | hx
      · exact ⟨state, hstate, h.refl state, (h.tail.visits hkept).2⟩
      · obtain ⟨s, hs, hle, hvisit⟩ := ih h.tail hkept hx
        exact ⟨s, hs, h.trans _ _ _ hmoved hle, hvisit⟩

/-- An idle run of visits is idle at every one of them. -/
theorem visit_eq (h : OneWay Inv le visit xs) (hstate : Inv state)
    (hidle : xs.foldl visit state = state) : ∀ x ∈ xs, visit state x = state := by
  induction xs with
  | nil => simp
  | cons x rest ih =>
      have hkept := h.keeps state hstate x List.mem_cons_self
      -- The rest of the run leads back to the state, so the first visit has not left it.
      have hback := (h.tail.visits hkept).2
      rw [List.foldl_cons] at hidle
      rw [hidle] at hback
      have heq := h.antisymm _ _ hkept hstate hback (h.moves state hstate x List.mem_cons_self)
      rw [heq] at hidle
      exact List.forall_mem_cons.2 ⟨heq, ih h.tail hidle⟩

/-! ## Repeated passes -/

theorem iterate (h : OneWay Inv le visit xs) (hstate : Inv state) (n : Nat) :
    Inv ((xs.foldl visit)^[n] state) := by
  induction n with
  | zero => exact hstate
  | succ n ih =>
      rw [Function.iterate_succ_apply']
      exact (h.visits ih).1

variable {final : σ} {passes n : Nat}

theorem iterate_le (h : OneWay Inv le visit xs)
    (hsettles : Settles (xs.foldl visit) state passes final) (hstate : Inv state) :
    le ((xs.foldl visit)^[n] state) final := by
  induction hsettles generalizing n with
  | @idle state hfixed =>
      rw [Function.iterate_fixed hfixed]
      exact h.refl state
  | active _ _ ih =>
      obtain ⟨hkept, hmoved⟩ := h.visits hstate
      cases n with
      | zero => exact h.trans _ _ _ hmoved (ih hkept (n := 0))
      | succ n => exact ih hkept

/-- No more than one pass follows those that lead as far as the place of rest. -/
theorem passes_le (h : OneWay Inv le visit xs)
    (hsettles : Settles (xs.foldl visit) state passes final) (hstate : Inv state)
    (hn : le final ((xs.foldl visit)^[n] state)) : passes ≤ n + 1 := by
  have hfinal : Inv final := hsettles.keeps (fun _ hs => (h.visits hs).1) hstate
  exact hsettles.passes_le
    (h.antisymm _ _ (h.iterate hstate n) hfinal (h.iterate_le hsettles hstate) hn)

end OneWay

end FirmwareLift
