import BankVault.Clocked.Run
import Mathlib.Data.Nat.Count

/-!
# Going round

A machine with a slot that goes round a ring of `N`: each event of some kind takes it to the next
slot, and the others leave it where it is. `Nat.count` counts the events of the kind.

* `slot_eq`: the slot after some events.
* `visits`: `N - 1` events of the kind are enough to come to every slot.
-/

namespace Clocked

variable {σ ε : Type*} {step : ε → σ → σ} {s₀ : σ} {es : ℕ → ε} {N : ℕ}

/-- Counting passes every number. -/
theorem exists_count {P : ℕ → Prop} [DecidablePred P] {a b c : ℕ} (hab : a ≤ b) (ha : Nat.count P a ≤ c)
    (hb : c ≤ Nat.count P b) : ∃ j, a ≤ j ∧ j ≤ b ∧ Nat.count P j = c := by
  induction b, hab using Nat.le_induction with
  | base => exact ⟨a, le_rfl, le_rfl, le_antisymm ha hb⟩
  | succ b hab ih =>
    by_cases hc : c ≤ Nat.count P b
    · obtain ⟨j, h₁, h₂, h₃⟩ := ih hc
      exact ⟨j, h₁, h₂.trans (Nat.le_succ b), h₃⟩
    · refine ⟨b + 1, hab.trans (Nat.le_succ b), le_rfl, ?_⟩
      rw [Nat.count_succ] at hb ⊢
      split_ifs at hb ⊢ <;> omega

/-- **A ring**: the slot of the states that satisfy `I`, under the events of kind `P`. -/
structure Ring (step : ε → σ → σ) (I : σ → Prop) (P : ε → Prop) (N : ℕ) (slot : σ → ℕ) : Prop where
  keep : ∀ e s, I s → I (step e s)
  lt : ∀ s, I s → slot s < N
  next : ∀ e s, I s → P e → slot (step e s) = (slot s + 1) % N
  stay : ∀ e s, I s → ¬ P e → slot (step e s) = slot s

namespace Ring

variable {I : σ → Prop} {P : ε → Prop} [DecidablePred P] {slot : σ → ℕ}

/-- **The slot after some events.** -/
theorem slot_eq (h : Ring step I P N slot) {a : ℕ} (ha : I (stAt step s₀ es a)) : ∀ b, a ≤ b →
    slot (stAt step s₀ es b) = (slot (stAt step s₀ es a) +
      (Nat.count (fun i => P (es i)) b - Nat.count (fun i => P (es i)) a)) % N := by
  intro b hab
  induction b, hab using Nat.le_induction with
  | base => rw [Nat.sub_self, Nat.add_zero, Nat.mod_eq_of_lt (h.lt _ ha)]
  | succ b hab ih =>
    have hb : I (stAt step s₀ es b) := inv_from h.keep ha b hab
    have hmono := Nat.count_monotone (fun i => P (es i)) hab
    rw [stAt_succ, Nat.count_succ]
    by_cases hp : P (es b)
    · rw [h.next _ _ hb hp, ih, if_pos hp, Nat.mod_add_mod]
      congr 1
      omega
    · rw [h.stay _ _ hb hp, ih, if_neg hp, Nat.add_zero]

/-- **Every slot is visited.** -/
theorem visits (h : Ring step I P N slot) {a b : ℕ} (ha : I (stAt step s₀ es a)) (hab : a ≤ b)
    (hc : Nat.count (fun i => P (es i)) a + (N - 1) ≤ Nat.count (fun i => P (es i)) b) {p : ℕ}
    (hp : p < N) : ∃ j, a ≤ j ∧ j ≤ b ∧ slot (stAt step s₀ es j) = p := by
  have hlt := h.lt _ ha
  -- so many events of the kind take the ring to `p`
  have hround : (slot (stAt step s₀ es a) + (p + N - slot (stAt step s₀ es a)) % N) % N = p := by
    rw [Nat.add_mod_mod, show slot (stAt step s₀ es a) + (p + N - slot (stAt step s₀ es a)) = p + N by omega,
      Nat.add_mod_right, Nat.mod_eq_of_lt hp]
  have hmod : (p + N - slot (stAt step s₀ es a)) % N < N := Nat.mod_lt _ (by omega)
  obtain ⟨j, h₁, h₂, h₃⟩ := exists_count (P := fun i => P (es i)) hab
    (Nat.le_add_right _ ((p + N - slot (stAt step s₀ es a)) % N)) (by omega)
  refine ⟨j, h₁, h₂, ?_⟩
  rw [h.slot_eq ha j h₁, h₃, Nat.add_sub_cancel_left, hround]

end Ring

end Clocked
