import Mathlib.Data.Int.CardIntervalMod
import Mathlib.Algebra.Order.Floor.Div
import Mathlib.Tactic.SplitIfs

/-!
# Dividing a clock by a counter

A counter goes up at every event; an event that finds it at `M` or beyond fires and starts it
again from 1. The counter may start anywhere from 1 on, also beyond `M`, as it does when `M`
has just been changed.

* `Divides.fires_iff`: which events fire, in terms of where the counter started.
* `Divides.first`: the first firing is within `M` events.
* `Divides.next`: the firings after one of them are its multiples of `M`.
* `Divides.card`: how many of `n` events in a row fire.
-/

namespace Clocked

variable {M p q : ℕ} {f : ℕ → ℕ}

/-- **The counter `f` divides by `M`** over the events from `p` up to `q`. -/
structure Divides (M : ℕ) (f : ℕ → ℕ) (p q : ℕ) : Prop where
  pos : 0 < M
  start : 1 ≤ f p
  step : ∀ j, p ≤ j → j < q → f (j + 1) = if M ≤ f j then 1 else f j + 1

namespace Divides

/-- **The counter after `k` events**, up to whole rounds: a start beyond `M` counts as `M`. -/
theorem rounds (h : Divides M f p q) : ∀ k, p + k ≤ q →
    1 ≤ f (p + k) ∧ ∃ t, min (f p) M + k = M * t + min (f (p + k)) M := by
  intro k
  induction k with
  | zero => intro _; exact ⟨h.start, 0, by rw [Nat.mul_zero, Nat.zero_add]; rfl⟩
  | succ k ih =>
    intro hk
    obtain ⟨hpos, t, ht⟩ := ih (by omega)
    have hM := h.pos
    have hstep := h.step (p + k) (by omega) (by omega)
    rw [← Nat.add_assoc p, hstep]
    split_ifs with hfire
    · refine ⟨le_rfl, t + 1, ?_⟩
      rw [Nat.min_eq_right hfire] at ht
      rw [Nat.min_eq_left (by omega : 1 ≤ M), Nat.mul_add]
      omega
    · refine ⟨by omega, t, ?_⟩
      rw [Nat.min_eq_left (show f (p + k) ≤ M by omega)] at ht
      rw [Nat.min_eq_left (show f (p + k) + 1 ≤ M by omega)]
      omega

/-- **Which events fire.** -/
theorem fires_iff (h : Divides M f p q) {j : ℕ} (hp : p ≤ j) (hq : j ≤ q) :
    M ≤ f j ↔ M ∣ min (f p) M + (j - p) := by
  obtain ⟨k, rfl⟩ := Nat.exists_eq_add_of_le hp
  obtain ⟨hpos, t, ht⟩ := h.rounds k hq
  rw [Nat.add_sub_cancel_left, ht, Nat.dvd_add_right (Nat.dvd_mul_right M t)]
  constructor
  · intro hfire
    rw [Nat.min_eq_right hfire]
  · intro hdvd
    have hle := Nat.le_of_dvd (by have := h.pos; omega) hdvd
    omega

/-- **The first firing** is within `M` events. -/
theorem first (h : Divides M f p q) (hq : p + M ≤ q) : ∃ j, p ≤ j ∧ j < p + M ∧ M ≤ f j := by
  have hstart := h.start
  have hM := h.pos
  refine ⟨p + (M - min (f p) M), by omega, by omega, ?_⟩
  rw [h.fires_iff (by omega) (by omega), Nat.add_sub_cancel_left]
  exact ⟨1, by omega⟩

/-- **After a firing** the counter fires every `M` events and at no other. -/
theorem next (h : Divides M f p q) {i j : ℕ} (hp : p ≤ i) (hij : i ≤ j) (hq : j ≤ q)
    (hi : M ≤ f i) : M ≤ f j ↔ M ∣ j - i := by
  rw [h.fires_iff hp (by omega)] at hi
  rw [h.fires_iff (by omega) hq, show min (f p) M + (j - p) = min (f p) M + (i - p) + (j - i) by omega]
  exact (Nat.dvd_add_right hi)

/-- How many of `n` numbers in a row are multiples of `M`. -/
theorem card_multiples (hM : 0 < M) (c n : ℕ) :
    ((Finset.range n).filter fun k => M ∣ c + k).card = n / M ∨
      ((Finset.range n).filter fun k => M ∣ c + k).card = n ⌈/⌉ M := by
  -- the residue of the multiples, counted from `c`
  have hzero : c + (M - c % M) ≡ 0 [MOD M] := by
    have hc := Nat.mod_lt c hM
    have hdiv := Nat.div_add_mod c M
    rw [Nat.modEq_zero_iff_dvd, show c + (M - c % M) = M * (c / M) + M by omega]
    exact Nat.dvd_add (Nat.dvd_mul_right M _) (Nat.dvd_refl M)
  have hres : ∀ k, M ∣ c + k ↔ k ≡ M - c % M [MOD M] := by
    intro k
    rw [← Nat.modEq_zero_iff_dvd]
    exact ⟨fun h => Nat.ModEq.add_left_cancel' c (h.trans hzero.symm), fun h => (h.add_left c).trans hzero⟩
  rw [Finset.filter_congr fun k _ => hres k, ← Nat.count_eq_card_filter_range,
    Nat.count_modEq_card _ hM, Nat.ceilDiv_eq_add_pred_div]
  have hn := Nat.div_add_mod n M
  split_ifs with hlt
  · right
    have hdiv : n + M - 1 = n % M - 1 + M * (n / M + 1) := by rw [Nat.mul_add]; omega
    have hmod := Nat.mod_lt n hM
    have hsmall : (n % M - 1) / M = 0 := Nat.div_eq_of_lt (by omega)
    rw [hdiv, Nat.add_mul_div_left _ _ hM, hsmall, Nat.zero_add]
  · exact Or.inl rfl

/-- **How many of `n` events in a row fire**: `n / M`, rounded down or up. -/
theorem card (h : Divides M f p q) {a n : ℕ} (hp : p ≤ a) (hq : a + n ≤ q) :
    ((Finset.range n).filter fun k => M ≤ f (a + k)).card = n / M ∨
      ((Finset.range n).filter fun k => M ≤ f (a + k)).card = n ⌈/⌉ M := by
  have hfire : ∀ k ∈ Finset.range n, (M ≤ f (a + k) ↔ M ∣ min (f p) M + (a - p) + k) := by
    intro k hk
    have hkn := Finset.mem_range.1 hk
    rw [h.fires_iff (by omega) (by omega), show min (f p) M + (a + k - p) = min (f p) M + (a - p) + k by omega]
  rw [Finset.filter_congr hfire]
  exact card_multiples h.pos _ n

end Divides

end Clocked
