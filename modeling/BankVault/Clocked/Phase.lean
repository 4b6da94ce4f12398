import BankVault.Clocked.Run

/-!
# Machines that go round in phases

Some machines walk through `N` phases and start over; a restart takes them to phase `r`
from anywhere. `phase` is the phase of such a machine, a function of the restarts alone:
`g n` says that event `n` is not a restart.

* `phase_inv`: an invariant of each phase that every event carries to the next one, and
  every restart to phase `r`, holds at every point of a run in its phase.
* `phase_back`: a phase beyond `r` was reached through the phases before it.
* `phase_go`: without restarts the phase is the number of events modulo `N`.
-/

namespace Clocked

variable {N r : ℕ} {g : ℕ → Bool} {n : ℕ}

/-- The phase before event `n`. -/
def phase (N r : ℕ) (g : ℕ → Bool) : ℕ → ℕ
  | 0 => 0
  | n + 1 => if g n then (phase N r g n + 1) % N else r

theorem phase_succ_go (h : g n = true) : phase N r g (n + 1) = (phase N r g n + 1) % N := by
  rw [phase, if_pos h]

theorem phase_succ_restart (h : g n = false) : phase N r g (n + 1) = r := by
  rw [phase, if_neg (by simp [h])]

theorem phase_lt (hr : r < N) : ∀ n, phase N r g n < N := by
  intro n
  cases n with
  | zero => exact Nat.lt_of_le_of_lt (Nat.zero_le r) hr
  | succ n =>
    unfold phase
    split_ifs
    · exact Nat.mod_lt _ (by omega)
    · exact hr

/-- **Without restarts** the phase counts the events. -/
theorem phase_go : ∀ n, (∀ i, i < n → g i = true) → phase N r g n = n % N := by
  intro n
  induction n with
  | zero => intro _; exact (Nat.zero_mod N).symm
  | succ n ih =>
    intro h
    rw [phase_succ_go (h n (by omega)), ih (fun i hi => h i (by omega)), Nat.mod_add_mod]

/-- Without a restart in the next `k` events the phase moves on by `k`, within a round. -/
theorem phase_ahead : ∀ k, (∀ i, i < k → g (n + i) = true) → phase N r g n + k < N →
    phase N r g (n + k) = phase N r g n + k := by
  intro k
  induction k with
  | zero => intro _ _; rfl
  | succ k ih =>
    intro h hlt
    have hk := ih (fun i hi => h i (by omega)) (by omega)
    rw [← Nat.add_assoc, phase_succ_go (h k (by omega)), hk, Nat.mod_eq_of_lt (by omega), Nat.add_assoc]

/-- A phase beyond `r` was reached from the one before it, without a restart. -/
theorem phase_prev (hr : r < N) (h : r < phase N r g n) :
    ∃ m, n = m + 1 ∧ g m = true ∧ phase N r g m + 1 = phase N r g n := by
  cases n with
  | zero => exact absurd h (Nat.not_lt_zero r)
  | succ m =>
    cases hg : g m with
    | false => rw [phase_succ_restart hg] at h; exact absurd h (Nat.lt_irrefl r)
    | true =>
      rw [phase_succ_go hg] at h ⊢
      have hm := phase_lt (g := g) hr m
      have hne : phase N r g m + 1 ≠ N := by
        intro hN
        rw [hN, Nat.mod_self] at h
        exact absurd h (Nat.not_lt_zero r)
      exact ⟨m, rfl, hg, (Nat.mod_eq_of_lt (by omega)).symm⟩

/-- **The way to a phase beyond `r`**: `k` events back, without a restart since, the phase
was `k` less. -/
theorem phase_back (hr : r < N) : ∀ k n, r + k ≤ phase N r g n →
    ∃ m, n = m + k ∧ phase N r g m + k = phase N r g n ∧ ∀ i, i < k → g (m + i) = true := by
  intro k
  induction k with
  | zero => intro n _; exact ⟨n, rfl, rfl, fun i hi => absurd hi (Nat.not_lt_zero i)⟩
  | succ k ih =>
    intro n h
    obtain ⟨l, rfl, hgo, hl⟩ := phase_prev hr (show r < phase N r g n by omega)
    obtain ⟨m, rfl, hm, hback⟩ := ih l (by omega)
    refine ⟨m, rfl, by omega, fun i hi => ?_⟩
    rcases Nat.lt_or_ge i k with h1 | h1
    · exact hback i h1
    · rw [show i = k by omega]; exact hgo

variable {σ ε : Type*} {step : ε → σ → σ} {s₀ : σ} {es : ℕ → ε}

/-- **The invariant rule for phases.** -/
theorem phase_inv {At : ℕ → σ → Prop} {c : ε → Bool} (hr : r < N) (h0 : At 0 s₀)
    (hgo : ∀ p e s, p < N → c e = true → At p s → At ((p + 1) % N) (step e s))
    (hrestart : ∀ p e s, p < N → c e = false → At p s → At r (step e s)) :
    ∀ n, At (phase N r (fun i => c (es i)) n) (stAt step s₀ es n) := by
  intro n
  induction n with
  | zero => exact h0
  | succ n ih =>
    have hlt := phase_lt (g := fun i => c (es i)) hr n
    rw [stAt_succ]
    cases hg : c (es n) with
    | false =>
      rw [phase_succ_restart (g := fun i => c (es i)) hg]
      exact hrestart _ _ _ hlt hg ih
    | true =>
      rw [phase_succ_go (g := fun i => c (es i)) hg]
      exact hgo _ _ _ hlt hg ih

end Clocked
