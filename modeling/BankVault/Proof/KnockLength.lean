import BankVault.Proof.Debounce

/-!
# How long a knock is filtered

The comment on `debounce` asks for a level that has been stable for 10 ms, which is 500000
edges of `CLOCK_50`. Its counter stops at 1, so three equal samples are enough: the flag of
`safe_tilt_and_unlock` moves four edges after the first of them, and the sample before was
still the old level.

* `flag_succ`: the flag is the filtered knock line, one edge later.
* `not_heldFor`: no change of the flag is preceded by six equal samples.
* `documented_iff`: the 10 ms hold in a run if and only if the flag never moves in it.
-/

namespace BankVault

open Clocked

/-- `safe_tilt_and_unlock` after an edge with `reset_n` low and then `n` edges of `CLOCK_50` that
find the samples `r` of the knock line; `enable` is 1 throughout. -/
def safeAt (s₀ : SafeTilt) (raw₀ : Bool) (r : ℕ → Bool) (n : ℕ) : SafeTilt :=
  stAt (fun raw s => s.step true true raw true) (s₀.step true false raw₀ true) r n

/-- **The level `v` stood for `L` samples** in a row before edge `n`, up to a latency of four
samples. -/
def HeldFor (r : ℕ → Bool) (L n : ℕ) (v : Bool) : Prop :=
  ∃ b, b + L ≤ n + 1 ∧ n + 1 ≤ b + L + 4 ∧ Window r L b v

/-- **The outputs follow the knock line after `L` samples only**: whenever `unlocked_flag` or
`output_elmag` changes, the new level stood for `L` samples. -/
def FollowsAfter (s₀ : SafeTilt) (raw₀ : Bool) (r : ℕ → Bool) (L : ℕ) : Prop :=
  ∀ n, ((safeAt s₀ raw₀ r (n + 1)).unlockedFlag ≠ (safeAt s₀ raw₀ r n).unlockedFlag →
      HeldFor r L n (safeAt s₀ raw₀ r (n + 1)).unlockedFlag) ∧
    ((safeAt s₀ raw₀ r (n + 1)).outputElmag ≠ (safeAt s₀ raw₀ r n).outputElmag →
      HeldFor r L n (!(safeAt s₀ raw₀ r (n + 1)).outputElmag))

variable {s₀ : SafeTilt} {raw₀ : Bool} {r : ℕ → Bool} {n : ℕ}

theorem safeAt_succ (n : ℕ) :
    safeAt s₀ raw₀ r (n + 1) = (safeAt s₀ raw₀ r n).step true true (r n) true := rfl

/-- The debouncer runs on its own. -/
theorem safeAt_debounce (n : ℕ) :
    (safeAt s₀ raw₀ r n).debounce1 = dAt s₀.debounce1 true raw₀ r n := by
  induction n with
  | zero => rfl
  | succ n ih =>
    rw [dAt_succ, ← ih]
    rfl

theorem flag_zero : (safeAt s₀ raw₀ r 0).unlockedFlag = false := SafeTilt.step_unlockedFlag s₀

/-- **The flag is the filtered level**, one edge later. -/
theorem flag_succ (n : ℕ) :
    (safeAt s₀ raw₀ r (n + 1)).unlockedFlag = (dAt s₀.debounce1 true raw₀ r n).debouncedInput := by
  rw [safeAt_succ, SafeTilt.step_unlockedFlag, SafeTilt.debounceGood, safeAt_debounce]
  rfl

/-- The magnet output is the complement of the flag. -/
theorem elmag_eq (n : ℕ) : (safeAt s₀ raw₀ r n).outputElmag = !(safeAt s₀ raw₀ r n).unlockedFlag := by
  induction n with
  | zero => rw [flag_zero]; rfl
  | succ n ih => rw [safeAt_succ]; exact SafeTilt.step_outputElmag _ ih

/-- **What a change of the flag is preceded by**: three samples of the new level, and before
them none. -/
theorem change_window (hne : (safeAt s₀ raw₀ r (n + 1)).unlockedFlag ≠ (safeAt s₀ raw₀ r n).unlockedFlag) :
    ∃ m, n = m + 1 ∧ Window (history r) 3 m (safeAt s₀ raw₀ r (n + 1)).unlockedFlag ∧
      ∀ l, m = l + 1 → ¬ Window (history r) 3 l (safeAt s₀ raw₀ r (n + 1)).unlockedFlag := by
  cases n with
  | zero =>
    rw [flag_succ, flag_zero, dAt_zero] at hne
    exact absurd rfl hne
  | succ m =>
    rw [flag_succ, flag_succ] at hne
    refine ⟨m, rfl, ?_, ?_⟩
    · rw [flag_succ]
      exact window_of_change hne
    · rintro l rfl hwin
      -- the window before would have loaded the level one edge earlier
      rw [flag_succ] at hwin
      exact hne (hwin.latest.unique (by omega) (output_latest l))

/-- **No change of the flag is preceded by six samples** of its new level. -/
theorem not_heldFor {L : ℕ} (hL : 6 ≤ L)
    (hne : (safeAt s₀ raw₀ r (n + 1)).unlockedFlag ≠ (safeAt s₀ raw₀ r n).unlockedFlag) :
    ¬ HeldFor r L n (safeAt s₀ raw₀ r (n + 1)).unlockedFlag := by
  rintro ⟨b, hend, hlate, hheld⟩
  obtain ⟨m, rfl, hwin, hno⟩ := change_window hne
  refine hno (m - 1) (by omega) fun i hi => ?_
  rcases Nat.eq_zero_or_pos i with rfl | hpos
  · -- the sample before the three is one of the `L`
    have hsample := hheld (m - 4 - b) (by omega)
    rw [show b + (m - 4 - b) = m - 4 by omega] at hsample
    rw [show m - 1 + 0 = m - 4 + 3 by omega, history_sample, hsample]
  · rw [show m - 1 + i = m + (i - 1) by omega]
    exact hwin (i - 1) (by omega)

/-- The filtered level is high only after three high samples. -/
theorem high_of_filtered {d₀ : Debounce} {clk₀ : Bool}
    (h : (dAt d₀ clk₀ raw₀ r n).debouncedInput = true) :
    ∃ j, r j = true ∧ r (j + 1) = true ∧ r (j + 2) = true := by
  cases n with
  | zero => rw [dAt_zero] at h; exact absurd h (by decide)
  | succ n =>
    have hlatest : Latest (history r) 3 (n + 3) (dAt d₀ clk₀ raw₀ r (n + 1)).debouncedInput :=
      output_latest n
    rw [h] at hlatest
    obtain ⟨m, -, hwin, -⟩ := hlatest
    have hfirst := hwin 0 (by omega)
    have hm : 3 ≤ m := by
      by_contra hlt
      rw [history, if_pos (by omega)] at hfirst
      exact absurd hfirst (by decide)
    obtain ⟨j, rfl⟩ : ∃ j, m = j + 3 := ⟨m - 3, by omega⟩
    exact ⟨j, hfirst, hwin 1 (by omega), hwin 2 (by omega)⟩

/-- Three high samples raise the flag. -/
theorem flag_of_high {j : ℕ} (h0 : r j = true) (h1 : r (j + 1) = true) (h2 : r (j + 2) = true) :
    (safeAt s₀ raw₀ r (j + 5)).unlockedFlag = true := by
  have hwin : Window (history r) 3 (j + 3) true := by
    intro i hi
    obtain rfl | rfl | rfl : i = 0 ∨ i = 1 ∨ i = 2 := by omega
    · exact h0
    · exact h1
    · exact h2
  rw [flag_succ]
  exact (output_latest (j + 3)).unique (by omega) hwin.latest

/-- **The 10 ms of the comment.** In every run from reset with `enable` at 1, for every waveform
of the knock line: the outputs change only after 500000 samples of the new level if and only if
no three samples in a row are high, and then they never change. -/
theorem documented_iff (s₀ : SafeTilt) (raw₀ : Bool) (r : ℕ → Bool) :
    FollowsAfter s₀ raw₀ r 500000 ↔ ∀ j, ¬ (r j = true ∧ r (j + 1) = true ∧ r (j + 2) = true) := by
  constructor
  · rintro hf j ⟨h0, h1, h2⟩
    -- the flag is low after the reset and high five edges after the first of the samples
    obtain ⟨e, -, he, hlow, hhigh⟩ := last_entry (P := fun n => (safeAt s₀ raw₀ r n).unlockedFlag = true)
      (Nat.zero_le (j + 5)) (by rw [flag_zero]; decide) (flag_of_high h0 h1 h2)
    have hne : (safeAt s₀ raw₀ r (e + 1)).unlockedFlag ≠ (safeAt s₀ raw₀ r e).unlockedFlag := by
      rw [hhigh (e + 1) (Nat.lt_succ_self e) he]
      exact Ne.symm hlow
    exact not_heldFor (by omega) hne ((hf e).1 hne)
  · intro hno
    have hlow : ∀ n, (safeAt s₀ raw₀ r n).unlockedFlag = false := by
      intro n
      cases n with
      | zero => exact flag_zero
      | succ n =>
        rw [flag_succ, ← Bool.not_eq_true]
        intro hhigh
        obtain ⟨j, hj⟩ := high_of_filtered hhigh
        exact hno j hj
    intro n
    rw [elmag_eq, elmag_eq, hlow, hlow]
    exact ⟨fun h => absurd rfl h, fun h => absurd rfl h⟩

/-- A knock of three samples, 60 ns, right after the reset. -/
def shortKnock (n : ℕ) : Bool := n < 3

/-- **A knock of 60 ns is not filtered out**: the flag rises four edges after its first sample. -/
theorem short_knock : (safeAt ⟨.cleared, true, false⟩ false shortKnock 5).unlockedFlag = true ∧
    (safeAt ⟨.cleared, true, false⟩ false shortKnock 4).unlockedFlag = false ∧
    ¬ FollowsAfter ⟨.cleared, true, false⟩ false shortKnock 500000 := by
  have hne : (safeAt ⟨.cleared, true, false⟩ false shortKnock (4 + 1)).unlockedFlag ≠
      (safeAt ⟨.cleared, true, false⟩ false shortKnock 4).unlockedFlag := by decide
  exact ⟨by decide, by decide, fun h => not_heldFor (by omega) hne ((h 4).1 hne)⟩

end BankVault
