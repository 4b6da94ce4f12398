import BankVault.Proof.ToneRange

/-!
# The period of a tone

With all writes in the range, 0 or at most half of `fclk`, a captured frequency `w` sets the
limit `fclk / (2 w)`. A change of the limit finds the counter anywhere, also beyond the new
limit; then it fires at once, and so the first toggle is never later than one half period
after the change.

* `ToneRun.fits`: what a run in the range captures.
* `tone_period`: the toggles of `spkr` while a frequency stands.
-/

namespace BankVault

open Clocked

variable {fclk : BitVec 32} {t₀ : ToneGen} {es : ℕ → ToneIn}

/-- `w` is a frequency of the range, or 0. -/
def InRange (fclk w : BitVec 32) : Prop := w = 0 ∨ (1 ≤ w.toNat ∧ 2 * w.toNat ≤ fclk.toNat)

/-- **A run in the range**: it starts in reset with nothing captured, and every write is in the
range. -/
structure ToneRun (fclk : BitVec 32) (t₀ : ToneGen) (es : ℕ → ToneIn) : Prop where
  resets : ToneResets es
  start : t₀.captureWriteData = 0
  writes : ∀ n, (es n).write = true → InRange fclk (es n).writedata

/-- A frequency of the range has no top bit. -/
theorem InRange.low {w : BitVec 32} (h : InRange fclk w) : w.toNat % 2 ^ 31 = w.toNat := by
  rcases h with rfl | ⟨-, hle⟩
  · rfl
  · have hlt := fclk.isLt
    exact Nat.mod_eq_of_lt (by omega)

theorem InRange.fits {w : BitVec 32} (h : InRange fclk w) (hw : w ≠ 0) : Fits fclk w := by
  unfold Fits
  rw [h.low]
  exact h.resolve_left hw

/-- What stands in the capture register. -/
theorem ToneRun.captured (h : ToneRun fclk t₀ es) (n : ℕ) :
    InRange fclk (tAt fclk t₀ es n).captureWriteData := by
  induction n with
  | zero => exact Or.inl h.start
  | succ n ih =>
    rw [tAt_succ, ToneGen.cycle_capture]
    split_ifs with hwrite
    · exact h.writes n hwrite
    · exact ih

theorem ToneRun.fits (h : ToneRun fclk t₀ es) : FitsRun fclk t₀ es :=
  fun n _ hw => (h.captured n).fits hw

/-- **`tonegen` produces the half period asked for.** For every `fclk` and every run in the
range: the counter never wraps; and while the captured value is a frequency `w`, with
`M = fclk / (2 w)`, the first toggle comes within `M` rising edges wherever the counter stood,
the toggles after one of them are those a multiple of `M` later, and of `n` rising edges in a
row `n / M`, rounded down or up, toggle. -/
theorem tone_period (fclk : BitVec 32) (t₀ : ToneGen) (es : ℕ → ToneIn) (h : ToneRun fclk t₀ es) :
    (∀ n, 0 < n → 1 ≤ (tAt fclk t₀ es n).fcount.toNat ∧
      ((tAt fclk t₀ es (n + 1)).fcount.toNat = 1 ∨
        (tAt fclk t₀ es (n + 1)).fcount.toNat = (tAt fclk t₀ es n).fcount.toNat + 1)) ∧
    ∀ w p q M, w ≠ 0 → M = fclk.toNat / (2 * w.toNat) → 0 < p → p < q → Held fclk t₀ es w p q →
      (p + M ≤ q → ∃ j, p ≤ j ∧ j < p + M ∧ Toggles fclk t₀ es j) ∧
      (∀ i j, p ≤ i → i ≤ j → j < q → Toggles fclk t₀ es i → (Toggles fclk t₀ es j ↔ M ∣ j - i)) ∧
      ∀ a n, p ≤ a → a + n ≤ q →
        ((Finset.range n).filter fun k => Toggles fclk t₀ es (a + k)).card = n / M ∨
          ((Finset.range n).filter fun k => Toggles fclk t₀ es (a + k)).card = n ⌈/⌉ M := by
  refine ⟨fun n hn => ⟨h.fits.count_pos h.resets hn, ?_⟩, ?_⟩
  · rw [(h.fits.counts h.resets hn).1]
    split_ifs
    · exact Or.inl rfl
    · exact Or.inr rfl
  · intro w p q M hw hM hp hpq hheld
    have hrange : InRange fclk w := hheld p le_rfl hpq ▸ h.captured p
    have hhalf : halfPeriod fclk w = M := by rw [halfPeriod, hrange.low, hM]
    obtain ⟨hdiv, htog⟩ := held_divides h.fits h.resets hp (hrange.fits hw) hheld
    rw [hhalf] at hdiv htog
    refine ⟨fun hq => ?_, fun i j hi hij hj hti => ?_, fun a n ha hn => ?_⟩
    · obtain ⟨j, h1, h2, hfire⟩ := hdiv.first hq
      exact ⟨j, h1, h2, (htog j h1 (by omega)).2 hfire⟩
    · rw [htog j (by omega) hj]
      exact hdiv.next hi hij hj.le ((htog i hi (by omega)).1 hti)
    · have hfire : ∀ k ∈ Finset.range n, (Toggles fclk t₀ es (a + k) ↔ M ≤ (tAt fclk t₀ es (a + k)).fcount.toNat) := by
        intro k hk
        have hkn := Finset.mem_range.1 hk
        exact htog (a + k) (by omega) (by omega)
      rw [Finset.filter_congr hfire]
      exact hdiv.card ha hn

/-- At 100 Hz the frequency 5 toggles `spkr` at the tenth rising edge after the reset, and in
every ten rising edges once. -/
theorem tone_period_five : Toggles 100 quietTone (writesOnce 5) 10 ∧ Toggles 100 quietTone (writesOnce 5) 30 := by
  have hfive : InRange 100 5 := Or.inr ⟨by decide, by decide⟩
  have hrun : ToneRun 100 quietTone (writesOnce 5) := ⟨writesOnce_resets 5, rfl, fun _ _ => hfive⟩
  have hten : Toggles 100 quietTone (writesOnce 5) 10 := by decide +kernel
  have hheld : Held 100 quietTone (writesOnce 5) 5 1 31 := fun j h1 _ => writesOnce_capture 5 h1
  exact ⟨hten, (((tone_period 100 quietTone (writesOnce 5) hrun).2 5 1 31 10 (by decide) (by decide)
    (by decide) (by decide) hheld).2.1 10 30 (by decide) (by decide) (by decide) hten).2 (by decide)⟩

end BankVault
