import BankVault.Clocked.Divider
import BankVault.Rtl.Tone

/-!
# The writes `tonegen` can take

`fcount_max` is `fclk` divided by twice the captured value, and the doubling drops the top bit.
With only that bit set the divisor is 0; with a divisor above `fclk` the quotient is 0,
`fcount_max-1` is the greatest 32-bit value and `spkr` stops. For all other writes the limit
is at least 1, and the counter never wraps.

* `fits_iff`: the captured values whose divisor and quotient are not 0.
* `held_divides`: while such a value stands, the counter divides by the quotient.
* `tone_safe_iff`: the arithmetic is safe in a run if and only if it captures no other value.
* `tone_stops`: a value with the quotient 0 stops `spkr`.
-/

namespace BankVault

open Clocked

/-- `w` without its top bit is not 0, and at most half of `fclk`. -/
def Fits (fclk w : BitVec 32) : Prop := 0 < w.toNat % 2 ^ 31 ∧ 2 * (w.toNat % 2 ^ 31) ≤ fclk.toNat

instance (fclk w : BitVec 32) : Decidable (Fits fclk w) := inferInstanceAs (Decidable (_ ∧ _))

/-- How many rising edges there are from one toggle of `spkr` to the next at the captured value
`w`. -/
def halfPeriod (fclk w : BitVec 32) : ℕ := fclk.toNat / (2 * (w.toNat % 2 ^ 31))

namespace ToneGen

variable {fclk divX : BitVec 32} {t : ToneGen}

/-- The doubling drops the top bit. -/
theorem divisor_toNat : t.divisor.toNat = 2 * (t.captureWriteData.toNat % 2 ^ 31) := by
  unfold divisor
  rw [BitVec.toNat_mul]
  change 2 * t.captureWriteData.toNat % 2 ^ 32 = _
  omega

/-- `fcount_max` where the divisor is not 0. -/
theorem fcountMax_toNat (hw : t.captureWriteData ≠ 0) (hd : t.divisor ≠ 0) :
    (t.fcountMax fclk divX).toNat = halfPeriod fclk t.captureWriteData := by
  rw [fcountMax, if_pos hw, if_neg hd, BitVec.toNat_udiv, divisor_toNat, halfPeriod]

theorem divisor_ne_zero : t.divisor ≠ 0 ↔ 0 < t.captureWriteData.toNat % 2 ^ 31 := by
  rw [ne_eq, BitVec.toNat_eq, divisor_toNat]
  change ¬ 2 * _ = 0 ↔ _
  omega

/-- **The values with a safe quotient.** -/
theorem fits_iff (hw : t.captureWriteData ≠ 0) (divX : BitVec 32) :
    (t.divisor ≠ 0 ∧ 1 ≤ t.fcountMax fclk divX) ↔ Fits fclk t.captureWriteData := by
  unfold Fits
  rw [divisor_ne_zero]
  refine and_congr_right fun hpos => ?_
  rw [BitVec.le_def, fcountMax_toNat hw (divisor_ne_zero.2 hpos), halfPeriod]
  exact Nat.le_div_iff_mul_le (by omega) |>.trans (by change 1 * _ ≤ _ ↔ _; rw [Nat.one_mul])

end ToneGen

theorem Fits.halfPeriod_pos {fclk w : BitVec 32} (h : Fits fclk w) : 0 < halfPeriod fclk w := by
  have hpos := h.1
  exact Nat.div_pos h.2 (by omega)

theorem Fits.ne_zero {fclk w : BitVec 32} (h : Fits fclk w) : w ≠ 0 := by
  rintro rfl
  exact absurd h.1 (by decide)

/-- `fcount_max` for a value that fits. -/
theorem Fits.max {fclk : BitVec 32} {t : ToneGen} (h : Fits fclk t.captureWriteData) (divX : BitVec 32) :
    (t.fcountMax fclk divX).toNat = halfPeriod fclk t.captureWriteData :=
  ToneGen.fcountMax_toNat h.ne_zero (ToneGen.divisor_ne_zero.2 h.1)

/-! ### Runs -/

variable {fclk : BitVec 32} {t₀ : ToneGen} {es : ℕ → ToneIn}

theorem tAt_succ (n : ℕ) : tAt fclk t₀ es (n + 1) = (tAt fclk t₀ es n).cycle fclk (es n) := rfl

/-- **Every value captured in the run fits**, or is 0. -/
def FitsRun (fclk : BitVec 32) (t₀ : ToneGen) (es : ℕ → ToneIn) : Prop :=
  ∀ n, 0 < n → (tAt fclk t₀ es n).captureWriteData ≠ 0 → Fits fclk (tAt fclk t₀ es n).captureWriteData

/-- The limit is never 0: without a frequency it is the greatest 32-bit value. -/
theorem FitsRun.max_ne_zero (hf : FitsRun fclk t₀ es) {n : ℕ} (hn : 0 < n) (divX : BitVec 32) :
    (tAt fclk t₀ es n).fcountMax fclk divX ≠ 0 := by
  by_cases hw : (tAt fclk t₀ es n).captureWriteData = 0
  · unfold ToneGen.fcountMax
    rw [if_neg (not_not.2 hw)]
    decide
  · have hmax := (hf n hn hw).max divX
    have hpos := (hf n hn hw).halfPeriod_pos
    intro h0
    rw [h0] at hmax
    change 0 = _ at hmax
    omega

/-- **One cycle of the counter** in such a run. -/
theorem FitsRun.counts (hf : FitsRun fclk t₀ es) (hr : ToneResets es) {n : ℕ} (hn : 0 < n) :
    ((tAt fclk t₀ es (n + 1)).fcount.toNat =
      if ((tAt fclk t₀ es n).fcountMax fclk (es n).divX).toNat ≤ (tAt fclk t₀ es n).fcount.toNat then 1
      else (tAt fclk t₀ es n).fcount.toNat + 1) ∧
    (Toggles fclk t₀ es n ↔
      ((tAt fclk t₀ es n).fcountMax fclk (es n).divX).toNat ≤ (tAt fclk t₀ es n).fcount.toNat) :=
  ToneGen.cycle_counts (hr.low n hn) (hf.max_ne_zero hn _)

/-- The counter is at least 1 from the reset on. -/
theorem FitsRun.count_pos (hf : FitsRun fclk t₀ es) (hr : ToneResets es) {n : ℕ} (hn : 0 < n) :
    1 ≤ (tAt fclk t₀ es n).fcount.toNat := by
  induction n, hn using Nat.le_induction with
  | base =>
    rw [tAt_succ, ToneGen.cycle_fcount, ToneGen.posedgeClk_reset hr.high]
    exact Nat.le_refl 1
  | succ n hn ih =>
    rw [(hf.counts hr hn).1]
    split_ifs <;> omega

/-- **While a captured value stands**, the counter divides by its half period, and `spkr`
toggles where the counter fires. -/
theorem held_divides (hf : FitsRun fclk t₀ es) (hr : ToneResets es) {w : BitVec 32} {p q : ℕ}
    (hp : 0 < p) (hw : Fits fclk w) (hheld : Held fclk t₀ es w p q) :
    Divides (halfPeriod fclk w) (fun j => (tAt fclk t₀ es j).fcount.toNat) p q ∧
      ∀ j, p ≤ j → j < q → (Toggles fclk t₀ es j ↔ halfPeriod fclk w ≤ (tAt fclk t₀ es j).fcount.toNat) := by
  have hmax : ∀ j, p ≤ j → j < q →
      ((tAt fclk t₀ es j).fcountMax fclk (es j).divX).toNat = halfPeriod fclk w := by
    intro j h1 h2
    have hcap := hheld j h1 h2
    rw [← hcap] at hw ⊢
    exact hw.max _
  refine ⟨⟨hw.halfPeriod_pos, hf.count_pos hr hp, fun j h1 h2 => ?_⟩, fun j h1 h2 => ?_⟩
  · rw [← hmax j h1 h2]
    exact (hf.counts hr (by omega)).1
  · rw [← hmax j h1 h2]
    exact (hf.counts hr (by omega)).2

/-- **The arithmetic is safe** whenever a frequency is captured: the divisor is not 0,
`fcount_max` is at least 1, and `spkr` toggles within `fcount_max` rising edges that find the
value. -/
def SafeTone (fclk : BitVec 32) (t₀ : ToneGen) (es : ℕ → ToneIn) : Prop :=
  ∀ n, 0 < n → (tAt fclk t₀ es n).captureWriteData ≠ 0 →
    (tAt fclk t₀ es n).divisor ≠ 0 ∧
    1 ≤ (tAt fclk t₀ es n).fcountMax fclk (es n).divX ∧
    ∀ m, m = ((tAt fclk t₀ es n).fcountMax fclk (es n).divX).toNat →
      Held fclk t₀ es (tAt fclk t₀ es n).captureWriteData n (n + m) →
        ∃ j, n ≤ j ∧ j < n + m ∧ Toggles fclk t₀ es j

/-- **When `tonegen`'s arithmetic is safe.** In every run from reset, for every `fclk`, all
writes and whatever a division by 0 gives: if and only if every frequency captured, without
its top bit, is not 0 and at most half of `fclk`. -/
theorem tone_safe_iff (fclk : BitVec 32) (t₀ : ToneGen) (es : ℕ → ToneIn) (h : ToneResets es) :
    SafeTone fclk t₀ es ↔ FitsRun fclk t₀ es := by
  constructor
  · intro hs n hn hw
    obtain ⟨hd, hmax, -⟩ := hs n hn hw
    exact (ToneGen.fits_iff hw _).1 ⟨hd, hmax⟩
  · intro hf n hn hw
    have hfit := hf n hn hw
    obtain ⟨hd, hmax⟩ := (ToneGen.fits_iff hw (es n).divX).2 hfit
    refine ⟨hd, hmax, fun m hm hheld => ?_⟩
    obtain ⟨hdiv, htog⟩ := held_divides hf h hn hfit hheld
    rw [hfit.max _] at hm
    obtain ⟨j, h1, h2, hfire⟩ := hdiv.first (by omega)
    exact ⟨j, h1, by omega, (htog j h1 (by omega)).2 hfire⟩

/-- **A frequency above the range stops `spkr`** for as long as it stands. -/
theorem tone_stops (h : ToneResets es) {w : BitVec 32} (hw : 0 < w.toNat % 2 ^ 31)
    (hbig : fclk.toNat < 2 * (w.toNat % 2 ^ 31)) {p q : ℕ} (hp : 0 < p)
    (hheld : Held fclk t₀ es w p q) : ∀ j, p ≤ j → j < q → ¬ Toggles fclk t₀ es j := by
  intro j h1 h2 htog
  have hcap := hheld j h1 h2
  rw [← hcap] at hw hbig
  have hne : (tAt fclk t₀ es j).captureWriteData ≠ 0 := by
    intro h0
    rw [h0] at hw
    exact absurd hw (by decide)
  have hmax : (tAt fclk t₀ es j).fcountMax fclk (es j).divX = 0 := by
    apply BitVec.eq_of_toNat_eq
    rw [ToneGen.fcountMax_toNat hne (ToneGen.divisor_ne_zero.2 hw), halfPeriod]
    exact Nat.div_eq_of_lt hbig
  exact htog (ToneGen.cycle_stuck (h.low j (by omega)) hmax)

/-- A run that captures `w` in its first cycle and nothing else. -/
def writesOnce (w : BitVec 32) (n : ℕ) : ToneIn where
  reset := n == 0
  write := n == 0
  writedata := w
  divX := 0

theorem writesOnce_resets (w : BitVec 32) : ToneResets (writesOnce w) :=
  ⟨rfl, fun _ hn => beq_eq_false_iff_ne.2 (Nat.pos_iff_ne_zero.1 hn)⟩

/-- The value stands from then on. -/
theorem writesOnce_capture (w : BitVec 32) {n : ℕ} (hn : 0 < n) :
    (tAt fclk t₀ (writesOnce w) n).captureWriteData = w := by
  induction n, hn using Nat.le_induction with
  | base => rw [tAt_succ, ToneGen.cycle_capture]; rfl
  | succ n hn ih =>
    rw [tAt_succ, ToneGen.cycle_capture, ih]
    exact ite_self w

/-- `tonegen` with all its registers at 0. -/
def quietTone : ToneGen := ⟨0, 0, false⟩

theorem tone_safe_iff_once : SafeTone 50000000 quietTone (writesOnce 440) ↔
    FitsRun 50000000 quietTone (writesOnce 440) :=
  tone_safe_iff 50000000 quietTone (writesOnce 440) (writesOnce_resets 440)

/-- **Unsafe writes**, at 50 MHz: `32'h80000000` is doubled to the divisor 0; 25000001 makes
`fcount_max` 0, and `spkr` never toggles again. -/
theorem unsafe_writes :
    ((tAt 50000000 quietTone (writesOnce 0x80000000) 1).divisor = 0 ∧
      ¬ SafeTone 50000000 quietTone (writesOnce 0x80000000)) ∧
    ((tAt 50000000 quietTone (writesOnce 25000001) 1).fcountMax 50000000 0 = 0 ∧
      (∀ n, 0 < n → ¬ Toggles 50000000 quietTone (writesOnce 25000001) n) ∧
      ¬ SafeTone 50000000 quietTone (writesOnce 25000001)) := by
  have hdiv : (tAt 50000000 quietTone (writesOnce 0x80000000) 1).divisor = 0 := by decide
  have hmax : (tAt 50000000 quietTone (writesOnce 25000001) 1).fcountMax 50000000 0 = 0 := by decide
  refine ⟨⟨hdiv, fun hs => ?_⟩, hmax, fun n hn => ?_, fun hs => ?_⟩
  · exact (hs 1 (by decide) (by decide)).1 hdiv
  · exact tone_stops (writesOnce_resets _) (by decide) (by decide) hn
      (fun j h1 _ => writesOnce_capture _ (by omega)) n le_rfl (Nat.lt_succ_self n)
  · have hone := (hs 1 (by decide) (by decide)).2.1
    change 1 ≤ (tAt 50000000 quietTone (writesOnce 25000001) 1).fcountMax 50000000 0 at hone
    rw [hmax] at hone
    exact absurd hone (by decide)

end BankVault
