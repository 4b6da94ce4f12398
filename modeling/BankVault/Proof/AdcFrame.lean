import BankVault.Proof.AdcPhase
import Mathlib.Data.Finset.Card

/-!
# The frames of a run without resets

Without a reset the phase is the cycle number modulo 16, so the run is cut into frames of
sixteen cycles: one in `RESET`, three in `ARM` with the pulse of `ADC_CONVST`, twelve pulses of
`ADC_SCK`. The bits of a frame are published in the first cycle of the next one.

* `result_kept`: what is published stays until the next publication.
* `frames_correct`: the law of the frames, for every run and every bit stream.
-/

namespace BankVault

open Clocked AdcInterface

variable {a₀ : AdcInterface} {ps : ℕ → AdcPins}

/-- The index of the serial registers stays within their bits. -/
theorem sckCount_le (h : a₀.PowerUp) (n : ℕ) : (adcAt a₀ ps n).sckCount ≤ 11 := by
  have hstep : ∀ (pins : AdcPins) (a : AdcInterface), a.sckCount ≤ 11 → (pinCycle pins a).sckCount ≤ 11 := by
    intro pins a ha
    have hhigh : (a.high pins.resetN pins.sdo).sckCount = a.sckCount := by
      unfold high; dsimp only; split_ifs <;> rfl
    change ((a.high pins.resetN pins.sdo).negedgeClk).sckCount ≤ 11
    generalize a.high pins.resetN pins.sdo = b at hhigh ⊢
    have hnext : b.negedgeClk.sckCount = b.sckCount ∨ b.negedgeClk.sckCount = 0 ∨
        (b.sckCount < 11 ∧ b.negedgeClk.sckCount = b.sckCount + 1) := by
      unfold negedgeClk
      split_ifs <;> simp_all
    bv_omega
  exact inv_from (I := fun a : AdcInterface => a.sckCount ≤ 11) hstep (k := 0)
    (by change a₀.sckCount ≤ 11; rw [h.sckCount]; decide) n (Nat.zero_le n)

/-- **What is published stays** for the rest of the frame. -/
theorem result_kept (h : At 0 a₀) {m : ℕ} (hm : InReset ps m) (harm : ArmsAfter ps m)
    (hr : ∀ i, i < 12 → (ps (m + 4 + i)).resetN = true) :
    ∀ n, m < n → n ≤ m + 16 → (adcAt a₀ ps n).result = (adcAt a₀ ps m).resultReg := by
  intro n hmn hn
  have hlead := lead_data h hm harm
  by_cases h4 : n ≤ m + 4
  · obtain ⟨i, rfl⟩ : ∃ i, n = m + 1 + i := ⟨n - m - 1, by omega⟩
    exact (hlead i (by omega)).2.1
  · obtain ⟨k, rfl⟩ : ∃ k, n = m + 4 + k := ⟨n - m - 4, by omega⟩
    have hshift := shift_run h (lead_out harm) k (by omega) fun i hi => hr i (by omega)
    exact hshift.2.1.trans (hlead 3 le_rfl).2.1

/-- **The law of the frames.** Frame `f` is cycles `16 f` to `16 f + 15`. -/
structure FrameLaw (a₀ : AdcInterface) (ps : ℕ → AdcPins) : Prop where
  convst : ∀ n, (adcAt a₀ ps (n + 1)).convst = true ↔ n % 16 = 1
  sck : ∀ n, SckPulse a₀ ps n ↔ 4 ≤ n % 16
  oneConvst : ∀ f, ((Finset.range 16).filter fun p => ConvstRise a₀ ps (16 * f + p)).card = 1
  twelveSck : ∀ f, ((Finset.range 16).filter fun p => SckPulse a₀ ps (16 * f + p)).card = 12
  index : ∀ n, (adcAt a₀ ps n).sckCount ≤ 11
  initial : ∀ n, n ≤ 16 → (adcAt a₀ ps n).result = 0
  result : ∀ f n, 16 * (f + 1) < n → n ≤ 16 * (f + 2) → ∀ i, i < 12 →
    (adcAt a₀ ps n).result.getLsbD (11 - i) = (ps (16 * f + 4 + i)).sdo
  leading : ∀ f, (adcAt a₀ ps (16 * (f + 1) + 4)).sdi =
    (commandWord (ps (16 * f + 15)).chan).getLsbD 0
  command : ∀ f c, (∀ i, i < 12 → (ps (16 * (f + 1) + 4 + i)).chan = c) →
    (List.range 6).map (fun i => (adcAt a₀ ps (16 * (f + 1) + 4 + i)).sdi) =
      [true, c.getLsbD 0, c.getLsbD 2, c.getLsbD 1, true, false]

section Free

variable (hr : ∀ n, (ps n).resetN = true)
include hr

/-- Without resets the phase is the cycle number. -/
theorem adcPhase_free (n : ℕ) : adcPhase ps n = n % 16 := phase_go n fun i _ => hr i

/-- Every frame starts with the cycle in `RESET` and the three in `ARM`. -/
theorem lead_free (f : ℕ) : InReset ps (16 * f) ∧ ArmsAfter ps (16 * f) := by
  refine ⟨Or.inr ?_, fun _ hi => ⟨?_, hr _⟩⟩
  · rw [adcPhase_free hr]; omega
  · rw [adcPhase_free hr]; omega

/-- The twelve pulses of frame `f`. -/
theorem shift_free (h : At 0 a₀) (f : ℕ) {k : ℕ} (hk : k ≤ 12) :
    (∀ i, i < 12 → (adcAt a₀ ps (16 * f + 4 + k)).resultReg.getLsbD (11 - i) =
      if i < k then (ps (16 * f + 4 + i)).sdo
      else (adcAt a₀ ps (16 * f + 4)).resultReg.getLsbD (11 - i)) ∧
    (adcAt a₀ ps (16 * f + 4 + k)).result = (adcAt a₀ ps (16 * f + 4)).result ∧
    (∀ j, k = j + 1 → (adcAt a₀ ps (16 * f + 4 + k)).sdi =
      (commandWord (ps (16 * f + 4 + j)).chan).getLsbD (11 - j)) :=
  shift_run h (by rw [adcPhase_free hr]; omega) k hk fun i _ => hr _

/-- What is published in the first cycle of frame `f`, through the frame. -/
theorem result_free (h : At 0 a₀) (f : ℕ) : ∀ n, 16 * f < n → n ≤ 16 * f + 16 →
    (adcAt a₀ ps n).result = (adcAt a₀ ps (16 * f)).resultReg :=
  result_kept h (lead_free hr f).1 (lead_free hr f).2 fun _ _ => hr _

/-- `ADC_CONVST` is high after the first cycle in `ARM` only. -/
theorem convst_free (h : At 0 a₀) (n : ℕ) : (adcAt a₀ ps (n + 1)).convst = true ↔ n % 16 = 1 := by
  have hp := adcPhase_free hr n
  rcases in_cases ps n with hn | hn | hn
  · have h0 : adcPhase ps n = 0 := hn.resolve_left (by simp [hr])
    have hat := adc_phase ps h n
    rw [h0] at hat
    rw [run_reset h hn, ← hp, h0]
    change (adcAt a₀ ps n).convst = true ↔ _
    rw [hat.2]
    simp
  · rw [(run_arm h hn).2.2.2.2, hp]
  · have hlow := (run_shift h (k := adcPhase ps n - 4) hn.1 (by have := hn.2; omega)).2.2.2.2.1
    rw [hlow, ← hp]
    have := hn.2
    constructor
    · intro hc; exact absurd hc (by decide)
    · intro h1; omega

/-- `ADC_CONVST` rises in the second cycle of a frame only. -/
theorem convstRise_free (h : At 0 a₀) (f : ℕ) {p : ℕ} (hp : p < 16) :
    ConvstRise a₀ ps (16 * f + p) ↔ p = 1 := by
  have hnext := convst_free hr h (16 * f + p)
  unfold ConvstRise
  rw [hnext]
  constructor
  · rintro ⟨-, h1⟩; omega
  · rintro rfl
    refine ⟨?_, by omega⟩
    have hbefore := convst_free hr h (16 * f)
    rw [← Bool.not_eq_true, hbefore]
    omega

/-- `ADC_SCK` has a pulse in the last twelve cycles of a frame. -/
theorem sckPulse_free (h : At 0 a₀) (n : ℕ) : SckPulse a₀ ps n ↔ 4 ≤ n % 16 := by
  rw [sckPulse_iff h, InSck, adcPhase_free hr]
  exact and_iff_right (hr n)

/-- The first pulse of a frame finds the bit that the last one of the frame before left on
`ADC_SDI`. -/
theorem leading_free (h : At 0 a₀) (f : ℕ) : (adcAt a₀ ps (16 * (f + 1) + 4)).sdi =
    (commandWord (ps (16 * f + 15)).chan).getLsbD 0 := by
  have hlead : (adcAt a₀ ps (16 * (f + 1) + 4)).sdi = (adcAt a₀ ps (16 * (f + 1))).sdi :=
    (lead_data h (lead_free hr (f + 1)).1 (lead_free hr (f + 1)).2 3 le_rfl).2.2
  exact hlead.trans ((shift_free hr h f le_rfl).2.2 11 rfl)

end Free

/-- **The frames of `adcinterface`.** For every run without resets from power-up, every bit
stream and every stream of channels: one pulse of `ADC_CONVST` and then twelve of `ADC_SCK` in
each frame, the index within its bits, the result of a frame published at its end and nowhere
else, and the command of the channel on `ADC_SDI`, one bit behind. -/
theorem frames_correct (a₀ : AdcInterface) (ps : ℕ → AdcPins) (h : a₀.PowerUp)
    (hr : ∀ n, (ps n).resetN = true) : FrameLaw a₀ ps := by
  refine
    { convst := convst_free hr h.at_zero
      sck := sckPulse_free hr h.at_zero
      oneConvst := fun f => ?_
      twelveSck := fun f => ?_
      index := sckCount_le h
      initial := fun n hn => ?_
      result := fun f n h1 h2 i hi => ?_
      leading := leading_free hr h.at_zero
      command := fun f c hc => ?_ }
  · rw [Finset.filter_congr fun p hp => convstRise_free hr h.at_zero f (Finset.mem_range.1 hp)]
    decide
  · have hcount : ∀ p ∈ Finset.range 16, (SckPulse a₀ ps (16 * f + p) ↔ 4 ≤ p) := by
      intro p hp
      have := Finset.mem_range.1 hp
      rw [sckPulse_free hr h.at_zero]; omega
    rw [Finset.filter_congr hcount]
    decide
  · rcases Nat.eq_zero_or_pos n with rfl | hpos
    · exact h.result
    · rw [result_free hr h.at_zero 0 n hpos hn]
      exact h.resultReg
  · rw [result_free hr h.at_zero (f + 1) n h1 (by omega)]
    have hbits := (shift_free hr h.at_zero f le_rfl).1 i hi
    rw [if_pos hi] at hbits
    exact hbits
  · have h0 : (adcAt a₀ ps (16 * (f + 1) + 4 + 0)).sdi = true :=
      (leading_free hr h.at_zero f).trans (commandWord_last _)
    refine command_list (c := fun _ => c) h0 fun j hj => ?_
    rw [(shift_free hr h.at_zero (f + 1) (by omega)).2.2 j rfl, hc j (by omega)]

/-- The interface at power-up. -/
def quietAdc : AdcInterface where
  currentState := 0
  nextState := 0
  resultReg := 0
  armFlag := false
  sckCount := 0
  convst := false
  result := 0
  sdi := false

theorem quietAdc_powerUp : quietAdc.PowerUp := ⟨rfl, rfl, rfl, rfl, rfl, rfl, rfl⟩

theorem frames_correct_quietAdc : FrameLaw quietAdc fun _ => ⟨true, true, 1⟩ :=
  frames_correct quietAdc (fun _ => ⟨true, true, 1⟩) quietAdc_powerUp fun _ => rfl

end BankVault
