import BankVault.Proof.AdcFrame
import BankVault.Proof.AdcEventRun

/-!
# The pulses of `ADC_SCK` between two publications

Event by event, `ADC_SCK` rises just after the edge of `clk` that enters `SCK_CYCLE`, at each
edge within it, and once more at the edge that leaves it, before the state register has
moved: thirteen times for the twelve cycles of a frame. The thirteenth edge writes bit 0 of
the shift register a second time, and that value is published.

* `events_inv`: the registers in every cycle of a run without resets.
* `frame_log`: what the rising edges between two publications write.
* `thirteen_pulses`: no two consecutive publications are twelve pulses apart.
-/

namespace BankVault

open Clocked AdcInterface

variable {a₀ : AdcInterface} {ps : ℕ → AdcPins} {n : ℕ}

/-- **The registers before the cycle at offset `p` of a frame**, from the first publication on:
the state register is still in `SCK_CYCLE` before the cycle that publishes. -/
structure EventAt (p : ℕ) (t : Traced) : Prop where
  control : At p t.adc
  gate : t.adc.sck = decide (p = 0 ∨ 5 ≤ p)
  count : p = 0 → t.adc.sckCount = 11

/-- What the rising edge of `ADC_SCK` in the cycle at offset `p` writes, if there is one. -/
def written (p : ℕ) (sdo : Bool) : List (ℕ × Bool) :=
  if p = 0 then [(0, sdo)] else if 4 ≤ p then [(15 - p, sdo)] else []

/-- The first cycle publishes the initial value; it has no pulse. -/
theorem event_first (h : a₀.PowerUp) (hr : (ps 0).resetN = true) :
    EventAt 1 (eAt a₀ ps 1) ∧ (eAt a₀ ps 1).log = [] := by
  have hn : ¬ (Traced.mk a₀ []).adc.nextState = sSckCycle := by
    change ¬ a₀.nextState = sSckCycle
    rw [h.nextState]; decide
  have hcyc := cycle_clean (t := ⟨a₀, []⟩) hr (Or.inl (sck_start h))
  rw [if_neg hn] at hcyc
  change eAt a₀ ps 1 = _ at hcyc
  rw [hcyc]
  have hat : At 1 (a₀.cycle (ps 0).sdo (ps 0).chan) := At.cycle (by omega) h.at_zero
  refine ⟨⟨hat, ?_, fun h0 => absurd h0 (by omega)⟩, rfl⟩
  change (a₀.cycle (ps 0).sdo (ps 0).chan).sck = false
  rw [cycle_reset h.at_zero]
  rfl

/-- **One cycle of the frame**, and what its rising edge writes. -/
theorem EventAt.next {p : ℕ} {t : Traced} {pins : AdcPins} (hp : p < 16) (hr : pins.resetN = true)
    (h : EventAt p t) : EventAt ((p + 1) % 16) (adcEvents.cycle pins t) ∧
      (adcEvents.cycle pins t).log = t.log ++ written p pins.sdo ∧
      ((adcEvents.cycle pins t).adc.currentState = sReset ↔ p = 0) := by
  obtain ⟨hat, hgate, hcount⟩ := h
  by_cases h0 : p = 0
  · -- the cycle that leaves `SCK_CYCLE`
    subst h0
    have hidx : t.adc.bitIndex = 0 := by rw [bitIndex, hcount rfl]; rfl
    rw [cycle_exit hr hgate hat.1, hidx]
    exact ⟨⟨⟨rfl, rfl, hat.2, rfl⟩, rfl, fun h1 => absurd h1 (by decide)⟩, rfl, iff_of_true rfl rfl⟩
  · obtain ⟨k, hk⟩ | hk : (∃ k, p = k + 4) ∨ p ≤ 3 := by
      rcases Nat.lt_or_ge 3 p with h4 | h4
      · exact Or.inl ⟨p - 4, by omega⟩
      · exact Or.inr h4
    · -- a cycle in `SCK_CYCLE`
      subst hk
      have hnext : At ((k + 4 + 1) % 16) (t.adc.cycle pins.sdo pins.chan) := At.cycle hp hat
      rw [cycle_clean hr (Or.inr hat.1)]
      refine ⟨⟨hnext, ?_, fun h1 => ?_⟩, ?_, ?_⟩
      · change (t.adc.cycle pins.sdo pins.chan).sck = _
        rw [cycle_shift hat, decide_eq_true (by omega)]
        rfl
      · obtain rfl : k = 11 := by omega
        change (t.adc.cycle pins.sdo pins.chan).sckCount = 11
        rw [cycle_shift hat]
        exact BitVec.eq_of_toNat_eq hat.2.2.2
      · rw [if_pos hat.1, written, if_neg (by omega), if_pos (by omega), bitIndex, hat.2.2.2,
          show 15 - (k + 4) = 11 - k by omega]
      · change (t.adc.cycle pins.sdo pins.chan).currentState = sReset ↔ _
        rw [cycle_shift hat]
        exact iff_of_false (by decide : ¬ sSckCycle = sReset) h0
    · -- a cycle in `ARM`
      have harm : t.adc.nextState = sArm := by
        obtain rfl | rfl | rfl : p = 1 ∨ p = 2 ∨ p = 3 := by omega
        · exact hat.1
        · exact hat.1
        · exact hat.1
      have hlow : t.adc.sck = false := by rw [hgate, decide_eq_false (by omega)]
      have hnext : At ((p + 1) % 16) (t.adc.cycle pins.sdo pins.chan) := At.cycle hp hat
      have hstate : (t.adc.cycle pins.sdo pins.chan).currentState = sArm := by
        obtain rfl | rfl | rfl : p = 1 ∨ p = 2 ∨ p = 3 := by omega
        · rw [cycle_raise hat.1 hat.2.1]
        · rw [cycle_lower hat]
        · rw [cycle_leave hat]
      rw [cycle_clean hr (Or.inl hlow)]
      refine ⟨⟨hnext, ?_, fun h1 => by omega⟩, ?_, ?_⟩
      · change ((t.adc.cycle pins.sdo pins.chan).currentState == sSckCycle) = _
        rw [hstate, decide_eq_false (by omega)]
        rfl
      · rw [harm, if_neg (by decide), written, if_neg h0, if_neg (by omega)]
      · change (t.adc.cycle pins.sdo pins.chan).currentState = sReset ↔ _
        rw [hstate]
        exact iff_of_false (by decide) h0

section Free

variable (hr : ∀ n, (ps n).resetN = true)
include hr

/-- **The registers in every cycle** from the first publication on. -/
theorem events_inv (h : a₀.PowerUp) (n : ℕ) (hn : 1 ≤ n) : EventAt (n % 16) (eAt a₀ ps n) := by
  induction n, hn using Nat.le_induction with
  | base => exact (event_first h (hr 0)).1
  | succ n hn ih =>
    have hnext := (ih.next (Nat.mod_lt n (by omega)) (hr n)).1
    rwa [Nat.mod_add_mod, ← eAt_succ] at hnext

/-- What a cycle adds to the log. -/
theorem log_succ (h : a₀.PowerUp) (hn : 1 ≤ n) :
    (eAt a₀ ps (n + 1)).log = (eAt a₀ ps n).log ++ written (n % 16) (ps n).sdo :=
  ((events_inv hr h n hn).next (Nat.mod_lt n (by omega)) (hr n)).2.1

/-- The log after the first `k` pulses of frame `f`. -/
theorem log_shift (h : a₀.PowerUp) (f : ℕ) : ∀ k, k ≤ 12 → (eAt a₀ ps (16 * f + 4 + k)).log =
    (eAt a₀ ps (16 * f + 1)).log ++ (List.range k).map fun i => (11 - i, (ps (16 * f + 4 + i)).sdo) := by
  intro k
  induction k with
  | zero =>
    intro _
    have hstep : ∀ i, i < 3 → (eAt a₀ ps (16 * f + 1 + i + 1)).log = (eAt a₀ ps (16 * f + 1 + i)).log := by
      intro i hi
      rw [log_succ hr h (by omega), written, if_neg (by omega), if_neg (by omega), List.append_nil]
    rw [List.range_zero, List.map_nil, List.append_nil]
    exact (hstep 2 (by omega)).trans ((hstep 1 (by omega)).trans (hstep 0 (by omega)))
  | succ k ih =>
    intro hk
    rw [← Nat.add_assoc, log_succ hr h (by omega), ih (by omega), List.range_succ, List.map_append,
      ← List.append_assoc, written, if_neg (by omega), if_pos (by omega)]
    congr 3
    rw [show 15 - (16 * f + 4 + k) % 16 = 11 - k by omega]

end Free

/-- What the rising edges of `ADC_SCK` write between the publication in cycle `p` and the one
in cycle `q`. -/
def edgesBetween (a₀ : AdcInterface) (ps : ℕ → AdcPins) (p q : ℕ) : List (ℕ × Bool) :=
  (eAt a₀ ps (q + 1)).log.drop (eAt a₀ ps (p + 1)).log.length

/-- The low phase of cycle `n` publishes the shift register. -/
def Publishes (a₀ : AdcInterface) (ps : ℕ → AdcPins) (n : ℕ) : Prop :=
  (eAt a₀ ps (n + 1)).adc.currentState = sReset

/-- Cycles `p` and `q` publish, and no cycle in between does. -/
def NextPublication (a₀ : AdcInterface) (ps : ℕ → AdcPins) (p q : ℕ) : Prop :=
  p < q ∧ Publishes a₀ ps p ∧ Publishes a₀ ps q ∧ ∀ j, p < j → j < q → ¬ Publishes a₀ ps j

/-- **Twelve pulses**: `ADC_SCK` rises twelve times between the two publications, each bit of
the shift register is written once, and bit 0 of the published result is the `ADC_SDO` of the
twelfth rise. -/
def TwelvePulses (a₀ : AdcInterface) (ps : ℕ → AdcPins) (p q : ℕ) : Prop :=
  (edgesBetween a₀ ps p q).length = 12 ∧
  (∀ i, i < 12 → ((edgesBetween a₀ ps p q).map Prod.fst).count i = 1) ∧
  ∀ w, (edgesBetween a₀ ps p q)[11]? = some w → (eAt a₀ ps (q + 1)).adc.result.getLsbD 0 = w.2

/-- The log of frame `f`: bits 11 to 0 in turn, and bit 0 once more. -/
def frameLog (ps : ℕ → AdcPins) (f : ℕ) : List (ℕ × Bool) :=
  ((List.range 12).map fun i => (11 - i, (ps (16 * f + 4 + i)).sdo)) ++ [(0, (ps (16 * f + 16)).sdo)]

section Free

variable (hr : ∀ n, (ps n).resetN = true)
include hr

/-- A publication every sixteen cycles. -/
theorem publishes_iff (h : a₀.PowerUp) (n : ℕ) : Publishes a₀ ps n ↔ n % 16 = 0 := by
  rcases Nat.eq_zero_or_pos n with rfl | hpos
  · refine iff_of_true ?_ rfl
    change (adcEvents.cycle (ps 0) ⟨a₀, []⟩).adc.currentState = sReset
    rw [cycle_clean (hr 0) (Or.inl (sck_start h)), cycle_reset h.at_zero]
  · exact ((events_inv hr h n hpos).next (Nat.mod_lt n (by omega)) (hr n)).2.2

/-- Consecutive publications are one frame apart. -/
theorem NextPublication.frame (h : a₀.PowerUp) {p q : ℕ} (hpq : NextPublication a₀ ps p q) :
    ∃ f, p = 16 * f ∧ q = 16 * f + 16 := by
  obtain ⟨hlt, hp, hq, hno⟩ := hpq
  rw [publishes_iff hr h] at hp hq
  refine ⟨p / 16, by omega, ?_⟩
  by_contra hne
  exact hno (p + 16) (by omega) (by omega) ((publishes_iff hr h _).2 (by omega))

/-- **What the rising edges of a frame write**: twelve bits, and bit 0 once more. -/
theorem frame_log (h : a₀.PowerUp) (f : ℕ) :
    edgesBetween a₀ ps (16 * f) (16 * f + 16) = frameLog ps f := by
  have hlog : (eAt a₀ ps (16 * f + 16 + 1)).log = (eAt a₀ ps (16 * f + 1)).log ++ frameLog ps f := by
    rw [log_succ hr h (by omega), show 16 * f + 16 = 16 * f + 4 + 12 by omega, log_shift hr h f 12 le_rfl,
      List.append_assoc, written, if_pos (by omega)]
    rfl
  rw [edgesBetween, hlog, List.drop_left]

/-- Bit 0 of the published result is the last one written. -/
theorem result_last (h : a₀.PowerUp) (f : ℕ) :
    (eAt a₀ ps (16 * f + 16 + 1)).adc.result.getLsbD 0 = (ps (16 * f + 16)).sdo := by
  have hev := events_inv hr h (16 * f + 16) (by omega)
  rw [show (16 * f + 16) % 16 = 0 by omega] at hev
  have hidx : (eAt a₀ ps (16 * f + 16)).adc.bitIndex = 0 := by rw [bitIndex, hev.count rfl]; rfl
  rw [eAt_succ, cycle_exit (hr _) hev.gate hev.control.1, hidx, getLsbD_setBit _ (by omega), if_pos rfl]

end Free

/-- **Thirteen pulses.** In every run without resets from power-up, event by event, and for
every bit stream: between any two consecutive publications `ADC_SCK` rises thirteen times and
bit 0 is written twice, and the value published is that of the thirteenth rise; so no two
publications are twelve pulses apart. -/
theorem thirteen_pulses (a₀ : AdcInterface) (ps : ℕ → AdcPins) (h : a₀.PowerUp)
    (hr : ∀ n, (ps n).resetN = true) :
    (∀ f, NextPublication a₀ ps (16 * f) (16 * f + 16)) ∧
    ∀ p q, NextPublication a₀ ps p q →
      (edgesBetween a₀ ps p q).length = 13 ∧ ((edgesBetween a₀ ps p q).map Prod.fst).count 0 = 2 ∧
      (eAt a₀ ps (q + 1)).adc.result.getLsbD 0 = (ps q).sdo ∧
      (edgesBetween a₀ ps p q)[12]? = some (0, (ps q).sdo) ∧ ¬ TwelvePulses a₀ ps p q := by
  refine ⟨fun f => ⟨by omega, ?_, ?_, fun j h1 h2 hj => ?_⟩, fun p q hpq => ?_⟩
  · exact (publishes_iff hr h _).2 (by omega)
  · exact (publishes_iff hr h _).2 (by omega)
  · have := (publishes_iff hr h j).1 hj; omega
  · obtain ⟨f, rfl, rfl⟩ := hpq.frame hr h
    have hlog := frame_log hr h f
    have hlen : (edgesBetween a₀ ps (16 * f) (16 * f + 16)).length = 13 := by rw [hlog]; rfl
    refine ⟨hlen, by rw [hlog]; rfl, result_last hr h f, by rw [hlog]; rfl, fun h12 => ?_⟩
    exact absurd (hlen.symm.trans h12.1) (by decide)

/-- An ADC that shows 1 up to the twelfth rise of a frame and 0 at the thirteenth. -/
def lateZero (n : ℕ) : AdcPins where
  resetN := true
  sdo := n % 16 ≠ 0
  chan := 0

theorem thirteen_pulses_lateZero : ¬ TwelvePulses quietAdc lateZero 0 16 :=
  ((thirteen_pulses quietAdc lateZero quietAdc_powerUp fun _ => rfl).2 0 16
    ((thirteen_pulses quietAdc lateZero quietAdc_powerUp fun _ => rfl).1 0)).2.2.2.2

/-- **The last bit is lost**: with `lateZero` the first frame has thirteen rising edges, and its
result ends in 0 although the twelve bits of the frame are ones. -/
theorem last_bit_lost : (edgesBetween quietAdc lateZero 0 16).length = 13 ∧
    (edgesBetween quietAdc lateZero 0 16)[11]? = some (0, true) ∧
    (eAt quietAdc lateZero 17).adc.result = 0xffe ∧ ¬ TwelvePulses quietAdc lateZero 0 16 := by
  have hlen : (edgesBetween quietAdc lateZero 0 16).length = 13 := by decide +kernel
  refine ⟨hlen, by decide +kernel, by decide +kernel, fun h12 => ?_⟩
  exact absurd (hlen.symm.trans h12.1) (by decide)

end BankVault
