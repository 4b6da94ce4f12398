import BankVault.Proof.AdcFrame
import BankVault.Rtl.Board

/-!
# Storing the results

`bankVault`'s channel block stores the published result at the rising edge of `clk` that finds
`ADC_CONVST` high, and switches the channel there. `ADC_CONVST` is set and cleared at falling
edges, one cycle apart, so in each frame exactly one rising edge finds it high: the one of
the frame's third cycle, after the publication and before the first pulse of `ADC_SCK`.

* `stores_iff`: the store of each frame, and the register it goes to.
* `stored_once`: no result is lost, stored twice or stored while it changes.
-/

namespace BankVault

open Clocked AdcInterface

/-- One reset-free cycle of the channel block and `adcinterface`. -/
def Axes.cycle (sdo : Bool) (s : Axes) : Axes := (s.high true sdo).low

/-- The channel block and `adcinterface` after `n` cycles on the bit stream `sdo`. -/
def xAt (s₀ : Axes) (sdo : ℕ → Bool) (n : ℕ) : Axes := stAt Axes.cycle s₀ sdo n

/-- The next rising edge of `clk` stores the result for axis `a`. -/
def Axes.Stores (s : Axes) (a : Axis) : Prop := s.adcChan = a.channel ∧ s.adc.convst = true

instance (s : Axes) (a : Axis) : Decidable (s.Stores a) := inferInstanceAs (Decidable (_ ∧ _))

/-- The channel before the toggle of frame `f`: `adc_chan` starts at `Y_CHANNEL`. -/
def chanOf (f : ℕ) : BitVec 4 := if f % 2 = 0 then yChannel else xChannel

/-- The axis of the store in frame `f`. -/
def axisOf (f : ℕ) : Axis := if f % 2 = 0 then .y else .x

section Block

variable {s : Axes}

/-- The channel block rests unless `ADC_CONVST` is high. -/
theorem channelBlock_rest (h : s.adc.convst = false) : s.channelBlock = s := by
  simp [Axes.channelBlock, h]

/-- At the edge that finds `ADC_CONVST` high the channel toggles. -/
theorem channelBlock_toggle {f : ℕ} (h : s.adc.convst = true) (hc : s.adcChan = chanOf f) :
    s.channelBlock.adcChan = chanOf (f + 1) := by
  unfold Axes.channelBlock
  rcases Nat.mod_two_eq_zero_or_one f with hf | hf
  · have hy : s.adcChan = yChannel := by rw [hc, chanOf, if_pos hf]
    have hx : chanOf (f + 1) = xChannel := by rw [chanOf, if_neg (by omega)]
    rw [if_neg (fun hx' => absurd (hy.symm.trans hx'.1) (by decide)), if_pos ⟨hy, h⟩, hx]
    change Axes.setChan0 s.adcChan true = xChannel
    rw [hy]; decide
  · have hx : s.adcChan = xChannel := by rw [hc, chanOf, if_neg (by omega)]
    have hy : chanOf (f + 1) = yChannel := by rw [chanOf, if_pos (by omega)]
    rw [if_pos ⟨hx, h⟩, hy]
    change Axes.setChan0 s.adcChan false = yChannel
    rw [hx]; decide

/-- **What a cycle stores**: the published result, in the register of the current channel;
the other register is kept. -/
theorem cycle_value (a : Axis) (sdo : Bool) :
    (s.Stores a → (s.cycle sdo).value a = s.adc.result) ∧
      (¬ s.Stores a → (s.cycle sdo).value a = s.value a) := by
  have hval : (s.cycle sdo).value a = s.channelBlock.value a := by
    cases a <;> rfl
  rw [hval]
  unfold Axes.Stores Axes.channelBlock Axis.channel Axes.value
  cases a with
  | x =>
    refine ⟨fun h => by rw [if_pos h], fun h => ?_⟩
    rw [if_neg h]; split_ifs <;> rfl
  | y =>
    have hxy : s.adcChan = yChannel → s.adcChan ≠ xChannel := fun h => by rw [h]; decide
    refine ⟨fun h => ?_, fun h => ?_⟩
    · rw [if_neg fun hx => hxy h.1 hx.1, if_pos h]
    · split_ifs <;> rfl

theorem chanOf_succ_ne (f : ℕ) : chanOf (f + 1) ≠ chanOf f := by
  unfold chanOf
  rcases Nat.mod_two_eq_zero_or_one f with hf | hf
  · rw [if_neg (by omega), if_pos hf]; decide
  · rw [if_pos (by omega), if_neg (by omega)]; decide

/-- The channel of a frame belongs to one axis. -/
theorem chanOf_eq_channel {f : ℕ} {a : Axis} : chanOf f = a.channel ↔ a = axisOf f := by
  unfold chanOf axisOf
  split_ifs <;> cases a <;> decide

end Block

/-! ### Runs -/

variable {s₀ : Axes} {sdo : ℕ → Bool}

theorem xAt_succ (n : ℕ) : xAt s₀ sdo (n + 1) = (xAt s₀ sdo n).cycle (sdo n) := rfl

/-- The pins of `adcinterface` in a run of both blocks. -/
def xPins (s₀ : Axes) (sdo : ℕ → Bool) (n : ℕ) : AdcPins where
  resetN := true
  sdo := sdo n
  chan := (xAt s₀ sdo n).channelBlock.adcChan.setWidth 3

/-- The interface in a run of both blocks is a run of its own. -/
theorem xAt_adc (n : ℕ) : (xAt s₀ sdo n).adc = adcAt s₀.adc (xPins s₀ sdo) n := by
  induction n with
  | zero => rfl
  | succ n ih => rw [adcAt_succ, ← ih]; rfl

theorem xPins_resetN (n : ℕ) : (xPins s₀ sdo n).resetN = true := rfl

theorem Axes.PowerUp.at_zero {s : Axes} (h : s.PowerUp) : At 0 s.adc := ⟨h.nextState, h.convst⟩

/-- `ADC_CONVST` is high before the third cycle of each frame only. -/
theorem convst_iff (sdo : ℕ → Bool) (h : s₀.PowerUp) (n : ℕ) : (xAt s₀ sdo n).adc.convst = true ↔ n % 16 = 2 := by
  cases n with
  | zero =>
    have h0 : (xAt s₀ sdo 0).adc.convst = false := h.convst
    rw [h0]
    simp
  | succ n =>
    rw [xAt_adc, convst_free xPins_resetN h.at_zero]
    omega

/-- **The channel in every cycle**: it changes in the third cycle of each frame. -/
theorem chan_run (h : s₀.PowerUp) (n : ℕ) : (xAt s₀ sdo n).adcChan = chanOf ((n + 13) / 16) := by
  induction n with
  | zero => exact h.adcChan
  | succ n ih =>
    have hc := convst_iff sdo h n
    change (xAt s₀ sdo n).channelBlock.adcChan = _
    by_cases h2 : n % 16 = 2
    · rw [channelBlock_toggle (hc.2 h2) ih]
      congr 1; omega
    · rw [channelBlock_rest (by rw [← Bool.not_eq_true, hc]; exact h2), ih]
      congr 1; omega

/-- **The stores**: one in each frame, in its third cycle, for the axes in turn. -/
theorem stores_iff (h : s₀.PowerUp) (n : ℕ) (a : Axis) :
    (xAt s₀ sdo n).Stores a ↔ n % 16 = 2 ∧ a = axisOf (n / 16) := by
  unfold Axes.Stores
  rw [convst_iff sdo h, chan_run h, chanOf_eq_channel, and_comm]
  refine and_congr_right fun h2 => ?_
  rw [show (n + 13) / 16 = n / 16 by omega]

/-- The result published in the first cycle of a frame stands through the frame. -/
theorem published_kept (h : s₀.PowerUp) (f : ℕ) {n : ℕ} (h1 : 16 * f < n) (h2 : n ≤ 16 * f + 16) :
    (xAt s₀ sdo n).adc.result = (xAt s₀ sdo (16 * f)).adc.resultReg := by
  rw [xAt_adc, xAt_adc]
  exact result_free xPins_resetN h.at_zero f n h1 h2

/-- **Every result is stored exactly once.** For every run without resets from power-up and
every bit stream: the channel changes once in each frame, in its third cycle, between the
publication (cycle 0) and the first pulse of `ADC_SCK` (cycle 4), and stands from then on; each
frame has one store, the axes in turn; it writes the result published in the frame, which
stands through the frame; and nothing else writes the registers. -/
theorem stored_once (s₀ : Axes) (sdo : ℕ → Bool) (h : s₀.PowerUp) :
    (∀ n, (xAt s₀ sdo (n + 1)).adcChan ≠ (xAt s₀ sdo n).adcChan ↔ n % 16 = 2) ∧
    (∀ n, SckPulse s₀.adc (xPins s₀ sdo) n ↔ 4 ≤ n % 16) ∧
    (∀ f n, 16 * f < n → n ≤ 16 * f + 16 →
      (xAt s₀ sdo n).adc.result = (xAt s₀ sdo (16 * f)).adc.resultReg) ∧
    (∀ n a, (xAt s₀ sdo n).Stores a ↔ n % 16 = 2 ∧ a = axisOf (n / 16)) ∧
    (∀ f, axisOf (f + 1) = (axisOf f).other) ∧
    ∀ n a, ((xAt s₀ sdo n).Stores a →
        (xAt s₀ sdo (n + 1)).value a = (xAt s₀ sdo (16 * (n / 16))).adc.resultReg) ∧
      (¬ (xAt s₀ sdo n).Stores a → (xAt s₀ sdo (n + 1)).value a = (xAt s₀ sdo n).value a) := by
  refine ⟨fun n => ?_, fun n => ?_, fun f n => published_kept h f, stores_iff h, fun f => ?_,
    fun n a => ⟨fun hs => ?_, (cycle_value a _).2⟩⟩
  · rw [chan_run h, chan_run h]
    constructor
    · intro hne
      by_contra h2
      exact hne (congrArg chanOf (by omega))
    · intro h2
      rw [show (n + 1 + 13) / 16 = (n + 13) / 16 + 1 by omega]
      exact chanOf_succ_ne _
  · exact sckPulse_free xPins_resetN h.at_zero n
  · unfold axisOf
    rcases Nat.mod_two_eq_zero_or_one f with hf | hf
    · rw [if_neg (by omega), if_pos hf]; rfl
    · rw [if_pos (by omega), if_neg (by omega)]; rfl
  · have h2 := ((stores_iff h n a).1 hs).1
    rw [xAt_succ, (cycle_value a _).1 hs, published_kept h (n / 16) (by omega) (by omega)]

/-- The two blocks at power-up, with nothing in the axis registers. -/
def quietAxes : Axes where
  adc := quietAdc
  adcChan := 0
  adcXValue := 0
  adcYValue := 0

theorem stored_once_quietAxes : (xAt quietAxes (fun _ => true) 34).Stores .y ∧
    (xAt quietAxes (fun _ => true) 35).adcYValue = 0xfff :=
  have hs : (xAt quietAxes (fun _ => true) 34).Stores .y := by decide +kernel
  have hreg : (xAt quietAxes (fun _ => true) 32).adc.resultReg = 0xfff := by decide +kernel
  ⟨hs, (((stored_once quietAxes (fun _ => true) ⟨rfl, rfl, rfl, rfl, rfl, rfl, rfl⟩).2.2.2.2.2 34 .y).1
    hs).trans hreg⟩

end BankVault
