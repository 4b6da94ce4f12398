import BankVault.Clocked.Gated
import BankVault.Rtl.Adc

/-!
# `adcinterface.sv` event by event

`ADC_SCK` is `clk` gated by the state register, which moves at the rising edge of `clk`
itself. Here each edge of `clk` takes its course in the order in which a simulator takes it,
instead of the clean pulses of `Rtl/Adc.lean`. A log keeps what each rising edge of `ADC_SCK`
writes: the index of the bit and the value of `ADC_SDO`.

* `cycle_clean`: outside the cycle that leaves `SCK_CYCLE` this is the clean cycle.
* `cycle_reset_open`: the cycle that leaves `SCK_CYCLE`, at its end or by a reset, has one more
  pulse.
-/

namespace BankVault

open Clocked AdcInterface

/-- `adcinterface` with the log of the rising edges of `ADC_SCK`. -/
structure Traced where
  adc : AdcInterface
  log : List (ℕ × Bool)
  deriving DecidableEq, Repr

/-- The blocks of `adcinterface`. -/
def adcEvents : Gated Traced AdcPins where
  gate t := t.adc.sck
  posClk p t := { t with adc := t.adc.posedgeClk p.resetN }
  negClk _ t := { t with adc := t.adc.negedgeClk }
  posGated p read t :=
    { adc := { t.adc with resultReg := setBit t.adc.resultReg read.adc.bitIndex p.sdo }
      log := t.log ++ [(read.adc.bitIndex, p.sdo)] }
  negGated p read t :=
    { t with adc := { t.adc with sdi := (commandWord p.chan).getLsbD read.adc.bitIndex } }

/-- `adcinterface` after `n` cycles, event by event. -/
def eAt (a₀ : AdcInterface) (ps : ℕ → AdcPins) (n : ℕ) : Traced :=
  stAt adcEvents.cycle ⟨a₀, []⟩ ps n

/-- Neither block of `ADC_SCK` writes the state register. -/
theorem adcEvents_settles : adcEvents.Settles := ⟨fun _ _ _ => rfl, fun _ _ _ => rfl⟩

variable {p : AdcPins} {t : Traced}

/-- The falling edge after a high phase in `SCK_CYCLE`, and after any other. -/
theorem fall_eq (t : Traced) : adcEvents.fall p t = { t with adc := t.adc.low p.chan } := by
  cases hs : t.adc.sck with
  | false =>
    rw [Gated.fall_idle hs]
    simp [adcEvents, low, hs]
    unfold negedgeClk
    split_ifs <;> rfl
  | true =>
    rw [Gated.fall_within hs]
    simp [adcEvents, low, hs, negedgeSck]

theorem posClk_eq (hr : p.resetN = true) :
    adcEvents.posClk p t = { t with adc := t.adc.posedgeClk true } := by
  rw [← hr]; rfl

/-- What the edge into a cycle does to the gate. -/
theorem gate_posClk (hr : p.resetN = true) :
    adcEvents.gate (adcEvents.posClk p t) = (t.adc.nextState == sSckCycle) := by
  rw [posClk_eq hr]; rfl

/-- **Outside the cycle that leaves `SCK_CYCLE`** there is at most one rising edge of
`ADC_SCK`, and the cycle is the clean one. -/
theorem cycle_clean (hr : p.resetN = true)
    (h : t.adc.sck = false ∨ t.adc.nextState = sSckCycle) : adcEvents.cycle p t =
    { adc := t.adc.cycle p.sdo p.chan
      log := t.log ++ if t.adc.nextState = sSckCycle then [(t.adc.bitIndex, p.sdo)] else [] } := by
  unfold Gated.cycle
  by_cases hn : t.adc.nextState = sSckCycle
  · have h1 : adcEvents.gate (adcEvents.posClk p t) = true := by rw [gate_posClk hr, hn]; rfl
    have hrise : adcEvents.rise p t =
        { adc := t.adc.high true p.sdo, log := t.log ++ [(t.adc.bitIndex, p.sdo)] } := by
      have hhigh : t.adc.high true p.sdo = (t.adc.posedgeClk true).posedgeSck p.sdo := by
        unfold high
        exact if_pos (by simp [sck, posedgeClk, hn])
      cases hs : t.adc.sck with
      | false => rw [Gated.rise_enter hs h1, posClk_eq hr, hhigh]; rfl
      | true => rw [Gated.rise_within adcEvents_settles hs h1, posClk_eq hr, hhigh]; rfl
    rw [hrise, fall_eq, if_pos hn]
    rfl
  · have h1 : adcEvents.gate (adcEvents.posClk p t) = false := by
      rw [gate_posClk hr]; exact beq_eq_false_iff_ne.2 hn
    have hhigh : t.adc.high true p.sdo = t.adc.posedgeClk true := by
      unfold high
      exact if_neg fun hc => hn (beq_iff_eq.1 hc)
    rw [Gated.rise_idle (h.resolve_right hn) h1, fall_eq, if_neg hn, List.append_nil, posClk_eq hr,
      ← hhigh]
    rfl

/-- The gate after an edge into `RESET`. -/
theorem gate_reset (hn : (t.adc.posedgeClk p.resetN).currentState = sReset) :
    adcEvents.gate (adcEvents.posClk p t) = false := by
  change ((t.adc.posedgeClk p.resetN).currentState == sSckCycle) = false
  rw [hn]
  rfl

/-- **The edge into `RESET` from outside `SCK_CYCLE`** publishes the shift register. -/
theorem cycle_reset_closed (hs : t.adc.sck = false)
    (hn : (t.adc.posedgeClk p.resetN).currentState = sReset) : adcEvents.cycle p t =
      { t with adc := { t.adc with
          currentState := sReset
          armFlag := false
          sckCount := 0
          nextState := sArm
          result := t.adc.resultReg } } := by
  have hpos : adcEvents.posClk p t = { t with adc := { t.adc with currentState := sReset } } := by
    rw [← hn]; rfl
  rw [Gated.cycle, Gated.rise_idle hs (gate_reset hn), fall_eq, hpos]
  simp [low, negedgeClk, sck]

/-- **The edge into `RESET` out of `SCK_CYCLE`**, by a reset or at the end of the frame, writes the
current bit once more and shifts the current command bit out once more, before `RESET` publishes
the register. -/
theorem cycle_reset_open (hs : t.adc.sck = true)
    (hn : (t.adc.posedgeClk p.resetN).currentState = sReset) : adcEvents.cycle p t =
      { adc := { t.adc with
          currentState := sReset
          armFlag := false
          sckCount := 0
          nextState := sArm
          resultReg := setBit t.adc.resultReg t.adc.bitIndex p.sdo
          result := setBit t.adc.resultReg t.adc.bitIndex p.sdo
          sdi := (commandWord p.chan).getLsbD t.adc.bitIndex }
        log := t.log ++ [(t.adc.bitIndex, p.sdo)] } := by
  have hpos : adcEvents.posClk p t = { t with adc := { t.adc with currentState := sReset } } := by
    rw [← hn]; rfl
  rw [Gated.cycle, Gated.rise_leave adcEvents_settles hs (gate_reset hn), fall_eq, hpos]
  simp [adcEvents, low, negedgeClk, sck, bitIndex]

/-- The cycle that leaves `SCK_CYCLE` at the end of a frame. -/
theorem cycle_exit (hr : p.resetN = true) (hs : t.adc.sck = true) (hn : t.adc.nextState = sReset) :
    adcEvents.cycle p t =
      { adc := { t.adc with
          currentState := sReset
          armFlag := false
          sckCount := 0
          nextState := sArm
          resultReg := setBit t.adc.resultReg t.adc.bitIndex p.sdo
          result := setBit t.adc.resultReg t.adc.bitIndex p.sdo
          sdi := (commandWord p.chan).getLsbD t.adc.bitIndex }
        log := t.log ++ [(t.adc.bitIndex, p.sdo)] } :=
  cycle_reset_open hs (by rw [hr]; exact hn)

theorem eAt_succ {a₀ : AdcInterface} {ps : ℕ → AdcPins} (n : ℕ) :
    eAt a₀ ps (n + 1) = adcEvents.cycle (ps n) (eAt a₀ ps n) := rfl

end BankVault
