import BankVault.Clocked.Run
import Mathlib.Data.BitVec

/-!
# The ADC path: `adcinterface.sv` and the channel block of `bankVault.sv`

`adcinterface` moves its state register at the rising edge of `clk`, everything else at
the falling edge, and the serial registers at the edges of `ADC_SCK`, which is `clk`
gated by the state `SCK_CYCLE`. `bankVault` stores a result at the rising edge that finds
`ADC_CONVST` high, and switches the channel there.

One cycle here is the high phase of `clk` followed by its low phase (`high`, `low`), with
one clean pulse of `ADC_SCK` in each cycle whose high phase is spent in `SCK_CYCLE`.

This clean cycle leaves out the pulse of `ADC_SCK` at the edge of `clk` that leaves `SCK_CYCLE`, at
the end of a frame and also at a reset. It bears on the two serial registers only, so results
about the state, the flags, `ADC_CONVST` and the channel may rest on the clean cycle, and so may
those about its own pulses. What the serial registers hold after a reset is the subject of
`Rtl/AdcEvents.lean`, which takes each edge in its course.
-/

namespace BankVault

open Clocked

/-- `r[i] <= b`. -/
def setBit (r : BitVec 12) (i : ℕ) (b : Bool) : BitVec 12 :=
  if b then r ||| BitVec.twoPow 12 i else r &&& ~~~ BitVec.twoPow 12 i

theorem getLsbD_setBit (r : BitVec 12) {i : ℕ} (hi : i < 12) (b : Bool) (j : ℕ) :
    (setBit r i b).getLsbD j = if j = i then b else r.getLsbD j := by
  unfold setBit
  by_cases hji : j = i
  · subst hji; cases b <;> simp [hi]
  · by_cases hj : j < 12
    · cases b <;> simp [hji, hj]
    · cases b <;> simp [hji, BitVec.getLsbD_of_ge _ _ (Nat.le_of_not_lt hj)]

/-- The registers of `adcinterface`. -/
structure AdcInterface where
  currentState : BitVec 3
  nextState : BitVec 3
  resultReg : BitVec 12
  armFlag : Bool
  sckCount : BitVec 4
  convst : Bool
  result : BitVec 12
  sdi : Bool
  deriving DecidableEq, Repr

namespace AdcInterface

abbrev sReset : BitVec 3 := 0
abbrev sArm : BitVec 3 := 2
abbrev sSckCycle : BitVec 3 := 3

/-- `command_Word`: twelve bits are assigned, so bit 12 is 0. The source writes the last
field as `8'b000000001`, nine digits of which eight are kept. -/
def commandWord (chan : BitVec 3) : BitVec 13 :=
  (chan.extractLsb' 0 1 ++ chan.extractLsb' 1 2 ++ 1#1 ++ 0b00000001#8).setWidth 13

/-- The index `11 - sck_Count` of both serial registers; `sck_Count` never passes 11. -/
def bitIndex (a : AdcInterface) : ℕ := 11 - a.sckCount.toNat

/-- `always_ff @ (posedge clk)`: the state register. -/
def posedgeClk (resetN : Bool) (a : AdcInterface) : AdcInterface :=
  { a with currentState := if !resetN then sReset else a.nextState }

/-- `always @ (negedge clk)`. -/
def negedgeClk (a : AdcInterface) : AdcInterface :=
  if a.currentState = sReset then
    { a with armFlag := false, sckCount := 0, nextState := sArm, result := a.resultReg }
  else if a.currentState = sArm then
    if !a.armFlag then { a with armFlag := true, convst := true }
    else if a.armFlag && a.convst then { a with convst := false }
    else if a.armFlag && !a.convst then { a with nextState := sSckCycle }
    else a
  else if a.currentState = sSckCycle then
    if a.sckCount < 11 then { a with sckCount := a.sckCount + 1 }
    else { a with nextState := sReset }
  else a

/-- `always @ (posedge ADC_SCK)`: one bit of the result. -/
def posedgeSck (sdo : Bool) (a : AdcInterface) : AdcInterface :=
  { a with resultReg := setBit a.resultReg a.bitIndex sdo }

/-- `always @ (negedge ADC_SCK)`: one bit of the command. -/
def negedgeSck (chan : BitVec 3) (a : AdcInterface) : AdcInterface :=
  { a with sdi := (commandWord chan).getLsbD a.bitIndex }

/-- `ADC_SCK` is high in this high phase. -/
def sck (a : AdcInterface) : Bool := a.currentState == sSckCycle

/-- The high phase of `clk`, with the clean pulse; at an edge that leaves `SCK_CYCLE` the gate raises
`ADC_SCK` once more, which is left out here. -/
def high (resetN sdo : Bool) (a : AdcInterface) : AdcInterface :=
  let a' := a.posedgeClk resetN
  if a'.sck then a'.posedgeSck sdo else a'

/-- The low phase of `clk`. Both blocks read the values before it; they write different
registers. -/
def low (chan : BitVec 3) (a : AdcInterface) : AdcInterface :=
  { a.negedgeClk with sdi := if a.sck then (a.negedgeSck chan).sdi else a.sdi }

/-- **Power-up**: the declared initial values, and 0 in the outputs that have none.
`ADC_SDI` may hold anything. -/
structure PowerUp (a : AdcInterface) : Prop where
  currentState : a.currentState = sReset
  nextState : a.nextState = sReset
  resultReg : a.resultReg = 0
  armFlag : a.armFlag = false
  sckCount : a.sckCount = 0
  convst : a.convst = false
  result : a.result = 0

end AdcInterface

/-- The pins of `adcinterface` over one cycle: `reset_n` at its rising edge, `ADC_SDO` over
its high phase, `chan` at its falling edge. -/
structure AdcPins where
  resetN : Bool
  sdo : Bool
  chan : BitVec 3
  deriving DecidableEq, Repr

/-- One cycle of `adcinterface`, with the clean pulse. -/
def AdcInterface.pinCycle (p : AdcPins) (a : AdcInterface) : AdcInterface :=
  (a.high p.resetN p.sdo).low p.chan

/-- `adcinterface` after `n` cycles. -/
def adcAt (a₀ : AdcInterface) (ps : ℕ → AdcPins) (n : ℕ) : AdcInterface :=
  stAt AdcInterface.pinCycle a₀ ps n

/-- `adcinterface_X` and the registers of the channel block. -/
structure Axes where
  adc : AdcInterface
  adcChan : BitVec 4
  adcXValue : BitVec 12
  adcYValue : BitVec 12
  deriving DecidableEq, Repr

abbrev xChannel : BitVec 4 := 1
abbrev yChannel : BitVec 4 := 0

namespace Axes

/-- `adc_chan[0] = b`. -/
def setChan0 (c : BitVec 4) (b : Bool) : BitVec 4 := c.extractLsb' 1 3 ++ BitVec.ofBool b

/-- The channel block at a rising edge of `clk`. -/
def channelBlock (s : Axes) : Axes :=
  if s.adcChan = xChannel ∧ s.adc.convst = true then
    { s with adcXValue := s.adc.result, adcChan := setChan0 s.adcChan false }
  else if s.adcChan = yChannel ∧ s.adc.convst = true then
    { s with adcYValue := s.adc.result, adcChan := setChan0 s.adcChan true }
  else s

/-- The high phase of `clk`: every block reads the values before the edge. -/
def high (resetN sdo : Bool) (s : Axes) : Axes :=
  { s.channelBlock with adc := s.adc.high resetN sdo }

/-- The low phase of `clk`. -/
def low (s : Axes) : Axes := { s with adc := s.adc.low (s.adcChan.setWidth 3) }

/-- **Power-up**: the declared initial values of `adcinterface`, and 0 in the registers
that have none. -/
structure PowerUp (s : Axes) : Prop where
  currentState : s.adc.currentState = AdcInterface.sReset
  nextState : s.adc.nextState = AdcInterface.sReset
  resultReg : s.adc.resultReg = 0
  armFlag : s.adc.armFlag = false
  sckCount : s.adc.sckCount = 0
  convst : s.adc.convst = false
  adcChan : s.adcChan = yChannel

end Axes

/-! ### The frame

Without a reset the control registers walk through sixteen cycles: one in `RESET`, three
in `ARM`, twelve in `SCK_CYCLE`. -/

namespace AdcInterface

/-- **The control registers at offset `p` of a frame**, before cycle `p` of it. -/
def At : ℕ → AdcInterface → Prop
  | 0, a => a.nextState = sReset ∧ a.convst = false
  | 1, a => a.nextState = sArm ∧ a.armFlag = false ∧ a.convst = false ∧ a.sckCount = 0
  | 2, a => a.nextState = sArm ∧ a.armFlag = true ∧ a.convst = true ∧ a.sckCount = 0
  | 3, a => a.nextState = sArm ∧ a.armFlag = true ∧ a.convst = false ∧ a.sckCount = 0
  | k + 4, a => a.nextState = sSckCycle ∧ a.armFlag = true ∧ a.convst = false ∧ a.sckCount.toNat = k

variable {sdo : Bool} {chan : BitVec 3} {a : AdcInterface}

theorem PowerUp.at_zero (h : a.PowerUp) : At 0 a := ⟨h.nextState, h.convst⟩

/-- One reset-free cycle. -/
def cycle (sdo : Bool) (chan : BitVec 3) (a : AdcInterface) : AdcInterface := (a.high true sdo).low chan

/-- The cycle in `RESET` publishes the result. -/
theorem cycle_reset (h : At 0 a) : cycle sdo chan a =
    { a with currentState := sReset, armFlag := false, sckCount := 0, nextState := sArm,
             result := a.resultReg } := by
  obtain ⟨hn, -⟩ := h
  simp [cycle, high, low, posedgeClk, negedgeClk, sck, hn]

/-- The first cycle in `ARM` raises `ADC_CONVST`. -/
theorem cycle_raise (hn : a.nextState = sArm) (hf : a.armFlag = false) : cycle sdo chan a =
    { a with currentState := sArm, armFlag := true, convst := true } := by
  simp [cycle, high, low, posedgeClk, negedgeClk, sck, hn, hf]

/-- The second one lowers it. -/
theorem cycle_lower (h : At 2 a) : cycle sdo chan a =
    { a with currentState := sArm, convst := false } := by
  obtain ⟨hn, hf, hc, -⟩ := h
  simp [cycle, high, low, posedgeClk, negedgeClk, sck, hn, hf, hc]

/-- The third one leaves `ARM`. -/
theorem cycle_leave (h : At 3 a) : cycle sdo chan a =
    { a with currentState := sArm, nextState := sSckCycle } := by
  obtain ⟨hn, hf, hc, -⟩ := h
  simp [cycle, high, low, posedgeClk, negedgeClk, sck, hn, hf, hc]

/-- A cycle in `SCK_CYCLE` takes one bit in and puts one bit out; the twelfth leaves. -/
theorem cycle_shift {k : ℕ} (h : At (k + 4) a) : cycle sdo chan a =
    { a with
      currentState := sSckCycle
      resultReg := setBit a.resultReg (11 - k) sdo
      sdi := (commandWord chan).getLsbD (11 - k)
      sckCount := if k < 11 then a.sckCount + 1 else a.sckCount
      nextState := if k < 11 then sSckCycle else sReset } := by
  obtain ⟨hn, -, -, hk⟩ := h
  have hlt : a.sckCount < 11#4 ↔ k < 11 := by bv_omega
  by_cases h11 : k < 11
  · have := hlt.2 h11
    simp [cycle, high, low, posedgeClk, negedgeClk, posedgeSck, negedgeSck, bitIndex, sck,
      hn, hk, h11, this]
  · have : ¬ a.sckCount < 11#4 := fun h => h11 (hlt.1 h)
    simp [cycle, high, low, posedgeClk, negedgeClk, posedgeSck, negedgeSck, bitIndex, sck,
      hn, hk, h11, this]

/-- **One reset-free cycle of the control registers.** -/
theorem At.cycle {p : ℕ} (hp : p < 16) (h : At p a) : At ((p + 1) % 16) (cycle sdo chan a) := by
  match p, hp, h with
  | 0, _, h => rw [cycle_reset h]; exact ⟨rfl, rfl, h.2, rfl⟩
  | 1, _, h => rw [cycle_raise h.1 h.2.1]; exact ⟨h.1, rfl, rfl, h.2.2.2⟩
  | 2, _, h => rw [cycle_lower h]; exact ⟨h.1, h.2.1, rfl, h.2.2.2⟩
  | 3, _, h => rw [cycle_leave h]; exact ⟨rfl, h.2.1, h.2.2.1, by rw [h.2.2.2]; rfl⟩
  | k + 4, hp, h =>
    rw [cycle_shift h]
    by_cases h11 : k < 11
    · rw [show (k + 4 + 1) % 16 = k + 1 + 4 by omega]
      refine ⟨by simp [h11], h.2.1, h.2.2.1, ?_⟩
      have := h.2.2.2
      simp only [h11, if_true]
      bv_omega
    · rw [show (k + 4 + 1) % 16 = 0 by omega]
      exact ⟨by simp [h11], h.2.2.1⟩

end AdcInterface

end BankVault
