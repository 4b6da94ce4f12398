import BankVault.Rtl.Adc

/-!
# The ADC path on the board

`bankVault`'s channel block and `adcinterface` with the ADC they drive. The word shifted in
during one frame of `ADC_SCK` configures the conversion started by the next rising edge of
`ADC_CONVST`, and the twelve bits of that conversion are shifted out in the frame after it.
-/

namespace BankVault

open Clocked

/-- A conversion: the word that configured it, first bit first, and its value. -/
structure Conversion where
  word : List Bool
  value : BitVec 12
  deriving DecidableEq, Repr

/-- The channel a configuration word selects. Its bits are single-ended, odd/sign, two
select bits, unipolar and sleep; the channel number is the select bits above odd/sign. -/
def Conversion.channel (c : Conversion) : BitVec 3 :=
  BitVec.ofBool (c.word.getD 2 false) ++ BitVec.ofBool (c.word.getD 3 false) ++
    BitVec.ofBool (c.word.getD 1 false)

/-- The ADC: the bits shifted in since the last conversion started, that conversion, and
how many of its bits have been shifted out. -/
structure Ltc2308 where
  din : List Bool
  conv : Conversion
  sent : ℕ
  deriving DecidableEq, Repr

namespace Ltc2308

/-- `ADC_SDO`: the next bit of the conversion, most significant first. -/
def sdo (c : Ltc2308) : Bool := c.conv.value.getLsbD (11 - c.sent)

/-- A pulse of `ADC_SCK`. -/
def pulse (sdi : Bool) (c : Ltc2308) : Ltc2308 :=
  { c with din := c.din ++ [sdi], sent := c.sent + 1 }

/-- A rising edge of `ADC_CONVST`: the word shifted in configures the new conversion. -/
def convert (analog : List Bool → BitVec 12) (c : Ltc2308) : Ltc2308 :=
  { din := [], conv := ⟨c.din, analog c.din⟩, sent := 0 }

end Ltc2308

/-- The FPGA's ADC path and the ADC. -/
structure Board where
  axes : Axes
  ltc : Ltc2308
  deriving DecidableEq, Repr

/-- One reset-free cycle of the board. `analog` is what the ADC would convert in this cycle
under each configuration. -/
def Board.cycle (analog : List Bool → BitVec 12) (b : Board) : Board :=
  let axes₁ := b.axes.high true b.ltc.sdo
  let ltc₁ := if axes₁.adc.sck then b.ltc.pulse b.axes.adc.sdi else b.ltc
  let axes₂ := axes₁.low
  { axes := axes₂
    ltc := if !axes₁.adc.convst && axes₂.adc.convst then ltc₁.convert analog else ltc₁ }

/-- The board after `n` cycles. -/
def bAt (b₀ : Board) (analog : ℕ → List Bool → BitVec 12) (n : ℕ) : Board :=
  stAt Board.cycle b₀ analog n

/-- The conversion started in frame `g` (counted from 0), as it stands at the frame's end. -/
def conversion (b₀ : Board) (analog : ℕ → List Bool → BitVec 12) (g : ℕ) : Conversion :=
  (bAt b₀ analog (16 * (g + 1))).ltc.conv

inductive Axis
  | x
  | y
  deriving DecidableEq, Repr

def Axis.channel : Axis → BitVec 4
  | .x => xChannel
  | .y => yChannel

def Axis.other : Axis → Axis
  | .x => .y
  | .y => .x

/-- The register of an axis. -/
def Axes.value (s : Axes) : Axis → BitVec 12
  | .x => s.adcXValue
  | .y => s.adcYValue

/-- The next rising edge of `clk` stores the result for axis `a`. -/
def Board.Stores (b : Board) (a : Axis) : Prop :=
  b.axes.adcChan = a.channel ∧ b.axes.adc.convst = true

instance (b : Board) (a : Axis) : Decidable (b.Stores a) := inferInstanceAs (Decidable (_ ∧ _))

end BankVault
