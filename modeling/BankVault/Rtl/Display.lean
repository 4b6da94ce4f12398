import BankVault.Rtl.Keyed
import BankVault.Rtl.Nets

/-!
# The seven-segment display: `decode7.sv` and the multiplexer of `bankVault`

Four digits share the segment lines `leds` (active low); `ct` enables one of them at a time.
`digit` goes to the next one each time `delayCnt` comes round. In `game_1` the digits are lit
only while `debounce_0` finds a key down.
-/

namespace BankVault

open Clocked

/-- `decode7`. -/
def decode7 (num : BitVec 5) : BitVec 8 :=
  match num with
  | 0 => 0b11000000
  | 1 => 0b11111001
  | 2 => 0b10100100
  | 3 => 0b10110000
  | 4 => 0b10011001
  | 5 => 0b10010010
  | 6 => 0b10000010
  | 7 => 0b11111000
  | 8 => 0b10000000
  | 9 => 0b10011000
  | 10 => 0b10001000
  | 11 => 0b10000011
  | 12 => 0b10100111
  | 13 => 0b10100001
  | 14 => 0b10000110
  | 15 => 0b10001110
  | 16 => 0b10111111
  | _ => 0b11111111

/-- The patterns of the digits and of the bar are different ones. -/
theorem decode7_injOn : ∀ x y : BitVec 5, x ≤ 16 → decode7 x = decode7 y → x = y := by
  decide +kernel

/-- The lock with its keypad, and the registers of the display. -/
structure SevenSeg where
  keyed : Keyed
  debounce0 : Debounce
  delayCnt : BitVec 8
  digit : BitVec 3
  ctTemp : BitVec 1
  deriving DecidableEq, Repr

namespace SevenSeg

/-- `kphit_debounced`. -/
def kphitDebounced (s : SevenSeg) : Bool := s.debounce0.debouncedInput

/-- One instant. -/
def step (e : Pins × BitVec 4) (s : SevenSeg) : SevenSeg where
  keyed := s.keyed.step e
  debounce0 := s.debounce0.step e.1.clk e.1.resetN (s.keyed.decode e.1 e.2).kphit
  delayCnt := if e.1.clk then s.delayCnt + 1 else s.delayCnt
  digit :=
    if e.1.clk then
      if s.delayCnt = 0 then
        if s.digit ≥ 3 then 0
        else s.digit + 1
      else s.digit
    else s.digit
  ctTemp :=
    if e.1.clk then
      if s.kphitDebounced then 1 else 0
    else s.ctTemp

/-- The registers of the lock. -/
abbrev vault (s : SevenSeg) : Vault := s.keyed.vault

/-- `disp_num_0` to `disp_num_3`. -/
def dispNum0 (s : SevenSeg) : BitVec 5 :=
  dispNum s.vault.currentState (s.vault.gameOne.bits.extractLsb' 15 5) (s.vault.rNum3.setWidth 5)

def dispNum1 (s : SevenSeg) : BitVec 5 :=
  dispNum s.vault.currentState (s.vault.gameOne.bits.extractLsb' 10 5) (s.vault.rNum2.setWidth 5)

def dispNum2 (s : SevenSeg) : BitVec 5 :=
  dispNum s.vault.currentState (s.vault.gameOne.bits.extractLsb' 5 5) (s.vault.rNum1.setWidth 5)

def dispNum3 (kpNum : BitVec 4) (s : SevenSeg) : BitVec 5 :=
  dispNum s.vault.currentState (0#1 ++ kpNum) (s.vault.rNum0.setWidth 5)

/-- `displayNum`. -/
def displayNum (kpNum : BitVec 4) (s : SevenSeg) : BitVec 5 :=
  if s.digit = 3 then s.dispNum0
  else if s.digit = 2 then s.dispNum1
  else if s.digit = 1 then s.dispNum2
  else if s.digit = 0 then s.dispNum3 kpNum
  else 0xf

/-- The segments at this instant. -/
def leds (p : Pins) (dontCare : BitVec 4) (s : SevenSeg) : BitVec 8 :=
  decode7 (s.displayNum (s.keyed.decode p dontCare).num)

/-- The digit enables. -/
def ct (s : SevenSeg) : BitVec 4 :=
  if s.vault.currentState = game1 then s.ctTemp.setWidth 4 <<< s.digit else 1#4 <<< s.digit

end SevenSeg

/-- The lock with keypad and display after `n` instants. -/
def ssAt (s₀ : SevenSeg) (ps : ℕ → Pins) (d : ℕ → BitVec 4) (n : ℕ) : SevenSeg :=
  stAt SevenSeg.step s₀ (fun i => (ps i, d i)) n

theorem ssAt_succ (s₀ : SevenSeg) (ps : ℕ → Pins) (d : ℕ → BitVec 4) (n : ℕ) :
    ssAt s₀ ps d (n + 1) = (ssAt s₀ ps d n).step (ps n, d n) := rfl

end BankVault
