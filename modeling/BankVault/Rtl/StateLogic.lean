import BankVault.Rtl.Vault

/-!
# The PIO word: `state_logic`'s `rgb_input`

The word the processor polls: the state in bits 3 to 1 and `rgb_output[0]` in bit 0. The
joystick's quadrant is in bits 27 to 24 and 19 to 16 of `game_1_string`. The digits for the
seven-segment display, which `state_logic` drives as well, are left out.
-/

namespace BankVault

variable (adcXValue adcYValue : BitVec 12) (rgbOutput : BitVec 32)

def xPos : BitVec 4 := if adcXValue > 0x800 then 0b1111 else 0b0000

def yPos : BitVec 4 := if adcYValue > 0x800 then 0b1111 else 0b0000

/-- `rgb_output[0]`. -/
def rgbDc : BitVec 1 := rgbOutput.extractLsb' 0 1

def startString : BitVec 32 := 0#28 ++ 0b000#3 ++ rgbDc rgbOutput

def game1String : BitVec 32 :=
  0#4 ++ xPos adcXValue ++ 0#4 ++ yPos adcYValue ++ 0#12 ++ 0b001#3 ++ rgbDc rgbOutput

def game2String : BitVec 32 := 0#28 ++ 0b010#3 ++ rgbDc rgbOutput

def game3String : BitVec 32 := 0#28 ++ 0b011#3 ++ rgbDc rgbOutput

def harderString : BitVec 32 := 0#28 ++ 0b100#3 ++ rgbDc rgbOutput

def victoryString : BitVec 32 := 0xbadc0c0#28 ++ 0b101#3 ++ rgbDc rgbOutput

/-- `rgb_input`. -/
def rgbInput (currentState : BitVec 3) : BitVec 32 :=
  if currentState = startUp then startString rgbOutput
  else if currentState = game1 then game1String adcXValue adcYValue rgbOutput
  else if currentState = game2 then game2String rgbOutput
  else if currentState = game3 then game3String rgbOutput
  else if currentState = harder then harderString rgbOutput
  else if currentState = victory then victoryString rgbOutput
  else 0xbadc0c0a

end BankVault
