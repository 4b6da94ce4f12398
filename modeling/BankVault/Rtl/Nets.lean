import BankVault.Clocked.Settle
import BankVault.Rtl.Keypad
import BankVault.Rtl.StateLogic

/-!
# The combinational nets of `bankVault`

The continuous assignments and `always_comb` blocks of `bankVault`, `joy_code` and `beep_beep`,
with the outputs of `kpdecode` they read, as one equation for each net. The right-hand sides
read the registers and pins (`NetIn`) and the nets themselves: `state_logic` drives
`current_state` in a case over `current_state`, in `bankVault` and in `joy_code`, and
`beep_beep` adds 1 to its own `count` while it is enabled.
-/

namespace BankVault

open Clocked

/-- `KP_POWER`. -/
abbrev kpPower : BitVec 4 := 0xd

/-- `rgb_res`: `reset_n || (((kpNum[3:0] == KP_POWER) & kphit) ? 0 : 1)`. -/
def rgbRes (resetN : Bool) (kpNum : BitVec 4) (kphit : Bool) : Bool :=
  resetN || if (kpNum == kpPower) && kphit then false else true

/-- `count` of `beep_beep`. -/
def beepCount (enable : Bool) (count : BitVec 16) : BitVec 16 := if enable then count + 1 else 0

/-- The registers and pins the nets read; `dontCare` is the value of `kpdecode`'s `num` in its
don't-care branches. -/
structure NetIn where
  vault : Vault
  kpc : BitVec 4
  kpr : BitVec 4
  dontCare : BitVec 4
  resetN : Bool
  adcXValue : BitVec 12
  adcYValue : BitVec 12
  rgbOutput : BitVec 32
  digit : BitVec 3
  ctTemp : BitVec 1
  deriving DecidableEq, Repr

/-- The nets. -/
inductive Net
  | kphit | kpNum | startFlag | rgbDc | rgbRes | xPos | yPos
  | startString | game1String | game2String | game3String | harderString | victoryString
  | currentState | game1En | game2En | game3En | game4En | gpio3 | rgbInput
  | dispNum0 | dispNum1 | dispNum2 | dispNum3 | displayNum | ct
  | joyCurrentState | posMatch | qMatch | quadrant | quadrantOut | joyState | passFlag
  | count
  deriving DecidableEq, Repr

/-- The values of a net. -/
abbrev Net.Val : Net → Type
  | kphit | startFlag | rgbRes | game1En | game2En | game3En | game4En | gpio3 => Bool
  | posMatch | qMatch | passFlag => Bool
  | rgbDc => BitVec 1
  | quadrant | quadrantOut => BitVec 2
  | currentState | joyCurrentState | joyState => BitVec 3
  | kpNum | xPos | yPos | ct => BitVec 4
  | dispNum0 | dispNum1 | dispNum2 | dispNum3 | displayNum => BitVec 5
  | count => BitVec 16
  | startString | game1String | game2String | game3String | harderString | victoryString => BitVec 32
  | rgbInput => BitVec 32

instance (w : Net) : Nonempty w.Val := by
  cases w <;> exact ⟨default⟩

/-- A value for each net. -/
abbrev Nets := ∀ w : Net, w.Val

/-- `disp_num_k` in `state_logic`: a digit in `game_1`, one in `game_2`, and blank otherwise. -/
def dispNum (currentState : BitVec 3) (inGame1 inGame2 : BitVec 5) : BitVec 5 :=
  if currentState = startUp then 16
  else if currentState = game1 then inGame1
  else if currentState = game2 then inGame2
  else 16

/-- **The equations of the nets.** -/
def drive (i : NetIn) (a : Nets) : Nets
  | .kphit => (kpdecode i.dontCare i.kpr i.kpc).kphit
  | .kpNum => (kpdecode i.dontCare i.kpr i.kpc).num
  | .startFlag => Vault.startFlag (a .kpNum)
  | .rgbDc => rgbDc i.rgbOutput
  | .rgbRes => rgbRes i.resetN (a .kpNum) (a .kphit)
  | .xPos => xPos i.adcXValue
  | .yPos => yPos i.adcYValue
  | .startString => startString i.rgbOutput
  | .game1String => 0#4 ++ a .xPos ++ 0#4 ++ a .yPos ++ 0#12 ++ 0b001#3 ++ rgbDc i.rgbOutput
  | .game2String => game2String i.rgbOutput
  | .game3String => game3String i.rgbOutput
  | .harderString => harderString i.rgbOutput
  | .victoryString => victoryString i.rgbOutput
  -- `state_logic` of `bankVault`
  | .currentState => Vault.stateLogic (a .currentState) i.vault.nextState
  | .game1En => a .currentState == game1
  | .game2En => a .currentState == game2
  | .game3En => a .currentState == game3
  | .game4En => a .currentState == harder
  | .gpio3 => if a .currentState = victory then false else true
  | .rgbInput =>
    if a .currentState = startUp then a .startString
    else if a .currentState = game1 then a .game1String
    else if a .currentState = game2 then a .game2String
    else if a .currentState = game3 then a .game3String
    else if a .currentState = harder then a .harderString
    else if a .currentState = victory then a .victoryString
    else 0xbadc0c0a
  | .dispNum0 => dispNum (a .currentState) (i.vault.gameOne.bits.extractLsb' 15 5) (i.vault.rNum3.setWidth 5)
  | .dispNum1 => dispNum (a .currentState) (i.vault.gameOne.bits.extractLsb' 10 5) (i.vault.rNum2.setWidth 5)
  | .dispNum2 => dispNum (a .currentState) (i.vault.gameOne.bits.extractLsb' 5 5) (i.vault.rNum1.setWidth 5)
  | .dispNum3 => dispNum (a .currentState) (0#1 ++ a .kpNum) (i.vault.rNum0.setWidth 5)
  | .displayNum =>
    if i.digit = 3 then a .dispNum0
    else if i.digit = 2 then a .dispNum1
    else if i.digit = 1 then a .dispNum2
    else if i.digit = 0 then a .dispNum3
    else 0xf
  | .ct =>
    if a .currentState = game1 then i.ctTemp.setWidth 4 <<< i.digit else 1#4 <<< i.digit
  -- `state_logic` of `joy_code`
  | .joyCurrentState => JoyCode.stateLogic (a .joyCurrentState) i.vault.joyCode.nextState
  | .posMatch => JoyCode.posMatch i.adcXValue
  | .qMatch => a .posMatch
  | .quadrant => (i.vault.code.num1 % 4).setWidth 2
  | .quadrantOut => a .quadrant
  | .joyState => a .joyCurrentState
  | .passFlag => if a .joyCurrentState = JoyCode.sPass then true else false
  | .count => beepCount (a .kphit) (a .count)

/-- The nets each of them reads. -/
def Net.reads : Net → List Net
  | startFlag => [kpNum]
  | rgbRes => [kpNum, kphit]
  | game1String => [xPos, yPos]
  | currentState | game1En | game2En | game3En | game4En | gpio3 => [currentState]
  | rgbInput =>
    [currentState, startString, game1String, game2String, game3String, harderString, victoryString]
  | dispNum0 | dispNum1 | dispNum2 | ct => [currentState]
  | dispNum3 => [currentState, kpNum]
  | displayNum => [dispNum0, dispNum1, dispNum2, dispNum3]
  | joyCurrentState | joyState | passFlag => [joyCurrentState]
  | qMatch => [posMatch]
  | quadrantOut => [quadrant]
  | count => [kphit, count]
  | _ => []

/-- How many nets there are on the way to a net. -/
def Net.rank : Net → ℕ
  | rgbInput | displayNum => 2
  | startFlag | rgbRes | game1String | game1En | game2En | game3En | game4En | gpio3 => 1
  | dispNum0 | dispNum1 | dispNum2 | dispNum3 | ct => 1
  | joyState | passFlag | qMatch | quadrantOut | count => 1
  | _ => 0

theorem Net.rank_lt (w : Net) : w.rank < 3 := by
  cases w <;> decide

/-- **The equations are a net list**: each net reads what the table says, and but for itself
only nets of a lower rank. -/
theorem drive_netList (i : NetIn) : NetList (drive i) Net.reads Net.rank where
  local_reads := by
    intro w a b h
    cases w <;> simp_all [drive, Net.reads]
  layered := by
    intro w
    cases w <;> decide

/-- The three nets that read themselves. -/
theorem Net.mem_reads {w : Net} (h : w ∈ w.reads) :
    w = currentState ∨ w = joyCurrentState ∨ w = count := by
  revert h
  cases w <;> decide

end BankVault
