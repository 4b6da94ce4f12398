import Mathlib.Data.BitVec
import Mathlib.Tactic.SplitIfs

/-!
# The two keypad games: `gameOne.sv` and `joy_code.sv`

`gameOne` shows the digit it waits for and raises `victoryflag` once the counter it
is given reaches 7; the counter itself lives in `bankVault`. `joy_code` steps through
the four digits of the code. Both reset synchronously, on `reset_n` low or `enable`
low, and both run on `clk`.
-/

namespace BankVault

/-- The registers of `gameOne`. -/
structure GameOne where
  bits : BitVec 20
  victoryflag : Bool
  deriving DecidableEq, Repr

/-- The `always_comb` block of `gameOne`: the 7-segment digits for a counter value,
the digit to enter in `[19:15]`. -/
def GameOne.stateBits (gameCounter : BitVec 3) : BitVec 20 :=
  match gameCounter with
  | 0 => 0b00000100001000011111
  | 1 => 0b00001100001000011111
  | 2 => 0b00010100001000011111
  | 3 => 0b00011100001000011111
  | 4 => 0b00100100001000011111
  | 5 => 0b00101100001000011111
  | 6 => 0b00110100001000011111
  | 7 => 0b00111100001000011111
  | _ => 0b01000100001000011111

/-- What `gameOne` shows while it is disabled. -/
def GameOne.blank : BitVec 20 := 0b11111100001000011111

/-- One instant of `gameOne`. -/
def GameOne.step (clk resetN enable : Bool) (gameCounter : BitVec 3) (g : GameOne) : GameOne :=
  if clk then
    if !resetN || !enable then { bits := blank, victoryflag := false }
    else { bits := stateBits gameCounter, victoryflag := gameCounter ≥ 7 }
  else g

/-- The digit shown, `bits[19:15]`. -/
def GameOne.shown (g : GameOne) : BitVec 5 := g.bits.extractLsb' 15 5

variable {clk resetN enable : Bool}

@[simp] theorem GameOne.step_off (c : BitVec 3) (g : GameOne) :
    g.step false resetN enable c = g := rfl

@[simp] theorem GameOne.step_disabled (c : BitVec 3) (g : GameOne) :
    g.step true resetN false c = ⟨blank, false⟩ := by simp [GameOne.step]

theorem GameOne.step_on (c : BitVec 3) (g : GameOne) :
    g.step true true true c = ⟨stateBits c, c ≥ 7⟩ := rfl

/-- The flag is raised only by a counter at 7, in an enabled cycle. -/
theorem GameOne.victory_inv {c : BitVec 3} {g : GameOne}
    (h : (g.step clk resetN enable c).victoryflag = true) :
    (clk = false ∧ g.victoryflag = true) ∨
      (clk = true ∧ resetN = true ∧ enable = true ∧ c.toNat = 7) := by
  cases clk <;> cases resetN <;> cases enable <;> simp [GameOne.step] at h ⊢
  · exact h
  · exact h
  · exact h
  · exact h
  · bv_omega

/-- The digit for a counter value is that value. -/
theorem GameOne.shown_stateBits (c : BitVec 3) (v : Bool) :
    (GameOne.mk (stateBits c) v).shown = c.setWidth 5 := by
  revert c v; decide

/-- A blank display shows no digit a key can match. -/
theorem GameOne.shown_blank (v : Bool) : (GameOne.mk blank v).shown = 31 := by
  revert v; decide

/-- The four digits `num_1` .. `num_4` of the code. -/
structure Code where
  num1 : BitVec 3
  num2 : BitVec 3
  num3 : BitVec 3
  num4 : BitVec 3
  deriving DecidableEq, Repr

/-- The digits of a code by position. -/
def Code.num (c : Code) : ℕ → BitVec 3
  | 0 => c.num1
  | 1 => c.num2
  | 2 => c.num3
  | _ => c.num4

/-- The register of `joy_code`. -/
structure JoyCode where
  nextState : BitVec 3
  deriving DecidableEq, Repr

namespace JoyCode

abbrev sOne : BitVec 3 := 0
abbrev sTwo : BitVec 3 := 1
abbrev sThree : BitVec 3 := 2
abbrev sFour : BitVec 3 := 3
abbrev sPass : BitVec 3 := 4

/-- The `state_logic` block: what it drives onto `current_state`, given the value
`current_state` has now. -/
def stateLogic (currentState nextState : BitVec 3) : BitVec 3 :=
  if currentState = sOne then nextState
  else if currentState = sTwo then nextState
  else if currentState = sThree then nextState
  else if currentState = sFour then nextState
  else if currentState = sPass then nextState
  else sOne

/-- `current_state`, the value at which `state_logic` settles (`stateLogic_settles`).
A register value above `s_pass` has no such value; the default branch's is taken. -/
def currentState (j : JoyCode) : BitVec 3 := if j.nextState ≤ sPass then j.nextState else sOne

/-- `joy_state`, an output of the module. -/
def joyState (j : JoyCode) : BitVec 3 := j.currentState

def passFlag (j : JoyCode) : Bool := j.currentState == sPass

/-- The joystick is held over. -/
def posMatch (adcX : BitVec 12) : Bool := adcX > 0x700

/-- The key and the joystick match one digit of the code. -/
def hit (num : BitVec 3) (keyPress : BitVec 4) (adcX : BitVec 12) : Bool :=
  keyPress.extractLsb' 0 3 == num && posMatch adcX

/-- The `state_handler` block in an enabled cycle. -/
def stateHandler (code : Code) (keyPress : BitVec 4) (adcX : BitVec 12) (cur : BitVec 3) : BitVec 3 :=
  if cur = sOne then (if hit code.num1 keyPress adcX then sTwo else cur)
  else if cur = sTwo then (if hit code.num2 keyPress adcX then sThree else cur)
  else if cur = sThree then (if hit code.num3 keyPress adcX then sFour else cur)
  else if cur = sFour then (if hit code.num4 keyPress adcX then sPass else cur)
  else sOne

/-- One instant of `joy_code`. -/
def step (clk resetN enable : Bool) (code : Code) (keyPress : BitVec 4) (adcX : BitVec 12)
    (j : JoyCode) : JoyCode :=
  if clk then
    if !resetN || !enable then ⟨sOne⟩
    else ⟨stateHandler code keyPress adcX j.currentState⟩
  else j

variable {code : Code} {key : BitVec 4} {adcX : BitVec 12} {j : JoyCode}

/-- **`state_logic` settles at `next_state`** and nowhere else, for the five states
of the machine. -/
theorem stateLogic_settles {next : BitVec 3} (h : next ≤ sPass) (cur : BitVec 3) :
    stateLogic cur next = cur ↔ cur = next := by
  revert cur next; decide

theorem currentState_eq (h : j.nextState ≤ sPass) : j.currentState = j.nextState := if_pos h

theorem currentState_le (j : JoyCode) : j.currentState ≤ sPass := by
  unfold currentState
  split_ifs with h
  · exact h
  · decide

theorem stateHandler_le (code : Code) (key : BitVec 4) (adcX : BitVec 12) (cur : BitVec 3) :
    stateHandler code key adcX cur ≤ sPass := by
  unfold stateHandler
  split_ifs <;> simp_all

/-- An enabled cycle leaves `joy_code` in one of its five states. -/
theorem joyState_stateHandler (code : Code) (key : BitVec 4) (adcX : BitVec 12) (cur : BitVec 3) :
    (JoyCode.mk (stateHandler code key adcX cur)).joyState = stateHandler code key adcX cur :=
  currentState_eq (stateHandler_le code key adcX cur)

@[simp] theorem step_off : j.step false resetN enable code key adcX = j := rfl

@[simp] theorem step_disabled : j.step true resetN false code key adcX = ⟨sOne⟩ := by
  simp [JoyCode.step]

theorem step_on :
    j.step true true true code key adcX = ⟨stateHandler code key adcX j.currentState⟩ := rfl

theorem step_le (h : j.nextState ≤ sPass) :
    (j.step clk resetN enable code key adcX).nextState ≤ sPass := by
  unfold JoyCode.step
  split_ifs
  · decide
  · exact stateHandler_le ..
  · exact h

/-- **What one enabled cycle can do**: stay, go back to `s_one`, or advance by one on
a hit of the digit the state waits for. -/
theorem stateHandler_inv (code : Code) (key : BitVec 4) (adcX : BitVec 12) (cur : BitVec 3) :
    stateHandler code key adcX cur = cur ∨ stateHandler code key adcX cur = sOne ∨
      (cur.toNat < 4 ∧ hit (code.num cur.toNat) key adcX = true ∧
        (stateHandler code key adcX cur).toNat = cur.toNat + 1) := by
  unfold stateHandler
  split_ifs <;> simp_all [Code.num]

/-- A state that waits for a digit advances on a hit of it and otherwise stays. -/
theorem stateHandler_wait {cur : BitVec 3} (h : cur.toNat < 4) :
    stateHandler code key adcX cur =
      if hit (code.num cur.toNat) key adcX then cur + 1 else cur := by
  unfold stateHandler
  have : cur = 0 ∨ cur = 1 ∨ cur = 2 ∨ cur = 3 := by bv_omega
  rcases this with rfl | rfl | rfl | rfl <;> simp [Code.num]

end JoyCode

end BankVault
