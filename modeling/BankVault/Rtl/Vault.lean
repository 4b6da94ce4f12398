import BankVault.Clocked.Run
import BankVault.Rtl.Knock
import BankVault.Rtl.Games

/-!
# The top level: `bankVault.sv`

The lock as one clocked machine. An event (`Ev`) is one instant: `clk` and `clock50`
say which of the two clocks rise, the rest are the pins and the values of the keypad
and ADC nets at that instant. An event with neither edge is a move of `reset_n`
between edges. Every register reads the values before the instant; only the registers
with `negedge reset_n` in their sensitivity list see a low `reset_n` without an edge.

`kpNum`, `adcValue` and `adc_x_value` are inputs here: `Rtl/Keypad.lean` and
`Rtl/Adc.lean` drive them. The display multiplexing (`digit`, `delayCnt`, `ctTemp`,
the debug `LED`s) feeds nothing below and is left out.
-/

namespace BankVault

open Clocked

/-- One instant. -/
structure Ev where
  clk : Bool
  clock50 : Bool
  resetN : Bool
  kpNum : BitVec 4
  adcValue : BitVec 12
  adcXValue : BitVec 12
  knockInput : Bool
  deriving DecidableEq, Repr

/-- The registers of `bankVault` and of the modules it instantiates. -/
structure Vault where
  nextState : BitVec 3
  rNum3 : BitVec 4
  rNum2 : BitVec 4
  rNum1 : BitVec 4
  rNum0 : BitVec 4
  gameOneCounter : BitVec 3
  gameOne : GameOne
  joyCode : JoyCode
  safe0 : SafeTilt
  safe1 : SafeTilt
  deriving DecidableEq, Repr

/-! The states of the lock, `localparam [2:0]` in the source. -/

abbrev startUp : BitVec 3 := 0
abbrev game1 : BitVec 3 := 1
abbrev game2 : BitVec 3 := 2
abbrev game3 : BitVec 3 := 3
abbrev harder : BitVec 3 := 4
abbrev victory : BitVec 3 := 5
abbrev fubar : BitVec 3 := 7

namespace Vault

/-- What the `state_logic` block drives onto `current_state`: every branch of its
case, the default one included, assigns `next_state`. -/
def stateLogic (currentState nextState : BitVec 3) : BitVec 3 :=
  if currentState = startUp then nextState
  else if currentState = game1 then nextState
  else if currentState = game2 then nextState
  else if currentState = game3 then nextState
  else if currentState = harder then nextState
  else if currentState = victory then nextState
  else nextState

variable (s : Vault)

/-- `current_state`, the value at which `state_logic` settles (`stateLogic_settles`). -/
def currentState : BitVec 3 := s.nextState

def game1En : Bool := s.currentState == game1
def game2En : Bool := s.currentState == game2
def game3En : Bool := s.currentState == game3
def game4En : Bool := s.currentState == harder

def moFlag : Bool := s.gameOne.victoryflag
def jamesFlag : Bool := s.joyCode.passFlag
def emagStateFlag : Bool := s.safe0.unlockedFlag
def emagStateFlag2 : Bool := s.safe1.unlockedFlag

/-- `GPIO_1[3]`. -/
def gpio3 : Bool := if s.currentState = victory then false else true

/-- The code digits as `joy_code` receives them: its ports are 3 bits wide. -/
def code : Code where
  num1 := s.rNum0.setWidth 3
  num2 := s.rNum1.setWidth 3
  num3 := s.rNum2.setWidth 3
  num4 := s.rNum3.setWidth 3

/-- The code digits by the order in which they are asked for. -/
def rNum : ℕ → BitVec 4
  | 0 => s.rNum0
  | 1 => s.rNum1
  | 2 => s.rNum2
  | _ => s.rNum3

/-- `start_flag`. -/
def startFlag (kpNum : BitVec 4) : Bool := kpNum == 0xb

/-- The `state_handler` block at a clock edge with `reset_n` high. -/
def stateHandler (e : Ev) : BitVec 3 :=
  if s.currentState = startUp then (if startFlag e.kpNum then game1 else s.currentState)
  else if s.currentState = game1 then (if s.moFlag then game2 else s.currentState)
  else if s.currentState = game2 then (if s.jamesFlag then game3 else s.currentState)
  else if s.currentState = game3 then (if !s.emagStateFlag then harder else s.currentState)
  else if s.currentState = harder then (if !s.emagStateFlag2 then victory else s.currentState)
  else if s.currentState = victory then (if !e.resetN then startUp else s.currentState)
  else startUp

/-- The key matches the digit game one shows. -/
def keyMatches (e : Ev) : Bool := e.kpNum.setWidth 5 == s.gameOne.shown

/-- The `rn_generator` block for one digit: three ADC bits, frozen in `game_2`. -/
def rnGenerator (e : Ev) (r : BitVec 4) (adcBits : BitVec 3) : BitVec 4 :=
  if e.clk then
    if !e.resetN then 0
    else if s.currentState ≠ game2 then 0#1 ++ adcBits
    else r
  else r

/-- One instant of the whole lock. -/
def step (e : Ev) (s : Vault) : Vault where
  nextState :=
    if e.resetN = false then startUp
    else if e.clk then s.stateHandler e
    else s.nextState
  rNum3 := s.rnGenerator e s.rNum3 (e.adcValue.extractLsb' 0 3)
  rNum2 := s.rnGenerator e s.rNum2 (e.adcValue.extractLsb' 4 3)
  rNum1 := s.rnGenerator e s.rNum1 (e.adcValue.extractLsb' 6 3)
  rNum0 := s.rnGenerator e s.rNum0 (e.adcValue.extractLsb' 2 3)
  gameOneCounter :=
    if e.clk then
      if s.currentState = game1 then
        if s.keyMatches e then s.gameOneCounter + 1 else s.gameOneCounter
      else 0
    else s.gameOneCounter
  gameOne := s.gameOne.step e.clk e.resetN s.game1En s.gameOneCounter
  joyCode := s.joyCode.step e.clk e.resetN s.game2En s.code e.kpNum e.adcXValue
  safe0 := s.safe0.step e.clock50 e.resetN e.knockInput s.game3En
  safe1 := s.safe1.step e.clock50 e.resetN e.knockInput s.game4En

end Vault

/-! ### Runs -/

/-- The lock after the first `n` events. -/
def vAt (s₀ : Vault) (es : ℕ → Ev) (n : ℕ) : Vault := stAt Vault.step s₀ es n

theorem vAt_succ (s₀ : Vault) (es : ℕ → Ev) (n : ℕ) :
    vAt s₀ es (n + 1) = (vAt s₀ es n).step (es n) := rfl

/-- **The run starts in reset**: `reset_n` is low over the first `k` events, which
contain at least one edge of each clock. The registers start at any value. -/
structure StartsInReset (es : ℕ → Ev) (k : ℕ) : Prop where
  low : ∀ i, i < k → (es i).resetN = false
  clk : ∃ i, i < k ∧ (es i).clk = true
  clock50 : ∃ i, i < k ∧ (es i).clock50 = true

/-- **Several `CLOCK_50` edges per `clk` edge**: between any two `clk` edges there is
an edge of `CLOCK_50`. -/
def FastClock (es : ℕ → Ev) : Prop :=
  ∀ i j, i < j → (es i).clk = true → (es j).clk = true →
    ∃ m, i < m ∧ m < j ∧ (es m).clock50 = true

/-- A state some run from reset leads to. -/
def Reachable (s : Vault) : Prop :=
  ∃ s₀ es k n, StartsInReset es k ∧ k ≤ n ∧ vAt s₀ es n = s

namespace Vault

variable {s : Vault} {e : Ev}

/-- **`state_logic` settles at `next_state`** and nowhere else. -/
theorem stateLogic_settles (cur next : BitVec 3) : stateLogic cur next = cur ↔ cur = next := by
  revert cur next; decide

theorem gpio3_eq_false : s.gpio3 = false ↔ s.currentState = victory := by
  unfold gpio3; split_ifs with h <;> simp_all

/-! ### What one event does to the stage -/

/-- What the current stage waits for before it hands over to the next one. -/
def gate (s : Vault) (e : Ev) : Bool :=
  if s.currentState = startUp then startFlag e.kpNum
  else if s.currentState = game1 then s.moFlag
  else if s.currentState = game2 then s.jamesFlag
  else if s.currentState = game3 then !s.emagStateFlag
  else if s.currentState = harder then !s.emagStateFlag2
  else false

@[simp] theorem step_currentState_reset (h : e.resetN = false) : (step e s).currentState = startUp := by
  simp [step, currentState, h]

@[simp] theorem step_currentState_off (hr : e.resetN = true) (h : e.clk = false) :
    (step e s).currentState = s.currentState := by
  simp [step, currentState, h, hr]

theorem step_currentState_clk (hr : e.resetN = true) (h : e.clk = true) :
    (step e s).currentState = s.stateHandler e := by
  simp [step, currentState, h, hr]

/-- At a clock edge a stage stays or hands over to the next one through its gate. -/
theorem stateHandler_eq (hr : e.resetN = true) (h : s.currentState ≤ victory) :
    s.stateHandler e = if s.gate e then s.currentState + 1 else s.currentState := by
  have hc : s.currentState = startUp ∨ s.currentState = game1 ∨ s.currentState = game2 ∨
      s.currentState = game3 ∨ s.currentState = harder ∨ s.currentState = victory := by
    bv_omega
  rcases hc with hc | hc | hc | hc | hc | hc <;> simp [stateHandler, gate, hc, hr]

/-- The stages are 0 to 5 from the first reset on. -/
theorem step_stage_le (h : s.currentState ≤ victory) : (step e s).currentState ≤ victory := by
  cases hr : e.resetN
  · rw [step_currentState_reset hr]; decide
  · cases hk : e.clk
    · rw [step_currentState_off hr hk]; exact h
    · rw [step_currentState_clk hr hk]
      unfold stateHandler
      split_ifs <;> first | decide | exact h

/-- **What one event can do to the stage**: a stage other than `start_up` is either
kept, or entered from the one before through its gate at a clock edge. -/
theorem stage_inv (hle : s.currentState ≤ victory) (h : (step e s).currentState ≠ startUp) :
    e.resetN = true ∧ ((step e s).currentState = s.currentState ∨
      (e.clk = true ∧ s.gate e = true ∧ (step e s).currentState = s.currentState + 1)) := by
  have hr : e.resetN = true := by
    by_contra hr
    exact h (step_currentState_reset (by simpa using hr))
  refine ⟨hr, ?_⟩
  cases hk : e.clk
  · exact Or.inl (step_currentState_off hr hk)
  · rw [step_currentState_clk hr hk, stateHandler_eq hr hle]
    split_ifs with hg
    · exact Or.inr ⟨rfl, hg, rfl⟩
    · exact Or.inl rfl

/-! ### One event inside each game -/

/-- A display that shows no digit matches no key. -/
theorem keyMatches_of_blank (h : ¬ s.gameOne.shown ≤ 15) : s.keyMatches e = false := by
  have hle : ∀ w : BitVec 4, w.setWidth 5 ≤ (15 : BitVec 5) := by decide
  rw [keyMatches, beq_eq_false_iff_ne]
  intro hw
  exact h (hw ▸ hle e.kpNum)

/-- Outside `game_1` an edge clears the counter. -/
theorem step_counter_off (hc : e.clk = true) (h : s.currentState ≠ game1) :
    (s.step e).gameOneCounter = 0 := by
  simp only [step, hc, if_true, if_neg h]

/-- Inside `game_1` the counter moves by one, at a match. -/
theorem step_counter_on (h : s.currentState = game1) :
    (s.step e).gameOneCounter =
      s.gameOneCounter + if e.clk = true ∧ s.keyMatches e = true then 1 else 0 := by
  cases hc : e.clk <;> cases hm : s.keyMatches e <;> simp [step, hc, h, hm]

theorem step_gameOne : (s.step e).gameOne =
    s.gameOne.step e.clk e.resetN s.game1En s.gameOneCounter := rfl

/-- Outside `game_2` an edge puts `joy_code` into `s_one`. -/
theorem step_joy_off (hc : e.clk = true) (h : s.currentState ≠ game2) :
    (s.step e).joyCode.nextState = JoyCode.sOne := by
  have : s.game2En = false := beq_eq_false_iff_ne.2 h
  simp [step, hc, this]

/-- So does an edge with `reset_n` low. -/
theorem step_joy_reset (hc : e.clk = true) (hr : e.resetN = false) :
    (s.step e).joyCode.nextState = JoyCode.sOne := by
  simp [step, JoyCode.step, hc, hr]

/-- Inside `game_2` it is enabled. -/
theorem step_joy_on (hr : e.resetN = true) (h : s.currentState = game2) :
    (s.step e).joyCode = s.joyCode.step e.clk true true s.code e.kpNum e.adcXValue := by
  have : s.game2En = true := beq_iff_eq.2 h
  simp only [step, hr, this]

/-- The digit stored for `joy_code`, from the ADC bits the source selects. -/
def adcDigit (e : Ev) : ℕ → BitVec 3
  | 0 => e.adcValue.extractLsb' 2 3
  | 1 => e.adcValue.extractLsb' 6 3
  | 2 => e.adcValue.extractLsb' 4 3
  | _ => e.adcValue.extractLsb' 0 3

/-- Each digit register follows `rn_generator`. -/
theorem step_rNum (i : ℕ) :
    (s.step e).rNum i = s.rnGenerator e (s.rNum i) (adcDigit e i) := by
  match i with
  | 0 | 1 | 2 => rfl
  | _ + 3 => rfl

/-- Inside `game_2` the digits are frozen. -/
theorem step_rNum_on (hr : e.resetN = true) (h : s.currentState = game2)
    (i : ℕ) : (s.step e).rNum i = s.rNum i := by
  rw [step_rNum]
  simp [rnGenerator, hr, h]

/-- Outside `game_2` an edge loads a three-bit digit. -/
theorem step_rNum_off (hr : e.resetN = true) (hc : e.clk = true)
    (h : s.currentState ≠ game2) (i : ℕ) :
    (s.step e).rNum i = ((adcDigit e i).setWidth 4) := by
  rw [step_rNum]
  simp only [rnGenerator, hr, hc, if_true, Bool.not_true, Bool.false_eq_true, if_false,
    ne_eq, h, not_false_eq_true]
  generalize adcDigit e i = b
  revert b; decide

/-- The digits of `joy_code`'s ports are the low bits of the registers. -/
theorem code_num (s : Vault) (i : ℕ) : s.code.num i = (s.rNum i).setWidth 3 := by
  match i with
  | 0 | 1 | 2 => rfl
  | _ + 3 => rfl

end Vault

end BankVault
