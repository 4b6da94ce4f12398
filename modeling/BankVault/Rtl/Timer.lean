import Mathlib.Data.BitVec

/-!
# The interval timer: `processor_timer.v`

`internal_counter` counts down from the period to 0 and starts again; at 0 it raises
`timeout_occurred`, which stays up until the processor writes the status register. The period is
49999 after a reset: 50000 cycles of the 50 MHz clock, or a millisecond.
-/

namespace BankVault

/-- The inputs over one clock cycle. -/
structure TimerIn where
  address : BitVec 3
  chipselect : Bool
  writeN : Bool
  writedata : BitVec 16
  deriving DecidableEq, Repr

/-- The registers. -/
structure Timer where
  controlRegister : BitVec 4
  counterIsRunning : Bool
  counterSnapshot : BitVec 32
  delayedCounterIsZero : Bool
  forceReload : Bool
  internalCounter : BitVec 32
  periodHRegister : BitVec 16
  periodLRegister : BitVec 16
  readdata : BitVec 16
  timeoutOccurred : Bool
  deriving DecidableEq, Repr

namespace Timer

/-- The registers after a reset. -/
def reset : Timer where
  controlRegister := 0
  counterIsRunning := false
  counterSnapshot := 0
  delayedCounterIsZero := false
  forceReload := false
  internalCounter := 0xC34F
  periodHRegister := 0
  periodLRegister := 49999
  readdata := 0
  timeoutOccurred := false

variable (i : TimerIn) (t : Timer)

/-! ### Continuous assignments -/

def wrStrobe (address : BitVec 3) : Bool := i.chipselect && !i.writeN && i.address == address

def statusWrStrobe : Bool := wrStrobe i 0

def controlWrStrobe : Bool := wrStrobe i 1

def periodLWrStrobe : Bool := wrStrobe i 2

def periodHWrStrobe : Bool := wrStrobe i 3

def snapStrobe : Bool := wrStrobe i 4 || wrStrobe i 5

def startStrobe : Bool := i.writedata.getLsbD 2 && controlWrStrobe i

def stopStrobe : Bool := i.writedata.getLsbD 3 && controlWrStrobe i

def controlContinuous : Bool := t.controlRegister.getLsbD 1

def controlInterruptEnable : Bool := t.controlRegister.getLsbD 0

def counterIsZero : Bool := t.internalCounter == 0

def counterLoadValue : BitVec 32 := t.periodHRegister ++ t.periodLRegister

def doStartCounter : Bool := startStrobe i

def doStopCounter : Bool := stopStrobe i || t.forceReload || (t.counterIsZero && !t.controlContinuous)

def timeoutEvent : Bool := t.counterIsZero && !t.delayedCounterIsZero

/-- `irq`. -/
def irq : Bool := t.timeoutOccurred && t.controlInterruptEnable

def readMuxOut : BitVec 16 :=
  if i.address = 2 then t.periodLRegister
  else if i.address = 3 then t.periodHRegister
  else if i.address = 4 then t.counterSnapshot.extractLsb' 0 16
  else if i.address = 5 then t.counterSnapshot.extractLsb' 16 16
  else if i.address = 1 then t.controlRegister.setWidth 16
  else if i.address = 0 then
    (BitVec.ofBool t.counterIsRunning ++ BitVec.ofBool t.timeoutOccurred).setWidth 16
  else 0

/-! ### Registers -/

/-- One rising edge of `clk`. -/
def posedge : Timer where
  controlRegister := if controlWrStrobe i then i.writedata.setWidth 4 else t.controlRegister
  counterIsRunning :=
    if doStartCounter i then true
    else if t.doStopCounter i then false
    else t.counterIsRunning
  counterSnapshot := if snapStrobe i then t.internalCounter else t.counterSnapshot
  delayedCounterIsZero := t.counterIsZero
  forceReload := periodHWrStrobe i || periodLWrStrobe i
  internalCounter :=
    if t.counterIsRunning || t.forceReload then
      (if t.counterIsZero || t.forceReload then t.counterLoadValue else t.internalCounter - 1)
    else t.internalCounter
  periodHRegister := if periodHWrStrobe i then i.writedata else t.periodHRegister
  periodLRegister := if periodLWrStrobe i then i.writedata else t.periodLRegister
  readdata := t.readMuxOut i
  timeoutOccurred :=
    if statusWrStrobe i then false
    else if t.timeoutEvent then true
    else t.timeoutOccurred

end Timer

end BankVault
