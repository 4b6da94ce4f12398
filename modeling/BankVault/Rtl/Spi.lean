import BankVault.Clocked.Flow
import BankVault.Wire.Serial
import Mathlib.Tactic.SplitIfs

/-!
# The SPI core: `processor_spi_0.v`

The master through which the processor talks to the display. A byte written to `txdata`
waits in `tx_holding_reg`, is loaded into `shift_reg` and goes out on `MOSI`, one bit for each
pulse of `SCLK`; the bits of `MISO` come in at the other end, and the byte they make up is in
`rxdata` afterwards. `slowcount` divides the clock by 5 and `state` counts the 18 slots of a byte.

All registers have `reset_n` in common; a run here starts from their reset values.
-/

namespace BankVault

open Clocked Wire

/-- The inputs over one clock cycle. -/
structure SpiIn where
  spiSelect : Bool
  readN : Bool
  writeN : Bool
  memAddr : BitVec 3
  dataFromCpu : BitVec 16
  miso : Bool
  deriving DecidableEq, Repr

/-- The registers. -/
structure SpiCore where
  rdStrobe : Bool
  dataRdStrobe : Bool
  wrStrobe : Bool
  dataWrStrobe : Bool
  iEop : Bool
  iE : Bool
  iRrdy : Bool
  iTrdy : Bool
  iTmt : Bool
  iToe : Bool
  iRoe : Bool
  sso : Bool
  irqReg : Bool
  slaveSelectReg : BitVec 16
  slaveSelectHoldingReg : BitVec 16
  slowcount : BitVec 3
  endofpacketvalueReg : BitVec 16
  dataToCpu : BitVec 16
  state : BitVec 5
  stateZero : Bool
  shiftReg : BitVec 8
  rxHoldingReg : BitVec 8
  eop : Bool
  rrdy : Bool
  roe : Bool
  toe : Bool
  txHoldingReg : BitVec 8
  txHoldingPrimed : Bool
  transmitting : Bool
  sclkReg : Bool
  misoReg : Bool
  transactionPrimed : Bool
  deriving DecidableEq, Repr

namespace SpiCore

/-- The registers after a reset. -/
def reset : SpiCore where
  rdStrobe := false
  dataRdStrobe := false
  wrStrobe := false
  dataWrStrobe := false
  iEop := false
  iE := false
  iRrdy := false
  iTrdy := false
  iTmt := false
  iToe := false
  iRoe := false
  sso := false
  irqReg := false
  slaveSelectReg := 1
  slaveSelectHoldingReg := 1
  slowcount := 0
  endofpacketvalueReg := 0
  dataToCpu := 0
  state := 0
  stateZero := true
  shiftReg := 0
  rxHoldingReg := 0
  eop := false
  rrdy := false
  roe := false
  toe := false
  txHoldingReg := 0
  txHoldingPrimed := false
  transmitting := false
  sclkReg := true
  misoReg := false
  transactionPrimed := false

variable (i : SpiIn) (s : SpiCore)

/-! ### Continuous assignments -/

def p1RdStrobe : Bool := !s.rdStrobe && i.spiSelect && !i.readN

def p1DataRdStrobe : Bool := s.p1RdStrobe i && i.memAddr == 0

def p1WrStrobe : Bool := !s.wrStrobe && i.spiSelect && !i.writeN

def p1DataWrStrobe : Bool := s.p1WrStrobe i && i.memAddr == 1

def statusWrStrobe : Bool := s.wrStrobe && i.memAddr == 2

def controlWrStrobe : Bool := s.wrStrobe && i.memAddr == 3

def slaveselectWrStrobe : Bool := s.wrStrobe && i.memAddr == 5

def endofpacketvalueWrStrobe : Bool := s.wrStrobe && i.memAddr == 6

/-- `TMT`: nothing is to be sent. -/
def tmt : Bool := !s.transmitting && !s.txHoldingPrimed

def e : Bool := s.roe || s.toe

/-- `TRDY`: there is room for a byte. -/
def trdy : Bool := !(s.transmitting && s.txHoldingPrimed)

/-- `{EOP, E, RRDY, TRDY, TMT, TOE, ROE, 3'b0}`. -/
def spiStatus : BitVec 16 :=
  0#6 ++ BitVec.ofBool s.eop ++ BitVec.ofBool s.e ++ BitVec.ofBool s.rrdy ++ BitVec.ofBool s.trdy ++
    BitVec.ofBool s.tmt ++ BitVec.ofBool s.toe ++ BitVec.ofBool s.roe ++ 0#3

/-- `{SSO_reg, iEOP_reg, iE_reg, iRRDY_reg, iTRDY_reg, 1'b0, iTOE_reg, iROE_reg, 3'b0}`. -/
def spiControl : BitVec 16 :=
  0#5 ++ BitVec.ofBool s.sso ++ BitVec.ofBool s.iEop ++ BitVec.ofBool s.iE ++ BitVec.ofBool s.iRrdy ++
    BitVec.ofBool s.iTrdy ++ 0#1 ++ BitVec.ofBool s.iToe ++ BitVec.ofBool s.iRoe ++ 0#3

def slowclock : Bool := s.slowcount == 4

def p1Slowcount : BitVec 3 := if s.transmitting && !s.slowclock then s.slowcount + 1 else 0

def p1DataToCpu : BitVec 16 :=
  if i.memAddr = 2 then s.spiStatus
  else if i.memAddr = 3 then s.spiControl
  else if i.memAddr = 6 then s.endofpacketvalueReg
  else if i.memAddr = 5 then s.slaveSelectReg
  else s.rxHoldingReg.setWidth 16

def writeTxHolding : Bool := s.dataWrStrobe && s.trdy

def writeShiftReg : Bool := s.txHoldingPrimed && !s.transmitting

/-- `MOSI`. -/
def mosi : Bool := s.shiftReg.msb

/-- `SCLK`. -/
def sclk : Bool := s.sclkReg

def enableSS : Bool := s.transmitting && !s.stateZero

/-- `SS_n`. -/
def ssN : BitVec 16 := if s.enableSS || s.sso then ~~~s.slaveSelectReg else BitVec.allOnes 16

/-! ### Registers -/

/-- The `always` block of the shift register, statement by statement: all conditions and
values are those before the edge, and of two writes to a register the later one counts. -/
def shiftBlock : SpiCore :=
  let n := s
  let n := if s.writeTxHolding then
      { n with txHoldingReg := i.dataFromCpu.setWidth 8, txHoldingPrimed := true } else n
  let n := if s.dataWrStrobe && !s.trdy then { n with toe := true } else n
  let n := if (s.p1DataRdStrobe i && s.rxHoldingReg.setWidth 16 == s.endofpacketvalueReg) ||
      (s.p1DataWrStrobe i && (i.dataFromCpu.setWidth 8).setWidth 16 == s.endofpacketvalueReg) then
      { n with eop := true } else n
  let n := if s.writeShiftReg then { n with shiftReg := s.txHoldingReg, transmitting := true } else n
  let n := if s.writeShiftReg && !s.writeTxHolding then { n with txHoldingPrimed := false } else n
  let n := if s.dataRdStrobe then { n with rrdy := false } else n
  let n := if s.statusWrStrobe i then
      { n with eop := false, rrdy := false, roe := false, toe := false } else n
  let n := if s.transactionPrimed then
      { n with
        transactionPrimed := false
        transmitting := false
        rrdy := true
        rxHoldingReg := s.shiftReg
        sclkReg := true
        roe := if s.rrdy then true else n.roe } else n
  if s.slowclock then
    let n := if s.state = 17 then { n with transactionPrimed := true }
      else if s.state ≠ 0 then
        (if s.transmitting then { n with sclkReg := !s.sclkReg } else n)
      else n
    if s.sclkReg ^^ true ^^ true then
      (if s.state ≠ 0 && s.state ≠ 1 then { n with shiftReg := s.shiftReg.shiftConcat s.misoReg } else n)
    else { n with misoReg := i.miso }
  else n

/-- One rising edge of `clk`. -/
def posedge : SpiCore :=
  { s.shiftBlock i with
    rdStrobe := s.p1RdStrobe i
    dataRdStrobe := s.p1DataRdStrobe i
    wrStrobe := s.p1WrStrobe i
    dataWrStrobe := s.p1DataWrStrobe i
    iEop := if s.controlWrStrobe i then i.dataFromCpu.getLsbD 9 else s.iEop
    iE := if s.controlWrStrobe i then i.dataFromCpu.getLsbD 8 else s.iE
    iRrdy := if s.controlWrStrobe i then i.dataFromCpu.getLsbD 7 else s.iRrdy
    iTrdy := if s.controlWrStrobe i then i.dataFromCpu.getLsbD 6 else s.iTrdy
    iTmt := if s.controlWrStrobe i then i.dataFromCpu.getLsbD 5 else s.iTmt
    iToe := if s.controlWrStrobe i then i.dataFromCpu.getLsbD 4 else s.iToe
    iRoe := if s.controlWrStrobe i then i.dataFromCpu.getLsbD 3 else s.iRoe
    sso := if s.controlWrStrobe i then i.dataFromCpu.getLsbD 10 else s.sso
    irqReg := (s.eop && s.iEop) || ((s.toe || s.roe) && s.iE) || (s.rrdy && s.iRrdy) ||
      (s.trdy && s.iTrdy) || (s.toe && s.iToe) || (s.roe && s.iRoe)
    slaveSelectReg := if s.writeShiftReg || (s.controlWrStrobe i && i.dataFromCpu.getLsbD 10 && !s.sso)
      then s.slaveSelectHoldingReg else s.slaveSelectReg
    slaveSelectHoldingReg := if s.slaveselectWrStrobe i then i.dataFromCpu else s.slaveSelectHoldingReg
    slowcount := s.p1Slowcount
    endofpacketvalueReg :=
      if s.endofpacketvalueWrStrobe i then i.dataFromCpu else s.endofpacketvalueReg
    dataToCpu := s.p1DataToCpu i
    state := if s.transmitting && s.slowclock then (if s.state = 17 then 0 else s.state + 1) else s.state
    stateZero := if s.transmitting && s.slowclock then s.state == 17 else s.stateZero }

/-! ### One register at a time -/

variable {i s}

theorem posedge_transmitting : (s.posedge i).transmitting =
    if s.transactionPrimed then false else s.writeShiftReg || s.transmitting := by
  simp only [posedge, shiftBlock, apply_ite SpiCore.transmitting, ite_self]
  cases s.transactionPrimed <;> cases s.writeShiftReg <;> rfl

theorem posedge_txHoldingPrimed : (s.posedge i).txHoldingPrimed =
    (s.writeTxHolding || (s.txHoldingPrimed && !s.writeShiftReg)) := by
  simp only [posedge, shiftBlock, apply_ite SpiCore.txHoldingPrimed, ite_self]
  cases s.writeTxHolding <;> cases s.writeShiftReg <;> simp

theorem posedge_txHoldingReg : (s.posedge i).txHoldingReg =
    if s.writeTxHolding then i.dataFromCpu.setWidth 8 else s.txHoldingReg := by
  simp only [posedge, shiftBlock, apply_ite SpiCore.txHoldingReg, ite_self]

theorem posedge_shiftReg : (s.posedge i).shiftReg =
    if s.slowclock && s.sclkReg && s.state ≠ 0 && s.state ≠ 1 then s.shiftReg.shiftConcat s.misoReg
    else if s.writeShiftReg then s.txHoldingReg else s.shiftReg := by
  simp only [posedge, shiftBlock, apply_ite SpiCore.shiftReg, ite_self]
  cases s.slowclock <;> cases s.sclkReg <;> simp

theorem posedge_misoReg : (s.posedge i).misoReg =
    if s.slowclock && !s.sclkReg then i.miso else s.misoReg := by
  simp only [posedge, shiftBlock, apply_ite SpiCore.misoReg, ite_self]
  cases s.slowclock <;> cases s.sclkReg <;> simp

theorem posedge_sclkReg : (s.posedge i).sclkReg =
    if s.slowclock && s.state ≠ 17 && s.state ≠ 0 && s.transmitting then !s.sclkReg
    else if s.transactionPrimed then true else s.sclkReg := by
  simp only [posedge, shiftBlock, apply_ite SpiCore.sclkReg, ite_self]
  by_cases h17 : s.state = 17#5 <;> by_cases h0 : s.state = 0#5 <;>
    cases s.slowclock <;> cases s.transmitting <;> simp [h17, h0]

theorem posedge_transactionPrimed : (s.posedge i).transactionPrimed =
    (s.slowclock && s.state == 17) := by
  simp only [posedge, shiftBlock, apply_ite SpiCore.transactionPrimed, ite_self]
  by_cases h17 : s.state = 17#5 <;> cases s.slowclock <;> cases s.transactionPrimed <;> simp [h17]

theorem posedge_rxHoldingReg : (s.posedge i).rxHoldingReg =
    if s.transactionPrimed then s.shiftReg else s.rxHoldingReg := by
  simp only [posedge, shiftBlock, apply_ite SpiCore.rxHoldingReg, ite_self]

theorem posedge_rrdy : (s.posedge i).rrdy =
    (s.transactionPrimed || (s.rrdy && !s.dataRdStrobe && !s.statusWrStrobe i)) := by
  simp only [posedge, shiftBlock, apply_ite SpiCore.rrdy, ite_self]
  cases s.transactionPrimed <;> cases s.dataRdStrobe <;> cases s.statusWrStrobe i <;> simp

theorem posedge_roe : (s.posedge i).roe =
    ((s.transactionPrimed && s.rrdy) || (s.roe && !s.statusWrStrobe i)) := by
  simp only [posedge, shiftBlock, apply_ite SpiCore.roe, ite_self]
  cases s.transactionPrimed <;> cases s.rrdy <;> cases s.statusWrStrobe i <;> simp

theorem posedge_toe : (s.posedge i).toe =
    (((s.dataWrStrobe && !s.trdy) || s.toe) && !s.statusWrStrobe i) := by
  simp only [posedge, shiftBlock, apply_ite SpiCore.toe, ite_self]
  cases s.statusWrStrobe i <;> cases s.dataWrStrobe <;> cases s.trdy <;> simp

end SpiCore

/-! ### Runs -/

/-- The core after `n` cycles from a reset. -/
def spiAt (is : ℕ → SpiIn) (n : ℕ) : SpiCore := stAt SpiCore.posedge SpiCore.reset is n

namespace SpiCore

variable (i : SpiIn) (s : SpiCore)

/-- `SCLK` rises at the end of the cycle. -/
def sclkRises : Bool := !s.sclk && (s.posedge i).sclk

/-- The bit of `MOSI` that a rising edge of `SCLK` clocks out. -/
def clockedOut : List Bool := if s.sclkRises i then [s.mosi] else []

/-- The bit of `MISO` that a rising edge of `SCLK` clocks in. -/
def clockedIn : List Bool := if s.sclkRises i then [i.miso] else []

/-- The same bit with `SS_n`, as the slaves see it. -/
def clockedTo : List (BitVec 16 × Bool) := if s.sclkRises i then [(s.ssN, s.mosi)] else []

/-- A byte the core accepts. -/
def accepted : List (BitVec 8) := if s.writeTxHolding then [i.dataFromCpu.setWidth 8] else []

/-- A byte that has come in and moves to `rxdata`. -/
def completed (_ : SpiIn) (s : SpiCore) : List (BitVec 8) := if s.transactionPrimed then [s.shiftReg] else []

end SpiCore

/-! ### The bus

A read and a write are two-cycle events. Which cycles make up an access is read off the bus here,
not off the strobes of the core. -/

/-- The bus asks for a write. -/
def SpiIn.writes (i : SpiIn) : Bool := i.spiSelect && !i.writeN

/-- The bus asks for a read. -/
def SpiIn.reads (i : SpiIn) : Bool := i.spiSelect && !i.readN

end BankVault
