import BankVault.Rtl.Spi
import BankVault.Firmware.Image

/-!
# The SPI driver: `altera_avalon_spi.c`

`alt_avalon_spi_command` sends some bytes through the SPI core and reads some back. It runs on
the processor and sees the core through bus accesses only, of two clock cycles each; between
two of them any number of cycles may pass. `SpiDriver` is its control point and its local
variables, `Link` a call of it together with the core.

The lengths are counts of bytes: `write_end` and `read_end` are where the lists end. Stores through
`read_data` are collected in `readData`.
-/

namespace BankVault

open Clocked

namespace Firmware

/-- The arguments of a call; the two flags are bits of `flags`. -/
structure SpiArgs where
  slave : ℕ
  writeData : List Byte
  readLength : ℕ
  toggleSsN : Bool
  merge : Bool
  deriving DecidableEq, Repr

/-- A bus access to a register of the core. -/
inductive SpiAccess
  | read (addr : BitVec 3)
  | write (addr : BitVec 3) (data : BitVec 16)
  deriving DecidableEq, Repr

abbrev rxdataReg : BitVec 3 := 0
abbrev txdataReg : BitVec 3 := 1
abbrev statusReg : BitVec 3 := 2
abbrev controlReg : BitVec 3 := 3
abbrev slaveSelReg : BitVec 3 := 5

/-- The access a call makes next. -/
inductive SpiPc
  | slaveSel
  | sso
  | discard
  | status
  | txdata (v : Byte)
  | rxdata
  | tmt
  | release
  | returned
  deriving DecidableEq, Repr

/-- The local variables. -/
structure SpiDriver where
  pc : SpiPc
  writeData : List Byte
  writeZeros : ℕ
  readIgnore : ℕ
  readData : List Byte
  credits : ℤ
  status : BitVec 16
  deriving DecidableEq, Repr

namespace SpiDriver

variable (a : SpiArgs) (w : BitVec 16) (d : SpiDriver)

/-- The entry of the function. -/
def start : SpiDriver where
  pc := .slaveSel
  writeData := a.writeData
  writeZeros := a.readLength
  readIgnore := a.writeData.length
  readData := []
  credits := 1
  status := 0

def access : Option SpiAccess :=
  match d.pc with
  | .slaveSel => some (.write slaveSelReg (1#16 <<< a.slave))
  | .sso => some (.write controlReg 0x400)
  | .discard => some (.read rxdataReg)
  | .status => some (.read statusReg)
  | .txdata v => some (.write txdataReg (v.setWidth 16))
  | .rxdata => some (.read rxdataReg)
  | .tmt => some (.read statusReg)
  | .release => some (.write controlReg 0)
  | .returned => none

def trdy : Bool := w &&& 0x40 ≠ 0

def rrdy : Bool := w &&& 0x80 ≠ 0

def tmt : Bool := w &&& 0x20 ≠ 0

/-- The second `if` of the loop. -/
def readIfReady : SpiDriver := if rrdy d.status then { d with pc := .rxdata } else { d with pc := .status }

/-- The loop, from the status it has read to its next access. -/
def gotStatus : SpiDriver :=
  let d := { d with status := w }
  if (!trdy w || d.credits = 0) && !rrdy w then d
  else if trdy w && d.credits > 0 then
    let d := { d with credits := d.credits - 1 }
    match d.writeData with
    | v :: vs => { d with pc := .txdata v, writeData := vs }
    | [] =>
      if d.writeZeros > 0 then { d with pc := .txdata 0, writeZeros := d.writeZeros - 1 }
      else { d with credits := -1024 }.readIfReady
  else d.readIfReady

/-- The loop, from the byte it has read back to its next access. -/
def gotRxdata : SpiDriver :=
  let d := if d.readIgnore > 0 then { d with readIgnore := d.readIgnore - 1 }
    else { d with readData := d.readData ++ [w.setWidth 8] }
  let d := { d with credits := d.credits + 1 }
  if d.readIgnore = 0 ∧ d.readData.length = a.readLength then { d with pc := .tmt }
  else { d with pc := .status }

/-- The next access, on the word `w` that this one has read. -/
def next : SpiDriver :=
  match d.pc with
  | .slaveSel => { d with pc := if a.toggleSsN then .discard else .sso }
  | .sso => { d with pc := .discard }
  | .discard => { d with pc := .status }
  | .status => d.gotStatus w
  | .txdata _ => d.readIfReady
  | .rxdata => d.gotRxdata a w
  | .tmt => if tmt w then { d with pc := if a.merge then .returned else .release } else d
  | .release => { d with pc := .returned }
  | .returned => d

end SpiDriver

/-! ### The bus -/

/-- A cycle in which the core is not selected; all the other lines are free. -/
def idlePins (i : SpiIn) : SpiIn := { i with spiSelect := false }

/-- A cycle of an access; the lines it does not use are free. -/
def SpiAccess.pins (a : SpiAccess) (i : SpiIn) : SpiIn :=
  match a with
  | .read addr => { i with spiSelect := true, readN := false, writeN := true, memAddr := addr }
  | .write addr data =>
    { i with spiSelect := true, readN := true, writeN := false, memAddr := addr, dataFromCpu := data }

/-- A call, and the core. -/
structure Link where
  args : SpiArgs
  driver : SpiDriver
  core : SpiCore
  deriving DecidableEq, Repr

/-- The processor lets a cycle pass, or makes its next access. -/
inductive LinkEv
  | stall (i : SpiIn)
  | access (i₁ i₂ : SpiIn)
  deriving DecidableEq, Repr

def LinkEv.isAccess : LinkEv → Prop
  | .stall _ => False
  | .access _ _ => True

namespace Link

/-- The cycles of the core in an event. -/
def inputs (e : LinkEv) (l : Link) : List SpiIn :=
  match e, l.driver.access l.args with
  | .stall i, _ => [idlePins i]
  | .access i₁ _, none => [idlePins i₁]
  | .access i₁ i₂, some a => [a.pins i₁, a.pins i₂]

/-- One event. An access reads the word that stands in `data_to_cpu` in its second cycle. -/
def step (e : LinkEv) (l : Link) : Link where
  args := l.args
  driver :=
    match e, l.driver.access l.args with
    | .stall _, _ => l.driver
    | .access _ _, none => l.driver
    | .access i₁ _, some a => l.driver.next l.args (l.core.posedge (a.pins i₁)).dataToCpu
  core := (l.inputs e).foldl (fun s i => s.posedge i) l.core

/-- What the cycles of an event yield. -/
def observe {α : Type*} (f : SpiIn → SpiCore → List α) (e : LinkEv) (l : Link) : List α :=
  match l.inputs e with
  | [] => []
  | [i] => f i l.core
  | i₁ :: i₂ :: _ => f i₁ l.core ++ f i₂ (l.core.posedge i₁)

end Link

/-- A call of `alt_avalon_spi_command` after `n` events, on a core in the state `s₀`. -/
def linkAt (a : SpiArgs) (s₀ : SpiCore) (es : ℕ → LinkEv) (n : ℕ) : Link :=
  stAt Link.step ⟨a, SpiDriver.start a, s₀⟩ es n

/-- What the events before `n` yield. -/
abbrev linkLog {α : Type*} (a : SpiArgs) (s₀ : SpiCore) (es : ℕ → LinkEv)
    (f : SpiIn → SpiCore → List α) (n : ℕ) : List α :=
  log Link.step ⟨a, SpiDriver.start a, s₀⟩ es (Link.observe f) n

end Firmware

end BankVault
