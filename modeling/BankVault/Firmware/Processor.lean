import BankVault.Firmware.GraphicTop
import BankVault.Firmware.SpiDriver

/-!
# The processor: `processor_pio.v` and the program on the bus

`main` as it runs: it reads the lock's word from the PIO, draws by calls of
`alt_avalon_spi_command`, and writes the PIO in `CLEAR_DCN`. Between two of its accesses to
these two cores any number of cycles may pass, as in `frame_delay`. A read takes two cycles of the bus
and a write to the PIO one.

A run starts from a reset of the processor, with `main` about to execute its first `CLEAR_DCN`.
-/

namespace BankVault

open Clocked

/-! ### The PIO core -/

/-- The inputs over one clock cycle. -/
structure PioIn where
  address : BitVec 2
  chipselect : Bool
  writeN : Bool
  writedata : BitVec 32
  inPort : BitVec 32
  deriving DecidableEq, Repr

structure PioCore where
  dataOut : BitVec 32
  readdata : BitVec 32
  deriving DecidableEq, Repr

namespace PioCore

/-- The registers after a reset. -/
def reset : PioCore := ⟨3134983178, 0⟩

/-- One rising edge of `clk`. -/
def posedge (i : PioIn) (p : PioCore) : PioCore where
  dataOut := if i.chipselect && !i.writeN && i.address = 0 then i.writedata else p.dataOut
  readdata := if i.address = 0 then i.inPort else 0

/-- `out_port`. -/
def outPort (p : PioCore) : BitVec 32 := p.dataOut

end PioCore

namespace Firmware

/-- `*(int*)PIO_BASE` and `*(int*)PIO_BASE = data`. -/
inductive PioAccess
  | read
  | write (data : BitVec 32)
  deriving DecidableEq, Repr

/-- A cycle in which the core is not selected. -/
def idlePio (i : PioIn) : PioIn := { i with chipselect := false }

def PioAccess.pins (a : PioAccess) (i : PioIn) : PioIn :=
  match a with
  | .read => { i with address := 0, chipselect := true, writeN := true }
  | .write data => { i with address := 0, chipselect := true, writeN := false, writedata := data }

/-! ### The program -/

/-- The access the program makes next. -/
inductive CpuPc
  | poll
  | dcnRead
  | dcnWrite (data : BitVec 32)
  | call
  deriving DecidableEq, Repr

/-- The processor: `main`'s variables, the calls of the SPI driver it has still to make, the
first of them possibly under way in `link`, and the two cores. -/
structure Processor where
  main : Main
  pc : CpuPc
  todo : List SpiCommand
  link : Link
  pio : PioCore

/-- The inputs of both cores over one cycle. -/
structure BusIn where
  spi : SpiIn
  pio : PioIn
  deriving DecidableEq, Repr

/-- The program lets a cycle pass, or makes its next access. -/
inductive BusEv
  | stall (i : BusIn)
  | access (i₁ i₂ : BusIn)
  deriving DecidableEq, Repr

def BusEv.isAccess : BusEv → Prop
  | .stall _ => False
  | .access _ _ => True

instance (e : BusEv) : Decidable e.isAccess :=
  match e with
  | .stall _ => isFalse id
  | .access _ _ => isTrue trivial

/-- `DCN_MASK`. -/
abbrev dcnMask : BitVec 32 := 0x00000001

/-- The arguments of a call in `graphic_top`: slave 0, and no flags. -/
def SpiCommand.args (c : SpiCommand) : SpiArgs where
  slave := 0
  writeData := c.writeData
  readLength := c.readLength
  toggleSsN := false
  merge := false

namespace Processor

variable (p : Processor)

/-- The first of the calls to be made begins; with none left the loop is at its read. -/
def begin : Processor :=
  match p.todo with
  | [] => { p with pc := .poll }
  | c :: _ =>
    { p with
      pc := .call
      link := { p.link with args := c.args, driver := SpiDriver.start c.args } }

/-- The program, up to its next access: `clear_screen` executes `CLEAR_DCN` before its call. -/
def resume : Processor :=
  match p.todo with
  | ⟨.clearScreen, _, _⟩ :: _ => { p with pc := .dcnRead }
  | _ => p.begin

/-- One iteration of the loop, on the word it has read. -/
def iterate (w : BitVec 32) : Processor :=
  resume { p with main := p.main.iteration w, todo := (p.main.iteration w).sent }

/-- A call is over once it has returned. -/
def finish : Processor :=
  if p.link.driver.pc = .returned then resume { p with todo := p.todo.tail } else p

/-- A cycle of the SPI core without an access. -/
def idleCycle (i : SpiIn) : Processor := { p with link := p.link.step (.stall i) }

/-- One event. A read of the PIO takes the word that stands in `readdata` in its second cycle. -/
def step (e : BusEv) (p : Processor) : Processor :=
  match e, p.pc with
  | .stall i, _ => { p.idleCycle i.spi with pio := p.pio.posedge (idlePio i.pio) }
  | .access i₁ i₂, .poll =>
    let pio₁ := p.pio.posedge (PioAccess.read.pins i₁.pio)
    iterate { (p.idleCycle i₁.spi).idleCycle i₂.spi with
      pio := pio₁.posedge (PioAccess.read.pins i₂.pio) } pio₁.readdata
  | .access i₁ i₂, .dcnRead =>
    let pio₁ := p.pio.posedge (PioAccess.read.pins i₁.pio)
    { (p.idleCycle i₁.spi).idleCycle i₂.spi with
      pc := .dcnWrite (pio₁.readdata &&& ~~~dcnMask)
      pio := pio₁.posedge (PioAccess.read.pins i₂.pio) }
  | .access i₁ _, .dcnWrite data =>
    begin { p.idleCycle i₁.spi with pio := p.pio.posedge ((PioAccess.write data).pins i₁.pio) }
  | .access i₁ i₂, .call =>
    finish { p with
      link := p.link.step (.access i₁.spi i₂.spi)
      pio := (p.pio.posedge (idlePio i₁.pio)).posedge (idlePio i₂.pio) }

/-- The processor after a reset. -/
def reset : Processor where
  main := Main.boot
  pc := .dcnRead
  todo := Main.boot.sent
  link := ⟨⟨0, [], 0, false, false⟩, { SpiDriver.start ⟨0, [], 0, false, false⟩ with pc := .returned }, SpiCore.reset⟩
  pio := PioCore.reset

/-! ### Observations -/

/-- The events of the SPI core in an event of the program. -/
def linkEvents (e : BusEv) (p : Processor) : List LinkEv :=
  match e, p.pc with
  | .stall i, _ => [.stall i.spi]
  | .access i₁ i₂, .poll => [.stall i₁.spi, .stall i₂.spi]
  | .access i₁ i₂, .dcnRead => [.stall i₁.spi, .stall i₂.spi]
  | .access i₁ _, .dcnWrite _ => [.stall i₁.spi]
  | .access i₁ i₂, .call => [.access i₁.spi i₂.spi]

/-- What the cycles of the SPI core in an event yield. -/
def observe {α : Type*} (f : SpiIn → SpiCore → List α) (e : BusEv) (p : Processor) : List α :=
  match p.linkEvents e with
  | [] => []
  | [a] => p.link.observe f a
  | a :: b :: _ => p.link.observe f a ++ (p.link.step a).observe f b

/-- A bit as the panel takes it: at a rising edge of `rgb_clk` with `rgb_cs` low. -/
def panelBit (i : SpiIn) (s : SpiCore) : List Bool :=
  (s.clockedTo i).flatMap fun x => if x.1.getLsbD 0 then [] else [x.2]

/-- The word that an event reads in the loop. -/
def polled (e : BusEv) (p : Processor) : List (BitVec 32) :=
  match e, p.pc with
  | .access i₁ _, .poll => [i₁.pio.inPort]
  | _, _ => []

end Processor

/-- The processor after `n` events from a reset. -/
def processorAt (es : ℕ → BusEv) (n : ℕ) : Processor := stAt Processor.step Processor.reset es n

/-- What the events before `n` yield. -/
abbrev processorLog {α : Type*} (es : ℕ → BusEv) (f : SpiIn → SpiCore → List α) (n : ℕ) : List α :=
  log Processor.step Processor.reset es (Processor.observe f) n

/-- The bits that the panel has taken before event `n`. -/
abbrev panelBits (es : ℕ → BusEv) (n : ℕ) : List Bool := processorLog es Processor.panelBit n

/-- The words that `main` has read before event `n`. -/
def polledWords (es : ℕ → BusEv) (n : ℕ) : List (BitVec 32) :=
  log Processor.step Processor.reset es Processor.polled n

end Firmware

end BankVault
