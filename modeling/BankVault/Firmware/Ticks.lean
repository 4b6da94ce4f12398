import BankVault.Clocked.Flow
import BankVault.Rtl.Timer

/-!
# The system clock: `altera_avalon_timer_sc.c`, `alt_tick.c` and `frame_delay`

The timer interrupts the processor; the handler acknowledges the interrupt and counts a tick in
`_alt_nticks`. `frame_delay` waits until `clock()`, which returns `_alt_nticks`, has passed its value at
the call. The two programs share the processor: in each cycle either of them makes its next access
or the cycle passes, and `main` makes none while the handler runs.

The alarms that `alt_tick` runs after counting, and what `main` does outside `frame_delay`, do not touch the
timer or the count; the cycles they take are stalls here.
-/

namespace BankVault

open Clocked

namespace Firmware

/-- What `alt_avalon_timer_sc_irq` does next; `out` when it is not running. -/
inductive IrqPc
  | out
  | clear
  | dummyRead
  | tick
  deriving DecidableEq, Repr

/-- Where `main` is: in `alt_avalon_timer_sc_init`, outside `frame_delay`, or in its loop. -/
inductive DelayPc
  | init
  | work
  | waiting (startTime : BitVec 32)
  deriving DecidableEq, Repr

/-- Whose turn it is. -/
inductive Turn
  | stall
  | handler
  | main
  deriving DecidableEq, Repr

/-- One cycle, with the lines of the timer as far as no access drives them. -/
structure TickEv where
  turn : Turn
  lines : TimerIn
  deriving DecidableEq, Repr

/-- The timer, the two programs and `_alt_nticks`. -/
structure Ticking where
  timer : Timer
  irq : IrqPc
  main : DelayPc
  nticks : BitVec 32
  deriving DecidableEq, Repr

namespace Ticking

/-- A reset of the processor. -/
def reset : Ticking := ⟨Timer.reset, .out, .init, 0⟩

variable (e : TickEv) (s : Ticking)

/-- `main` makes its next access: it is its turn, and the handler is not running. -/
def mainRuns : Bool := e.turn == .main && s.irq == .out

def handlerRuns : Bool := e.turn == .handler

/-- The handler writes the status register. -/
def clears : Bool := handlerRuns e && s.irq == .clear

/-- The handler counts a tick. -/
def ticks : Bool := handlerRuns e && s.irq == .tick

/-- The inputs of the timer: of the accesses only one drives them, in one cycle. -/
def timerIn : TimerIn :=
  if s.clears e then { address := 0, chipselect := true, writeN := false, writedata := 0 }
  else if handlerRuns e && s.irq == .dummyRead then
    { e.lines with address := 1, chipselect := true, writeN := true }
  else if s.mainRuns e && s.main == .init then
    -- `ITO`, `CONT` and `START`
    { address := 1, chipselect := true, writeN := false, writedata := 7 }
  else { e.lines with chipselect := false }

/-- `alt_avalon_timer_sc_irq`, entered when the timer requests an interrupt. -/
def nextIrq : IrqPc :=
  match s.irq with
  | .out => if s.timer.irq then .clear else .out
  | .clear => .dummyRead
  | .dummyRead => .tick
  | .tick => .out

/-- `clock() < (start_time + (int)1)`. -/
def tooEarly (startTime : BitVec 32) : Bool := s.nticks < startTime + 1

/-- `alt_avalon_timer_sc_init`, and then one `frame_delay` after the other. -/
def nextMain : DelayPc :=
  match s.main with
  | .init => .work
  | .work => .waiting s.nticks
  | .waiting startTime => if s.tooEarly startTime then .waiting startTime else .work

/-- One cycle. -/
def step : Ticking where
  timer := s.timer.posedge (s.timerIn e)
  irq := if handlerRuns e then s.nextIrq else s.irq
  main := if s.mainRuns e then s.nextMain else s.main
  nticks := if s.ticks e then s.nticks + 1 else s.nticks

/-- A timeout of the timer. -/
def timesOut (_ : TickEv) (s : Ticking) : Bool := s.timer.timeoutEvent

/-- A timeout that finds the one before it still unacknowledged. -/
def loses (_ : TickEv) (s : Ticking) : Bool := s.timer.timeoutEvent && s.timer.timeoutOccurred

/-- `frame_delay` is called. -/
def calls : Bool := s.mainRuns e && s.main == .work

/-- `frame_delay` returns. -/
def returns : Bool :=
  s.mainRuns e && match s.main with
    | .waiting startTime => !s.tooEarly startTime
    | _ => false

end Ticking

/-- The clock after `n` cycles. -/
def tAt (es : ℕ → TickEv) (n : ℕ) : Ticking := stAt Ticking.step Ticking.reset es n

/-- How many of the cycles before `n` satisfy `p`. -/
def countOf (p : TickEv → Ticking → Bool) (es : ℕ → TickEv) (n : ℕ) : ℕ :=
  tally Ticking.step Ticking.reset es (fun e s => (p e s).toNat) n

/-- The timer is started at cycle `a`. -/
def Started (es : ℕ → TickEv) (a : ℕ) : Prop := (tAt es a).main = .init ∧ (tAt es a).mainRuns (es a) = true

/-- The cycle of timeout `k`, counted from 0, of a timer started at `a`. -/
def timeoutAt (a k : ℕ) : ℕ := a + 50000 * (k + 1)

end Firmware

end BankVault
