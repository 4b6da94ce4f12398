import BankVault.Rtl.Spi
import Mathlib.Data.Fintype.Basic

/-!
# The timing of a byte

While a byte is sent, `slowcount`, `state`, `SCLK` and the two flags count through 91 cycles
that depend on nothing else: 18 slots of five cycles, and one cycle in which the byte moves to
`rxdata`. `SCLK` falls at the end of the odd slots 1 to 15 and rises at the end of the even ones.

* `step_idle`, `step_inByte`, `step_last`: from one cycle to the next.
* `moves_inByte`: which edges of `SCLK` and which shifts take place there.
* `ctrl_posedge`: these registers of the core count as described.
-/

namespace BankVault

open Wire

/-- The registers that count through a byte. -/
@[ext]
structure SpiCtrl where
  transmitting : Bool
  transactionPrimed : Bool
  slowcount : BitVec 3
  state : BitVec 5
  stateZero : Bool
  sclkReg : Bool
  deriving DecidableEq, Repr

namespace SpiCtrl

/-- One cycle of them; `load` says that a byte waits in `tx_holding_reg`. -/
def step (load : Bool) (k : SpiCtrl) : SpiCtrl where
  transmitting := if k.transactionPrimed then false else load || k.transmitting
  transactionPrimed := k.slowcount == 4 && k.state == 17
  slowcount := if k.transmitting && !(k.slowcount == 4) then k.slowcount + 1 else 0
  state := if k.transmitting && k.slowcount == 4 then (if k.state = 17 then 0 else k.state + 1) else k.state
  stateZero := if k.transmitting && k.slowcount == 4 then k.state == 17 else k.stateZero
  sclkReg :=
    if k.slowcount == 4 && k.state ≠ 17 && k.state ≠ 0 && k.transmitting then !k.sclkReg
    else if k.transactionPrimed then true else k.sclkReg

/-- Nothing is sent; `slowcount` is 1 in the cycle after a byte. -/
def idle (after : Bool) : SpiCtrl := ⟨false, false, if after then 1 else 0, 0, true, true⟩

/-- Cycle `c` of a byte. -/
def inByte (c : ℕ) : SpiCtrl where
  transmitting := true
  transactionPrimed := c == 90
  slowcount := BitVec.ofNat 3 (c % 5)
  state := BitVec.ofNat 5 (c / 5 % 18)
  stateZero := c / 5 % 18 == 0
  sclkReg := !(decide (10 ≤ c) && decide (c < 85) && decide (c / 5 % 2 = 0))

/-- `SCLK` rises at the end of cycle `c`. -/
def risesAt (c : ℕ) : Bool := decide (10 < c) && decide (c < 90) && decide (c % 10 = 4)

/-- The register shifts at the end of cycle `c`. -/
def shiftsAt (c : ℕ) : Bool := decide (10 < c) && decide (c < 90) && decide (c % 10 = 9)

/-- How many bits have been clocked out before cycle `c`. -/
def sentAt (c : ℕ) : ℕ := (c - 5) / 10

/-- How often the register has shifted before cycle `c`. -/
def shiftedAt (c : ℕ) : ℕ := c / 10 - 1

theorem step_idle (after load : Bool) :
    (idle after).step load = if load then inByte 0 else idle false := by
  revert after load; decide

theorem step_inByte {c : ℕ} (hc : c < 90) (load : Bool) (hl : load = false) :
    (inByte c).step load = inByte (c + 1) := by
  subst hl
  revert c
  decide

theorem step_last (load : Bool) (hl : load = false) : (inByte 90).step load = idle true := by
  subst hl; decide

/-- What the counters do at the end of a cycle. -/
theorem moves_inByte {c : ℕ} (hc : c ≤ 90) :
    ((inByte c).slowcount == 4 && !(inByte c).sclkReg) = risesAt c ∧
    ((inByte c).slowcount == 4 && (inByte c).sclkReg && (inByte c).state ≠ 0 && (inByte c).state ≠ 1) =
      shiftsAt c ∧
    (c < 90 → (!(inByte c).sclkReg && (inByte (c + 1)).sclkReg) = risesAt c) ∧
    (c < 90 → risesAt c = true → (inByte c).stateZero = false) := by
  have key : ∀ c : Fin 91,
      ((inByte c).slowcount == 4 && !(inByte c).sclkReg) = risesAt c ∧
      ((inByte c).slowcount == 4 && (inByte c).sclkReg && (inByte c).state ≠ 0 && (inByte c).state ≠ 1) =
        shiftsAt c ∧
      ((c : ℕ) < 90 → (!(inByte c).sclkReg && (inByte (c + 1)).sclkReg) = risesAt c) ∧
      ((c : ℕ) < 90 → risesAt c = true → (inByte c).stateZero = false) := by decide
  exact key ⟨c, by omega⟩

theorem sentAt_succ (c : ℕ) (hc : c < 90) : sentAt (c + 1) = sentAt c + if risesAt c then 1 else 0 := by
  unfold sentAt risesAt
  simp only [Bool.and_eq_true, decide_eq_true_eq]
  split_ifs <;> omega

theorem shiftedAt_succ (c : ℕ) (hc : c < 90) :
    shiftedAt (c + 1) = shiftedAt c + if shiftsAt c then 1 else 0 := by
  unfold shiftedAt shiftsAt
  simp only [Bool.and_eq_true, decide_eq_true_eq]
  split_ifs <;> omega

/-- The shifts follow the rising edges, one each. -/
theorem shifted_sent {c : ℕ} (hc : c ≤ 90) :
    shiftedAt c ≤ sentAt c ∧ sentAt c ≤ shiftedAt c + 1 ∧ sentAt c ≤ 8 ∧
    (risesAt c = true → sentAt c = shiftedAt c ∧ sentAt c < 8 ∧ shiftsAt c = false) ∧
    (shiftsAt c = true → sentAt c = shiftedAt c + 1) := by
  unfold shiftedAt sentAt risesAt shiftsAt
  simp only [Bool.and_eq_true, Bool.and_eq_false_iff, decide_eq_true_eq, decide_eq_false_iff_not]
  omega

/-- Idle, or in one of the cycles of a byte. -/
def Legal (k : SpiCtrl) : Prop := (∃ after, k = idle after) ∨ ∃ c, c ≤ 90 ∧ k = inByte c

/-- Which cycle of a byte it is. -/
def position (k : SpiCtrl) : ℕ :=
  if k.transactionPrimed then 90 else 5 * k.state.toNat + k.slowcount.toNat

theorem position_inByte {c : ℕ} (hc : c ≤ 90) : (inByte c).position = c := by
  have key : ∀ c : Fin 91, (inByte c).position = c := by decide
  exact key ⟨c, by omega⟩

end SpiCtrl

namespace SpiCore

variable {i : SpiIn} {s : SpiCore}

/-- The counters of the core. -/
def ctrl (s : SpiCore) : SpiCtrl :=
  ⟨s.transmitting, s.transactionPrimed, s.slowcount, s.state, s.stateZero, s.sclkReg⟩

/-- **The counters run on their own**; all they wait for is a byte to send. -/
theorem ctrl_posedge : (s.posedge i).ctrl = s.ctrl.step s.writeShiftReg := by
  apply SpiCtrl.ext
  · exact posedge_transmitting
  · exact posedge_transactionPrimed
  · rfl
  · rfl
  · rfl
  · exact posedge_sclkReg

end SpiCore

end BankVault
