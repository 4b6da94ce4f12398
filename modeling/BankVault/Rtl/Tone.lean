import BankVault.Clocked.Run
import Mathlib.Data.BitVec

/-!
# The tone generator: `tonegen.sv`

`tonegen` captures the frequency written to it at the falling edge of `clk`, divides the clock
frequency `fclk` by twice that value and toggles `spkr` when its counter has reached the
quotient. All of it is 32 bits wide and unsigned, the doubling included.

One cycle here is a rising edge of `clk` followed by the falling edge. What the divider makes
of a divisor 0 is not defined, and is an input.
-/

namespace BankVault

open Clocked

/-- The pins of `tonegen` over one cycle: `reset` at its rising edge, `write` and `writedata`
at its falling edge; `divX` is what a division by 0 gives at the rising edge. -/
structure ToneIn where
  reset : Bool
  write : Bool
  writedata : BitVec 32
  divX : BitVec 32
  deriving DecidableEq, Repr

/-- The registers of `tonegen`. -/
structure ToneGen where
  captureWriteData : BitVec 32
  fcount : BitVec 32
  spkr : Bool
  deriving DecidableEq, Repr

namespace ToneGen

/-- `2*capture_write_data`, at 32 bits. -/
def divisor (t : ToneGen) : BitVec 32 := 2 * t.captureWriteData

/-- `fcount_max`. -/
def fcountMax (fclk divX : BitVec 32) (t : ToneGen) : BitVec 32 :=
  if t.captureWriteData ≠ 0 then
    if t.divisor = 0 then divX else fclk / t.divisor
  else BitVec.allOnes 32

/-- `always_ff @ (posedge clk)`. -/
def posedgeClk (fclk : BitVec 32) (e : ToneIn) (t : ToneGen) : ToneGen :=
  if e.reset then { t with fcount := 1, spkr := false }
  else if t.fcount > t.fcountMax fclk e.divX - 1 then { t with spkr := !t.spkr, fcount := 1 }
  else { t with fcount := t.fcount + 1 }

/-- `always_ff @ (negedge clk)`. -/
def negedgeClk (e : ToneIn) (t : ToneGen) : ToneGen :=
  { t with captureWriteData := if e.write then e.writedata else t.captureWriteData }

/-- One cycle. -/
def cycle (fclk : BitVec 32) (e : ToneIn) (t : ToneGen) : ToneGen :=
  (t.posedgeClk fclk e).negedgeClk e

end ToneGen

/-- `tonegen` after `n` cycles. -/
def tAt (fclk : BitVec 32) (t₀ : ToneGen) (es : ℕ → ToneIn) (n : ℕ) : ToneGen :=
  stAt (ToneGen.cycle fclk) t₀ es n

/-- **The run starts in reset**: `reset` is high at the first rising edge and low from then
on. -/
structure ToneResets (es : ℕ → ToneIn) : Prop where
  high : (es 0).reset = true
  low : ∀ n, 0 < n → (es n).reset = false

/-- `spkr` toggles at the rising edge of cycle `n`. -/
def Toggles (fclk : BitVec 32) (t₀ : ToneGen) (es : ℕ → ToneIn) (n : ℕ) : Prop :=
  (tAt fclk t₀ es (n + 1)).spkr ≠ (tAt fclk t₀ es n).spkr

instance (fclk : BitVec 32) (t₀ : ToneGen) (es : ℕ → ToneIn) : DecidablePred (Toggles fclk t₀ es) :=
  fun _ => inferInstanceAs (Decidable (_ ≠ _))

/-- The rising edges of the cycles from `p` up to `q` all find the captured value `w`. -/
def Held (fclk : BitVec 32) (t₀ : ToneGen) (es : ℕ → ToneIn) (w : BitVec 32) (p q : ℕ) : Prop :=
  ∀ j, p ≤ j → j < q → (tAt fclk t₀ es j).captureWriteData = w

namespace ToneGen

variable {fclk divX : BitVec 32} {e : ToneIn} {t : ToneGen}

/-- The capture register moves at writes only. -/
theorem cycle_capture : (t.cycle fclk e).captureWriteData =
    if e.write then e.writedata else t.captureWriteData := by
  unfold cycle negedgeClk posedgeClk
  split_ifs <;> rfl

/-- The falling edge leaves the counter and `spkr` alone. -/
theorem cycle_fcount : (t.cycle fclk e).fcount = (t.posedgeClk fclk e).fcount := rfl

theorem cycle_spkr : (t.cycle fclk e).spkr = (t.posedgeClk fclk e).spkr := rfl

theorem posedgeClk_reset (h : e.reset = true) :
    t.posedgeClk fclk e = { t with fcount := 1, spkr := false } := if_pos h

theorem posedgeClk_run (h : e.reset = false) : t.posedgeClk fclk e =
    if t.fcount > t.fcountMax fclk e.divX - 1 then { t with spkr := !t.spkr, fcount := 1 }
    else { t with fcount := t.fcount + 1 } := by
  unfold posedgeClk
  exact if_neg (by simp [h])

/-- **A cycle with a limit of at least 1**: the counter fires at the limit or beyond it, and
counts up below it. -/
theorem cycle_counts (hr : e.reset = false) (hmax : t.fcountMax fclk e.divX ≠ 0) :
    ((t.cycle fclk e).fcount.toNat =
      if (t.fcountMax fclk e.divX).toNat ≤ t.fcount.toNat then 1 else t.fcount.toNat + 1) ∧
    ((t.cycle fclk e).spkr ≠ t.spkr ↔ (t.fcountMax fclk e.divX).toNat ≤ t.fcount.toNat) := by
  have hlimit : t.fcount > t.fcountMax fclk e.divX - 1 ↔
      (t.fcountMax fclk e.divX).toNat ≤ t.fcount.toNat := by bv_omega
  rw [cycle_fcount, cycle_spkr, posedgeClk_run hr]
  by_cases hfire : (t.fcountMax fclk e.divX).toNat ≤ t.fcount.toNat
  · rw [if_pos (hlimit.2 hfire), if_pos hfire]
    exact ⟨rfl, iff_of_true (Bool.not_ne_self t.spkr) hfire⟩
  · rw [if_neg (mt hlimit.1 hfire), if_neg hfire]
    refine ⟨?_, iff_of_false (fun h => h rfl) hfire⟩
    -- the counter is below a 32-bit limit, so it does not wrap
    change (t.fcount + 1).toNat = t.fcount.toNat + 1
    bv_omega

/-- **A cycle with the limit 0**: `fcount_max-1` is the greatest 32-bit value, so the counter
never fires. -/
theorem cycle_stuck (hr : e.reset = false) (hmax : t.fcountMax fclk e.divX = 0) :
    (t.cycle fclk e).spkr = t.spkr := by
  have hlimit : ¬ t.fcount > t.fcountMax fclk e.divX - 1 := by rw [hmax]; bv_omega
  rw [cycle_spkr, posedgeClk_run hr, if_neg hlimit]

end ToneGen

end BankVault
