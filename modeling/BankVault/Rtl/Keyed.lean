import BankVault.Rtl.Keypad
import BankVault.Rtl.Vault

/-!
# The lock with its keypad

`bankVault` with `colseq` and `kpdecode` in front of it: the row lines `kpr` are pins,
`kpNum` is what `kpdecode` makes of them and of the scanned column. The value of `num`
in the don't-care branches is a second input, one value for each instant.
-/

namespace BankVault

open Clocked

/-- The pins of the board at one instant. -/
structure Pins where
  clk : Bool
  clock50 : Bool
  resetN : Bool
  kpr : BitVec 4
  adcValue : BitVec 12
  adcXValue : BitVec 12
  knockInput : Bool
  deriving DecidableEq, Repr

/-- The registers of the lock and of the column scanner. -/
@[ext]
structure Keyed where
  kpc : BitVec 4
  vault : Vault
  deriving DecidableEq, Repr

namespace Keyed

/-- The outputs of `kpdecode` at this instant. -/
def decode (p : Pins) (dontCare : BitVec 4) (s : Keyed) : KpDecode := kpdecode dontCare p.kpr s.kpc

/-- The event the lock sees. -/
def ev (p : Pins) (dontCare : BitVec 4) (s : Keyed) : Ev where
  clk := p.clk
  clock50 := p.clock50
  resetN := p.resetN
  kpNum := (s.decode p dontCare).num
  adcValue := p.adcValue
  adcXValue := p.adcXValue
  knockInput := p.knockInput

/-- One instant: the pins, and the value of a don't-care `num`. -/
def step (e : Pins × BitVec 4) (s : Keyed) : Keyed where
  kpc := colseqStep e.1.clk e.1.resetN e.1.kpr s.kpc
  vault := s.vault.step (s.ev e.1 e.2)

end Keyed

/-- The lock on the pins `ps`, with its don't-cares resolved by `d`, after `n` instants. -/
def kAt (s₀ : Keyed) (ps : ℕ → Pins) (d : ℕ → BitVec 4) (n : ℕ) : Keyed :=
  stAt Keyed.step s₀ (fun i => (ps i, d i)) n

theorem kAt_succ (s₀ : Keyed) (ps : ℕ → Pins) (d : ℕ → BitVec 4) (n : ℕ) :
    kAt s₀ ps d (n + 1) = (kAt s₀ ps d n).step (ps n, d n) := rfl

end BankVault
