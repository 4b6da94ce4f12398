import BankVault.Firmware.Panel
import BankVault.Firmware.Processor
import BankVault.Rtl.StateLogic

/-!
# The lock, the processor and the panel

`bankVault` as a whole: `rgb_input` of the lock is on `gpio_in_port` of the processor, and the
panel is on the processor's SPI pins. The processor runs at its own pace; `t n` is the instant of
the lock at which its event `n` takes place. Its reset `rgb_res` is never low (`res_high`), so a run of the
lock has one run of the processor.
-/

namespace BankVault

open Clocked

namespace Firmware

open Wire

/-- **The wiring**: in every access of the processor `in_port` is `rgb_input`, which `state_logic`
makes of the axis registers (`adc_y` reaches nothing else of the lock), `rgb_output` and the
state. -/
structure Wired (s₀ : Vault) (vs : ℕ → Ev) (adcY : ℕ → BitVec 12) (es : ℕ → BusEv) (t : ℕ → ℕ) : Prop where
  mono : Monotone t
  word : ∀ n i₁ i₂, es n = .access i₁ i₂ → i₁.pio.inPort =
    rgbInput (vs (t n)).adcXValue (adcY (t n)) (processorAt es n).pio.outPort
      (vAt s₀ vs (t n)).currentState

/-- The panel before event `n` of the processor, from a framebuffer and a fill mode of any kind. -/
def panelAt (p₀ : Panel) (es : ℕ → BusEv) (n : ℕ) : Panel :=
  (deliver ⟨[], p₀⟩ (assemble 8 (panelBits es n))).device

/-- `main` has entered its loop. -/
def Booted (es : ℕ → BusEv) (n : ℕ) : Prop := ∃ m, m ≤ n ∧ (processorAt es m).pc = .poll

end Firmware

end BankVault
