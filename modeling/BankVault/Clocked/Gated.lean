import Mathlib.Order.Basic

/-!
# A clock gated by a register

A machine with a clock `clk` and a second clock, `clk` gated by a predicate of the registers:
the gated clock is `clk` where `gate` holds and low elsewhere. An edge of `clk` takes its
course in the order of a hardware description language with nonblocking assignments:

* the gated clock is re-evaluated while the registers still hold their old values;
* the blocks of the edges so far run on the old values, and their updates take effect;
* the gated clock is re-evaluated with the new values, and the blocks of its edge run.

So a gate that is a register of `clk` itself opens and closes just after a rising edge of
`clk`: the gated clock rises late when it opens, and once more, for no time at all, when it
closes (`rise_leave`).
-/

namespace Clocked

variable {σ ε : Type*}

/-- The blocks of a machine with a gated clock, `ε` being the pins of one cycle. The blocks of
the gated clock get the registers as they were when the block ran, and the registers their
updates are applied to. -/
structure Gated (σ ε : Type*) where
  gate : σ → Bool
  posClk : ε → σ → σ
  negClk : ε → σ → σ
  posGated : ε → σ → σ → σ
  negGated : ε → σ → σ → σ

namespace Gated

variable (m : Gated σ ε)

/-- The gated clock goes from `old` to `new`. -/
def edge (e : ε) (old new : Bool) (read s : σ) : σ :=
  if !old && new then m.posGated e read s
  else if old && !new then m.negGated e read s
  else s

/-- A rising edge of `clk`: the gated clock was low before it. -/
def rise (e : ε) (s : σ) : σ :=
  let s₁ := m.edge e false (m.gate s) s (m.posClk e s)
  m.edge e (m.gate s) (m.gate s₁) s₁ s₁

/-- A falling edge of `clk`: the gated clock is low after it. -/
def fall (e : ε) (s : σ) : σ := m.edge e (m.gate s) false s (m.negClk e s)

/-- One cycle. -/
def cycle (e : ε) (s : σ) : σ := m.fall e (m.rise e s)

/-- The blocks of the gated clock leave its gate alone. -/
structure Settles : Prop where
  pos : ∀ e read s, m.gate (m.posGated e read s) = m.gate s
  neg : ∀ e read s, m.gate (m.negGated e read s) = m.gate s

variable {m} {e : ε} {s : σ}

/-- Outside the gate only the blocks of `clk` run. -/
theorem rise_idle (hs : m.gate s = false) (h1 : m.gate (m.posClk e s) = false) :
    m.rise e s = m.posClk e s := by
  simp [rise, edge, hs, h1]

/-- **The gate opens**: a late rising edge, which finds the new values. -/
theorem rise_enter (hs : m.gate s = false) (h1 : m.gate (m.posClk e s) = true) :
    m.rise e s = m.posGated e (m.posClk e s) (m.posClk e s) := by
  simp [rise, edge, hs, h1]

/-- **The gate stays open**: a rising edge, which finds the old values. -/
theorem rise_within (hm : m.Settles) (hs : m.gate s = true) (h1 : m.gate (m.posClk e s) = true) :
    m.rise e s = m.posGated e s (m.posClk e s) := by
  simp [rise, edge, hs, hm.pos, h1]

/-- **The gate closes**: a rising edge, which finds the old values, and at once a falling
edge. -/
theorem rise_leave (hm : m.Settles) (hs : m.gate s = true) (h1 : m.gate (m.posClk e s) = false) :
    m.rise e s = m.negGated e (m.posGated e s (m.posClk e s)) (m.posGated e s (m.posClk e s)) := by
  simp [rise, edge, hs, hm.pos, h1]

theorem fall_idle (hs : m.gate s = false) : m.fall e s = m.negClk e s := by
  simp [fall, edge, hs]

theorem fall_within (hs : m.gate s = true) : m.fall e s = m.negGated e s (m.negClk e s) := by
  simp [fall, edge, hs]

end Gated

end Clocked
