import Mathlib.Data.BitVec

/-!
# The knock path: `debounce.sv` and `safe_tilt_and_unlock.sv`

Both modules run on `CLOCK_50`. `debounce` clears all its registers asynchronously
while `reset_n` is low; `safe_tilt_and_unlock` looks at `reset_n` at its clock edge
only. A step function takes `clk`, which says whether the module's clock rises at
this instant, and reads every other register at its value before the instant.
-/

namespace BankVault

/-- The registers of `debounce`. -/
structure Debounce where
  q1 : Bool
  q2 : Bool
  count : BitVec 4
  debouncedInput : Bool
  deriving DecidableEq, Repr

/-- The registers of `debounce` while `reset_n` is low. -/
def Debounce.cleared : Debounce := ⟨false, false, 0, false⟩

def Debounce.xorOut (d : Debounce) : Bool := d.q1 ^^ d.q2

/-- One clock edge of `debounce` with `reset_n` high: the two synchroniser
flip-flops, and the counter block with its three branches. -/
def Debounce.edge (rawInput : Bool) (d : Debounce) : Debounce :=
  let d' := { d with q1 := if rawInput then true else false, q2 := if d.q1 then true else false }
  if d.xorOut then { d' with count := 0 }
  else if d.count < 1 && !d.xorOut then { d' with count := d.count + 1 }
  else if d.count ≥ 1 then { d' with debouncedInput := d.q2, count := 0 }
  else d'

def Debounce.step (clk resetN rawInput : Bool) (d : Debounce) : Debounce :=
  if resetN = false then .cleared
  else if clk then d.edge rawInput
  else d

/-- The registers of `safe_tilt_and_unlock`, its debouncer's included. -/
structure SafeTilt where
  debounce1 : Debounce
  outputElmag : Bool
  unlockedFlag : Bool
  deriving DecidableEq, Repr

/-- The debounced knock level `debounceGood`. -/
def SafeTilt.debounceGood (s : SafeTilt) : Bool := s.debounce1.debouncedInput

/-- One instant of `safe_tilt_and_unlock`. The block samples `debounceGood` as it
stood before the edge. -/
def SafeTilt.step (clk resetN knockInput enable : Bool) (s : SafeTilt) : SafeTilt where
  debounce1 := s.debounce1.step clk resetN knockInput
  outputElmag :=
    if clk then
      if !resetN || !enable then true
      else if s.debounceGood then false
      else true
    else s.outputElmag
  unlockedFlag :=
    if clk then
      if !resetN || !enable then false
      else if s.debounceGood then true
      else false
    else s.unlockedFlag

variable {clk resetN raw enable : Bool}

/-- Off its clock the flag holds; at an edge it is the debounced level, gated by
`enable` and `reset_n`. -/
theorem SafeTilt.step_unlockedFlag (s : SafeTilt) :
    (s.step clk resetN raw enable).unlockedFlag =
      if clk then resetN && enable && s.debounceGood else s.unlockedFlag := by
  cases clk <;> cases resetN <;> cases enable <;> cases h : s.debounceGood <;> simp [SafeTilt.step, h]

/-- The magnet output is always the complement of the flag once either was written. -/
theorem SafeTilt.step_outputElmag (s : SafeTilt) (h : s.outputElmag = !s.unlockedFlag) :
    (s.step clk resetN raw enable).outputElmag = !(s.step clk resetN raw enable).unlockedFlag := by
  cases clk <;> cases resetN <;> cases enable <;> cases hg : s.debounceGood <;>
    simp [SafeTilt.step, hg, h]

/-! ### A line held low

With the raw input low the debouncer settles at a low output within four edges,
and the flag above it one edge later. -/

/-- How many more edges with a low raw input until the output is low for good. -/
def Debounce.settleRank (d : Debounce) : ℕ :=
  if d.q1 then 4
  else if d.q2 then 3
  else if d.debouncedInput then (if d.count < 1 then 2 else 1)
  else 0

theorem Debounce.settleRank_edge (d : Debounce) :
    (d.edge false).settleRank ≤ d.settleRank - 1 := by
  obtain ⟨q1, q2, count, out⟩ := d
  revert q1 q2 count out
  decide

/-- How many more edges with a low raw input until the flag is low for good. -/
def SafeTilt.settleRank (s : SafeTilt) : ℕ :=
  if s.debounce1.settleRank = 0 then (if s.unlockedFlag then 1 else 0)
  else s.debounce1.settleRank + 1

theorem SafeTilt.flag_of_settled {s : SafeTilt} (h : s.settleRank = 0) : s.unlockedFlag = false := by
  unfold SafeTilt.settleRank at h
  split_ifs at h with h1 h2
  simpa using h2

theorem SafeTilt.settleRank_step (s : SafeTilt) (clk enable : Bool) :
    (s.step clk true false enable).settleRank ≤ s.settleRank - if clk then 1 else 0 := by
  cases clk with
  | false => exact le_rfl
  | true =>
    have hd := s.debounce1.settleRank_edge
    have h0 : s.debounce1.settleRank = 0 → s.debounceGood = false := by
      unfold Debounce.settleRank SafeTilt.debounceGood
      split_ifs <;> simp_all
    have hf : (s.step true true false enable).unlockedFlag = (enable && s.debounceGood) :=
      s.step_unlockedFlag
    have hs : (s.step true true false enable).debounce1 = s.debounce1.edge false := rfl
    simp only [SafeTilt.settleRank, hs, if_true]
    by_cases hr : s.debounce1.settleRank = 0
    · rw [if_pos (by omega), if_pos hr, hf, h0 hr]
      simp
    · rw [if_neg hr]
      split_ifs <;> omega

end BankVault
