import BankVault.Clocked.Phase
import BankVault.Rtl.Adc

/-!
# The phases of `adcinterface`

The interface walks through sixteen phases, one cycle each: 0 is the cycle in `RESET`, 1 to 3
are the cycles in `ARM`, 4 to 15 those in `SCK_CYCLE`. A cycle with `reset_n` low is spent in
`RESET` too and leads to phase 1. So the phase is a function of the resets alone
(`adcPhase`), whatever the data registers hold.

* `adc_phase`: the control registers in every cycle of every run.
* `run_reset`, `run_arm`, `run_shift`: what a cycle does to the other registers.
* `shift_run`: what the first `k` pulses of a frame leave in them.
* `lead_in`: the four cycles before the first pulse of a frame.
-/

namespace BankVault

open Clocked AdcInterface

namespace AdcInterface

/-- The control registers at a phase; a reset may leave `ADC_CONVST` high in phase 1. -/
def PhaseAt : ℕ → AdcInterface → Prop
  | 1, a => a.nextState = sArm ∧ a.armFlag = false ∧ a.sckCount = 0
  | p, a => At p a

variable {pins : AdcPins} {a : AdcInterface}

/-- A cycle with `reset_n` low publishes the shift register and starts over. -/
theorem pinCycle_low (h : pins.resetN = false) : pinCycle pins a =
    { a with currentState := sReset, armFlag := false, sckCount := 0, nextState := sArm,
             result := a.resultReg } := by
  simp [pinCycle, high, low, posedgeClk, negedgeClk, sck, h]

theorem pinCycle_high (h : pins.resetN = true) : pinCycle pins a = a.cycle pins.sdo pins.chan := by
  rw [pinCycle, h]; rfl

/-- **One cycle without a reset** in each phase. -/
theorem PhaseAt.go {p : ℕ} (hp : p < 16) (hr : pins.resetN = true) (h : PhaseAt p a) :
    PhaseAt ((p + 1) % 16) (pinCycle pins a) := by
  rw [pinCycle_high hr]
  match p, hp, h with
  | 0, hp, h =>
    have hat : At ((0 + 1) % 16) (a.cycle pins.sdo pins.chan) := At.cycle hp h
    exact ⟨hat.1, hat.2.1, hat.2.2.2⟩
  | 1, _, h => rw [cycle_raise h.1 h.2.1]; exact ⟨h.1, rfl, rfl, h.2.2⟩
  | 2, hp, h => exact At.cycle hp h
  | 3, hp, h => exact At.cycle hp h
  | k + 4, hp, h =>
    have hat : At ((k + 4 + 1) % 16) (a.cycle pins.sdo pins.chan) := At.cycle hp h
    by_cases h11 : k < 11
    · rw [show (k + 4 + 1) % 16 = k + 1 + 4 by omega] at hat ⊢
      exact hat
    · rw [show (k + 4 + 1) % 16 = 0 by omega] at hat ⊢
      exact hat

theorem PhaseAt.restart (hr : pins.resetN = false) : PhaseAt 1 (pinCycle pins a) := by
  rw [pinCycle_low hr]
  exact ⟨rfl, rfl, rfl⟩

end AdcInterface

/-- The phase of `adcinterface` before cycle `n`. -/
def adcPhase (ps : ℕ → AdcPins) (n : ℕ) : ℕ := phase 16 1 (fun i => (ps i).resetN) n

variable {a₀ : AdcInterface} {ps : ℕ → AdcPins} {n : ℕ}

theorem adcAt_succ (n : ℕ) : adcAt a₀ ps (n + 1) = pinCycle (ps n) (adcAt a₀ ps n) := rfl

theorem adcPhase_lt (ps : ℕ → AdcPins) (n : ℕ) : adcPhase ps n < 16 := phase_lt (by omega) n

theorem adcPhase_succ (hr : (ps n).resetN = true) : adcPhase ps (n + 1) = (adcPhase ps n + 1) % 16 :=
  phase_succ_go (g := fun i => (ps i).resetN) hr

theorem adcPhase_restart (hr : (ps n).resetN = false) : adcPhase ps (n + 1) = 1 :=
  phase_succ_restart (g := fun i => (ps i).resetN) hr

theorem adcPhase_ahead (k : ℕ) (hr : ∀ i, i < k → (ps (n + i)).resetN = true)
    (hlt : adcPhase ps n + k < 16) : adcPhase ps (n + k) = adcPhase ps n + k :=
  phase_ahead (g := fun i => (ps i).resetN) k hr hlt

/-- `k` cycles back, on the way to a phase beyond 1. -/
theorem adcPhase_back (ps : ℕ → AdcPins) (n k : ℕ) (hk : 1 + k ≤ adcPhase ps n) :
    ∃ m, n = m + k ∧ adcPhase ps m + k = adcPhase ps n ∧ ∀ i, i < k → (ps (m + i)).resetN = true :=
  phase_back (g := fun i => (ps i).resetN) (by omega) k n hk

/-- **The control registers in every run.** -/
theorem adc_phase (ps : ℕ → AdcPins) (h : At 0 a₀) (n : ℕ) : PhaseAt (adcPhase ps n) (adcAt a₀ ps n) :=
  have h0 : PhaseAt 0 a₀ := h
  phase_inv (c := AdcPins.resetN) (by omega) h0
    (fun _ _ _ hp hr hat => PhaseAt.go hp hr hat) (fun _ _ _ _ hr _ => PhaseAt.restart hr) n

/-! ### What a cycle is spent in -/

/-- Cycle `n` is spent in `RESET`. -/
def InReset (ps : ℕ → AdcPins) (n : ℕ) : Prop := (ps n).resetN = false ∨ adcPhase ps n = 0

/-- Cycle `n` is spent in `ARM`. -/
def InArm (ps : ℕ → AdcPins) (n : ℕ) : Prop :=
  (ps n).resetN = true ∧ 1 ≤ adcPhase ps n ∧ adcPhase ps n ≤ 3

/-- Cycle `n` is spent in `SCK_CYCLE`. -/
def InSck (ps : ℕ → AdcPins) (n : ℕ) : Prop := (ps n).resetN = true ∧ 4 ≤ adcPhase ps n

theorem in_cases (ps : ℕ → AdcPins) (n : ℕ) : InReset ps n ∨ InArm ps n ∨ InSck ps n := by
  unfold InReset InArm InSck
  cases (ps n).resetN with
  | false => exact Or.inl (Or.inl rfl)
  | true => simp only [Bool.true_eq_false, false_or, true_and]; omega

/-- **A cycle in `RESET`** publishes the shift register; the serial outputs keep what they
hold. -/
theorem run_reset (h : At 0 a₀) (hn : InReset ps n) :
    adcAt a₀ ps (n + 1) = { adcAt a₀ ps n with
      currentState := sReset, armFlag := false, sckCount := 0, nextState := sArm,
      result := (adcAt a₀ ps n).resultReg } := by
  rw [adcAt_succ]
  cases hr : (ps n).resetN with
  | false => exact pinCycle_low hr
  | true =>
    have h0 : adcPhase ps n = 0 := hn.resolve_left (by simp [hr])
    have hat := adc_phase ps h n
    rw [h0] at hat
    rw [pinCycle_high hr, cycle_reset hat]

/-- **A cycle in `ARM`** moves `ADC_CONVST`: it is high after the first one only. -/
theorem run_arm (h : At 0 a₀) (hn : InArm ps n) :
    (adcAt a₀ ps (n + 1)).currentState = sArm ∧
    (adcAt a₀ ps (n + 1)).result = (adcAt a₀ ps n).result ∧
    (adcAt a₀ ps (n + 1)).resultReg = (adcAt a₀ ps n).resultReg ∧
    (adcAt a₀ ps (n + 1)).sdi = (adcAt a₀ ps n).sdi ∧
    ((adcAt a₀ ps (n + 1)).convst = true ↔ adcPhase ps n = 1) := by
  obtain ⟨hr, h1, h3⟩ := hn
  have hat := adc_phase ps h n
  rw [adcAt_succ, pinCycle_high hr]
  obtain hp | hp | hp : adcPhase ps n = 1 ∨ adcPhase ps n = 2 ∨ adcPhase ps n = 3 := by omega
  all_goals rw [hp] at hat ⊢
  · rw [cycle_raise hat.1 hat.2.1]; exact ⟨rfl, rfl, rfl, rfl, by simp⟩
  · rw [cycle_lower hat]; exact ⟨rfl, rfl, rfl, rfl, by simp⟩
  · rw [cycle_leave hat]; exact ⟨rfl, rfl, rfl, rfl, by simp [hat.2.2.1]⟩

/-- **A cycle in `SCK_CYCLE`** takes one bit in and puts one bit out. -/
theorem run_shift (h : At 0 a₀) {k : ℕ} (hr : (ps n).resetN = true) (hk : adcPhase ps n = k + 4) :
    (adcAt a₀ ps (n + 1)).currentState = sSckCycle ∧
    (adcAt a₀ ps (n + 1)).result = (adcAt a₀ ps n).result ∧
    (adcAt a₀ ps (n + 1)).resultReg = setBit (adcAt a₀ ps n).resultReg (11 - k) (ps n).sdo ∧
    (adcAt a₀ ps (n + 1)).sdi = (commandWord (ps n).chan).getLsbD (11 - k) ∧
    (adcAt a₀ ps (n + 1)).convst = false ∧ (adcAt a₀ ps n).sckCount.toNat = k := by
  have hat := adc_phase ps h n
  rw [hk] at hat
  rw [adcAt_succ, pinCycle_high hr, cycle_shift hat]
  exact ⟨rfl, rfl, rfl, rfl, hat.2.2.1, hat.2.2.2⟩

/-- `ADC_SCK` has a pulse in cycle `n`. -/
def SckPulse (a₀ : AdcInterface) (ps : ℕ → AdcPins) (n : ℕ) : Prop :=
  ((adcAt a₀ ps n).high (ps n).resetN (ps n).sdo).sck = true

/-- `ADC_CONVST` rises in cycle `n`. -/
def ConvstRise (a₀ : AdcInterface) (ps : ℕ → AdcPins) (n : ℕ) : Prop :=
  (adcAt a₀ ps n).convst = false ∧ (adcAt a₀ ps (n + 1)).convst = true

instance : DecidablePred (SckPulse a₀ ps) := fun _ => inferInstanceAs (Decidable (_ = _))

instance : DecidablePred (ConvstRise a₀ ps) := fun _ => inferInstanceAs (Decidable (_ ∧ _))

/-- The state of a cycle is the one its high phase is in. -/
theorem sckPulse_state : SckPulse a₀ ps n ↔ (adcAt a₀ ps (n + 1)).currentState = sSckCycle := by
  have hlow : ∀ (a : AdcInterface) c, (a.low c).currentState = a.currentState := by
    intro a c
    unfold low negedgeClk
    split_ifs <;> rfl
  rw [adcAt_succ, pinCycle, hlow, SckPulse, sck, beq_iff_eq]

/-- **The pulses of `ADC_SCK`.** -/
theorem sckPulse_iff (h : At 0 a₀) : SckPulse a₀ ps n ↔ InSck ps n := by
  rw [sckPulse_state]
  constructor
  · intro hs
    rcases in_cases ps n with hn | hn | hn
    · rw [run_reset h hn] at hs
      change sReset = sSckCycle at hs
      exact absurd hs (by decide)
    · rw [(run_arm h hn).1] at hs; exact absurd hs (by decide)
    · exact hn
  · rintro ⟨hr, h4⟩
    exact (run_shift h (k := adcPhase ps n - 4) hr (by omega)).1

/-! ### Frames -/

/-- Every frame of pulses starts in phase 4 and goes on while there is no reset. -/
theorem frame_phase {q k : ℕ} (hq : adcPhase ps q = 4) (hk : k < 12)
    (hr : ∀ i, i < k → (ps (q + i)).resetN = true) : adcPhase ps (q + k) = k + 4 := by
  rw [adcPhase_ahead k hr (by omega), hq, Nat.add_comm]

/-- The start of the frame a cycle in `SCK_CYCLE` belongs to. -/
theorem frame_start {k : ℕ} (hk : adcPhase ps n = k + 4) :
    ∃ q, n = q + k ∧ adcPhase ps q = 4 ∧ ∀ i, i < k → (ps (q + i)).resetN = true := by
  obtain ⟨q, hn, hq, hr⟩ := adcPhase_back ps n k (by omega)
  exact ⟨q, hn, by omega, hr⟩

/-- **The first `k` pulses of a frame**: `k` bits of `ADC_SDO` stand at the top of the shift
register, and `ADC_SDI` shows the `k`-th bit of the command. -/
theorem shift_run (h : At 0 a₀) {q : ℕ} (hq : adcPhase ps q = 4) : ∀ k, k ≤ 12 →
    (∀ i, i < k → (ps (q + i)).resetN = true) →
    (∀ i, i < 12 → (adcAt a₀ ps (q + k)).resultReg.getLsbD (11 - i) =
      if i < k then (ps (q + i)).sdo else (adcAt a₀ ps q).resultReg.getLsbD (11 - i)) ∧
    (adcAt a₀ ps (q + k)).result = (adcAt a₀ ps q).result ∧
    (∀ j, k = j + 1 →
      (adcAt a₀ ps (q + k)).sdi = (commandWord (ps (q + j)).chan).getLsbD (11 - j)) := by
  intro k
  induction k with
  | zero =>
    intro _ _
    exact ⟨fun i _ => by rw [if_neg (Nat.not_lt_zero i), Nat.add_zero], rfl, fun j hj => by omega⟩
  | succ k ih =>
    intro hk hr
    obtain ⟨hreg, hres, -⟩ := ih (by omega) (fun i hi => hr i (by omega))
    have hph := frame_phase hq (show k < 12 by omega) (fun i hi => hr i (by omega))
    obtain ⟨-, hres', hreg', hsdi', -, -⟩ := run_shift h (hr k (by omega)) hph
    rw [← Nat.add_assoc]
    refine ⟨fun i hi => ?_, hres'.trans hres, fun j hj => ?_⟩
    · rw [hreg', getLsbD_setBit _ (by omega)]
      by_cases hik : i = k
      · rw [if_pos (by omega), if_pos (by omega), hik]
      · rw [if_neg (by omega), hreg i hi]
        by_cases hlt : i < k
        · rw [if_pos hlt, if_pos (by omega)]
        · rw [if_neg hlt, if_neg (by omega)]
    · obtain rfl : j = k := by omega
      exact hsdi'

/-- The three cycles after cycle `m` are spent in `ARM`. -/
def ArmsAfter (ps : ℕ → AdcPins) (m : ℕ) : Prop :=
  ∀ i, i < 3 → adcPhase ps (m + 1 + i) = i + 1 ∧ (ps (m + 1 + i)).resetN = true

/-- **The way into a frame**: the cycle in `RESET` and the three in `ARM` before its first
pulse. -/
theorem lead_in {q : ℕ} (hq : adcPhase ps q = 4) : ∃ m, q = m + 4 ∧ InReset ps m ∧ ArmsAfter ps m := by
  obtain ⟨l, rfl, hl, hr⟩ := adcPhase_back ps q 3 (by omega)
  have hl1 : adcPhase ps l = 1 := by omega
  cases l with
  | zero => exact absurd hl1 (Nat.zero_ne_one)
  | succ m =>
    refine ⟨m, rfl, ?_, fun i hi => ⟨?_, hr i hi⟩⟩
    · unfold InReset
      cases hm : (ps m).resetN with
      | false => exact Or.inl rfl
      | true =>
        rw [adcPhase_succ hm] at hl1
        have := adcPhase_lt ps m
        exact Or.inr (by omega)
    · rw [adcPhase_ahead i (fun j hj => hr j (by omega)) (by omega), hl1, Nat.add_comm]

/-- The three cycles in `ARM` lead to the first pulse. -/
theorem lead_out {m : ℕ} (harm : ArmsAfter ps m) : adcPhase ps (m + 4) = 4 := by
  obtain ⟨hph, hr⟩ := harm 2 (by omega)
  have hnext := adcPhase_succ hr
  rw [hph] at hnext
  exact hnext

/-- The last command bit is 1 whatever the channel is. -/
theorem commandWord_last (c : BitVec 3) : (commandWord c).getLsbD 0 = true := by
  revert c; decide

/-- The command from its first bit on: the channel, low bit first and then from the top, and
the unipolar bit. -/
theorem commandWord_bits (c : BitVec 3) :
    (commandWord c).getLsbD 11 = c.getLsbD 0 ∧ (commandWord c).getLsbD 10 = c.getLsbD 2 ∧
    (commandWord c).getLsbD 9 = c.getLsbD 1 ∧ (commandWord c).getLsbD 8 = true ∧
    (commandWord c).getLsbD 7 = false := by
  revert c; decide

/-- The first six bits of a frame, one behind the command. -/
theorem command_list {s : ℕ → Bool} {c : ℕ → BitVec 3} (h0 : s 0 = true)
    (hs : ∀ j, j < 5 → s (j + 1) = (commandWord (c j)).getLsbD (11 - j)) :
    (List.range 6).map s =
      [true, (c 0).getLsbD 0, (c 1).getLsbD 2, (c 2).getLsbD 1, true, false] := by
  have hmap : (List.range 6).map s = [s 0, s (0 + 1), s (1 + 1), s (2 + 1), s (3 + 1), s (4 + 1)] := rfl
  rw [hmap, h0, hs 0 (by omega), hs 1 (by omega), hs 2 (by omega), hs 3 (by omega), hs 4 (by omega),
    (commandWord_bits _).1, (commandWord_bits _).2.1, (commandWord_bits _).2.2.1,
    (commandWord_bits _).2.2.2.1, (commandWord_bits _).2.2.2.2]

/-- The four cycles before a frame keep the shift register and `ADC_SDI`, and publish the
register. -/
theorem lead_data (h : At 0 a₀) {m : ℕ} (hm : InReset ps m) (harm : ArmsAfter ps m) :
    ∀ i, i ≤ 3 → (adcAt a₀ ps (m + 1 + i)).resultReg = (adcAt a₀ ps m).resultReg ∧
      (adcAt a₀ ps (m + 1 + i)).result = (adcAt a₀ ps m).resultReg ∧
      (adcAt a₀ ps (m + 1 + i)).sdi = (adcAt a₀ ps m).sdi := by
  intro i
  induction i with
  | zero => intro _; rw [Nat.add_zero, run_reset h hm]; exact ⟨rfl, rfl, rfl⟩
  | succ i ih =>
    intro hi
    obtain ⟨h1, h2, h3⟩ := ih (by omega)
    obtain ⟨hph, hr⟩ := harm i (by omega)
    obtain ⟨-, g1, g2, g3, -⟩ := run_arm h (n := m + 1 + i) ⟨hr, by omega, by omega⟩
    rw [← Nat.add_assoc]
    exact ⟨g2.trans h1, g1.trans h2, g3.trans h3⟩

end BankVault
