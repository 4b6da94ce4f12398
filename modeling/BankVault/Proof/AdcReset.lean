import BankVault.Proof.AdcFrame
import BankVault.Proof.AdcEventRun

/-!
# Commands after a reset

A low `reset_n` takes `adcinterface` to `RESET` from anywhere, and nothing else: `ADC_CONVST` keeps
what it holds, and so does `ADC_SDI`, unless the reset comes in `SCK_CYCLE`, where the edge that
leaves it shifts out one more bit. If the reset comes while `ADC_CONVST` is high, the next frame is
not started by a rising edge of its own; if it cuts the command short, the next frame starts with
the bit behind the cut.

* `wellFormed_iff`: a frame is well formed if and only if its `RESET` state left
  `ADC_CONVST` low and `ADC_SDI` at 1.
* `commands_iff`: so all of them are, if and only if every reset that leads into a frame leaves
  these values.
-/

namespace BankVault

open Clocked AdcInterface

variable {a₀ : AdcInterface} {ps : ℕ → AdcPins} {n q m : ℕ}

/-- **A frame that completes**: its first rising edge of `ADC_SCK`, in cycle `q`, comes out of `ARM`,
and it has twelve of them at least. -/
structure Completed (a₀ : AdcInterface) (ps : ℕ → AdcPins) (q : ℕ) : Prop where
  first : (eAt a₀ ps q).adc.currentState = sArm
  edges : ∀ i, i < 12 → SckRise a₀ ps (q + i)

/-- No reset comes before its twelfth edge. -/
theorem Completed.start (h : a₀.PowerUp) (hq : Completed a₀ ps q) :
    adcPhase ps q = 4 ∧ ∀ i, i < 11 → (ps (q + i)).resetN = true :=
  rises_go h hq.first 11 fun i hi => hq.edges i (by omega)

/-- `ADC_CONVST` rises in the stay in `ARM` before cycle `q`. -/
def ArmRise (a₀ : AdcInterface) (ps : ℕ → AdcPins) (q : ℕ) : Prop :=
  ∃ j, j < q ∧ (eAt a₀ ps j).adc.convst = false ∧ (eAt a₀ ps (j + 1)).adc.convst = true ∧
    ∀ i, j ≤ i → i < q → (eAt a₀ ps (i + 1)).adc.currentState = sArm

/-- `ADC_SDI` shows 1 and then the command at the first six rising edges from cycle `q` on. -/
def CommandAt (a₀ : AdcInterface) (ps : ℕ → AdcPins) (q : ℕ) : Prop :=
  (List.range 6).map (fun i => (eAt a₀ ps (q + i)).adc.sdi) =
    [true, (ps q).chan.getLsbD 0, (ps (q + 1)).chan.getLsbD 2, (ps (q + 2)).chan.getLsbD 1, true, false]

theorem head_of_command {s : ℕ → Bool} {l : List Bool} (h : (List.range 6).map s = true :: l) :
    s 0 = true := by
  have hhead := congrArg List.head? h
  simpa [List.range_succ_eq_map] using hhead

/-- The first edge of a command finds 1. -/
theorem CommandAt.first (hc : CommandAt a₀ ps q) : (eAt a₀ ps q).adc.sdi = true :=
  head_of_command (s := fun i => (eAt a₀ ps (q + i)).adc.sdi) hc

/-- What an edge into `RESET` leaves on `ADC_SDI`: out of `SCK_CYCLE` one more bit of the command. -/
def sdiAfter (p : AdcPins) (t : Traced) : Bool :=
  if t.adc.currentState = sSckCycle then (commandWord p.chan).getLsbD t.adc.bitIndex else t.adc.sdi

theorem sdi_after (h : a₀.PowerUp) (hn : InReset ps n) :
    (eAt a₀ ps (n + 1)).adc.sdi = sdiAfter (ps n) (eAt a₀ ps n) := by
  unfold sdiAfter
  cases hs : (eAt a₀ ps n).adc.sck with
  | false =>
    rw [event_reset h hn hs, if_neg fun hstate => absurd hs (by rw [sck, hstate]; decide)]
  | true => rw [event_cut h hn hs, if_pos (beq_iff_eq.1 hs)]

/-- The three cycles in `ARM` after cycle `m`: only the first one leaves `ADC_CONVST` high. -/
theorem arm_run (h : a₀.PowerUp) (harm : ArmsAfter ps m) {i : ℕ} (hi : i < 3) :
    (eAt a₀ ps (m + 1 + i + 1)).adc.currentState = sArm ∧
      ((eAt a₀ ps (m + 1 + i + 1)).adc.convst = true ↔ i = 0) := by
  obtain ⟨hph, hgo⟩ := harm i hi
  obtain ⟨hst, -, -, -, -, hc⟩ := event_arm h (n := m + 1 + i) ⟨hgo, by omega, by omega⟩
  exact ⟨hst, by rw [hc]; omega⟩

section Lead

variable (h : a₀.PowerUp) (hm : InReset ps m) (harm : ArmsAfter ps m)
include h hm harm

/-- `ADC_CONVST` rises before the frame if and only if the `RESET` state left it low. -/
theorem armRise_iff : ArmRise a₀ ps (m + 4) ↔ (eAt a₀ ps m).adc.convst = false := by
  obtain ⟨hreset, hstart, -⟩ := event_published h hm
  rw [← hstart]
  constructor
  · rintro ⟨j, hj, hlow, hhigh, hin⟩
    -- the rise is after the cycle in `RESET`, and only the first cycle in `ARM` can raise
    have hmj : m < j := by
      by_contra hle
      exact absurd (hreset.symm.trans (hin m (by omega) (by omega))) (by decide)
    obtain ⟨i, rfl⟩ : ∃ i, j = m + 1 + i := ⟨j - m - 1, by omega⟩
    obtain rfl := ((arm_run h harm (by omega)).2).1 hhigh
    exact hlow
  · intro hlow
    refine ⟨m + 1, by omega, hlow, ((arm_run h harm (i := 0) (by omega)).2).2 rfl, fun i h1 h2 => ?_⟩
    obtain ⟨l, rfl⟩ : ∃ l, i = m + 1 + l := ⟨i - m - 1, by omega⟩
    exact (arm_run h harm (by omega)).1

omit hm in
/-- The frame carries the command if and only if the `RESET` state left `ADC_SDI` at 1. -/
theorem commandAt_iff (hr : ∀ i, i < 11 → (ps (m + 4 + i)).resetN = true) :
    CommandAt a₀ ps (m + 4) ↔ (eAt a₀ ps (m + 1)).adc.sdi = true := by
  have hsdi := (event_lead h harm 3 le_rfl).1
  rw [show m + 1 + 3 = m + 4 by omega] at hsdi
  rw [← hsdi]
  constructor
  · exact CommandAt.first
  · intro h1
    have hbits : ∀ j, j < 5 → (eAt a₀ ps (m + 4 + (j + 1))).adc.sdi =
        (commandWord (ps (m + 4 + j)).chan).getLsbD (11 - j) := fun j hj =>
      frame_sdi (q := m + 4) h (lead_out harm) (by omega) fun i hi => hr i (by omega)
    have hfirst : (eAt a₀ ps (m + 4 + 0)).adc.sdi = true := by rw [Nat.add_zero]; exact h1
    exact command_list (s := fun i => (eAt a₀ ps (m + 4 + i)).adc.sdi)
      (c := fun j => (ps (m + 4 + j)).chan) hfirst hbits

/-- **A frame is well formed** if and only if its `RESET` state, left after cycle `m`, leaves
`ADC_CONVST` low and `ADC_SDI` at 1. -/
theorem wellFormed_iff (hr : ∀ i, i < 11 → (ps (m + 4 + i)).resetN = true) :
    ArmRise a₀ ps (m + 4) ∧ CommandAt a₀ ps (m + 4) ↔
      (eAt a₀ ps m).adc.convst = false ∧ (eAt a₀ ps (m + 1)).adc.sdi = true := by
  rw [armRise_iff h hm harm, commandAt_iff h harm hr]

end Lead

/-- A frame that came to its end leaves 1 on `ADC_SDI`. -/
theorem sdi_of_end (h : a₀.PowerUp) (hr : (ps m).resetN = true) (h0 : adcPhase ps m = 0) (hm : 0 < m) :
    (eAt a₀ ps (m + 1)).adc.sdi = true := by
  obtain ⟨l, rfl⟩ : ∃ l, m = l + 1 := ⟨m - 1, by omega⟩
  have hsck : InSck ps l := by
    cases hl : (ps l).resetN with
    | false => rw [adcPhase_restart hl] at h0; exact absurd h0 Nat.one_ne_zero
    | true =>
      rw [adcPhase_succ hl] at h0
      have hlt := adcPhase_lt ps l
      exact ⟨hl, by omega⟩
  have hopen := (gate_iff h l).2 hsck
  have hcount := (event_phase ps h (l + 1)).last h0 hopen
  rw [event_cut h (Or.inr h0) hopen, bitIndex, hcount]
  exact commandWord_last _

/-- A stay in `RESET` keeps `ADC_CONVST` and what its first edge leaves on `ADC_SDI`. -/
theorem kept_in_reset (h : a₀.PowerUp) (hnm : n ≤ m) (hin : ∀ i, n ≤ i → i ≤ m → InReset ps i) :
    (eAt a₀ ps m).adc.convst = (eAt a₀ ps n).adc.convst ∧
      (eAt a₀ ps (m + 1)).adc.sdi = (eAt a₀ ps (n + 1)).adc.sdi := by
  induction m, hnm using Nat.le_induction with
  | base => exact ⟨rfl, rfl⟩
  | succ m hnm ih =>
    obtain ⟨hconvst, hsdi⟩ := ih fun i h1 h2 => hin i h1 (by omega)
    obtain ⟨hstate, hkeep, -⟩ := event_published h (hin m hnm (Nat.le_succ m))
    have hshut : (eAt a₀ ps (m + 1)).adc.sck = false := by rw [sck, hstate]; rfl
    refine ⟨hkeep.trans hconvst, ?_⟩
    rw [event_reset h (hin (m + 1) (by omega) le_rfl) hshut]
    exact hsdi

/-- A frame that completes and is not the first one. -/
def LaterFrame (a₀ : AdcInterface) (ps : ℕ → AdcPins) (q : ℕ) : Prop :=
  Completed a₀ ps q ∧ ∃ i, i < q ∧ SckRise a₀ ps i

/-- **Every command is well formed**: each frame that completes, other than the first one, is
started by a rise of `ADC_CONVST` in its own `ARM` state and carries the command. -/
def WellFormed (a₀ : AdcInterface) (ps : ℕ → AdcPins) : Prop :=
  ∀ q, LaterFrame a₀ ps q → ArmRise a₀ ps q ∧ CommandAt a₀ ps q

/-- **Every reset comes at a safe moment**: if `reset_n` is low at the rising edge of cycle `n`
and the interface stays in `RESET` from there to the `ARM` state of a frame that completes,
`ADC_CONVST` is low before that edge, and `ADC_SDI` is 1 before it or, if the edge cuts `SCK_CYCLE`,
the bit of the command that is next is 1. -/
def SafeResets (a₀ : AdcInterface) (ps : ℕ → AdcPins) : Prop :=
  ∀ n m, n ≤ m → LaterFrame a₀ ps (m + 4) → (ps n).resetN = false →
    (∀ i, n ≤ i → i ≤ m → (eAt a₀ ps (i + 1)).adc.currentState = sReset) →
      (eAt a₀ ps n).adc.convst = false ∧ sdiAfter (ps n) (eAt a₀ ps n) = true

/-- The first frame has no edge before it. -/
theorem pos_of_later (h : a₀.PowerUp) (harm : ArmsAfter ps m) (hlater : LaterFrame a₀ ps (m + 4))
    (hr : (ps m).resetN = true) : 0 < m := by
  by_contra hm
  obtain rfl : m = 0 := by omega
  have hout : ∀ i, i < 4 → ¬ InSck ps i := by
    intro i hi hs
    have h4 := hs.2
    cases i with
    | zero => exact absurd h4 (Nat.not_succ_le_zero 3)
    | succ l =>
      have hph := (harm l (by omega)).1
      rw [show 0 + 1 + l = l + 1 by omega] at hph
      omega
  obtain ⟨i, hi, hrise⟩ := hlater.2
  rcases (sckRise_iff h).1 hrise with hs | ⟨-, hopen⟩
  · exact hout i hi hs
  · cases i with
    | zero => exact absurd ((sck_start h).symm.trans hopen) (by decide)
    | succ l => exact hout l (by omega) ((gate_iff h l).1 hopen)

/-- **When the commands stay well formed.** In every run from power-up, event by event and with
`reset_n` low at any edges: every command is well formed if and only if every reset comes at a
safe moment. -/
theorem commands_iff (a₀ : AdcInterface) (ps : ℕ → AdcPins) (h : a₀.PowerUp) :
    WellFormed a₀ ps ↔ SafeResets a₀ ps := by
  constructor
  · intro hw n m hnm hlater hlow hin
    obtain ⟨hph, hr⟩ := hlater.1.start h
    obtain ⟨m', hm', hreset, harm⟩ := lead_in hph
    obtain rfl : m = m' := by omega
    have hkept := kept_in_reset h hnm fun i h1 h2 => (event_state h i).1.1 (hin i h1 h2)
    rw [← sdi_after h (Or.inl hlow), ← hkept.1, ← hkept.2]
    exact (wellFormed_iff h hreset harm hr).1 (hw _ hlater)
  · intro hs q hlater
    obtain ⟨hph, hr⟩ := hlater.1.start h
    obtain ⟨m, rfl, hreset, harm⟩ := lead_in hph
    refine (wellFormed_iff h hreset harm hr).2 ?_
    cases hlow : (ps m).resetN with
    | false =>
      rw [sdi_after h hreset]
      refine hs m m le_rfl hlater hlow fun i h1 h2 => ?_
      obtain rfl : i = m := by omega
      exact (event_published h hreset).1
    | true =>
      -- the frame before came to its end
      have hend : adcPhase ps m = 0 := hreset.resolve_left (by simp [hlow])
      have hat := (event_phase ps h m).control
      rw [hend] at hat
      exact ⟨hat.2, sdi_of_end h hlow hend (pos_of_later h harm hlater hlow)⟩

/-- A reset in the cycle in which `ADC_CONVST` is high, in the second frame. -/
def convstCut (n : ℕ) : AdcPins where
  resetN := n ≠ 18
  sdo := true
  chan := 0

/-- A reset after the fifth pulse of the second frame. -/
def commandCut (n : ℕ) : AdcPins where
  resetN := n ≠ 25
  sdo := true
  chan := 0

theorem commands_iff_convstCut : WellFormed quietAdc convstCut ↔ SafeResets quietAdc convstCut :=
  commands_iff quietAdc convstCut quietAdc_powerUp

/-- **Commands go wrong after a reset**: the frame after `convstCut`'s reset starts without a
rise of `ADC_CONVST`, and the one after `commandCut`'s starts with 0 on `ADC_SDI`. -/
theorem commands_broken :
    (LaterFrame quietAdc convstCut 22 ∧ ¬ ArmRise quietAdc convstCut 22) ∧
    (LaterFrame quietAdc commandCut 29 ∧ (eAt quietAdc commandCut 29).adc.sdi = false) ∧
    ¬ WellFormed quietAdc convstCut ∧ ¬ WellFormed quietAdc commandCut := by
  have hlater : LaterFrame quietAdc convstCut 22 :=
    ⟨⟨by decide +kernel, by decide +kernel⟩, 4, by decide, by decide +kernel⟩
  have hlater' : LaterFrame quietAdc commandCut 29 :=
    ⟨⟨by decide +kernel, by decide +kernel⟩, 4, by decide, by decide +kernel⟩
  have hsdi : (eAt quietAdc commandCut 29).adc.sdi = false := by decide +kernel
  have hno : ¬ ArmRise quietAdc convstCut 22 := by
    rintro ⟨j, hj, hlow, hhigh, hin⟩
    -- only the cycles from 19 on are in the frame's `ARM`, and none of them raises it
    have hj' : 18 < j := by
      by_contra hle
      exact absurd (hin 18 (by omega) (by omega)) (by decide +kernel)
    obtain rfl | rfl | rfl : j = 19 ∨ j = 20 ∨ j = 21 := by omega
    · exact absurd hlow (by decide +kernel)
    · exact absurd hhigh (by decide +kernel)
    · exact absurd hhigh (by decide +kernel)
  refine ⟨⟨hlater, hno⟩, ⟨hlater', hsdi⟩, fun h => hno (h 22 hlater).1, fun h => ?_⟩
  exact absurd (hsdi.symm.trans (h 29 hlater').2.first) (by decide)

end BankVault
