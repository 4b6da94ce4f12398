import BankVault.Proof.AdcPhase
import BankVault.Rtl.AdcEvents

/-!
# `adcinterface` event by event, with resets

The phases are those of `AdcPhase`: they depend on the resets alone. What the events add is the
pulse at the edge that leaves `SCK_CYCLE`, in the cycle after the twelfth pulse of a frame or in the
one in which a reset cuts it.

* `event_phase`: the registers in every cycle of every run.
* `event_reset`, `event_cut`, `event_arm`, `event_shift`: what a cycle does.
* `sckRise_iff`: the rising edges of `ADC_SCK`.
* `resultReg_eq`: the shift register holds the bits last sampled.
-/

namespace BankVault

open Clocked AdcInterface

variable {a₀ : AdcInterface} {ps : ℕ → AdcPins} {n : ℕ}

/-- `ADC_SCK` is low at power-up. -/
theorem sck_start (h : a₀.PowerUp) : a₀.sck = false := by
  rw [sck, h.currentState]; rfl

/-- **The registers at a phase.** `ADC_SCK` is still open before the edge that ends a frame. -/
structure EventPhase (p : ℕ) (t : Traced) : Prop where
  control : PhaseAt p t.adc
  opened : 5 ≤ p → t.adc.sck = true
  shut : 0 < p → p ≤ 4 → t.adc.sck = false
  last : p = 0 → t.adc.sck = true → t.adc.sckCount = 11

theorem posedge_reset {pins : AdcPins} {a : AdcInterface}
    (h : pins.resetN = false ∨ a.nextState = sReset) :
    (a.posedgeClk pins.resetN).currentState = sReset := by
  rcases h with h | h <;> simp [posedgeClk, h]

/-- An edge into `RESET` leads to phase 1. -/
theorem EventPhase.restart {pins : AdcPins} {t : Traced}
    (h : pins.resetN = false ∨ t.adc.nextState = sReset) : EventPhase 1 (adcEvents.cycle pins t) := by
  cases hs : t.adc.sck with
  | false =>
    rw [cycle_reset_closed hs (posedge_reset h)]
    exact ⟨⟨rfl, rfl, rfl⟩, fun h5 => absurd h5 (by decide), fun _ _ => rfl, fun h0 => absurd h0 (by decide)⟩
  | true =>
    rw [cycle_reset_open hs (posedge_reset h)]
    exact ⟨⟨rfl, rfl, rfl⟩, fun h5 => absurd h5 (by decide), fun _ _ => rfl, fun h0 => absurd h0 (by decide)⟩

/-- **One cycle without a reset.** -/
theorem EventPhase.go {p : ℕ} {pins : AdcPins} {t : Traced} (hp : p < 16) (hr : pins.resetN = true)
    (h : EventPhase p t) : EventPhase ((p + 1) % 16) (adcEvents.cycle pins t) := by
  by_cases h0 : p = 0
  · subst h0
    exact EventPhase.restart (Or.inr h.control.1)
  by_cases h3 : p ≤ 3
  · -- the cycles in `ARM`
    have hs := h.shut (by omega) (by omega)
    have hnext : PhaseAt ((p + 1) % 16) (pinCycle pins t.adc) := PhaseAt.go hp hr h.control
    have hstate : (pinCycle pins t.adc).currentState = sArm := by
      have hat := h.control
      rw [pinCycle_high hr]
      obtain rfl | rfl | rfl : p = 1 ∨ p = 2 ∨ p = 3 := by omega
      · rw [cycle_raise hat.1 hat.2.1]
      · rw [cycle_lower hat]
      · rw [cycle_leave hat]
    rw [cycle_clean hr (Or.inl hs), ← pinCycle_high hr]
    refine ⟨hnext, fun h5 => by omega, fun _ _ => ?_, fun h0' => by omega⟩
    change ((pinCycle pins t.adc).currentState == sSckCycle) = false
    rw [hstate]
    rfl
  · -- the cycles in `SCK_CYCLE`
    obtain ⟨k, rfl⟩ : ∃ k, p = k + 4 := ⟨p - 4, by omega⟩
    have hat : At (k + 4) t.adc := h.control
    have hnext : PhaseAt ((k + 4 + 1) % 16) (pinCycle pins t.adc) := PhaseAt.go hp hr h.control
    rw [cycle_clean hr (Or.inr hat.1), ← pinCycle_high hr]
    refine ⟨hnext, fun _ => ?_, fun h1 h4 => by omega, fun h0' _ => ?_⟩
    · change (pinCycle pins t.adc).sck = true
      rw [pinCycle_high hr, cycle_shift hat]
      rfl
    · obtain rfl : k = 11 := by omega
      change (pinCycle pins t.adc).sckCount = 11
      rw [pinCycle_high hr, cycle_shift hat]
      exact BitVec.eq_of_toNat_eq hat.2.2.2

/-- **The registers in every cycle of every run.** -/
theorem event_phase (ps : ℕ → AdcPins) (h : a₀.PowerUp) (n : ℕ) :
    EventPhase (adcPhase ps n) (eAt a₀ ps n) := by
  have h0 : EventPhase 0 ⟨a₀, []⟩ :=
    ⟨h.at_zero, fun h5 => absurd h5 (by decide), fun h1 => absurd h1 (by decide),
      fun _ hs => absurd (hs.symm.trans (sck_start h)) (by decide)⟩
  exact phase_inv (c := AdcPins.resetN) (by omega) h0
    (fun _ _ _ hp hr hat => EventPhase.go hp hr hat) (fun _ _ _ _ hr _ => EventPhase.restart (Or.inl hr)) n

/-! ### What a cycle does -/

/-- A cycle in `RESET` starts from an edge into it. -/
theorem into_reset (h : a₀.PowerUp) (hn : InReset ps n) :
    (ps n).resetN = false ∨ (eAt a₀ ps n).adc.nextState = sReset := by
  refine hn.imp_right fun h0 => ?_
  have hat := (event_phase ps h n).control
  rw [h0] at hat
  exact hat.1

/-- **A cycle in `RESET`, after none in `SCK_CYCLE`**, publishes the shift register. -/
theorem event_reset (h : a₀.PowerUp) (hn : InReset ps n) (hs : (eAt a₀ ps n).adc.sck = false) :
    eAt a₀ ps (n + 1) = { eAt a₀ ps n with adc := { (eAt a₀ ps n).adc with
      currentState := sReset, armFlag := false, sckCount := 0, nextState := sArm,
      result := (eAt a₀ ps n).adc.resultReg } } :=
  cycle_reset_closed hs (posedge_reset (into_reset h hn))

/-- **A cycle in `RESET`, after one in `SCK_CYCLE`**, has a pulse first. -/
theorem event_cut (h : a₀.PowerUp) (hn : InReset ps n) (hs : (eAt a₀ ps n).adc.sck = true) :
    eAt a₀ ps (n + 1) =
      { adc := { (eAt a₀ ps n).adc with
          currentState := sReset
          armFlag := false
          sckCount := 0
          nextState := sArm
          resultReg := setBit (eAt a₀ ps n).adc.resultReg (eAt a₀ ps n).adc.bitIndex (ps n).sdo
          result := setBit (eAt a₀ ps n).adc.resultReg (eAt a₀ ps n).adc.bitIndex (ps n).sdo
          sdi := (commandWord (ps n).chan).getLsbD (eAt a₀ ps n).adc.bitIndex }
        log := (eAt a₀ ps n).log ++ [((eAt a₀ ps n).adc.bitIndex, (ps n).sdo)] } :=
  cycle_reset_open hs (posedge_reset (into_reset h hn))

/-- Either way it keeps `ADC_CONVST`, and publishes what the shift register holds then. -/
theorem event_published (h : a₀.PowerUp) (hn : InReset ps n) :
    (eAt a₀ ps (n + 1)).adc.currentState = sReset ∧
    (eAt a₀ ps (n + 1)).adc.convst = (eAt a₀ ps n).adc.convst ∧
    (eAt a₀ ps (n + 1)).adc.result = (eAt a₀ ps (n + 1)).adc.resultReg := by
  cases hs : (eAt a₀ ps n).adc.sck with
  | false => rw [event_reset h hn hs]; exact ⟨rfl, rfl, rfl⟩
  | true => rw [event_cut h hn hs]; exact ⟨rfl, rfl, rfl⟩

/-- **A cycle in `ARM`** moves `ADC_CONVST`: it is high after the first one only. -/
theorem event_arm (h : a₀.PowerUp) (hn : InArm ps n) :
    (eAt a₀ ps (n + 1)).adc.currentState = sArm ∧
    (eAt a₀ ps (n + 1)).adc.result = (eAt a₀ ps n).adc.result ∧
    (eAt a₀ ps (n + 1)).adc.resultReg = (eAt a₀ ps n).adc.resultReg ∧
    (eAt a₀ ps (n + 1)).adc.sdi = (eAt a₀ ps n).adc.sdi ∧
    (eAt a₀ ps (n + 1)).log = (eAt a₀ ps n).log ∧
    ((eAt a₀ ps (n + 1)).adc.convst = true ↔ adcPhase ps n = 1) := by
  obtain ⟨hr, h1, h3⟩ := hn
  have hev := event_phase ps h n
  have hat := hev.control
  rw [eAt_succ, cycle_clean hr (Or.inl (hev.shut (by omega) (by omega)))]
  obtain hp | hp | hp : adcPhase ps n = 1 ∨ adcPhase ps n = 2 ∨ adcPhase ps n = 3 := by omega
  all_goals
    rw [hp] at hat ⊢
    rw [if_neg (by rw [hat.1]; decide), List.append_nil]
  · rw [cycle_raise hat.1 hat.2.1]; exact ⟨rfl, rfl, rfl, rfl, rfl, by simp⟩
  · rw [cycle_lower hat]; exact ⟨rfl, rfl, rfl, rfl, rfl, by simp⟩
  · rw [cycle_leave hat]; exact ⟨rfl, rfl, rfl, rfl, rfl, by simp [hat.2.2.1]⟩

/-- **A cycle in `SCK_CYCLE`** takes one bit in and puts one bit out. -/
theorem event_shift (h : a₀.PowerUp) {k : ℕ} (hr : (ps n).resetN = true) (hk : adcPhase ps n = k + 4) :
    (eAt a₀ ps (n + 1)).adc.currentState = sSckCycle ∧
    (eAt a₀ ps (n + 1)).adc.result = (eAt a₀ ps n).adc.result ∧
    (eAt a₀ ps (n + 1)).adc.resultReg = setBit (eAt a₀ ps n).adc.resultReg (11 - k) (ps n).sdo ∧
    (eAt a₀ ps (n + 1)).adc.sdi = (commandWord (ps n).chan).getLsbD (11 - k) ∧
    (eAt a₀ ps (n + 1)).log = (eAt a₀ ps n).log ++ [(11 - k, (ps n).sdo)] ∧
    (eAt a₀ ps (n + 1)).adc.convst = false := by
  have hat := (event_phase ps h n).control
  rw [hk] at hat
  have hat' : At (k + 4) (eAt a₀ ps n).adc := hat
  rw [eAt_succ, cycle_clean hr (Or.inr hat'.1), cycle_shift hat', if_pos hat'.1, bitIndex, hat'.2.2.2]
  exact ⟨rfl, rfl, rfl, rfl, rfl, hat'.2.2.1⟩

/-- **The state after a cycle.** -/
theorem event_state (h : a₀.PowerUp) (n : ℕ) :
    ((eAt a₀ ps (n + 1)).adc.currentState = sReset ↔ InReset ps n) ∧
    ((eAt a₀ ps (n + 1)).adc.currentState = sArm ↔ InArm ps n) ∧
    ((eAt a₀ ps (n + 1)).adc.currentState = sSckCycle ↔ InSck ps n) := by
  rcases in_cases ps n with hn | hn | hn
  · rw [(event_published h hn).1]
    refine ⟨iff_of_true rfl hn, iff_of_false (by decide) fun ha => ?_, iff_of_false (by decide) fun ha => ?_⟩
    all_goals
      rcases hn with hn | hn
      · exact absurd (hn.symm.trans ha.1) (by decide)
      · have := ha.2; omega
  · rw [(event_arm h hn).1]
    refine ⟨iff_of_false (by decide) fun hz => ?_, iff_of_true rfl hn, iff_of_false (by decide) fun hs => ?_⟩
    · rcases hz with hz | hz
      · exact absurd (hz.symm.trans hn.1) (by decide)
      · have := hn.2; omega
    · have := hn.2.2; have := hs.2; omega
  · rw [(event_shift h (k := adcPhase ps n - 4) hn.1 (by have := hn.2; omega)).1]
    refine ⟨iff_of_false (by decide) fun hz => ?_, iff_of_false (by decide) fun ha => ?_, iff_of_true rfl hn⟩
    · rcases hz with hz | hz
      · exact absurd (hz.symm.trans hn.1) (by decide)
      · have := hn.2; omega
    · have := hn.2; have := ha.2.2; omega

/-- `ADC_SCK` is open after a cycle in `SCK_CYCLE`, and only then. -/
theorem gate_iff (h : a₀.PowerUp) (n : ℕ) : (eAt a₀ ps (n + 1)).adc.sck = true ↔ InSck ps n := by
  rw [sck, beq_iff_eq]
  exact (event_state h n).2.2

/-! ### The rising edges -/

/-- `ADC_SCK` has a rising edge in cycle `n`. -/
def SckRise (a₀ : AdcInterface) (ps : ℕ → AdcPins) (n : ℕ) : Prop :=
  (eAt a₀ ps (n + 1)).log ≠ (eAt a₀ ps n).log

instance : DecidablePred (SckRise a₀ ps) := fun _ => inferInstanceAs (Decidable (_ ≠ _))

/-- **The rising edges of `ADC_SCK`**: one in each cycle in `SCK_CYCLE`, and one at the edge that
leaves it. -/
theorem sckRise_iff (h : a₀.PowerUp) :
    SckRise a₀ ps n ↔ InSck ps n ∨ InReset ps n ∧ (eAt a₀ ps n).adc.sck = true := by
  have hmore : ∀ (l : List (ℕ × Bool)) w, l ++ [w] ≠ l := fun l w heq =>
    absurd (List.append_right_eq_self.1 heq) (List.cons_ne_nil w [])
  unfold SckRise
  rcases in_cases ps n with hn | hn | hn
  · have hout : ¬ InSck ps n := fun hs =>
      absurd (((event_state h n).2.2.2 hs).symm.trans (event_published h hn).1) (by decide)
    cases hs : (eAt a₀ ps n).adc.sck with
    | false =>
      rw [event_reset h hn hs]
      simp [hout]
    | true =>
      rw [event_cut h hn hs]
      exact iff_of_true (hmore _ _) (Or.inr ⟨hn, rfl⟩)
  · rw [(event_arm h hn).2.2.2.2.1]
    have hstate := (event_arm h hn).1
    refine iff_of_false (fun hne => hne rfl) ?_
    rintro (hs | ⟨hz, -⟩)
    · exact absurd (((event_state h n).2.2.2 hs).symm.trans hstate) (by decide)
    · exact absurd ((event_published h hz).1.symm.trans hstate) (by decide)
  · rw [(event_shift h (k := adcPhase ps n - 4) hn.1 (by have := hn.2; omega)).2.2.2.2.1]
    exact iff_of_true (hmore _ _) (Or.inl hn)

/-- The first rising edge of a frame comes out of `ARM`. -/
theorem first_phase (h : a₀.PowerUp) {q : ℕ} (hq : (eAt a₀ ps q).adc.currentState = sArm)
    (hrise : SckRise a₀ ps q) : adcPhase ps q = 4 ∧ (ps q).resetN = true := by
  have hshut : (eAt a₀ ps q).adc.sck = false := by rw [sck, hq]; rfl
  obtain ⟨hr, h4⟩ : InSck ps q :=
    ((sckRise_iff h).1 hrise).resolve_right fun ho => absurd (hshut.symm.trans ho.2) (by decide)
  refine ⟨?_, hr⟩
  cases q with
  | zero => exact absurd h4 (Nat.not_succ_le_zero 3)
  | succ l =>
    obtain ⟨hgo, -, h3⟩ := (event_state h l).2.1.1 hq
    have hnext := adcPhase_succ hgo
    omega

theorem arm_of_phase (h : a₀.PowerUp) {q : ℕ} (hq : adcPhase ps q = 4) :
    (eAt a₀ ps q).adc.currentState = sArm := by
  obtain ⟨m, rfl, -, harm⟩ := lead_in hq
  obtain ⟨hph, hr⟩ := harm 2 (by omega)
  have hstate := (event_arm h (n := m + 1 + 2) ⟨hr, by omega, by omega⟩).1
  rwa [show m + 1 + 2 + 1 = m + 4 by omega] at hstate

/-- **The edges of a frame** go on without a reset between them. -/
theorem rises_go (h : a₀.PowerUp) {q : ℕ} (hq : (eAt a₀ ps q).adc.currentState = sArm) : ∀ k,
    (∀ i, i ≤ k → SckRise a₀ ps (q + i)) →
    adcPhase ps q = 4 ∧ ∀ i, i < k → (ps (q + i)).resetN = true := by
  intro k
  induction k with
  | zero => exact fun hrise => ⟨(first_phase h hq (hrise 0 le_rfl)).1, fun i hi => absurd hi (Nat.not_lt_zero i)⟩
  | succ k ih =>
    intro hrise
    obtain ⟨hph, hr⟩ := ih fun i hi => hrise i (by omega)
    refine ⟨hph, fun i hi => ?_⟩
    rcases Nat.lt_or_ge i k with hik | hik
    · exact hr i hik
    obtain rfl : i = k := by omega
    by_contra hlow
    -- a reset would shut `ADC_SCK` before the next edge
    rw [Bool.not_eq_true] at hlow
    have hreset : InReset ps (q + i) := Or.inl hlow
    rcases (sckRise_iff h).1 (hrise (i + 1) le_rfl) with hs | ⟨-, hopen⟩
    · have h4 := hs.2
      rw [← Nat.add_assoc, adcPhase_restart hlow] at h4
      omega
    · have hsck := (gate_iff h (q + i)).1 hopen
      exact absurd (((event_state h (q + i)).2.2.2 hsck).symm.trans (event_published h hreset).1) (by decide)

/-- **`ADC_SCK` within a frame** stays open, at bit `11 - k` after `k` cycles. -/
theorem frame_gate (h : a₀.PowerUp) {q k : ℕ} (hq : adcPhase ps q = 4) (h0 : 0 < k) (hk : k ≤ 12)
    (hr : ∀ i, i < k → (ps (q + i)).resetN = true) :
    (eAt a₀ ps (q + k)).adc.sck = true ∧ (eAt a₀ ps (q + k)).adc.bitIndex = 11 - k := by
  obtain ⟨j, rfl⟩ : ∃ j, k = j + 1 := ⟨k - 1, by omega⟩
  have hph := frame_phase hq (show j < 12 by omega) fun i hi => hr i (by omega)
  have hopen : (eAt a₀ ps (q + (j + 1))).adc.sck = true :=
    (gate_iff h (q + j)).2 ⟨hr j (by omega), by omega⟩
  refine ⟨hopen, ?_⟩
  have hev := event_phase ps h (q + (j + 1))
  have hnext : adcPhase ps (q + (j + 1)) = (j + 4 + 1) % 16 := by
    rw [← Nat.add_assoc, adcPhase_succ (hr j (by omega)), hph]
  rw [bitIndex]
  by_cases hj : j = 11
  · subst hj
    have hcount := hev.last hnext hopen
    rw [hcount]
    rfl
  · have hat := hev.control
    rw [hnext, show (j + 4 + 1) % 16 = j + 1 + 4 by omega] at hat
    have hat' : At (j + 1 + 4) (eAt a₀ ps (q + (j + 1))).adc := hat
    rw [hat'.2.2.2]

/-- **Where the gate is open** some cycles of a frame have gone by. -/
theorem frame_of_gate (h : a₀.PowerUp) (hs : (eAt a₀ ps n).adc.sck = true) :
    ∃ q k, n = q + k ∧ adcPhase ps q = 4 ∧ 0 < k ∧ k ≤ 12 ∧ ∀ i, i < k → (ps (q + i)).resetN = true := by
  cases n with
  | zero => exact absurd ((sck_start h).symm.trans hs) (by decide)
  | succ l =>
    obtain ⟨hgo, h4⟩ := (gate_iff h l).1 hs
    have hlt := adcPhase_lt ps l
    obtain ⟨j, hj⟩ : ∃ j, adcPhase ps l = j + 4 := ⟨adcPhase ps l - 4, by omega⟩
    obtain ⟨q, hl, hq, hr⟩ := frame_start hj
    refine ⟨q, j + 1, by omega, hq, by omega, by omega, fun i hi => ?_⟩
    rcases Nat.lt_succ_iff_lt_or_eq.1 hi with hij | rfl
    · exact hr i hij
    · rw [← hl]; exact hgo

/-- So every cycle of a frame has a rising edge, also the one that ends it. -/
theorem frame_rise (h : a₀.PowerUp) {q k : ℕ} (hq : adcPhase ps q = 4) (h0 : 0 < k) (hk : k ≤ 12)
    (hr : ∀ i, i < k → (ps (q + i)).resetN = true) : SckRise a₀ ps (q + k) := by
  have hopen := (frame_gate h hq h0 hk hr).1
  rw [sckRise_iff h]
  rcases in_cases ps (q + k) with hn | hn | hn
  · exact Or.inr ⟨hn, hopen⟩
  · have hsck : InSck ps (q + k - 1) := (gate_iff h (q + k - 1)).1 (by
      rwa [show q + k - 1 + 1 = q + k by omega])
    have hlt := adcPhase_lt ps (q + k - 1)
    have hnext := adcPhase_succ hsck.1
    rw [show q + k - 1 + 1 = q + k by omega] at hnext
    have h4 := hsck.2
    have hlow := hn.2
    omega
  · exact Or.inl hn

/-! ### The bits -/

/-- The bits last sampled: bit `i` as the last entry for it says, and 0 if there is none. -/
def wordOf (log : List (ℕ × Bool)) : BitVec 12 := log.foldl (fun r w => setBit r w.1 w.2) 0

theorem wordOf_concat (log : List (ℕ × Bool)) (i : ℕ) (b : Bool) :
    wordOf (log ++ [(i, b)]) = setBit (wordOf log) i b := by
  rw [wordOf, List.foldl_append]
  rfl

/-- **The shift register holds the bits last sampled.** -/
theorem resultReg_eq (h : a₀.PowerUp) (n : ℕ) :
    (eAt a₀ ps n).adc.resultReg = wordOf (eAt a₀ ps n).log := by
  induction n with
  | zero => exact h.resultReg
  | succ n ih =>
    rcases in_cases ps n with hn | hn | hn
    · cases hs : (eAt a₀ ps n).adc.sck with
      | false => rw [event_reset h hn hs]; exact ih
      | true =>
        rw [event_cut h hn hs, wordOf_concat, ← ih]
    · obtain ⟨-, -, hreg, -, hlog, -⟩ := event_arm h hn
      rw [hreg, hlog, ih]
    · obtain ⟨-, -, hreg, -, hlog, -⟩ :=
        event_shift h (k := adcPhase ps n - 4) hn.1 (by have := hn.2; omega)
      rw [hreg, hlog, wordOf_concat, ih]

/-- `ADC_SDI` after `j + 1` pulses of a frame shows bit `11 - j` of the command. -/
theorem frame_sdi (h : a₀.PowerUp) {q j : ℕ} (hq : adcPhase ps q = 4) (hj : j < 12)
    (hr : ∀ i, i ≤ j → (ps (q + i)).resetN = true) :
    (eAt a₀ ps (q + (j + 1))).adc.sdi = (commandWord (ps (q + j)).chan).getLsbD (11 - j) := by
  have hph := frame_phase hq hj fun i hi => hr i hi.le
  exact (event_shift h (hr j le_rfl) hph).2.2.2.1

/-- The four cycles before a frame, the first of them in `RESET`, keep what the edge into
`RESET` left. -/
theorem event_lead (h : a₀.PowerUp) {m : ℕ} (harm : ArmsAfter ps m) : ∀ i, i ≤ 3 →
    (eAt a₀ ps (m + 1 + i)).adc.sdi = (eAt a₀ ps (m + 1)).adc.sdi ∧
    (eAt a₀ ps (m + 1 + i)).log = (eAt a₀ ps (m + 1)).log := by
  intro i
  induction i with
  | zero => exact fun _ => ⟨rfl, rfl⟩
  | succ i ih =>
    intro hi
    obtain ⟨h1, h2⟩ := ih (by omega)
    obtain ⟨hph, hr⟩ := harm i (by omega)
    obtain ⟨-, -, -, g1, g2, -⟩ := event_arm h (n := m + 1 + i) ⟨hr, by omega, by omega⟩
    rw [← Nat.add_assoc]
    exact ⟨g1.trans h1, g2.trans h2⟩

end BankVault
