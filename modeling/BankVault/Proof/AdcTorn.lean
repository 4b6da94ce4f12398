import BankVault.Proof.AdcReset

/-!
# Results after a reset

`RESET` publishes whatever the shift register holds, also when a reset has cut the frame: then it
holds the bits of the cut frame, one more than the frame had cycles, and below them those of the
frames before.

* `cut_published`: what a cut publishes.
* `torn_iff`: no torn result is published if and only if no cut leaves one.
-/

namespace BankVault

open Clocked AdcInterface

variable {a₀ : AdcInterface} {ps : ℕ → AdcPins} {n q k : ℕ}

/-- `v` with its first `k` bits, from bit 11 down, replaced by those of `b`. -/
def cutWord (v : BitVec 12) (b : ℕ → Bool) : ℕ → BitVec 12
  | 0 => v
  | k + 1 => setBit (cutWord v b k) (11 - k) (b k)

theorem cutWord_bit (v : BitVec 12) (b : ℕ → Bool) : ∀ k, k ≤ 12 → ∀ i, i < 12 →
    (cutWord v b k).getLsbD (11 - i) = if i < k then b i else v.getLsbD (11 - i) := by
  intro k
  induction k with
  | zero => exact fun _ i _ => (if_neg (Nat.not_lt_zero i)).symm
  | succ k ih =>
    intro hk i hi
    rw [cutWord, getLsbD_setBit _ (by omega), ih (by omega) i hi]
    by_cases hik : i = k
    · rw [if_pos (by omega), if_pos (by omega), hik]
    · rw [if_neg (by omega)]
      by_cases hlt : i < k
      · rw [if_pos hlt, if_pos (by omega)]
      · rw [if_neg hlt, if_neg (by omega)]

/-- The cycle of the last rising edge of a frame that completes: a frame that is not cut at its
twelfth edge has a thirteenth. -/
def lastEdge (ps : ℕ → AdcPins) (q : ℕ) : ℕ := if (ps (q + 11)).resetN then q + 12 else q + 11

/-- `v` is what `ADC_SDO` showed at the rising edges of the frame from cycle `q` on, first bit on top;
bit 0 is written by every edge from the twelfth on, and the last one counts. -/
def Sampled (ps : ℕ → AdcPins) (q : ℕ) (v : BitVec 12) : Prop :=
  (∀ i, i < 11 → v.getLsbD (11 - i) = (ps (q + i)).sdo) ∧ v.getLsbD 0 = (ps (lastEdge ps q)).sdo

/-- `v` is 0 or the word of a frame that completed before cycle `n`. -/
def WholeSample (a₀ : AdcInterface) (ps : ℕ → AdcPins) (n : ℕ) (v : BitVec 12) : Prop :=
  v = 0 ∨ ∃ q, lastEdge ps q < n ∧ Completed a₀ ps q ∧ Sampled ps q v

/-- **No torn result is ever published.** -/
def NoTorn (a₀ : AdcInterface) (ps : ℕ → AdcPins) : Prop :=
  ∀ n, WholeSample a₀ ps n (eAt a₀ ps n).adc.result

/-- A reset cuts the frame that starts in cycle `q` after `k` cycles; the edge that cuts it is its
rising edge number `k + 1`, and there is no twelfth. -/
structure CutFrame (a₀ : AdcInterface) (ps : ℕ → AdcPins) (q k : ℕ) : Prop where
  first : (eAt a₀ ps q).adc.currentState = sArm
  pos : 0 < k
  lt : k < 11
  edges : ∀ i, i ≤ k → SckRise a₀ ps (q + i)
  cut : (ps (q + k)).resetN = false

/-- **Every cut is harmless**: the `k + 1` bits sampled in the cut frame, on top of the bits last
sampled before it, make 0 or the word of a frame that completed. -/
def CutsWhole (a₀ : AdcInterface) (ps : ℕ → AdcPins) : Prop :=
  ∀ q k, CutFrame a₀ ps q k →
    WholeSample a₀ ps (q + k + 1) (cutWord (wordOf (eAt a₀ ps q).log) (fun i => (ps (q + i)).sdo) (k + 1))

theorem WholeSample.mono {v : BitVec 12} {m : ℕ} (hv : WholeSample a₀ ps n v) (hnm : n ≤ m) :
    WholeSample a₀ ps m v := by
  rcases hv with h0 | ⟨q, hq, hc, hs⟩
  · exact Or.inl h0
  · exact Or.inr ⟨q, by omega, hc, hs⟩

/-- The shift register after `k` cycles of a frame. -/
theorem resultReg_cut (h : a₀.PowerUp) (hq : adcPhase ps q = 4) : ∀ k, k ≤ 12 →
    (∀ i, i < k → (ps (q + i)).resetN = true) → (eAt a₀ ps (q + k)).adc.resultReg =
      cutWord (wordOf (eAt a₀ ps q).log) (fun i => (ps (q + i)).sdo) k := by
  intro k
  induction k with
  | zero => exact fun _ _ => resultReg_eq h q
  | succ k ih =>
    intro hk hr
    have hph := frame_phase hq (show k < 12 by omega) fun i hi => hr i (by omega)
    rw [← Nat.add_assoc, (event_shift h (hr k (by omega)) hph).2.2.1,
      ih (by omega) fun i hi => hr i (by omega)]
    rfl

/-- **What the end of a frame publishes**, after `k` cycles of it: the edge that ends it writes one
more bit. -/
theorem end_published (h : a₀.PowerUp) (hq : adcPhase ps q = 4) (h0 : 0 < k) (hk : k ≤ 12)
    (hr : ∀ i, i < k → (ps (q + i)).resetN = true) (hreset : InReset ps (q + k)) :
    (eAt a₀ ps (q + k + 1)).adc.result = setBit
        (cutWord (wordOf (eAt a₀ ps q).log) (fun i => (ps (q + i)).sdo) k) (11 - k) (ps (q + k)).sdo ∧
      (eAt a₀ ps (q + k + 1)).adc.resultReg = (eAt a₀ ps (q + k + 1)).adc.result := by
  obtain ⟨hopen, hidx⟩ := frame_gate h hq h0 hk hr
  rw [event_cut h hreset hopen, hidx, resultReg_cut h hq k hk hr]
  exact ⟨rfl, rfl⟩

/-- **What a cut publishes.** -/
theorem cut_published (h : a₀.PowerUp) (hc : CutFrame a₀ ps q k) :
    (eAt a₀ ps (q + k + 1)).adc.result =
      cutWord (wordOf (eAt a₀ ps q).log) (fun i => (ps (q + i)).sdo) (k + 1) := by
  obtain ⟨hq, hr⟩ := rises_go h hc.first k hc.edges
  have hlt := hc.lt
  exact (end_published h hq hc.pos (by omega) hr (Or.inl hc.cut)).1

/-- **A frame ends** with a cut, or it has completed and its word is published. -/
theorem end_cases (h : a₀.PowerUp) (hq : adcPhase ps q = 4) (h0 : 0 < k) (hk : k ≤ 12)
    (hr : ∀ i, i < k → (ps (q + i)).resetN = true) (hreset : InReset ps (q + k)) :
    CutFrame a₀ ps q k ∨ WholeSample a₀ ps (q + k + 1) (eAt a₀ ps (q + k + 1)).adc.result := by
  have hrise : ∀ i, i ≤ k → SckRise a₀ ps (q + i) := by
    intro i hi
    rcases Nat.eq_zero_or_pos i with rfl | hpos
    · exact (sckRise_iff h).2 (Or.inl ⟨hr 0 h0, hq.ge⟩)
    · exact frame_rise h hq hpos (by omega) fun j hj => hr j (by omega)
  have hfirst := arm_of_phase h hq
  have hpub := (end_published h hq h0 hk hr hreset).1
  rcases Nat.lt_or_ge k 11 with h11 | h11
  · -- phase `k + 4` is not the end of the frame
    refine Or.inl ⟨hfirst, h0, h11, hrise, hreset.resolve_right fun hph => ?_⟩
    have := frame_phase hq (show k < 12 by omega) hr
    omega
  have hcomplete : Completed a₀ ps q := ⟨hfirst, fun i hi => hrise i (by omega)⟩
  have hbit := cutWord_bit (wordOf (eAt a₀ ps q).log) (fun i => (ps (q + i)).sdo) k hk
  refine Or.inr (Or.inr ⟨q, ?_, hcomplete, fun i hi => ?_, ?_⟩)
  · unfold lastEdge
    split_ifs with hgo
    · have hne : k ≠ 11 := by
        rintro rfl
        have hph := frame_phase hq (show 11 < 12 by omega) hr
        have hlow := hreset.resolve_right (by omega)
        exact absurd (hgo.symm.trans hlow) (by decide)
      omega
    · omega
  · rw [hpub, getLsbD_setBit _ (by omega), if_neg (by omega), hbit i (by omega), if_pos (by omega)]
  · rw [hpub, getLsbD_setBit _ (by omega), if_pos (by omega)]
    unfold lastEdge
    obtain rfl | rfl : k = 11 ∨ k = 12 := by omega
    · have hph := frame_phase hq (show 11 < 12 by omega) hr
      have hlow := hreset.resolve_right (by omega)
      rw [hlow]
      rfl
    · rw [hr 11 (by omega)]
      rfl

/-- **What stands in the registers** when every cut is harmless: a whole result, and a whole word in
the shift register outside `SCK_CYCLE`. -/
theorem whole_run (h : a₀.PowerUp) (hc : CutsWhole a₀ ps) (n : ℕ) :
    WholeSample a₀ ps n (eAt a₀ ps n).adc.result ∧
      ((eAt a₀ ps n).adc.sck = false → WholeSample a₀ ps n (eAt a₀ ps n).adc.resultReg) := by
  induction n with
  | zero => exact ⟨Or.inl h.result, fun _ => Or.inl h.resultReg⟩
  | succ n ih =>
    obtain ⟨hres, hreg⟩ := ih
    rcases in_cases ps n with hn | hn | hn
    · cases hs : (eAt a₀ ps n).adc.sck with
      | false =>
        have hwhole := (hreg hs).mono (Nat.le_succ n)
        rw [event_reset h hn hs]
        exact ⟨hwhole, fun _ => hwhole⟩
      | true =>
        -- the edge that ends a frame
        obtain ⟨q, k, rfl, hq, h0, hk, hgo⟩ := frame_of_gate h hs
        have hpub := (end_published h hq h0 hk hgo hn).2
        have hwhole : WholeSample a₀ ps (q + k + 1) (eAt a₀ ps (q + k + 1)).adc.result := by
          rcases end_cases h hq h0 hk hgo hn with hcut | hwhole
          · rw [cut_published h hcut]
            exact hc q k hcut
          · exact hwhole
        refine ⟨hwhole, fun _ => ?_⟩
        have hsame := hwhole
        rw [← hpub] at hsame
        exact hsame
    · obtain ⟨-, g1, g2, -, -, -⟩ := event_arm h hn
      have hev := event_phase ps h n
      have hlow := hn.2
      rw [g1, g2]
      exact ⟨hres.mono (Nat.le_succ n),
        fun _ => (hreg (hev.shut (by omega) (by omega))).mono (Nat.le_succ n)⟩
    · have h4 := hn.2
      have hshift := event_shift h (k := adcPhase ps n - 4) hn.1 (by omega)
      rw [hshift.2.1]
      refine ⟨hres.mono (Nat.le_succ n), fun hs => ?_⟩
      exact absurd (hs.symm.trans ((gate_iff h n).2 hn)) (by decide)

/-- **When no torn result is published.** In every run from power-up, event by event, with `reset_n`
low at any edges and every bit stream: the result is always 0 or the word of one completed frame if
and only if every cut is harmless. -/
theorem torn_iff (a₀ : AdcInterface) (ps : ℕ → AdcPins) (h : a₀.PowerUp) :
    NoTorn a₀ ps ↔ CutsWhole a₀ ps := by
  constructor
  · intro ht q k hcut
    have hpub := ht (q + k + 1)
    rwa [cut_published h hcut] at hpub
  · exact fun hc n => (whole_run h hc n).1

/-- A frame of ones that completes, and one of zeros that a reset cuts at its fifth edge. -/
def tornPins (n : ℕ) : AdcPins where
  resetN := n ≠ 24
  sdo := n < 16
  chan := 0

theorem torn_iff_tornPins : NoTorn quietAdc tornPins ↔ CutsWhole quietAdc tornPins :=
  torn_iff quietAdc tornPins quietAdc_powerUp

/-- **A torn result**: five zeros of the cut frame on top of six ones of the frame before, which ends
with the zero of its thirteenth edge. -/
theorem torn_published : (eAt quietAdc tornPins 25).adc.result = 0x07e ∧ ¬ NoTorn quietAdc tornPins := by
  have hres : (eAt quietAdc tornPins 25).adc.result = 0x07e := by decide +kernel
  refine ⟨hres, fun h => ?_⟩
  rcases h 25 with h0 | ⟨q, hq, -, hs, -⟩
  · rw [hres] at h0; exact absurd h0 (by decide)
  · -- every frame that has completed by then starts with a one
    have htop := hs 0 (by omega)
    have hearly : q + 0 < 16 := by
      unfold lastEdge at hq
      split_ifs at hq <;> omega
    have hone : (tornPins (q + 0)).sdo = true := decide_eq_true hearly
    rw [hres, hone] at htop
    exact absurd htop (by decide)

end BankVault
