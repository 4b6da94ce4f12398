import BankVault.Clocked.Ring
import BankVault.Proof.Nets
import BankVault.Rtl.Display
import Mathlib.Tactic.IntervalCases

/-!
# What the seven-segment display shows

The multiplexer goes round: 256 edges of `clk` for each digit and 1024 for all four, once `digit`
is at most 3. After a power-up with any registers that takes one round of `delayCnt`; until then
no digit is lit.

* `code_displayed`: in a stay in `game_2` of 1280 edges the four digits of the code are seen, each
  at its place, and nothing else.
* `settled_display`: the model's outputs are what the nets settle on.
-/

namespace BankVault

open Clocked

namespace SevenSeg

variable {s : SevenSeg} {e : Pins × BitVec 4}

/-! ### The multiplexer -/

/-- Where the multiplexer is in its round. -/
def slot (s : SevenSeg) : ℕ := 256 * s.digit.toNat + (s.delayCnt + 255).toNat

theorem step_off (h : ¬ e.1.clk = true) : (s.step e).digit = s.digit ∧ (s.step e).delayCnt = s.delayCnt := by
  simp [step, h]

theorem step_delayCnt (h : e.1.clk = true) : (s.step e).delayCnt = s.delayCnt + 1 := by
  simp [step, h]

theorem step_digit (h : e.1.clk = true) : (s.step e).digit =
    if s.delayCnt = 0 then (if s.digit ≥ 3 then 0 else s.digit + 1) else s.digit := by
  simp [step, h]

/-- `delayCnt` goes round. -/
theorem ring_delayCnt : Ring step (fun _ => True) (fun e : Pins × BitVec 4 => e.1.clk = true) 256
    (fun s => s.delayCnt.toNat) where
  keep := fun _ _ h => h
  lt := fun s _ => s.delayCnt.isLt
  next := fun e s _ h => by
    rw [step_delayCnt h]
    exact BitVec.toNat_add _ _
  stay := fun e s _ h => by rw [(step_off h).2]

/-- **The multiplexer goes round**, once `digit` is at most 3. -/
theorem ring_slot : Ring step (fun s => s.digit ≤ 3) (fun e : Pins × BitVec 4 => e.1.clk = true) 1024 slot where
  keep := fun e s h => by
    by_cases hc : e.1.clk = true
    · rw [step_digit hc]
      split_ifs
      · decide
      · bv_omega
      · exact h
    · rw [(step_off hc).1]
      exact h
  lt := fun s h => by
    have hcnt := (s.delayCnt + 255).isLt
    unfold slot
    bv_omega
  next := fun e s h hc => by
    unfold slot
    rw [step_delayCnt hc, step_digit hc]
    by_cases h0 : s.delayCnt = 0
    · -- the next digit
      rw [if_pos h0, h0]
      have hcases : s.digit = 0 ∨ s.digit = 1 ∨ s.digit = 2 ∨ s.digit = 3 := by bv_omega
      rcases hcases with hd | hd | hd | hd <;> rw [hd] <;> decide
    · rw [if_neg h0]
      bv_omega
  stay := fun e s _ hc => by
    unfold slot
    rw [(step_off hc).1, (step_off hc).2]

/-- Once `delayCnt` has come to 0, the next edge takes `digit` to at most 3. -/
theorem step_fresh (h : s.delayCnt = 0 ∨ s.digit ≤ 3) : (s.step e).delayCnt = 0 ∨ (s.step e).digit ≤ 3 := by
  by_cases hc : e.1.clk = true
  · right
    rw [step_digit hc]
    split_ifs with h0 h3
    · decide
    · bv_omega
    · exact h.resolve_left h0
  · rw [(step_off hc).1, (step_off hc).2]
    exact h

/-! ### In the joystick game -/

/-- In `game_2` the number at a place is the code digit of that place. -/
theorem displayNum_game2 (hst : s.vault.currentState = game2) (kpNum : BitVec 4) {k : ℕ} (hk : k < 4)
    (hd : s.digit.toNat = k) : s.displayNum kpNum = (s.vault.rNum k).setWidth 5 := by
  have hdisp : ∀ x y : BitVec 5, dispNum s.vault.currentState x y = y := by
    intro x y
    rw [dispNum, hst, if_neg (by decide), if_neg (by decide), if_pos rfl]
  unfold displayNum dispNum0 dispNum1 dispNum2 dispNum3
  simp only [hdisp]
  interval_cases k
  · rw [if_neg (by bv_omega), if_neg (by bv_omega), if_neg (by bv_omega), if_pos (by bv_omega)]
    rfl
  · rw [if_neg (by bv_omega), if_neg (by bv_omega), if_pos (by bv_omega)]
    rfl
  · rw [if_neg (by bv_omega), if_pos (by bv_omega)]
    rfl
  · rw [if_pos (by bv_omega)]
    rfl

/-- The digit that is lit in `game_2`. -/
theorem ct_game2 (hst : s.vault.currentState = game2) {k : ℕ} (hk : k < 4) :
    s.ct = 1#4 <<< k ↔ s.digit.toNat = k := by
  unfold ct
  rw [hst, if_neg (by decide)]
  generalize s.digit = digit
  revert digit
  interval_cases k <;> decide

end SevenSeg

/-! ### Stays -/

variable {s₀ : SevenSeg} {ps : ℕ → Pins} {d : ℕ → BitVec 4} {lo hi : ℕ}

/-- The stretch from just after `lo` to `hi` is spent in `game_2`. -/
def InGame2 (s₀ : SevenSeg) (ps : ℕ → Pins) (d : ℕ → BitVec 4) (lo hi : ℕ) : Prop :=
  ∀ j, lo < j → j ≤ hi → (ssAt s₀ ps d j).vault.currentState = game2

/-- The edges of `clk` before event `n`. -/
def edges (ps : ℕ → Pins) (n : ℕ) : ℕ := Nat.count (fun i => (ps i).clk = true) n

/-- A low `reset_n` takes the lock to `start_up`. -/
theorem resetN_of_stage {j : ℕ} (h : (ssAt s₀ ps d (j + 1)).vault.currentState ≠ startUp) :
    (ps j).resetN = true := by
  by_contra hr
  exact h (Vault.step_currentState_reset (e := (ssAt s₀ ps d j).keyed.ev (ps j) (d j)) (Bool.not_eq_true _ ▸ hr))

/-- The digits do not change during the stretch. -/
theorem InGame2.frozen (h : InGame2 s₀ ps d lo hi) (k : ℕ) {i j : ℕ} (hlo : lo < i) (hij : i ≤ j)
    (hhi : j ≤ hi) : (ssAt s₀ ps d j).vault.rNum k = (ssAt s₀ ps d i).vault.rNum k := by
  induction j, hij using Nat.le_induction with
  | base => rfl
  | succ j hij ih =>
    have hr : (ps j).resetN = true := resetN_of_stage (by rw [h (j + 1) (by omega) hhi]; decide)
    rw [← ih (by omega), ssAt_succ]
    exact Vault.step_rNum_on hr (h j (by omega) (by omega)) k

/-- **Every place is lit** within 1280 edges, from any registers. -/
theorem digit_visited (hlt : lo < hi) (hc : edges ps (lo + 1) + 1280 ≤ edges ps hi) {k : ℕ} (hk : k < 4) :
    ∃ j, lo < j ∧ j ≤ hi ∧ (ssAt s₀ ps d j).digit.toNat = k := by
  have hcount : ∀ n, Nat.count (fun i => ((ps i, d i) : Pins × BitVec 4).1.clk = true) n = edges ps n :=
    fun n => rfl
  -- `delayCnt` comes to 0
  obtain ⟨a, hloa, hahi, hedges₁⟩ : ∃ j, lo + 1 ≤ j ∧ j ≤ hi ∧ edges ps j = edges ps (lo + 1) + 255 :=
    exists_count hlt (Nat.le_add_right _ 255) (by unfold edges at hc ⊢; omega)
  obtain ⟨b, hlob, hba, hzero⟩ : ∃ j, lo + 1 ≤ j ∧ j ≤ a ∧ (ssAt s₀ ps d j).delayCnt.toNat = 0 :=
    SevenSeg.ring_delayCnt.visits trivial hloa
      (by rw [hcount, hcount]; exact hedges₁.ge) (by decide)
  have hmono : edges ps b ≤ edges ps a := Nat.count_monotone _ hba
  -- one edge later `digit` is at most 3
  obtain ⟨c, hbc, hchi, hedges₂⟩ : ∃ j, b ≤ j ∧ j ≤ hi ∧ edges ps j = edges ps b + 1 :=
    exists_count (hba.trans hahi) (Nat.le_add_right _ 1) (by unfold edges at hc hmono hedges₁ ⊢; omega)
  have hfresh : (ssAt s₀ ps d c).delayCnt = 0 ∨ (ssAt s₀ ps d c).digit ≤ 3 :=
    inv_from (I := fun s : SevenSeg => s.delayCnt = 0 ∨ s.digit ≤ 3) (fun _ _ h => SevenSeg.step_fresh h)
      (Or.inl (BitVec.eq_of_toNat_eq hzero)) c hbc
  have hone : (ssAt s₀ ps d c).delayCnt.toNat =
      ((ssAt s₀ ps d b).delayCnt.toNat + (edges ps c - edges ps b)) % 256 :=
    SevenSeg.ring_delayCnt.slot_eq trivial c hbc
  have hdigit : (ssAt s₀ ps d c).digit ≤ 3 := by
    refine hfresh.resolve_left fun h => ?_
    rw [h, hzero, hedges₂, Nat.add_sub_cancel_left] at hone
    exact absurd hone (by decide)
  -- from there the multiplexer goes round
  obtain ⟨j, hcj, hjhi, hslot⟩ : ∃ j, c ≤ j ∧ j ≤ hi ∧ (ssAt s₀ ps d j).slot = 256 * k :=
    SevenSeg.ring_slot.visits hdigit hchi (by rw [hcount, hcount]; omega) (by omega)
  refine ⟨j, by omega, hjhi, ?_⟩
  have hcnt := ((ssAt s₀ ps d j).delayCnt + 255).isLt
  unfold SevenSeg.slot at hslot
  omega

/-- **The code is displayed.** In every run from any registers, over every stretch of at least 1280
edges of `clk` in `game_2`: the digit `x` is seen at place `k` at some moment if and only if it is
the `k`-th digit of the code. -/
theorem code_displayed (s₀ : SevenSeg) (ps : ℕ → Pins) (d : ℕ → BitVec 4) (lo hi : ℕ)
    (hst : InGame2 s₀ ps d lo hi) (hlt : lo < hi) (hc : edges ps (lo + 1) + 1280 ≤ edges ps hi)
    (k : ℕ) (hk : k < 4) (x : BitVec 4) :
    (∃ j, lo < j ∧ j ≤ hi ∧ (ssAt s₀ ps d j).ct = 1#4 <<< k ∧
      (ssAt s₀ ps d j).leds (ps j) (d j) = decode7 (x.setWidth 5)) ↔ x = (ssAt s₀ ps d hi).vault.rNum k := by
  have hle : ∀ w : BitVec 4, w.setWidth 5 ≤ (16 : BitVec 5) := by decide
  have hshown : ∀ j, lo < j → j ≤ hi → (ssAt s₀ ps d j).digit.toNat = k →
      (ssAt s₀ ps d j).leds (ps j) (d j) = decode7 (((ssAt s₀ ps d hi).vault.rNum k).setWidth 5) := by
    intro j hlo hhi hdigit
    rw [SevenSeg.leds, SevenSeg.displayNum_game2 (hst j hlo hhi) _ hk hdigit, hst.frozen k hlo hhi le_rfl]
  constructor
  · rintro ⟨j, hlo, hhi, hct, hleds⟩
    rw [hshown j hlo hhi ((SevenSeg.ct_game2 (hst j hlo hhi) hk).1 hct)] at hleds
    have hsame := decode7_injOn _ _ (hle _) hleds
    have hinj : ∀ w w' : BitVec 4, w.setWidth 5 = w'.setWidth 5 → w' = w := by decide
    exact hinj _ _ hsame
  · rintro rfl
    obtain ⟨j, hlo, hhi, hdigit⟩ : ∃ j, lo < j ∧ j ≤ hi ∧ (ssAt s₀ ps d j).digit.toNat = k :=
      digit_visited hlt hc hk
    exact ⟨j, hlo, hhi, (SevenSeg.ct_game2 (hst j hlo hhi) hk).2 hdigit, hshown j hlo hhi hdigit⟩

/-- A stay with the stick at rest and no key down. -/
def restPins (_ : ℕ) : Pins := ⟨true, true, true, 0b1111, 0, 0, false⟩

/-- The lock just in `game_2`, with a code to be shown, and the display at any place. -/
def restStart : SevenSeg where
  keyed := ⟨0b0111, { powerUp with nextState := game2, joyCode := ⟨JoyCode.sOne⟩ }⟩
  debounce0 := ⟨true, false, 5, true⟩
  delayCnt := 77
  digit := 6
  ctTemp := 1

theorem restPins_game2 (n : ℕ) : (ssAt restStart restPins (fun _ => 0) n).vault.currentState = game2 ∧
    (ssAt restStart restPins (fun _ => 0) n).vault.joyCode.nextState = JoyCode.sOne := by
  induction n with
  | zero => exact ⟨rfl, rfl⟩
  | succ n ih =>
    obtain ⟨hst, hjoy⟩ := ih
    set v := (ssAt restStart restPins (fun _ => 0) n).vault
    have hgate : ∀ e : Ev, v.gate e = false := by
      intro e
      have hflag : v.jamesFlag = false := by
        rw [Vault.jamesFlag, JoyCode.passFlag, JoyCode.currentState_eq (by rw [hjoy]; decide), hjoy]
        rfl
      simp [Vault.gate, hst, hflag]
    rw [ssAt_succ]
    constructor
    · change (Vault.step _ v).currentState = _
      rw [Vault.step_currentState_clk rfl rfl, Vault.stateHandler_eq rfl (by rw [hst]; decide), hgate]
      exact hst
    · change (Vault.step _ v).joyCode.nextState = _
      rw [Vault.step_joy_on rfl hst]
      change JoyCode.stateHandler _ _ 0 v.joyCode.currentState = _
      rw [JoyCode.currentState_eq (by rw [hjoy]; decide), hjoy, JoyCode.stateHandler_wait (by decide), if_neg]
      simp [JoyCode.hit, JoyCode.posMatch]

theorem code_displayed_rest : (∃ j, 0 < j ∧ j ≤ 1281 ∧
    (ssAt restStart restPins (fun _ => 0) j).ct = 1#4 <<< 2 ∧
    (ssAt restStart restPins (fun _ => 0) j).leds (restPins j) 0 = decode7 ((9 : BitVec 4).setWidth 5)) ↔
      9 = (ssAt restStart restPins (fun _ => 0) 1281).vault.rNum 2 := by
  have hcount : ∀ n, edges restPins n = n := fun n => Nat.count_of_forall fun _ _ => rfl
  exact code_displayed restStart restPins (fun _ => 0) 0 1281 (fun j _ _ => (restPins_game2 j).1) (by decide)
    (by rw [hcount, hcount]) 2 (by decide) 9

/-! ### The nets -/

/-- The registers and pins that the nets read. -/
def SevenSeg.netIn (p : Pins) (dontCare : BitVec 4) (adcY : BitVec 12) (rgbOutput : BitVec 32) (s : SevenSeg) :
    NetIn where
  vault := s.vault
  kpc := s.keyed.kpc
  kpr := p.kpr
  dontCare := dontCare
  resetN := p.resetN
  adcXValue := p.adcXValue
  adcYValue := adcY
  rgbOutput := rgbOutput
  digit := s.digit
  ctTemp := s.ctTemp

/-- **Where the nets settle**, they settle on the number and the digit enables of the model. -/
theorem settled_display {s : SevenSeg} {p : Pins} {dontCare : BitVec 4} {adcY : BitVec 12}
    {rgbOutput : BitVec 32} {a : Nets} (h : Reachable s.vault)
    (ha : Stable (drive (s.netIn p dontCare adcY rgbOutput)) a) :
    a .displayNum = s.displayNum (s.keyed.decode p dontCare).num ∧ a .ct = s.ct := by
  have hcur : a .currentState = s.vault.currentState := (settled_values h ha).1
  have hnum : a .kpNum = (s.keyed.decode p dontCare).num := (ha .kpNum).symm
  have h0 : a .dispNum0 = s.dispNum0 := by rw [← ha .dispNum0, SevenSeg.dispNum0, ← hcur]; rfl
  have h1 : a .dispNum1 = s.dispNum1 := by rw [← ha .dispNum1, SevenSeg.dispNum1, ← hcur]; rfl
  have h2 : a .dispNum2 = s.dispNum2 := by rw [← ha .dispNum2, SevenSeg.dispNum2, ← hcur]; rfl
  have h3 : a .dispNum3 = s.dispNum3 (s.keyed.decode p dontCare).num := by
    rw [← ha .dispNum3, SevenSeg.dispNum3, ← hcur, ← hnum]
    rfl
  constructor
  · rw [← ha .displayNum, SevenSeg.displayNum, ← h0, ← h1, ← h2, ← h3]
    rfl
  · rw [← ha .ct, SevenSeg.ct, ← hcur]
    rfl

end BankVault
