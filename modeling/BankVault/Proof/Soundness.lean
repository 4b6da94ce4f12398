import BankVault.Proof.Stages

/-!
# Soundness of the lock

Entering a stage clears the registers the stage works with: the edge into `game_1`
sets the counter and `mo_flag` to 0, the edge into `game_2` loads the code digits and
puts `joy_code` into `s_one`. So within a stay the local progress is bounded by what
happened since its entry edge, wherever the reset pulses before it were.

* `game1_progress`: in a stay in `game_1` the counter is at most the number of edges
  at which the key matched the digit shown, and `mo_flag` needs seven of them.
* `game2_progress`: in a stay in `game_2` the digits are frozen, and `joy_code` in
  state `i` has seen the first `i` digits keyed, in order, with the joystick over.
* `lock_sound`: every run from reset, every state after it.
-/

namespace BankVault

open Clocked

variable {s₀ : Vault} {es : ℕ → Ev} {k n e : ℕ}

/-- At event `j` a `clk` edge finds the key of the digit shown. -/
def MatchEdge (s₀ : Vault) (es : ℕ → Ev) (j : ℕ) : Prop :=
  (es j).clk = true ∧ (vAt s₀ es j).keyMatches (es j) = true

instance : DecidablePred (MatchEdge s₀ es) := fun j => by unfold MatchEdge; infer_instance

/-- At event `j` a `clk` edge finds the `i`-th code digit on the keypad, in its low
three bits, and the joystick over. -/
def DigitEdge (s₀ : Vault) (es : ℕ → Ev) (i j : ℕ) : Prop :=
  (es j).clk = true ∧ ((es j).kpNum.extractLsb' 0 3).setWidth 4 = (vAt s₀ es j).rNum i ∧
    (es j).adcXValue > 0x700

/-- **The history of an opened vault** at point `n`, in a run whose reset ended at
`k`: the five entry edges, and what happened between them. -/
structure Opened (s₀ : Vault) (es : ℕ → Ev) (k n e1 e2 e3 e4 e5 : ℕ) : Prop where
  start : k ≤ e1
  order : e1 < e2 ∧ e2 < e3 ∧ e3 < e4 ∧ e4 < e5 ∧ e5 < n
  edges : ∀ j, j = e1 ∨ j = e2 ∨ j = e3 ∨ j = e4 ∨ j = e5 → (es j).clk = true
  noReset : ∀ j, e1 ≤ j → j < n → (es j).resetN = true
  key : (es e1).kpNum = 0xb
  inGame1 : ∀ j, e1 < j → j ≤ e2 → (vAt s₀ es j).currentState = game1
  digits : 7 ≤ hits (MatchEdge s₀ es) e1 e2
  inGame2 : ∀ j, e2 < j → j ≤ e3 → (vAt s₀ es j).currentState = game2
  code : Climb (DigitEdge s₀ es) e2 e3 4
  frozen : ∀ i j, e2 < j → j ≤ e3 → (vAt s₀ es j).rNum i = (vAt s₀ es (e2 + 1)).rNum i
  inGame3 : ∀ j, e3 < j → j ≤ e4 → (vAt s₀ es j).currentState = game3
  knock : (vAt s₀ es e4).emagStateFlag = false
  inHarder : ∀ j, e4 < j → j ≤ e5 → (vAt s₀ es j).currentState = harder
  knock2 : (vAt s₀ es e5).emagStateFlag2 = false

/-! ### A stay in `game_1` -/

theorem Stay.counter_start (h : Stay s₀ es game1 e n) :
    (vAt s₀ es (e + 1)).gameOneCounter = 0 ∧ (vAt s₀ es (e + 1)).moFlag = false := by
  have hst : (vAt s₀ es e).currentState = startUp := h.prev rfl
  have hen : (vAt s₀ es e).game1En = false := by rw [Vault.game1En, hst]; decide
  rw [vAt_succ]
  refine ⟨Vault.step_counter_off h.clk (by rw [hst]; decide), ?_⟩
  show ((vAt s₀ es e).gameOne.step (es e).clk (es e).resetN (vAt s₀ es e).game1En _).victoryflag = _
  rw [h.clk, hen, GameOne.step_disabled]

/-- **Progress in game one** is bounded by the matches since the entry edge. -/
theorem game1_progress (h : Stay s₀ es game1 e n) : ∀ j, e < j → j ≤ n →
    (vAt s₀ es j).gameOneCounter.toNat ≤ hits (MatchEdge s₀ es) e j ∧
      ((vAt s₀ es j).moFlag = true → 7 ≤ hits (MatchEdge s₀ es) e j) := by
  apply stretch
  · obtain ⟨hc, hv⟩ := h.counter_start
    rw [hc, hv]
    exact ⟨Nat.zero_le _, fun h => absurd h (by decide)⟩
  · intro j h1 h2 ⟨hc, hv⟩
    have hg1 := h.stage j h1 (by omega)
    rw [hits_succ _ h1]
    constructor
    · -- the counter wraps, so its value is at most one more
      rw [vAt_succ, Vault.step_counter_on hg1]
      by_cases hm : (es j).clk = true ∧ (vAt s₀ es j).keyMatches (es j) = true
      · rw [if_pos hm, if_pos (show MatchEdge s₀ es j from hm), BitVec.toNat_add]
        exact le_trans (Nat.mod_le _ _) (Nat.add_le_add_right hc 1)
      · rw [if_neg hm, if_neg (show ¬ MatchEdge s₀ es j from hm)]
        simpa using hc
    · intro hf
      rw [vAt_succ] at hf
      rcases GameOne.victory_inv hf with ⟨-, hold⟩ | ⟨-, -, -, h7⟩
      · have := hv hold; omega
      · omega

/-! ### A stay in `game_2` -/

theorem game2_frozen (h : Stay s₀ es game2 e n) (i : ℕ) : ∀ j, e < j → j ≤ n →
    (vAt s₀ es j).rNum i = (vAt s₀ es (e + 1)).rNum i := by
  apply stretch
  · rfl
  · intro j h1 h2 hj
    rw [vAt_succ, Vault.step_rNum_on (h.resetN j (by omega) h2) (h.stage j h1 (by omega))]
    exact hj

/-- In a stay in `game_2` each digit register holds a three-bit value. -/
theorem game2_digit (h : Stay s₀ es game2 e n) (i : ℕ) {j : ℕ} (h1 : e < j) (h2 : j ≤ n) :
    (((vAt s₀ es j).rNum i).setWidth 3).setWidth 4 = (vAt s₀ es j).rNum i := by
  have hst : (vAt s₀ es e).currentState = game1 := h.prev rfl
  rw [game2_frozen h i j h1 h2, vAt_succ,
    Vault.step_rNum_off (h.resetN e le_rfl h.lt) h.clk (by rw [hst]; decide)]
  generalize Vault.adcDigit (es e) i = b
  revert b; decide

/-- **Progress in the joystick game**: `joy_code` has climbed the digits in order. -/
theorem game2_progress (h : Stay s₀ es game2 e n) : ∀ j, e < j → j ≤ n →
    (vAt s₀ es j).joyCode.nextState ≤ JoyCode.sPass ∧
      Climb (DigitEdge s₀ es) e j (vAt s₀ es j).joyCode.nextState.toNat := by
  have hst : (vAt s₀ es e).currentState = game1 := h.prev rfl
  apply stretch
  · rw [vAt_succ, Vault.step_joy_off h.clk (by rw [hst]; decide)]
    exact ⟨by decide, Climb.zero⟩
  · intro j h1 h2 ⟨hle, hcl⟩
    have hg2 := h.stage j h1 (by omega)
    have hr := h.resetN j (by omega) h2
    rw [vAt_succ, Vault.step_joy_on hr hg2]
    refine ⟨JoyCode.step_le hle, ?_⟩
    cases hc : (es j).clk with
    | false => exact hcl.mono (Nat.le_succ j)
    | true =>
      rw [JoyCode.step_on, JoyCode.currentState_eq hle]
      rcases JoyCode.stateHandler_inv (vAt s₀ es j).code (es j).kpNum (es j).adcXValue
        (vAt s₀ es j).joyCode.nextState with hs | hs | ⟨-, hhit, hs⟩
      · simp only [hs]; exact hcl.mono (Nat.le_succ j)
      · simp only [hs]; exact Climb.zero
      · simp only [hs]
        refine hcl.snoc h1 ⟨hc, ?_, ?_⟩
        · simp only [JoyCode.hit, Bool.and_eq_true, beq_iff_eq] at hhit
          rw [hhit.1, Vault.code_num, game2_digit h _ h1 (by omega)]
        · simp only [JoyCode.hit, JoyCode.posMatch, Bool.and_eq_true, decide_eq_true_eq] at hhit
          exact hhit.2

theorem game2_pass (h : Stay s₀ es game2 e n) (hp : (vAt s₀ es n).jamesFlag = true) :
    Climb (DigitEdge s₀ es) e n 4 := by
  obtain ⟨hle, hcl⟩ := game2_progress h n h.lt le_rfl
  have hs : (vAt s₀ es n).joyCode.nextState = JoyCode.sPass := by
    rw [← JoyCode.currentState_eq hle]
    simpa [Vault.jamesFlag, JoyCode.passFlag] using hp
  rw [hs] at hcl
  exact hcl

/-! ### The whole lock -/

/-- **A victory has its history**: the five stays, back to the edge out of `start_up`. -/
theorem opened_of_victory (h : StartsInReset es k) (hn : k ≤ n)
    (hv : (vAt s₀ es n).currentState = victory) :
    ∃ e1 e2 e3 e4 e5, Opened s₀ es k n e1 e2 e3 e4 e5 := by
  obtain ⟨e5, k5, st5⟩ := stay_of h hn (by decide) hv
  obtain ⟨e4, k4, st4⟩ := st5.back h k5 harder rfl (by decide)
  obtain ⟨e3, k3, st3⟩ := st4.back h k4 game3 rfl (by decide)
  obtain ⟨e2, k2, st2⟩ := st3.back h k3 game2 rfl (by decide)
  obtain ⟨e1, k1, st1⟩ := st2.back h k2 game1 rfl (by decide)
  -- what each gate says at its entry edge
  have g1 := st1.gate
  have g2 := st2.gate
  have g3 := st3.gate
  have g4 := st4.gate
  have g5 := st5.gate
  have p1 : (vAt s₀ es e1).currentState = startUp := st1.prev rfl
  simp [Vault.gate, p1, Vault.startFlag] at g1
  simp [Vault.gate, st1.stage e2 st1.lt le_rfl] at g2
  simp [Vault.gate, st2.stage e3 st2.lt le_rfl] at g3
  simp [Vault.gate, st3.stage e4 st3.lt le_rfl] at g4
  simp [Vault.gate, st4.stage e5 st4.lt le_rfl] at g5
  refine ⟨e1, e2, e3, e4, e5, ?_⟩
  refine
    { start := k1
      order := ⟨st1.lt, st2.lt, st3.lt, st4.lt, st5.lt⟩
      edges := ?_
      noReset := ?_
      key := g1
      inGame1 := st1.stage
      digits := (game1_progress st1 e2 st1.lt le_rfl).2 g2
      inGame2 := st2.stage
      code := game2_pass st2 g3
      frozen := fun i => game2_frozen st2 i
      inGame3 := st3.stage
      knock := g4
      inHarder := st4.stage
      knock2 := g5 }
  · rintro j (rfl | rfl | rfl | rfl | rfl)
    · exact st1.clk
    · exact st2.clk
    · exact st3.clk
    · exact st4.clk
    · exact st5.clk
  · intro j h1 h2
    rcases lt_or_ge j e2 with h | h2'
    · exact st1.resetN j h1 h
    rcases lt_or_ge j e3 with h | h3'
    · exact st2.resetN j h2' h
    rcases lt_or_ge j e4 with h | h4'
    · exact st3.resetN j h3' h
    rcases lt_or_ge j e5 with h | h5'
    · exact st4.resetN j h4' h
    · exact st5.resetN j h5' h2

/-- **Soundness of the lock.** In every run that starts in reset, at every point after
it: the stage is never 6 or 7, the magnet line `GPIO_1[3]` is low only in `victory`,
and a victory has its whole history since the last low `reset_n`. -/
theorem lock_sound (s₀ : Vault) (es : ℕ → Ev) (k n : ℕ) (h : StartsInReset es k) (hn : k ≤ n) :
    (vAt s₀ es n).currentState ≠ 6 ∧ (vAt s₀ es n).currentState ≠ 7 ∧
      ((vAt s₀ es n).gpio3 = false → (vAt s₀ es n).currentState = victory) ∧
      ((vAt s₀ es n).currentState = victory →
        ∃ e1 e2 e3 e4 e5, Opened s₀ es k n e1 e2 e3 e4 e5) := by
  have hle := h.stage_le s₀ hn
  refine ⟨?_, ?_, Vault.gpio3_eq_false.1, opened_of_victory h hn⟩
  · intro h6; rw [h6] at hle; exact absurd hle (by decide)
  · intro h7; rw [h7] at hle; exact absurd hle (by decide)

/-- A game played through without a knock: reset, then key `b`, the digits 0 to 6 with a
pause after each, and the code 0000 with the joystick over. A `clk` edge comes with every
fourth edge of `CLOCK_50`, and the knock line stays low. -/
def quietGame (n : ℕ) : Ev where
  clk := n % 4 == 3
  clock50 := true
  resetN := 4 ≤ n
  kpNum :=
    if n / 4 = 1 then 0xb
    else if n / 4 % 2 = 1 ∧ 3 ≤ n / 4 ∧ n / 4 ≤ 15 then BitVec.ofNat 4 ((n / 4 - 3) / 2)
    else if 18 ≤ n / 4 then 0
    else 0xf
  adcValue := 0
  adcXValue := 0xfff
  knockInput := false

/-- Some register values to power up with. -/
def powerUp : Vault where
  nextState := 6
  rNum3 := 9
  rNum2 := 9
  rNum1 := 9
  rNum0 := 9
  gameOneCounter := 7
  gameOne := ⟨0, true⟩
  joyCode := ⟨4⟩
  safe0 := ⟨⟨true, true, 15, true⟩, false, true⟩
  safe1 := ⟨⟨true, true, 15, true⟩, false, true⟩

theorem quietGame_starts : StartsInReset quietGame 4 :=
  ⟨by decide, ⟨3, by decide⟩, ⟨0, by decide⟩⟩

theorem lock_sound_quietGame : ∃ e1 e2 e3 e4 e5, Opened powerUp quietGame 4 100 e1 e2 e3 e4 e5 :=
  (lock_sound powerUp quietGame 4 100 quietGame_starts (by decide)).2.2.2 (by decide +kernel)

end BankVault
