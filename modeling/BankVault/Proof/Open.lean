import BankVault.Clocked.Progress
import BankVault.Proof.Soundness

/-!
# The vault can always be opened

A player who holds the knock line low and the joystick over, and keys at each moment
what the current stage asks for, opens the vault from every reachable state and under
every schedule of the two clocks.

* Phase one: with the line low both debouncers settle, and with them both flags, after
  a few edges of `CLOCK_50` (`settled_eventually`), whatever the stage does meanwhile.
* Phase two: from then on every `clk` edge lowers `winRank` until the victory
  (`winRank_clk`): it counts the stages to go, in game one the matches to go and whether
  the display lags, in the joystick game the digits to go.
-/

namespace BankVault

open Clocked

/-- The two clocks at one instant. -/
structure Clocks where
  clk : Bool
  clock50 : Bool
  deriving DecidableEq, Repr

/-- The key the current stage asks for. -/
def winKey (s : Vault) : BitVec 4 :=
  if s.currentState = startUp then 0xb
  else if s.currentState = game1 then s.gameOne.shown.setWidth 4
  else (s.code.num s.joyCode.nextState.toNat).setWidth 4

/-- The player's inputs in a state, at an instant of the clocks. -/
def player (s : Vault) (c : Clocks) : Ev where
  clk := c.clk
  clock50 := c.clock50
  resetN := true
  kpNum := winKey s
  adcValue := 0
  adcXValue := 0xfff
  knockInput := false

/-- The lock with the player at it. -/
abbrev played (c : Clocks) (s : Vault) : Vault := closed Vault.step player c s

/-- What every reachable state satisfies. -/
structure Proper (s : Vault) : Prop where
  stage : s.currentState ≤ victory
  joy : s.joyCode.nextState ≤ JoyCode.sPass

theorem Proper.step {s : Vault} {e : Ev} (h : Proper s) : Proper (s.step e) :=
  ⟨Vault.step_stage_le h.stage, JoyCode.step_le h.joy⟩

/-- Reachable states are proper: the edge of `clk` inside the reset clears `joy_code`. -/
theorem proper_of_reachable {s : Vault} (h : Reachable s) : Proper s := by
  obtain ⟨s₀, es, k, n, hs, hkn, rfl⟩ := h
  refine ⟨hs.stage_le s₀ hkn, ?_⟩
  obtain ⟨i, hi, hc⟩ := hs.clk
  have h0 : (vAt s₀ es (i + 1)).joyCode.nextState ≤ JoyCode.sPass := by
    rw [vAt_succ, Vault.step_joy_reset hc (hs.low i hi)]; decide
  exact inv_from (I := fun s : Vault => s.joyCode.nextState ≤ JoyCode.sPass)
    (fun _ _ h => JoyCode.step_le h) h0 n (by omega)

/-! ### Phase one: the knock path settles -/

/-- Edges of `CLOCK_50` until both flags are low for good. -/
def settleRank (s : Vault) : ℕ := s.safe0.settleRank + s.safe1.settleRank

theorem settleRank_played (c : Clocks) (s : Vault) :
    (c.clock50 = true → settleRank (played c s) ≤ settleRank s - 1) ∧
      settleRank (played c s) ≤ settleRank s := by
  have h0 : (played c s).safe0.settleRank ≤ s.safe0.settleRank - if c.clock50 then 1 else 0 :=
    s.safe0.settleRank_step c.clock50 s.game3En
  have h1 : (played c s).safe1.settleRank ≤ s.safe1.settleRank - if c.clock50 then 1 else 0 :=
    s.safe1.settleRank_step c.clock50 s.game4En
  unfold settleRank
  refine ⟨fun hc => ?_, by omega⟩
  rw [if_pos hc] at h0 h1
  omega

/-- **The knock path settles.** -/
theorem settled_eventually (s : Vault) {cs : ℕ → Clocks}
    (h : Recurring (fun c : Clocks => c.clock50 = true) cs) :
    ∃ n, settleRank (stAt (closed Vault.step player) s cs n) = 0 := by
  have hdec : ∀ c s, True → ¬ settleRank s = 0 → c.clock50 = true →
      settleRank (played c s) = 0 ∨ settleRank (played c s) < settleRank s := by
    intro c s _ hs hc
    have := (settleRank_played c s).1 hc
    omega
  obtain ⟨n, -, hn⟩ := eventually_of_rank (I := fun _ => True) (fun _ _ _ => trivial) hdec
    (fun c s _ _ _ => Or.inr (settleRank_played c s).2) h (m := 0) trivial
  exact ⟨n, hn⟩

/-! ### Phase two: each `clk` edge is one step nearer -/

/-- What is left of game one: the matches to go, one more edge for each time the display
shows no digit, and one for `mo_flag`. -/
def game1Rank (s : Vault) : ℕ :=
  if s.moFlag then 0
  else if s.gameOneCounter.toNat = 7 then 1
  else 2 * (7 - s.gameOneCounter.toNat) + if s.gameOne.shown ≤ 15 then 0 else 1

/-- The `clk` edges to go are at most this many. -/
def winRank (s : Vault) : ℕ :=
  if s.currentState = startUp then 40
  else if s.currentState = game1 then 20 + game1Rank s
  else if s.currentState = game2 then 10 + (4 - s.joyCode.nextState.toNat)
  else if s.currentState = game3 then 2
  else if s.currentState = harder then 1
  else 0

theorem game1Rank_le (s : Vault) : game1Rank s ≤ 15 := by
  unfold game1Rank
  split_ifs <;> omega

/-- Settled, proper states: what phase two keeps. -/
structure Settled (s : Vault) : Prop where
  proper : Proper s
  rank : settleRank s = 0

variable {s : Vault} {c : Clocks}

theorem Settled.played (h : Settled s) : Settled (played c s) :=
  ⟨h.proper.step, by have := (settleRank_played c s).2; have := h.rank; omega⟩

/-- Without a `clk` edge nothing of the rank moves. -/
theorem winRank_off (hc : c.clk = false) : winRank (played c s) = winRank s := by
  have h1 : (BankVault.played c s).currentState = s.currentState :=
    Vault.step_currentState_off (e := player s c) rfl hc
  have h2 : (BankVault.played c s).gameOne = s.gameOne := by
    show s.gameOne.step c.clk true _ _ = _
    rw [hc]; rfl
  have h3 : (BankVault.played c s).joyCode = s.joyCode := by
    show s.joyCode.step c.clk true _ _ _ _ = _
    rw [hc]; rfl
  have h4 : (BankVault.played c s).gameOneCounter = s.gameOneCounter := by
    show (if c.clk then _ else s.gameOneCounter) = _
    rw [hc]; rfl
  unfold winRank game1Rank Vault.moFlag
  rw [h1, h2, h3, h4]

theorem played_stage (h : s.currentState ≤ victory) (hc : c.clk = true) :
    (played c s).currentState = if s.gate (player s c) then s.currentState + 1 else s.currentState := by
  show (s.step (player s c)).currentState = _
  rw [Vault.step_currentState_clk rfl hc, Vault.stateHandler_eq rfl h]

/-- In game one with the flag down, an edge brings the next match, the next digit or the
flag. -/
theorem game1Rank_clk (hst : s.currentState = game1) (hf : s.moFlag = false) (hc : c.clk = true) :
    game1Rank (played c s) < game1Rank s := by
  have hen : s.game1En = true := beq_iff_eq.2 hst
  have hg : (played c s).gameOne = ⟨GameOne.stateBits s.gameOneCounter, s.gameOneCounter ≥ 7⟩ := by
    show s.gameOne.step c.clk true s.game1En _ = _
    rw [hc, hen]; rfl
  have hshown : (played c s).gameOne.shown ≤ 15 := by
    have hle : ∀ w : BitVec 3, w.setWidth 5 ≤ (15 : BitVec 5) := by decide
    rw [hg, GameOne.shown_stateBits]; exact hle _
  have hflag : (played c s).moFlag = decide (s.gameOneCounter ≥ 7) := by rw [Vault.moFlag, hg]
  have hcnt : (played c s).gameOneCounter =
      s.gameOneCounter + if s.keyMatches (player s c) = true then 1 else 0 := by
    show (s.step (player s c)).gameOneCounter = _
    rw [Vault.step_counter_on hst]
    simp only [show (player s c).clk = true from hc, true_and]
  unfold game1Rank
  rw [hf, hflag]
  by_cases h7 : s.gameOneCounter.toNat = 7
  · have : s.gameOneCounter ≥ 7 := by bv_omega
    rw [decide_eq_true this, if_pos h7, if_pos rfl, if_neg (by decide)]
    exact Nat.zero_lt_one
  · have h7' : ¬ s.gameOneCounter ≥ 7 := by bv_omega
    rw [decide_eq_false h7', if_neg h7, if_pos hshown]
    simp only [Bool.false_eq_true, if_false]
    by_cases hd : s.gameOne.shown ≤ 15
    · have hm : s.keyMatches (player s c) = true := by
        have hkey : (player s c).kpNum = s.gameOne.shown.setWidth 4 := by
          simp [player, winKey, hst]
        rw [Vault.keyMatches, hkey]
        generalize s.gameOne.shown = w at hd
        revert w; decide
      rw [hcnt, if_pos hm, if_pos hd]
      have : (s.gameOneCounter + 1).toNat = s.gameOneCounter.toNat + 1 := by bv_omega
      rw [this]
      split_ifs <;> omega
    · have hm : ¬ s.keyMatches (player s c) = true := by
        have := Vault.keyMatches_of_blank (e := player s c) hd
        simp [this]
      rw [hcnt, if_neg hm, if_neg hd]
      simp only [BitVec.ofNat_eq_ofNat, BitVec.add_zero, if_neg h7]
      omega

/-- In the joystick game with digits to go, an edge brings the next one. -/
theorem joy_clk (hst : s.currentState = game2) (hj : s.joyCode.nextState.toNat < 4) (hc : c.clk = true) :
    (played c s).joyCode.nextState.toNat = s.joyCode.nextState.toNat + 1 := by
  have hle : s.joyCode.nextState ≤ JoyCode.sPass := by bv_omega
  have hhit : JoyCode.hit (s.code.num s.joyCode.nextState.toNat) (player s c).kpNum 0xfff = true := by
    have hlow : ∀ b : BitVec 3, (b.setWidth 4).extractLsb' 0 3 = b := by decide
    have hkey : (player s c).kpNum = (s.code.num s.joyCode.nextState.toNat).setWidth 4 := by
      simp [player, winKey, hst]
    rw [hkey, JoyCode.hit, hlow]
    simp [JoyCode.posMatch]
  have hjoy : (played c s).joyCode.nextState = s.joyCode.nextState + 1 := by
    show (s.step (player s c)).joyCode.nextState = _
    rw [Vault.step_joy_on rfl hst, show (player s c).clk = true from hc, JoyCode.step_on,
      JoyCode.currentState_eq hle]
    show JoyCode.stateHandler _ _ 0xfff _ = _
    rw [JoyCode.stateHandler_wait hj, if_pos hhit]
  rw [hjoy]; bv_omega

/-- **Each `clk` edge is one step nearer to the victory.** -/
theorem winRank_clk (h : Settled s) (hv : s.currentState ≠ victory) (hc : c.clk = true) :
    (played c s).currentState = victory ∨ winRank (played c s) < winRank s := by
  have hle := h.proper.stage
  have hstage := played_stage (c := c) hle hc
  have hjoy := h.proper.joy
  have hrank := h.rank
  unfold settleRank at hrank
  have hf0 : s.emagStateFlag = false := SafeTilt.flag_of_settled (by omega)
  have hf1 : s.emagStateFlag2 = false := SafeTilt.flag_of_settled (by omega)
  have hcases : s.currentState = startUp ∨ s.currentState = game1 ∨ s.currentState = game2 ∨
      s.currentState = game3 ∨ s.currentState = harder := by bv_omega
  rcases hcases with hs | hs | hs | hs | hs
  · have hg : s.gate (player s c) = true := by simp [Vault.gate, hs, player, winKey, Vault.startFlag]
    rw [hg, hs] at hstage
    have := game1Rank_le (played c s)
    right; simp [winRank, hstage, hs]; omega
  · have hg : s.gate (player s c) = s.moFlag := by simp [Vault.gate, hs]
    rw [hg, hs] at hstage
    right
    cases hf : s.moFlag with
    | true => rw [hf] at hstage; simp [winRank, hstage, hs]; omega
    | false =>
      rw [hf] at hstage
      have := game1Rank_clk hs hf hc
      simp [winRank, hstage, hs, this]
  · have hg : s.gate (player s c) = s.jamesFlag := by simp [Vault.gate, hs]
    rw [hg, hs] at hstage
    right
    cases hf : s.jamesFlag with
    | true => rw [hf] at hstage; simp [winRank, hstage, hs]; omega
    | false =>
      rw [hf] at hstage
      have hj : s.joyCode.nextState.toNat < 4 := by
        have hne : ¬ s.joyCode.nextState = JoyCode.sPass := by
          have := hf
          rw [Vault.jamesFlag, JoyCode.passFlag, JoyCode.currentState_eq hjoy] at this
          simpa using this
        bv_omega
      have := joy_clk hs hj hc
      simp [winRank, hstage, hs, this]; omega
  · have hg : s.gate (player s c) = true := by simp [Vault.gate, hs, hf0]
    rw [hg, hs] at hstage
    right; simp [winRank, hstage, hs]
  · have hg : s.gate (player s c) = true := by simp [Vault.gate, hs, hf1]
    rw [hg, hs] at hstage
    exact Or.inl hstage

/-- **The vault can always be opened.** From every reachable state, under every schedule in
which both clocks keep running, and with `reset_n` held high, there are keypad, ADC and knock
inputs that lead to the victory after finitely many events. -/
theorem vault_can_be_opened (s : Vault) (hs : Reachable s) (cs : ℕ → Clocks)
    (hclk : Recurring (fun c : Clocks => c.clk = true) cs)
    (hclock50 : Recurring (fun c : Clocks => c.clock50 = true) cs) :
    ∃ (es : ℕ → Ev) (n : ℕ),
      (∀ i, (es i).clk = (cs i).clk ∧ (es i).clock50 = (cs i).clock50 ∧ (es i).resetN = true) ∧
        (vAt s es n).currentState = victory := by
  refine ⟨picked Vault.step player s cs, ?_⟩
  obtain ⟨m, hm⟩ := settled_eventually s hclock50
  have hprop : ∀ n, 0 ≤ n → Proper (stAt (closed Vault.step player) s cs n) :=
    inv_from (I := Proper) (fun _ _ h => h.step) (k := 0) (proper_of_reachable hs)
  have hset : Settled (stAt (closed Vault.step player) s cs m) := ⟨hprop m (Nat.zero_le m), hm⟩
  have hkeep : ∀ c s, Settled s → ¬ s.currentState = victory → ¬ c.clk = true →
      (played c s).currentState = victory ∨ winRank (played c s) ≤ winRank s :=
    fun c s _ _ hc => Or.inr (winRank_off (by simpa using hc)).le
  obtain ⟨n, -, hn⟩ := eventually_of_rank (fun _ _ h => h.played)
    (fun c s h hv hc => winRank_clk h hv hc) hkeep hclk hset
  refine ⟨n, fun i => ⟨rfl, rfl, rfl⟩, ?_⟩
  rw [vAt, stAt_closed]; exact hn

/-- In `quietGame` before event 66, game one has its counter just before the wrap. -/
theorem vault_can_be_opened_quietGame : ∃ (es : ℕ → Ev) (n : ℕ),
    (∀ i, (es i).clk = true ∧ (es i).clock50 = true ∧ (es i).resetN = true) ∧
      (vAt (vAt powerUp quietGame 66) es n).currentState = victory :=
  vault_can_be_opened (vAt powerUp quietGame 66)
    ⟨powerUp, quietGame, 4, 66, quietGame_starts, by decide, rfl⟩ (fun _ => ⟨true, true⟩)
    (fun m => ⟨m, le_rfl, rfl⟩) (fun m => ⟨m, le_rfl, rfl⟩)

end BankVault
