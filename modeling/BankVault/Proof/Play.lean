import BankVault.Proof.Codes
import BankVault.Proof.JoyKeys
import BankVault.Proof.Open
import BankVault.Proof.Scan

/-!
# The vault can be opened with the keys

The lock behind its key matrix. A player who sees the registers of the lock holds the joystick over
and the knock line low, and at each moment holds down the one key that the lock waits for. While
the scan is on its way to that key `num` is a don't-care, and the player gets on whatever it is.

* `playRank_clk`: with any key value, an edge brings the victory nearer, or the lock still waits for
  the same key and has not got it.
* `away_clk`: the scan comes nearer to a key held down.
* `keys_open_vault`: so the player opens the vault from every reachable state, under every schedule of
  the clocks and for every value of the don't-cares.
-/

namespace BankVault

open Clocked

/-- The key value that the lock waits for. -/
def wantNum (v : Vault) : BitVec 4 :=
  if v.currentState = startUp then 0xb
  else if v.currentState = game1 then v.gameOneCounter.setWidth 4
  else (v.code.num v.joyCode.nextState.toNat).setWidth 4

/-- The key with a legend. -/
def keyOf (n : BitVec 4) : Key :=
  (![keyAt 0 2, keyAt 3 3, keyAt 3 2, keyAt 3 1, keyAt 2 3, keyAt 2 2, keyAt 2 1, keyAt 1 3,
     keyAt 1 2, keyAt 1 1, keyAt 3 0, keyAt 2 0, keyAt 1 0, keyAt 0 0, keyAt 0 3, keyAt 0 1] :
    Fin 16 → Key) n.toFin

theorem legend_keyOf (n : BitVec 4) : (keyOf n).legend = n := by
  revert n
  decide

/-- The joystick is over, the knock line low and `reset_n` high. -/
structure Steady (e : Ev) : Prop where
  resetN : e.resetN = true
  joystick : JoyCode.posMatch e.adcXValue = true
  quiet : e.knockInput = false

/-! ### What any key value does -/

variable {v : Vault} {e : Ev}

/-- What is left of game one: the digits to go, and one edge if the display lags behind the
counter. -/
def lagRank (v : Vault) : ℕ :=
  if v.moFlag then 0
  else if v.gameOneCounter.toNat = 7 then 1
  else 2 * (7 - v.gameOneCounter.toNat) + if v.gameOne.shown = v.gameOneCounter.setWidth 5 then 0 else 1

/-- How far the victory is. -/
def playRank (v : Vault) : ℕ :=
  if v.currentState = startUp then 40
  else if v.currentState = game1 then 20 + lagRank v
  else if v.currentState = game2 then 10 + (4 - v.joyCode.nextState.toNat)
  else if v.currentState = game3 then 2
  else if v.currentState = harder then 1
  else 0

theorem lagRank_le (v : Vault) : lagRank v ≤ 15 := by
  unfold lagRank
  split_ifs <;> omega

/-- Off the clock nothing moves. -/
theorem play_off (h : e.resetN = true) (hc : e.clk = false) :
    playRank (v.step e) = playRank v ∧ wantNum (v.step e) = wantNum v := by
  have hst : (v.step e).currentState = v.currentState := Vault.step_currentState_off h hc
  have hgame : (v.step e).gameOne = v.gameOne := by
    rw [Vault.step_gameOne, hc, GameOne.step_off]
  have hjoy : (v.step e).joyCode = v.joyCode := by
    change v.joyCode.step e.clk _ _ _ _ _ = _
    rw [hc, JoyCode.step_off]
  have hcnt : (v.step e).gameOneCounter = v.gameOneCounter := by simp [Vault.step, hc]
  have hcode : (v.step e).code = v.code := by simp [Vault.code, Vault.step, Vault.rnGenerator, hc]
  unfold playRank lagRank wantNum Vault.moFlag
  rw [hst, hgame, hjoy, hcnt, hcode]
  exact ⟨rfl, rfl⟩

/-- **Game one at an edge**: the display catches up, and the counter moves at a match. -/
theorem lagRank_clk (h : e.resetN = true) (hc : e.clk = true) (hst : v.currentState = game1)
    (hf : v.moFlag = false) : lagRank (v.step e) < lagRank v ∨
      (lagRank (v.step e) = lagRank v ∧ (v.step e).gameOneCounter = v.gameOneCounter ∧
        e.kpNum ≠ v.gameOneCounter.setWidth 4) := by
  have hen : v.game1En = true := beq_iff_eq.2 hst
  have hg : (v.step e).gameOne = ⟨GameOne.stateBits v.gameOneCounter, v.gameOneCounter ≥ 7⟩ := by
    rw [Vault.step_gameOne, hc, h, hen, GameOne.step_on]
  have hshown : (v.step e).gameOne.shown = v.gameOneCounter.setWidth 5 := by
    rw [hg, GameOne.shown_stateBits]
  have hflag : (v.step e).moFlag = decide (v.gameOneCounter ≥ 7) := by rw [Vault.moFlag, hg]
  have hcnt : (v.step e).gameOneCounter =
      v.gameOneCounter + if v.keyMatches e = true then 1 else 0 := by
    rw [Vault.step_counter_on hst]
    simp only [hc, true_and]
  unfold lagRank
  rw [hf, hflag, hshown]
  by_cases h7 : v.gameOneCounter.toNat = 7
  · have hge : v.gameOneCounter ≥ 7 := by bv_omega
    left
    rw [decide_eq_true hge, if_pos rfl, if_pos h7]
    exact Nat.zero_lt_one
  · have hlt : ¬ v.gameOneCounter ≥ 7 := by bv_omega
    rw [decide_eq_false hlt, if_neg h7]
    simp only [Bool.false_eq_true, if_false]
    by_cases hm : v.keyMatches e = true
    · -- a match: one digit less to go
      left
      have hnext : (v.step e).gameOneCounter.toNat = v.gameOneCounter.toNat + 1 := by
        rw [hcnt, if_pos hm]
        bv_omega
      rw [hnext]
      split_ifs <;> omega
    · have hkeep : (v.step e).gameOneCounter = v.gameOneCounter := by
        rw [hcnt, if_neg hm]
        exact BitVec.add_zero _
      rw [hkeep, if_neg h7, if_pos rfl]
      by_cases hlag : v.gameOne.shown = v.gameOneCounter.setWidth 5
      · right
        rw [if_pos hlag]
        refine ⟨rfl, rfl, fun hkey => hm ?_⟩
        have hwide : ∀ w : BitVec 3, (w.setWidth 4).setWidth 5 = w.setWidth 5 := by decide
        rw [Vault.keyMatches, hkey, hlag, hwide]
        exact beq_self_eq_true _
      · left
        rw [if_neg hlag]
        omega

/-- **The joystick game at an edge**: the digit asked for is taken, or asked for again. -/
theorem joy_play (h : Steady e) (hc : e.clk = true) (hst : v.currentState = game2)
    (hj : v.joyCode.nextState.toNat < 4) :
    (v.step e).joyCode.nextState.toNat = v.joyCode.nextState.toNat + 1 ∨
      ((v.step e).joyCode.nextState = v.joyCode.nextState ∧
        e.kpNum ≠ (v.code.num v.joyCode.nextState.toNat).setWidth 4) := by
  have hle : v.joyCode.nextState ≤ JoyCode.sPass := by bv_omega
  have hnext : (v.step e).joyCode.nextState =
      if JoyCode.hit (v.code.num v.joyCode.nextState.toNat) e.kpNum e.adcXValue then
        v.joyCode.nextState + 1 else v.joyCode.nextState := by
    rw [Vault.step_joy_on h.resetN hst, hc, JoyCode.step_on, JoyCode.currentState_eq hle]
    exact JoyCode.stateHandler_wait hj
  rw [hnext, JoyCode.hit, h.joystick, Bool.and_true]
  by_cases hkey : e.kpNum.extractLsb' 0 3 = v.code.num v.joyCode.nextState.toNat
  · left
    rw [if_pos (beq_iff_eq.2 hkey)]
    bv_omega
  · right
    rw [if_neg (mt beq_iff_eq.1 hkey)]
    refine ⟨rfl, fun heq => hkey ?_⟩
    have hlow : ∀ b : BitVec 3, (b.setWidth 4).extractLsb' 0 3 = b := by decide
    rw [heq, hlow]

theorem play_stage (h : e.resetN = true) (hc : e.clk = true) (hle : v.currentState ≤ victory) :
    (v.step e).currentState = if v.gate e then v.currentState + 1 else v.currentState := by
  rw [Vault.step_currentState_clk h hc, Vault.stateHandler_eq h hle]

/-- **With any key value** an edge brings the victory nearer, or the lock still waits for the same
key and has not got it. -/
theorem playRank_clk (h : Steady e) (hc : e.clk = true) (hs : Settled v) (hv : v.currentState ≠ victory) :
    (v.step e).currentState = victory ∨ playRank (v.step e) < playRank v ∨
      (playRank (v.step e) = playRank v ∧ wantNum (v.step e) = wantNum v ∧ e.kpNum ≠ wantNum v) := by
  have hle := hs.proper.stage
  have hstage := play_stage h.resetN hc hle
  have hrank := hs.rank
  unfold settleRank at hrank
  have hf0 : v.emagStateFlag = false := SafeTilt.flag_of_settled (by omega)
  have hf1 : v.emagStateFlag2 = false := SafeTilt.flag_of_settled (by omega)
  have hcases : v.currentState = startUp ∨ v.currentState = game1 ∨ v.currentState = game2 ∨
      v.currentState = game3 ∨ v.currentState = harder := by bv_omega
  rcases hcases with hst | hst | hst | hst | hst
  · have hg : v.gate e = Vault.startFlag e.kpNum := by simp [Vault.gate, hst]
    right
    rw [hg, hst] at hstage
    cases hkey : Vault.startFlag e.kpNum with
    | true =>
      left
      rw [hkey] at hstage
      have := lagRank_le (v.step e)
      simp [playRank, hstage, hst]
      omega
    | false =>
      right
      rw [hkey] at hstage
      have hne : e.kpNum ≠ 0xb := by simpa [Vault.startFlag] using hkey
      refine ⟨?_, ?_, ?_⟩
      · simp [playRank, hstage, hst]
      · simp [wantNum, hstage, hst]
      · rwa [wantNum, if_pos hst]
  · have hg : v.gate e = v.moFlag := by simp [Vault.gate, hst]
    right
    rw [hg, hst] at hstage
    cases hf : v.moFlag with
    | true =>
      left
      rw [hf] at hstage
      simp [playRank, hstage, hst]
      omega
    | false =>
      rw [hf] at hstage
      rcases lagRank_clk h.resetN hc hst hf with hlt | ⟨heq, hcnt, hne⟩
      · left
        simp [playRank, hstage, hst, hlt]
      · right
        simp [playRank, wantNum, hstage, hst, heq, hcnt, hne]
  · have hg : v.gate e = v.jamesFlag := by simp [Vault.gate, hst]
    right
    rw [hg, hst] at hstage
    cases hf : v.jamesFlag with
    | true =>
      left
      rw [hf] at hstage
      simp [playRank, hstage, hst]
      omega
    | false =>
      rw [hf] at hstage
      have hj : v.joyCode.nextState.toNat < 4 := by
        have hjoy := hs.proper.joy
        have hne : ¬ v.joyCode.nextState = JoyCode.sPass := by
          rw [Vault.jamesFlag, JoyCode.passFlag, JoyCode.currentState_eq hjoy] at hf
          simpa using hf
        bv_omega
      rcases joy_play h hc hst hj with hnext | ⟨hkeep, hne⟩
      · left
        simp [playRank, hstage, hst, hnext]
        omega
      · right
        have hcode : (v.step e).code = v.code :=
          Code.ext_num fun i => by
            rw [Vault.code_num, Vault.code_num, Vault.step_rNum_on h.resetN hst]
        simp [playRank, wantNum, hstage, hst, hkeep, hcode, hne]
  · have hg : v.gate e = true := by simp [Vault.gate, hst, hf0]
    right
    left
    rw [hg, hst] at hstage
    simp [playRank, hstage, hst]
  · have hg : v.gate e = true := by simp [Vault.gate, hst, hf1]
    left
    rw [hg, hst] at hstage
    exact hstage

/-- The knock path settles, whatever the keys do. -/
theorem settleRank_quiet (h : Steady e) :
    settleRank (v.step e) ≤ settleRank v - if e.clock50 then 1 else 0 := by
  have h0 := v.safe0.settleRank_step e.clock50 v.game3En
  have h1 := v.safe1.settleRank_step e.clock50 v.game4En
  have hs0 : (v.step e).safe0 = v.safe0.step e.clock50 true false v.game3En := by
    rw [← h.resetN, ← h.quiet]
    rfl
  have hs1 : (v.step e).safe1 = v.safe1.step e.clock50 true false v.game4En := by
    rw [← h.resetN, ← h.quiet]
    rfl
  unfold settleRank
  rw [hs0, hs1]
  omega

theorem Settled.quiet (hs : Settled v) (h : Steady e) : Settled (v.step e) :=
  ⟨hs.proper.step, by have := settleRank_quiet (v := v) h; have := hs.rank; omega⟩

/-! ### The player at the key matrix -/

/-- The board while `key` is held down and nothing else: the pins, for the columns it drives. -/
def holding (key : Key) (c : Clocks) (kpc : BitVec 4) : Pins where
  clk := c.clk
  clock50 := c.clock50
  resetN := true
  kpr := keyMatrix (fun key' => key' = key) kpc
  adcValue := 0
  adcXValue := 0xfff
  knockInput := false

/-- The key that the lock waits for. -/
def wantKey (v : Vault) : Key := keyOf (wantNum v)

/-- The player, with the don't-care value of the instant. -/
def byKeys (s : Keyed) (c : Clocks × BitVec 4) : Pins × BitVec 4 :=
  (holding (wantKey s.vault) c.1 s.kpc, c.2)

/-- The lock with the player at its keys. -/
abbrev keyed (c : Clocks × BitVec 4) (s : Keyed) : Keyed := closed Keyed.step byKeys c s

/-- What the lock sees of the player. -/
abbrev seen (c : Clocks × BitVec 4) (s : Keyed) : Ev := s.ev (byKeys s c).1 (byKeys s c).2

variable {s : Keyed} {c : Clocks × BitVec 4} {col : Fin 4}

theorem seen_steady : Steady (seen c s) := ⟨rfl, rfl, rfl⟩

theorem keyed_vault : (keyed c s).vault = s.vault.step (seen c s) := rfl

theorem keyed_kpc : (keyed c s).kpc =
    colseqStep c.1.clk true (keyMatrix (fun key => key = wantKey s.vault) s.kpc) s.kpc := rfl

theorem only_wantKey (v : Vault) : OnlyKey (fun key => key = wantKey v) (wantKey v) :=
  fun _ => decide_eq_true_iff

/-- The scan on the column of the key: the lock gets it. -/
theorem seen_kpNum (hc : s.kpc = scan (wantKey s.vault).col) :
    (seen c s).kpNum = wantNum s.vault := by
  change (kpdecode c.2 (keyMatrix (fun key => key = wantKey s.vault) s.kpc) s.kpc).num = _
  rw [hc, rows_of_onlyInColumn (only_wantKey _).onlyInColumn, kpdecode_scan]
  exact legend_keyOf _

/-- **An edge brings the scan nearer to the key.** -/
theorem away_clk (hc : s.kpc = scan col) (hclk : c.1.clk = true) (hne : col ≠ (wantKey s.vault).col) :
    (keyed c s).kpc = scan (col - 1) := by
  have hrow : oneRowLow (keyMatrix (fun key => key = wantKey s.vault) (scan col)) = false := by
    by_contra hone
    obtain ⟨r, hr⟩ := onlyInColumn_of_hit (Bool.not_eq_false _ ▸ hone)
    have hk := (only_wantKey s.vault ⟨r, col⟩).1 ((hr r).2 rfl)
    exact hne (by rw [← hk])
  rw [keyed_kpc, hc, hclk]
  change colseqNext (scan col) _ = _
  rw [colseqNext_scan, hrow]
  rfl

/-- A column is low after every instant. -/
theorem OneColumn.step {p : Pins × BitVec 4} (h : OneColumn s.kpc) : OneColumn (Keyed.step p s).kpc := by
  change OneColumn (colseqStep _ _ _ _)
  unfold colseqStep
  split_ifs
  · exact ⟨3, rfl⟩
  · exact oneColumn_colseqNext _ _
  · exact h

/-- How far the scan is from a column, by the column that is low. -/
def scanRank (kpc : BitVec 4) (col : Fin 4) : ℕ := ∑ c : Fin 4, if kpc = scan c then away c col else 0

theorem scanRank_scan (c col : Fin 4) : scanRank (scan c) col = away c col := by
  revert c col
  decide

/-- The `clk` edges to go are at most this many: five for each step of the lock, of which the scan
takes up to three. -/
def keyRank (s : Keyed) : ℕ := 5 * playRank s.vault + scanRank s.kpc (wantKey s.vault).col

/-- What every state of the second phase satisfies. -/
structure Ready (s : Keyed) : Prop where
  settled : Settled s.vault
  column : OneColumn s.kpc

theorem Ready.keyed (h : Ready s) : Ready (keyed c s) :=
  ⟨h.settled.quiet seen_steady, h.column.step⟩

/-- **Each `clk` edge is one step nearer to the victory.** -/
theorem keyRank_clk (h : Ready s) (hv : s.vault.currentState ≠ victory) (hclk : c.1.clk = true) :
    (keyed c s).vault.currentState = victory ∨ keyRank (keyed c s) < keyRank s := by
  obtain ⟨col, hcol⟩ := h.column
  have hle : scanRank (keyed c s).kpc (wantKey (keyed c s).vault).col ≤ 3 := by
    obtain ⟨col', hcol'⟩ := h.column.step (p := byKeys s c)
    rw [show (keyed c s).kpc = scan col' from hcol', scanRank_scan]
    exact away_le _ _
  rcases playRank_clk (seen_steady (c := c)) hclk h.settled hv with hwin | hlt | ⟨heq, hwant, hmiss⟩
  · exact Or.inl hwin
  · right
    unfold keyRank
    rw [← keyed_vault] at hlt
    omega
  · right
    -- the lock has not got the key, so the scan is on another column
    have hne : col ≠ (wantKey s.vault).col := by
      rintro rfl
      exact hmiss (seen_kpNum hcol)
    have hkey : wantKey (keyed c s).vault = wantKey s.vault := by
      rw [wantKey, keyed_vault, hwant, wantKey]
    have hnext := away_next hne
    unfold keyRank
    rw [hkey, away_clk hcol hclk hne, hcol, scanRank_scan, scanRank_scan, keyed_vault, heq]
    omega

theorem keyRank_off (hclk : c.1.clk = false) : keyRank (keyed c s) = keyRank s := by
  obtain ⟨hrank, hwant⟩ := play_off (v := s.vault) (seen_steady (c := c) (s := s)).resetN hclk
  have hkpc : (keyed c s).kpc = s.kpc := by
    rw [keyed_kpc, hclk]
    rfl
  unfold keyRank
  rw [hkpc, keyed_vault, hrank, wantKey, hwant, wantKey]

/-! ### The vault opens -/

/-- A state of the lock behind its keypad that a run from reset reaches. -/
def KeyedReachable (s : Keyed) : Prop :=
  ∃ s₀ ps d k n, StartsInReset (kEv s₀ ps d) k ∧ k ≤ n ∧ kAt s₀ ps d n = s

theorem KeyedReachable.vault (h : KeyedReachable s) : Reachable s.vault := by
  obtain ⟨s₀, ps, d, k, n, hs, hkn, rfl⟩ := h
  exact ⟨s₀.vault, kEv s₀ ps d, k, n, hs, hkn, (kAt_eq_vAt n).symm⟩

theorem KeyedReachable.column (h : KeyedReachable s) : OneColumn s.kpc := by
  obtain ⟨s₀, ps, d, k, n, hs, hkn, rfl⟩ := h
  obtain ⟨i, hi, -⟩ := hs.clk
  have hreset : OneColumn (kAt s₀ ps d (i + 1)).kpc := by
    have hlow : (ps i).resetN = false := hs.low i hi
    refine ⟨3, ?_⟩
    rw [kAt_succ]
    change colseqStep _ (ps i).resetN _ _ = _
    rw [hlow]
    rfl
  exact inv_from (I := fun s : Keyed => OneColumn s.kpc) (fun _ _ h => h.step) hreset n (by omega)

/-- **The knock path settles** with the player at the keys. -/
theorem keyed_settles (s : Keyed) {cs : ℕ → Clocks × BitVec 4}
    (h : Recurring (fun c : Clocks × BitVec 4 => c.1.clock50 = true) cs) :
    ∃ n, settleRank (stAt (closed Keyed.step byKeys) s cs n).vault = 0 := by
  have hquiet : ∀ (c : Clocks × BitVec 4) (s : Keyed), settleRank (keyed c s).vault ≤
      settleRank s.vault - if c.1.clock50 then 1 else 0 :=
    fun c s => settleRank_quiet (v := s.vault) (seen_steady (c := c))
  have hdec : ∀ (c : Clocks × BitVec 4) (s : Keyed), True → ¬ settleRank s.vault = 0 →
      c.1.clock50 = true →
      settleRank (keyed c s).vault = 0 ∨ settleRank (keyed c s).vault < settleRank s.vault := by
    intro c s _ hs hc
    have := hquiet c s
    rw [if_pos hc] at this
    omega
  obtain ⟨n, -, hn⟩ := eventually_of_rank (I := fun _ => True)
    (G := fun s : Keyed => settleRank s.vault = 0) (r := fun s => settleRank s.vault)
    (fun _ _ _ => trivial) hdec
    (fun c s _ _ _ => Or.inr (by have := hquiet c s; omega)) h (m := 0) trivial
  exact ⟨n, hn⟩

/-- **The keys open the vault.** From every state that a run from reset reaches, under every
schedule in which both clocks keep running and for every value of the don't-cares, the player who
holds down the key that the lock waits for, and sees nothing but the registers, reaches the
victory. -/
theorem keys_open_vault (s : Keyed) (hs : KeyedReachable s) (cs : ℕ → Clocks) (d : ℕ → BitVec 4)
    (hclk : Recurring (fun c : Clocks => c.clk = true) cs)
    (hclock50 : Recurring (fun c : Clocks => c.clock50 = true) cs) :
    ∃ (ps : ℕ → Pins) (n : ℕ),
      (∀ i, ps i = holding (wantKey (kAt s ps d i).vault) (cs i) (kAt s ps d i).kpc) ∧
        (kAt s ps d n).vault.currentState = victory := by
  have hpick : ∀ i, kAt s (fun i => (picked Keyed.step byKeys s (fun i => (cs i, d i)) i).1) d i =
      stAt (closed Keyed.step byKeys) s (fun i => (cs i, d i)) i :=
    fun i => stAt_closed byKeys (fun i => (cs i, d i)) i
  refine ⟨fun i => (picked Keyed.step byKeys s (fun i => (cs i, d i)) i).1, ?_⟩
  have hclock50' : Recurring (fun c : Clocks × BitVec 4 => c.1.clock50 = true) fun i => (cs i, d i) := hclock50
  obtain ⟨m, hm⟩ := keyed_settles s hclock50'
  have hprop : ∀ n, 0 ≤ n → Proper (stAt (closed Keyed.step byKeys) s (fun i => (cs i, d i)) n).vault ∧
      OneColumn (stAt (closed Keyed.step byKeys) s (fun i => (cs i, d i)) n).kpc :=
    inv_from (I := fun s : Keyed => Proper s.vault ∧ OneColumn s.kpc)
      (fun _ _ h => ⟨h.1.step, h.2.step⟩) (k := 0) ⟨proper_of_reachable hs.vault, hs.column⟩
  have hready : Ready (stAt (closed Keyed.step byKeys) s (fun i => (cs i, d i)) m) :=
    ⟨⟨(hprop m (Nat.zero_le m)).1, hm⟩, (hprop m (Nat.zero_le m)).2⟩
  have hclk' : Recurring (fun c : Clocks × BitVec 4 => c.1.clk = true) fun i => (cs i, d i) := hclk
  have hkeep : ∀ (c : Clocks × BitVec 4) (s : Keyed), Ready s → Ready (closed Keyed.step byKeys c s) :=
    fun _ _ h => h.keyed
  obtain ⟨n, -, hn⟩ := eventually_of_rank (G := fun s : Keyed => s.vault.currentState = victory)
    (r := keyRank) hkeep (fun c s h hv hc => keyRank_clk h hv hc)
    (fun c s _ _ hc => Or.inr (keyRank_off (by simpa using hc)).le) hclk' hready
  refine ⟨n, fun i => ?_, ?_⟩
  · rw [hpick]
    rfl
  · rw [hpick]
    exact hn

/-- The key matrix at rest after a reset. -/
def idlePad (n : ℕ) : Pins where
  clk := true
  clock50 := true
  resetN := n ≠ 0
  kpr := 0xf
  adcValue := 0
  adcXValue := 0
  knockInput := true

/-- With don't-cares that name a wrong key at every instant. -/
theorem keys_open_vault_rest : ∃ (ps : ℕ → Pins) (n : ℕ),
    (∀ i, ps i = holding (wantKey (kAt (kAt ⟨0, powerUp⟩ idlePad (fun _ => 0xe) 9) ps (fun _ => 0xe) i).vault)
      ⟨true, true⟩ (kAt (kAt ⟨0, powerUp⟩ idlePad (fun _ => 0xe) 9) ps (fun _ => 0xe) i).kpc) ∧
      (kAt (kAt ⟨0, powerUp⟩ idlePad (fun _ => 0xe) 9) ps (fun _ => 0xe) n).vault.currentState = victory :=
  keys_open_vault (kAt ⟨0, powerUp⟩ idlePad (fun _ => 0xe) 9)
    ⟨⟨0, powerUp⟩, idlePad, fun _ => 0xe, 1, 9, ⟨by decide, ⟨0, by decide⟩, ⟨0, by decide⟩⟩, by decide, rfl⟩
    (fun _ => ⟨true, true⟩) (fun _ => 0xe) (fun m => ⟨m, le_rfl, rfl⟩) (fun m => ⟨m, le_rfl, rfl⟩)

end BankVault
