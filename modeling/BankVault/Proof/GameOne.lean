import BankVault.Proof.Soundness

/-!
# The win of game one

`mo_flag` is raised from the counter one `clk` edge after the counter reached 7, and the
stage is left one edge later, while the counter goes on counting. The edge that sees the 7
is the only one that has to, so a counter that wraps in the meantime loses nothing; and the
edge into `game_1` clears the counter and the flag, so nothing is left of an earlier attempt.

* `stay_until`: up to the 7 the lock stays in `game_1` with the flag down.
* `win_seen`: the flag is never early, and a win is never lost.
-/

namespace BankVault

open Clocked

/-- At event `e` a `clk` edge enters `game_1`. -/
def EntersGame1 (s₀ : Vault) (es : ℕ → Ev) (e : ℕ) : Prop :=
  (es e).clk = true ∧ (vAt s₀ es e).currentState ≠ game1 ∧ (vAt s₀ es (e + 1)).currentState = game1

/-- Event `t'` is the next `clk` edge after event `t`. -/
def NextClk (es : ℕ → Ev) (t t' : ℕ) : Prop :=
  t < t' ∧ (es t').clk = true ∧ ∀ j, t < j → j < t' → (es j).clk = false

variable {s₀ : Vault} {es : ℕ → Ev} {e n t : ℕ}

/-- `game_1` is entered from `start_up` only, in any run. -/
theorem EntersGame1.stay (h : EntersGame1 s₀ es e) : Stay s₀ es game1 e (e + 1) := by
  obtain ⟨hc, hne, hin⟩ := h
  have hr : (es e).resetN = true := by
    by_contra hr
    rw [currentState_of_low (by simpa using hr)] at hin
    exact absurd hin (by decide)
  rw [vAt_succ, Vault.step_currentState_clk hr hc] at hin
  have hle : (vAt s₀ es e).currentState ≤ victory := by
    by_contra hgt
    have hbad : (vAt s₀ es e).currentState = 6 ∨ (vAt s₀ es e).currentState = 7 := by bv_omega
    rcases hbad with hb | hb <;> simp [Vault.stateHandler, hb] at hin
  have hin' := hin
  rw [Vault.stateHandler_eq hr hle] at hin'
  split_ifs at hin' with hg
  · refine ⟨Nat.lt_succ_self e, hc, hin', hg, fun j h1 h2 => ?_, fun j h1 h2 => ?_⟩
    · obtain rfl : j = e + 1 := by omega
      rw [vAt_succ, Vault.step_currentState_clk hr hc]
      exact hin
    · obtain rfl : j = e := by omega
      exact hr
  · exact absurd hin' hne

/-- **One event in `game_1` with the flag down** keeps the stage. -/
theorem stage_kept (hr : (es n).resetN = true) (hst : (vAt s₀ es n).currentState = game1)
    (hf : (vAt s₀ es n).moFlag = false) : (vAt s₀ es (n + 1)).currentState = game1 := by
  rw [vAt_succ]
  cases hc : (es n).clk with
  | false => rw [Vault.step_currentState_off hr hc, hst]
  | true =>
    rw [Vault.step_currentState_clk hr hc]
    simp [Vault.stateHandler, hst, hf]

/-- One event of the flag in `game_1`: an edge reads it off the counter. -/
theorem moFlag_step (hr : (es n).resetN = true) (hst : (vAt s₀ es n).currentState = game1) :
    (vAt s₀ es (n + 1)).moFlag =
      if (es n).clk then decide ((vAt s₀ es n).gameOneCounter = 7) else (vAt s₀ es n).moFlag := by
  have hen : (vAt s₀ es n).game1En = true := by rw [Vault.game1En, hst]; decide
  rw [vAt_succ, Vault.moFlag, Vault.step_gameOne, hr, hen]
  cases (es n).clk with
  | false => rfl
  | true =>
    rw [GameOne.step_on, if_pos rfl]
    generalize (vAt s₀ es n).gameOneCounter = c
    revert c; decide

/-- **Up to the first 7** the lock stays in `game_1` with the flag down. -/
theorem stay_until (h : EntersGame1 s₀ es e) (hr : ∀ j, e < j → j ≤ t → (es j).resetN = true)
    (h7 : ∀ j, e < j → j ≤ t → (vAt s₀ es j).gameOneCounter ≠ 7) :
    ∀ j, e < j → j ≤ t + 1 → (vAt s₀ es j).currentState = game1 ∧ (vAt s₀ es j).moFlag = false := by
  apply stretch
  · exact ⟨h.2.2, h.stay.counter_start.2⟩
  · intro j h1 h2 ⟨hst, hf⟩
    refine ⟨stage_kept (hr j h1 (by omega)) hst hf, ?_⟩
    rw [moFlag_step (hr j h1 (by omega)) hst, decide_eq_false (h7 j h1 (by omega)), hf, ite_self]

/-- Between two edges nothing of game one moves. -/
theorem quiet_between (s₀ : Vault) {t' : ℕ} (h : NextClk es t t') (hr : ∀ j, t < j → j ≤ t' → (es j).resetN = true) :
    (vAt s₀ es t').currentState = (vAt s₀ es (t + 1)).currentState ∧
      (vAt s₀ es t').gameOneCounter = (vAt s₀ es (t + 1)).gameOneCounter ∧
      (vAt s₀ es t').moFlag = (vAt s₀ es (t + 1)).moFlag := by
  obtain ⟨hlt, -, hoff⟩ := h
  refine stretch (P := fun j => (vAt s₀ es j).currentState = (vAt s₀ es (t + 1)).currentState ∧
      (vAt s₀ es j).gameOneCounter = (vAt s₀ es (t + 1)).gameOneCounter ∧
      (vAt s₀ es j).moFlag = (vAt s₀ es (t + 1)).moFlag) ⟨rfl, rfl, rfl⟩ ?_ t' hlt le_rfl
  intro j h1 h2 ⟨hst, hcnt, hf⟩
  have hc := hoff j h1 h2
  rw [vAt_succ]
  refine ⟨?_, ?_, ?_⟩
  · rw [Vault.step_currentState_off (hr j h1 h2.le) hc, hst]
  · rw [← hcnt]; simp [Vault.step, hc]
  · rw [← hf, Vault.moFlag, Vault.step_gameOne, hc, GameOne.step_off]; rfl

/-- **A win is seen**: the counter reaches 7 at event `t`, the flag rises at the next edge and
the stage is left at the one after it, whatever keys are found there. -/
theorem win_kept (h : EntersGame1 s₀ es e) (het : e < t) {t₁ t₂ : ℕ}
    (hr : ∀ j, e < j → j ≤ t₂ → (es j).resetN = true)
    (h7 : ∀ j, e < j → j ≤ t → (vAt s₀ es j).gameOneCounter ≠ 7)
    (hwin : (vAt s₀ es (t + 1)).gameOneCounter = 7) (h₁ : NextClk es t t₁) (h₂ : NextClk es t₁ t₂) :
    (vAt s₀ es (t₁ + 1)).moFlag = true ∧ (vAt s₀ es (t₂ + 1)).currentState = game2 := by
  have hlt₁ := h₁.1
  have hlt₂ := h₂.1
  obtain ⟨hst, hf⟩ := stay_until h (fun j h1 h2 => hr j h1 (by omega)) h7 (t + 1) (by omega) le_rfl
  obtain ⟨hst₁, hcnt₁, hf₁⟩ := quiet_between s₀ h₁ (fun j a b => hr j (by omega) (by omega))
  rw [hst] at hst₁
  rw [hf] at hf₁
  have hr₁ := hr t₁ (by omega) (by omega)
  have hup : (vAt s₀ es (t₁ + 1)).moFlag = true := by
    rw [moFlag_step hr₁ hst₁, h₁.2.1, hcnt₁, hwin]; rfl
  have hstay := stage_kept hr₁ hst₁ hf₁
  -- the raised flag is found at the next edge, before anything can lower it
  obtain ⟨hst₂, -, hf₂⟩ := quiet_between s₀ h₂ (fun j a b => hr j (by omega) b)
  rw [hstay] at hst₂
  rw [hup] at hf₂
  refine ⟨hup, ?_⟩
  rw [vAt_succ, Vault.step_currentState_clk (hr t₂ (by omega) le_rfl) h₂.2.1]
  simp [Vault.stateHandler, hst₂, hf₂]

/-- **A win in game one is never lost and never early**, in every run: each `clk` edge into
`game_1` finds the counter and the flag cleared; with `reset_n` high since, the flag is down up
to and over the edge at which the counter first becomes 7; and then it is up after the next
edge and the lock in `game_2` after the one after it. -/
theorem win_seen (s₀ : Vault) (es : ℕ → Ev) :
    (∀ e, EntersGame1 s₀ es e →
      (vAt s₀ es (e + 1)).gameOneCounter = 0 ∧ (vAt s₀ es (e + 1)).moFlag = false) ∧
    ∀ e t, EntersGame1 s₀ es e → e < t → (∀ j, e < j → j ≤ t → (es j).resetN = true) →
      (∀ j, e < j → j ≤ t → (vAt s₀ es j).gameOneCounter ≠ 7) →
      (∀ j, e < j → j ≤ t + 1 → (vAt s₀ es j).moFlag = false) ∧
      ((vAt s₀ es (t + 1)).gameOneCounter = 7 → ∀ t₁ t₂, NextClk es t t₁ → NextClk es t₁ t₂ →
        (∀ j, t < j → j ≤ t₂ → (es j).resetN = true) →
          (vAt s₀ es (t₁ + 1)).moFlag = true ∧ (vAt s₀ es (t₂ + 1)).currentState = game2) := by
  refine ⟨fun e h => h.stay.counter_start, fun e t h het hr h7 => ⟨?_, ?_⟩⟩
  · exact fun j h1 h2 => (stay_until h hr h7 j h1 h2).2
  · intro hwin t₁ t₂ h₁ h₂ hr₂
    refine win_kept h het (fun j h1 h2 => ?_) h7 hwin h₁ h₂
    rcases Nat.lt_or_ge t j with hj | hj
    · exact hr₂ j hj h2
    · exact hr j h1 hj

/-- `quietGame` enters `game_1` at event 7, and its counter becomes 7 at event 63. -/
theorem win_seen_quietGame : (∀ j, 7 < j → j ≤ 64 → (vAt powerUp quietGame j).moFlag = false) ∧
    (vAt powerUp quietGame 68).moFlag = true ∧ (vAt powerUp quietGame 72).currentState = game2 := by
  have henters : EntersGame1 powerUp quietGame 7 := by
    refine ⟨by decide, by decide, by decide⟩
  have hreset : ∀ n, 4 ≤ n → (quietGame n).resetN = true := fun n hn => decide_eq_true hn
  have hcount : ∀ j, j < 56 → (vAt powerUp quietGame (8 + j)).gameOneCounter ≠ 7 := by decide +kernel
  have hseven : (vAt powerUp quietGame 64).gameOneCounter = 7 := by decide +kernel
  have hclk : ∀ n, (∀ j, n < j → j < n + 4 → (quietGame j).clk = false) → (quietGame (n + 4)).clk = true →
      NextClk quietGame n (n + 4) := fun n hno hyes => ⟨by omega, hyes, hno⟩
  have hquiet : ∀ n, n % 4 = 3 → ∀ j, n < j → j < n + 4 → (quietGame j).clk = false := by
    intro n hn j h1 h2
    exact beq_eq_false_iff_ne.2 (by omega)
  obtain ⟨hlow, hwin⟩ := (win_seen powerUp quietGame).2 7 63 henters (by omega)
    (fun j h1 _ => hreset j (by omega)) fun j h1 h2 => by
      obtain ⟨i, rfl⟩ : ∃ i, j = 8 + i := ⟨j - 8, by omega⟩
      exact hcount i (by omega)
  exact ⟨hlow, hwin hseven 67 71 (hclk 63 (hquiet 63 rfl) rfl) (hclk 67 (hquiet 67 rfl) rfl)
    fun j h1 _ => hreset j (by omega)⟩

end BankVault
