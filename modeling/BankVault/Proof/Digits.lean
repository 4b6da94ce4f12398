import BankVault.Proof.Soundness

/-!
# Game one: one key for each digit

`gameOne` registers the digit it shows, so the display lags the counter by one `clk`
edge. A key held over the edge after a match still matches the old digit and moves the
counter a second time: the next digit is never asked for. A match at such an edge is a
**stale match**.

* `shown_inv`: within a stay the display is blank, or shows the counter, or still shows
  the digit of a match.
* `digits_iff`: every digit is entered in order, and none of them counts twice, if and
  only if no match is stale.
-/

namespace BankVault

open Clocked

variable {s₀ : Vault} {es : ℕ → Ev} {k e x : ℕ}

/-- The counter as a digit on display. -/
def Vault.digit (s : Vault) : BitVec 5 := s.gameOneCounter.setWidth 5

/-- At event `j` a `clk` edge finds key `i`. -/
def KeyEdge (es : ℕ → Ev) (i j : ℕ) : Prop :=
  (es j).clk = true ∧ (es j).kpNum = BitVec.ofNat 4 i

/-- **Every digit is entered**: whenever `mo_flag` becomes 1, keys 0 to 6 were found in
this order at `clk` edges of the current stay in `game_1`. -/
def DigitsEntered (s₀ : Vault) (es : ℕ → Ev) (k : ℕ) : Prop :=
  ∀ x, k ≤ x → (vAt s₀ es x).moFlag = false → (vAt s₀ es (x + 1)).moFlag = true →
    ∃ e, k ≤ e ∧ Stay s₀ es game1 e x ∧ Climb (KeyEdge es) e x 7

/-- **No digit counts twice**: between two matches of a stay the digit shown changes. -/
def OncePerDigit (s₀ : Vault) (es : ℕ → Ev) (k : ℕ) : Prop :=
  ∀ e i j, k ≤ e → Stay s₀ es game1 e j → e < i → i < j → MatchEdge s₀ es i → MatchEdge s₀ es j →
    ∃ l, i ≤ l ∧ l ≤ j ∧ (vAt s₀ es l).gameOne.shown ≠ (vAt s₀ es i).gameOne.shown

/-- **No stale match**: a key matches only while the display shows the counter. -/
def NoStaleMatch (s₀ : Vault) (es : ℕ → Ev) (k : ℕ) : Prop :=
  ∀ e j, k ≤ e → Stay s₀ es game1 e j → MatchEdge s₀ es j →
    (vAt s₀ es j).gameOne.shown = (vAt s₀ es j).digit

/-! ### The display within a stay -/

theorem digit_inj {s s' : Vault} (h : s.digit = s'.digit) : s.gameOneCounter = s'.gameOneCounter := by
  have hinj : ∀ a b : BitVec 3, a.setWidth 5 = b.setWidth 5 → a = b := by decide
  exact hinj _ _ h

theorem Stay.shown_start (h : Stay s₀ es game1 e x) : (vAt s₀ es (e + 1)).gameOne.shown = 31 := by
  have hst : (vAt s₀ es e).currentState = startUp := h.prev rfl
  have hen : (vAt s₀ es e).game1En = false := by rw [Vault.game1En, hst]; decide
  show ((vAt s₀ es e).gameOne.step (es e).clk (es e).resetN (vAt s₀ es e).game1En _).shown = 31
  rw [h.clk, hen, GameOne.step_disabled]
  exact GameOne.shown_blank _

/-- One event of the display within a stay. -/
theorem Stay.shown_step (h : Stay s₀ es game1 e x) {j : ℕ} (h1 : e < j) (h2 : j < x) :
    (vAt s₀ es (j + 1)).gameOne.shown =
      if (es j).clk then (vAt s₀ es j).digit else (vAt s₀ es j).gameOne.shown := by
  have hen : (vAt s₀ es j).game1En = true := by rw [Vault.game1En, h.stage j h1 (by omega)]; decide
  have hr := h.resetN j (by omega) h2
  show ((vAt s₀ es j).gameOne.step (es j).clk (es j).resetN (vAt s₀ es j).game1En _).shown = _
  rw [hen, hr]
  cases (es j).clk with
  | false => rfl
  | true => exact GameOne.shown_stateBits _ _

/-- One event of the counter within a stay. -/
theorem Stay.counter_step (h : Stay s₀ es game1 e x) {j : ℕ} (h1 : e < j) (h2 : j ≤ x) :
    (vAt s₀ es (j + 1)).gameOneCounter =
      (vAt s₀ es j).gameOneCounter + if MatchEdge s₀ es j then 1 else 0 := by
  rw [vAt_succ, Vault.step_counter_on (h.stage j h1 h2)]
  by_cases hm : MatchEdge s₀ es j
  · rw [if_pos hm, if_pos (show _ ∧ _ from hm)]
  · rw [if_neg hm, if_neg (show ¬ (_ ∧ _) from hm)]

theorem counter_same {j : ℕ} (h : Stay s₀ es game1 e x) (h1 : e < j) (h2 : j ≤ x)
    (hm : ¬ MatchEdge s₀ es j) :
    (vAt s₀ es (j + 1)).gameOneCounter = (vAt s₀ es j).gameOneCounter := by
  rw [h.counter_step h1 h2, if_neg hm]; simp

/-- **The display within a stay**, as long as no match was stale: blank, or the counter,
or still the digit of an earlier match. -/
theorem shown_inv (h : Stay s₀ es game1 e x)
    (hfresh : ∀ j, e < j → j < x → MatchEdge s₀ es j →
      (vAt s₀ es j).gameOne.shown = (vAt s₀ es j).digit) :
    ∀ j, e < j → j ≤ x → (vAt s₀ es j).gameOne.shown = 31 ∨
      (vAt s₀ es j).gameOne.shown = (vAt s₀ es j).digit ∨
      ∃ i, e < i ∧ i < j ∧ MatchEdge s₀ es i ∧
        ∀ l, i ≤ l → l ≤ j → (vAt s₀ es l).gameOne.shown = (vAt s₀ es i).gameOne.shown := by
  apply stretch
  · exact Or.inl h.shown_start
  · intro j h1 h2 hj
    have hs := h.shown_step h1 h2
    by_cases hm : MatchEdge s₀ es j
    · -- the display keeps the digit just matched over this edge
      rw [if_pos hm.1] at hs
      refine Or.inr (Or.inr ⟨j, h1, Nat.lt_succ_self j, hm, fun l hl hlj => ?_⟩)
      rcases Nat.eq_or_lt_of_le hl with hl | hl
      · rw [hl]
      · have : l = j + 1 := by omega
        rw [this, hs, hfresh j h1 h2 hm]
    · have hc := counter_same h h1 h2.le hm
      cases hk : (es j).clk with
      | true =>
        rw [hk, if_pos rfl] at hs
        exact Or.inr (Or.inl (by rw [hs, Vault.digit, Vault.digit, hc]))
      | false =>
        simp only [hk, Bool.false_eq_true, if_false] at hs
        rcases hj with hj | hj | ⟨i, hi1, hi2, hi3, hi4⟩
        · exact Or.inl (hs.trans hj)
        · exact Or.inr (Or.inl (by rw [hs, hj, Vault.digit, Vault.digit, hc]))
        · refine Or.inr (Or.inr ⟨i, hi1, by omega, hi3, fun l hl hlj => ?_⟩)
          rcases Nat.eq_or_lt_of_le hlj with hl' | hl'
          · rw [hl', hs]; exact hi4 j (by omega) le_rfl
          · exact hi4 l hl (by omega)

/-! ### Both directions -/

/-- If no digit counts twice, no match is stale. -/
theorem noStale_of_once (h : OncePerDigit s₀ es k) : NoStaleMatch s₀ es k := by
  intro e j hk
  -- the matches before `j` are not stale, by induction
  induction j using Nat.strong_induction_on with
  | _ j ih =>
    intro hst hm
    have hinv := shown_inv hst (fun i h1 h2 hi => ih i h2 (hst.mono h1 h2.le) hi) j hst.lt le_rfl
    rcases hinv with hb | hs | ⟨i, h1, h2, hi, hsame⟩
    · have hle : ∀ w : BitVec 4, w.setWidth 5 ≠ (31 : BitVec 5) := by decide
      have hkey : (es j).kpNum.setWidth 5 = (vAt s₀ es j).gameOne.shown := beq_iff_eq.1 hm.2
      exact absurd (hkey.trans hb) (hle _)
    · exact hs
    · obtain ⟨l, hl1, hl2, hne⟩ := h e i j hk hst h1 h2 hi hm
      exact absurd (hsame l hl1 hl2) hne

/-- Without stale matches no digit counts twice. -/
theorem once_of_noStale (h : NoStaleMatch s₀ es k) : OncePerDigit s₀ es k := by
  intro e i j hk hst h1 h2 hi hj
  by_contra hcon
  push Not at hcon
  have hsi := h e i hk (hst.mono h1 h2.le) hi
  -- after the match at `i` the counter is one ahead of the digit shown, up to `j`
  have hahead : ∀ l, i < l → l ≤ j →
      (vAt s₀ es l).gameOneCounter = (vAt s₀ es i).gameOneCounter + 1 := by
    apply stretch
    · rw [hst.counter_step h1 h2.le, if_pos hi]
    · intro l hl1 hl2 hl
      by_cases hm : MatchEdge s₀ es l
      · have hsl := h e l hk (hst.mono (by omega) hl2.le) hm
        rw [hcon l hl1.le hl2.le, hsi] at hsl
        have := digit_inj hsl
        rw [hl] at this
        exact absurd this.symm (by bv_omega)
      · rw [counter_same hst (by omega) hl2.le hm, hl]
  have hsj := h e j hk hst hj
  rw [hcon j h2.le le_rfl, hsi] at hsj
  have := digit_inj hsj
  rw [hahead j h2 le_rfl] at this
  exact absurd this.symm (by bv_omega)

/-- **The keys of a stay without stale matches**: until `mo_flag` is up, a counter at `c`
has seen keys 0 to `c - 1` in order. -/
theorem keys_climb (h : NoStaleMatch s₀ es k) (hk : k ≤ e) (hst : Stay s₀ es game1 e x) :
    ∀ j, e < j → j ≤ x → (vAt s₀ es j).moFlag = true ∨
      Climb (KeyEdge es) e j (vAt s₀ es j).gameOneCounter.toNat := by
  apply stretch
  · rw [hst.counter_start.1]; exact Or.inr Climb.zero
  · intro j h1 h2 hj
    have hg1 := hst.stage j h1 h2.le
    have hr := hst.resetN j (by omega) h2
    have hen : (vAt s₀ es j).game1En = true := by rw [Vault.game1En, hg1]; decide
    have hflag : (vAt s₀ es (j + 1)).gameOne = (vAt s₀ es j).gameOne.step (es j).clk true true
        (vAt s₀ es j).gameOneCounter := by
      rw [vAt_succ, Vault.step_gameOne, hr, hen]
    rcases hj with hf | hcl
    · cases hc : (es j).clk with
      | false => exact Or.inl (by rw [Vault.moFlag, hflag, hc]; exact hf)
      | true =>
        -- the raised flag would end the stay at this edge
        have hleave : (vAt s₀ es (j + 1)).currentState = game2 := by
          rw [vAt_succ, Vault.step_currentState_clk hr hc]
          simp [Vault.stateHandler, hg1, hf]
        rw [hst.stage (j + 1) (by omega) (by omega)] at hleave
        exact absurd hleave (by decide)
    · by_cases hm : MatchEdge s₀ es j
      · by_cases h7 : (vAt s₀ es j).gameOneCounter = 7
        · refine Or.inl ?_
          rw [Vault.moFlag, hflag, hm.1, GameOne.step_on, h7]; decide
        · refine Or.inr ?_
          have hkey : (es j).kpNum.setWidth 5 = (vAt s₀ es j).digit :=
            (beq_iff_eq.1 hm.2).trans (h e j hk (hst.mono h1 h2.le) hm)
          have hnext : (vAt s₀ es (j + 1)).gameOneCounter.toNat =
              (vAt s₀ es j).gameOneCounter.toNat + 1 := by
            rw [hst.counter_step h1 h2.le, if_pos hm]; bv_omega
          rw [hnext]
          refine hcl.snoc h1 ⟨hm.1, ?_⟩
          have hcast : ∀ (a : BitVec 4) (c : BitVec 3), a.setWidth 5 = c.setWidth 5 →
              a = BitVec.ofNat 4 c.toNat := by decide
          exact hcast _ _ hkey
      · rw [counter_same hst h1 h2.le hm]
        exact Or.inr (hcl.mono (Nat.le_succ j))

/-- Without stale matches every digit is entered. -/
theorem entered_of_noStale (hs : StartsInReset es k) (h : NoStaleMatch s₀ es k) :
    DigitsEntered s₀ es k := by
  intro x hx hlow hhigh
  rw [vAt_succ] at hhigh
  rcases GameOne.victory_inv hhigh with ⟨-, hold⟩ | ⟨-, -, hen, h7⟩
  · rw [Vault.moFlag] at hlow
    exact absurd (hlow.symm.trans hold) (by decide)
  · obtain ⟨e, hke, hst⟩ := stay_of hs hx (by decide) (beq_iff_eq.1 hen)
    refine ⟨e, hke, hst, ?_⟩
    rcases keys_climb h hke hst x hst.lt le_rfl with hf | hcl
    · exact absurd (hlow.symm.trans hf) (by decide)
    · rw [h7] at hcl; exact hcl

/-- **When game one asks for every digit.** In every run from reset: whenever the game is
won every digit from 0 to 6 was entered in order, and no digit shown counts twice, if and
only if no key matches the display while it lags the counter. -/
theorem digits_iff (s₀ : Vault) (es : ℕ → Ev) (k : ℕ) (h : StartsInReset es k) :
    DigitsEntered s₀ es k ∧ OncePerDigit s₀ es k ↔ NoStaleMatch s₀ es k :=
  ⟨fun hd => noStale_of_once hd.2, fun hn => ⟨entered_of_noStale h hn, once_of_noStale hn⟩⟩

/-- Keys `b`, 0, 2, 4 and 6, the middle ones held over two `clk` edges. -/
def heldKeys (n : ℕ) : Ev where
  clk := true
  clock50 := true
  resetN := n ≠ 0
  kpNum := [0xf, 0xb, 0xf, 0, 0, 0xf, 2, 2, 0xf, 4, 4, 0xf, 6].getD n 0xf
  adcValue := 0
  adcXValue := 0
  knockInput := false

theorem heldKeys_starts : StartsInReset heldKeys 1 := ⟨by decide, ⟨0, by decide⟩, ⟨0, by decide⟩⟩

theorem digits_iff_heldKeys : DigitsEntered powerUp heldKeys 1 ∧ OncePerDigit powerUp heldKeys 1 ↔
    NoStaleMatch powerUp heldKeys 1 :=
  digits_iff powerUp heldKeys 1 heldKeys_starts

/-- **Digits are skipped**: with `heldKeys` the game is won although key 1 was never down. -/
theorem digits_skipped : StartsInReset heldKeys 1 ∧ (∀ n, (heldKeys n).kpNum ≠ 1) ∧
    (vAt powerUp heldKeys 14).moFlag = true ∧ ¬ DigitsEntered powerUp heldKeys 1 := by
  have hno : ∀ n, (heldKeys n).kpNum ≠ 1 := by
    intro n
    rcases lt_or_ge n 13 with hn | hn
    · revert n; decide
    · show List.getD _ n (0xf : BitVec 4) ≠ 1
      rw [List.getD_eq_getElem?_getD, List.getElem?_eq_none (by simpa using hn)]
      decide
  refine ⟨heldKeys_starts, hno, by decide +kernel, fun h => ?_⟩
  obtain ⟨e, -, -, t, -, ht⟩ := h 13 (by decide) (by decide +kernel) (by decide +kernel)
  exact hno _ (ht 1).2.2.2

end BankVault
