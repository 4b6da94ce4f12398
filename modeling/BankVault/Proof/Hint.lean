import BankVault.Clocked.Progress
import BankVault.Proof.Display

/-!
# What game one shows

In `game_1` the digits are lit while `debounce_0` finds a key down. So the display is dark for a player
who presses none; one who holds a key sees the digit that the game waits for at place 3, and the key
at place 0. The display lags behind the counter, and a held key that matches is counted twice; after
five edges of `clk` both have come to rest.

* `Debounce.rankTo_edge`: a steady input is through `debounce` after four edges.
* `calmRank_step`: a held key is through the counter and the display after five.
* `hint_displayed`: what is seen.
-/

namespace BankVault

open Clocked

/-! ### A steady input of `debounce` -/

/-- The complement of all lines. -/
def Debounce.flip (d : Debounce) : Debounce := ⟨!d.q1, !d.q2, d.count, !d.debouncedInput⟩

/-- `debounce` treats both levels alike. -/
theorem Debounce.edge_flip (d : Debounce) (raw : Bool) : (d.edge raw).flip = d.flip.edge (!raw) := by
  obtain ⟨q1, q2, count, out⟩ := d
  revert raw q1 q2 count out
  decide

/-- How many more edges with the input at `b` until the output is at `b` for good. -/
def Debounce.rankTo (b : Bool) (d : Debounce) : ℕ := if b then d.flip.settleRank else d.settleRank

theorem Debounce.rankTo_edge (b : Bool) (d : Debounce) : (d.edge b).rankTo b ≤ d.rankTo b - 1 := by
  unfold rankTo
  cases b with
  | false => exact d.settleRank_edge
  | true =>
    rw [if_pos rfl, if_pos rfl, edge_flip]
    exact d.flip.settleRank_edge

theorem Debounce.rankTo_le (b : Bool) (d : Debounce) : d.rankTo b ≤ 4 := by
  unfold rankTo settleRank
  split_ifs <;> omega

theorem Debounce.debouncedInput_of_rankTo {b : Bool} {d : Debounce} (h : d.rankTo b = 0) :
    d.debouncedInput = b := by
  obtain ⟨q1, q2, count, out⟩ := d
  revert h
  revert b q1 q2 count out
  decide

namespace SevenSeg

variable {s : SevenSeg} {e : Pins × BitVec 4} {b : Bool} {n : BitVec 4}

/-! ### The enables -/

/-- The edges until `ct_temp` is at `b` for good. -/
def litRank (b : Bool) (s : SevenSeg) : ℕ :=
  if s.debounce0.rankTo b = 0 then (if s.ctTemp = BitVec.ofBool b then 0 else 1)
  else s.debounce0.rankTo b + 1

theorem litRank_le (b : Bool) (s : SevenSeg) : s.litRank b ≤ 5 := by
  have h := s.debounce0.rankTo_le b
  unfold litRank
  split_ifs <;> omega

/-- **An edge with a steady `kphit`** brings `ct_temp` nearer. -/
theorem litRank_step (hr : e.1.resetN = true) (hb : (s.keyed.decode e.1 e.2).kphit = b) :
    (s.step e).litRank b ≤ s.litRank b - if e.1.clk = true then 1 else 0 := by
  have hdeb : (s.step e).debounce0 = s.debounce0.step e.1.clk true b := by rw [← hb, ← hr]; rfl
  have hct : (s.step e).ctTemp = if e.1.clk then (if s.kphitDebounced then 1 else 0) else s.ctTemp := rfl
  unfold litRank
  rw [hdeb, hct]
  cases e.1.clk with
  | false => exact le_rfl
  | true =>
    have hedge := s.debounce0.rankTo_edge b
    change (if (s.debounce0.edge b).rankTo b = 0 then
      (if (if s.kphitDebounced then (1 : BitVec 1) else 0) = BitVec.ofBool b then 0 else 1)
      else (s.debounce0.edge b).rankTo b + 1) ≤ _
    rw [if_pos rfl]
    by_cases h0 : s.debounce0.rankTo b = 0
    · have hout : s.kphitDebounced = b := Debounce.debouncedInput_of_rankTo h0
      rw [if_pos (by omega), if_pos h0, hout, if_pos (by cases b <;> rfl)]
      exact Nat.zero_le _
    · rw [if_neg h0]
      split_ifs <;> omega

theorem ctTemp_of_litRank (h : s.litRank b = 0) : s.ctTemp = BitVec.ofBool b := by
  unfold litRank at h
  split_ifs at h
  assumption

/-! ### The counter and the digit -/

/-- The edges until counter and display rest for good, while the key is `n`: a match moves the counter,
and the display follows an edge later. -/
def calm (n : BitVec 4) (shown : BitVec 5) (counter : BitVec 3) : ℕ :=
  if n.setWidth 5 = shown then
    if counter.setWidth 5 = shown then 3
    else if (counter + 1).setWidth 5 = shown then 5
    else 2
  else if counter.setWidth 5 = n.setWidth 5 then 4
  else if counter.setWidth 5 = shown then 0
  else 1

theorem calm_le (n : BitVec 4) (shown : BitVec 5) (counter : BitVec 3) : calm n shown counter ≤ 5 := by
  unfold calm
  split_ifs <;> omega

theorem calm_edge (n : BitVec 4) (shown : BitVec 5) (counter : BitVec 3) :
    calm n (counter.setWidth 5) (counter + if n.setWidth 5 = shown then 1 else 0) ≤
      calm n shown counter - 1 := by
  have hone : ∀ c : BitVec 3, ¬ (c + 1).setWidth 5 = (c.setWidth 5 : BitVec 5) := by decide
  have htwo : ∀ c : BitVec 3, ¬ (c + 1 + 1).setWidth 5 = (c.setWidth 5 : BitVec 5) := by decide
  have hzero : ∀ c : BitVec 3, c + 0 = c := by decide
  unfold calm
  by_cases hmatch : n.setWidth 5 = shown
  · rw [if_pos hmatch, if_pos hmatch]
    by_cases hfresh : counter.setWidth 5 = shown
    · -- the digit of the game: the counter moves, and the display lags
      rw [if_pos hfresh, if_pos (hmatch.trans hfresh.symm), if_neg (hone counter), if_neg (htwo counter)]
    · -- the digit before it: the display catches up
      have hstale : ¬ n.setWidth 5 = counter.setWidth 5 := fun h => hfresh (h.symm.trans hmatch)
      rw [if_neg hfresh, if_neg hstale, hmatch, if_neg (hone counter)]
      split_ifs <;> omega
  · rw [if_neg hmatch, if_neg hmatch, hzero, if_pos rfl, if_pos rfl]
    by_cases hkey : n.setWidth 5 = counter.setWidth 5
    · rw [if_pos hkey, if_pos hkey.symm]
    · rw [if_neg hkey, if_neg (Ne.symm hkey)]
      exact Nat.zero_le _

/-- At rest the digit shown is the counter, and the key is another one. -/
theorem calm_eq_zero {n : BitVec 4} {shown : BitVec 5} {counter : BitVec 3} (h : calm n shown counter = 0) :
    shown = counter.setWidth 5 ∧ n.setWidth 5 ≠ shown := by
  unfold calm at h
  by_cases hmatch : n.setWidth 5 = shown
  · rw [if_pos hmatch] at h
    split_ifs at h
  · rw [if_neg hmatch] at h
    split_ifs at h with h₁ h₂
    exact ⟨h₂.symm, hmatch⟩

/-- The same of the lock. -/
def calmRank (n : BitVec 4) (s : SevenSeg) : ℕ := calm n s.vault.gameOne.shown s.vault.gameOneCounter

/-- **An edge with a held key** brings the rest nearer. -/
theorem calmRank_step (hr : e.1.resetN = true) (hst : s.vault.currentState = game1)
    (hkey : (s.keyed.decode e.1 e.2).num = n) :
    (s.step e).calmRank n ≤ s.calmRank n - if e.1.clk = true then 1 else 0 := by
  have hnum : (s.keyed.ev e.1 e.2).kpNum = n := hkey
  have hen : s.vault.game1En = true := beq_iff_eq.2 hst
  have hcounter : (s.step e).vault.gameOneCounter = s.vault.gameOneCounter +
      if e.1.clk = true ∧ n.setWidth 5 = s.vault.gameOne.shown then 1 else 0 := by
    change (s.vault.step (s.keyed.ev e.1 e.2)).gameOneCounter = _
    rw [Vault.step_counter_on hst, Vault.keyMatches, hnum]
    simp only [beq_iff_eq]
    rfl
  have hgame : (s.step e).vault.gameOne = s.vault.gameOne.step e.1.clk true true s.vault.gameOneCounter := by
    change s.vault.gameOne.step e.1.clk e.1.resetN s.vault.game1En _ = _
    rw [hr, hen]
  unfold calmRank
  rw [hcounter, hgame]
  cases e.1.clk with
  | false => simp
  | true =>
    rw [GameOne.step_on, GameOne.shown_stateBits]
    simp only [true_and, if_true]
    exact calm_edge n _ _

/-! ### In game one -/

/-- In `game_1` place 3 has the digit of the game, and place 0 the key. -/
theorem displayNum_game1 (hst : s.vault.currentState = game1) (kpNum : BitVec 4) :
    (s.digit = 3 → s.displayNum kpNum = s.vault.gameOne.shown) ∧
      (s.digit = 0 → s.displayNum kpNum = kpNum.setWidth 5) := by
  have hdisp : ∀ x y : BitVec 5, dispNum s.vault.currentState x y = x := by
    intro x y
    rw [dispNum, hst, if_neg (by decide), if_pos rfl]
  unfold displayNum dispNum0 dispNum3
  simp only [hdisp]
  constructor
  · intro hd
    rw [if_pos hd]
    rfl
  · intro hd
    rw [hd, if_neg (by decide), if_neg (by decide), if_neg (by decide), if_pos rfl]
    revert kpNum
    decide

/-- The place that is lit in `game_1`, while `ct_temp` is up. -/
theorem ct_game1 (hst : s.vault.currentState = game1) (hct : s.ctTemp = 1) {k : ℕ} (hk : k < 4) :
    s.ct = 1#4 <<< k ↔ s.digit.toNat = k := by
  unfold ct
  rw [hst, if_pos rfl, hct]
  generalize s.digit = digit
  revert digit
  interval_cases k <;> decide

/-- With `ct_temp` down nothing is lit. -/
theorem ct_dark (hst : s.vault.currentState = game1) (hct : s.ctTemp = 0) : s.ct = 0 := by
  unfold ct
  rw [hst, if_pos rfl, hct]
  generalize s.digit = digit
  revert digit
  decide

end SevenSeg

/-! ### Stays -/

variable {s₀ : SevenSeg} {ps : ℕ → Pins} {d : ℕ → BitVec 4} {lo hi j : ℕ} {n : BitVec 4}

/-- The stretch from just after `lo` to `hi` is spent in `game_1`. -/
def InGame1 (s₀ : SevenSeg) (ps : ℕ → Pins) (d : ℕ → BitVec 4) (lo hi : ℕ) : Prop :=
  ∀ j, lo < j → j ≤ hi → (ssAt s₀ ps d j).vault.currentState = game1

/-- What the keypad reports before event `j`. -/
def reported (s₀ : SevenSeg) (ps : ℕ → Pins) (d : ℕ → BitVec 4) (j : ℕ) : KpDecode :=
  (ssAt s₀ ps d j).keyed.decode (ps j) (d j)

theorem InGame1.resetN (h : InGame1 s₀ ps d lo hi) (hlo : lo < j) (hj : j < hi) : (ps j).resetN = true :=
  resetN_of_stage (by rw [h (j + 1) (by omega) hj]; decide)

/-- **The enables follow the key** after five edges. -/
theorem InGame1.ctTemp (h : InGame1 s₀ ps d lo hi) {b : Bool}
    (hb : ∀ j, lo < j → j ≤ hi → (reported s₀ ps d j).kphit = b) (hlo : lo < j) (hj : j ≤ hi)
    (hc : edges ps (lo + 1) + 5 ≤ edges ps j) : (ssAt s₀ ps d j).ctTemp = BitVec.ofBool b := by
  have hrank : (ssAt s₀ ps d j).litRank b ≤
      (ssAt s₀ ps d (lo + 1)).litRank b - (edges ps j - edges ps (lo + 1)) :=
    rank_le_of_count (P := fun i => (ps i).clk = true) (r := fun i => (ssAt s₀ ps d i).litRank b)
      (fun i h₁ h₂ => SevenSeg.litRank_step (h.resetN h₁ h₂) (hb i h₁ h₂.le)) j hlo hj
  have hle := (ssAt s₀ ps d (lo + 1)).litRank_le b
  exact SevenSeg.ctTemp_of_litRank (by omega)

/-- **Counter and display rest** after five edges. -/
theorem InGame1.calm (h : InGame1 s₀ ps d lo hi)
    (hkey : ∀ j, lo < j → j ≤ hi → reported s₀ ps d j = ⟨true, n⟩) (hlo : lo < j) (hj : j ≤ hi)
    (hc : edges ps (lo + 1) + 5 ≤ edges ps j) : (ssAt s₀ ps d j).calmRank n = 0 := by
  have hrank : (ssAt s₀ ps d j).calmRank n ≤
      (ssAt s₀ ps d (lo + 1)).calmRank n - (edges ps j - edges ps (lo + 1)) :=
    rank_le_of_count (P := fun i => (ps i).clk = true) (r := fun i => (ssAt s₀ ps d i).calmRank n)
      (fun i h₁ h₂ => SevenSeg.calmRank_step (h.resetN h₁ h₂) (h i h₁ h₂.le)
        (congrArg KpDecode.num (hkey i h₁ h₂.le))) j hlo hj
  have hle : (ssAt s₀ ps d (lo + 1)).calmRank n ≤ 5 := SevenSeg.calm_le ..
  omega

/-- The digit shown at rest is the counter, which stays. -/
theorem InGame1.shown (h : InGame1 s₀ ps d lo hi)
    (hkey : ∀ j, lo < j → j ≤ hi → reported s₀ ps d j = ⟨true, n⟩) (hlo : lo < j) (hj : j ≤ hi)
    (hc : edges ps (lo + 1) + 5 ≤ edges ps j) : (ssAt s₀ ps d j).vault.gameOne.shown =
      (ssAt s₀ ps d hi).vault.gameOneCounter.setWidth 5 := by
  have hstay : ∀ i, j ≤ i → i ≤ hi →
      (ssAt s₀ ps d i).vault.gameOneCounter = (ssAt s₀ ps d j).vault.gameOneCounter := by
    intro i hi'
    induction i, hi' using Nat.le_induction with
    | base => intro _; rfl
    | succ i hji ih =>
      intro hlt
      have hmono : edges ps j ≤ edges ps i := Nat.count_monotone _ hji
      have hrest := SevenSeg.calm_eq_zero (h.calm hkey (by omega : lo < i) (by omega) (by omega))
      have hnum : ((ssAt s₀ ps d i).keyed.ev (ps i) (d i)).kpNum = n :=
        congrArg KpDecode.num (hkey i (by omega) (by omega))
      have hmiss : ¬ (ssAt s₀ ps d i).vault.keyMatches ((ssAt s₀ ps d i).keyed.ev (ps i) (d i)) = true := by
        rw [Vault.keyMatches, hnum, beq_iff_eq]
        exact hrest.2
      rw [← ih (by omega), ssAt_succ]
      change ((ssAt s₀ ps d i).vault.step _).gameOneCounter = _
      rw [Vault.step_counter_on (h i (by omega) (by omega)), if_neg fun hm => hmiss hm.2]
      exact BitVec.add_zero _
  rw [hstay hi hj le_rfl]
  exact (SevenSeg.calm_eq_zero (h.calm hkey hlo hj hc)).1

/-- **What game one shows.** In every run from any registers, over every stretch in `game_1`, from the
fifth edge of `clk` on: while no key is hit, nothing is lit; while one key is hit over at least 1285
edges, a digit is seen at place 3 if and only if it is the one that the game waits for at the end, and
at place 0 if and only if it is the key. -/
theorem hint_displayed (s₀ : SevenSeg) (ps : ℕ → Pins) (d : ℕ → BitVec 4) (lo hi : ℕ)
    (hst : InGame1 s₀ ps d lo hi) :
    ((∀ j, lo < j → j ≤ hi → (reported s₀ ps d j).kphit = false) →
      ∀ j, lo < j → j ≤ hi → edges ps (lo + 1) + 5 ≤ edges ps j → (ssAt s₀ ps d j).ct = 0) ∧
    ∀ n : BitVec 4, (∀ j, lo < j → j ≤ hi → reported s₀ ps d j = ⟨true, n⟩) →
      lo < hi → edges ps (lo + 1) + 1285 ≤ edges ps hi → ∀ x : BitVec 4,
        ((∃ j, lo < j ∧ j ≤ hi ∧ edges ps (lo + 1) + 5 ≤ edges ps j ∧ (ssAt s₀ ps d j).ct = 1#4 <<< 3 ∧
            (ssAt s₀ ps d j).leds (ps j) (d j) = decode7 (x.setWidth 5)) ↔
          x = (ssAt s₀ ps d hi).vault.gameOneCounter.setWidth 4) ∧
        ((∃ j, lo < j ∧ j ≤ hi ∧ edges ps (lo + 1) + 5 ≤ edges ps j ∧ (ssAt s₀ ps d j).ct = 1#4 <<< 0 ∧
            (ssAt s₀ ps d j).leds (ps j) (d j) = decode7 (x.setWidth 5)) ↔ x = n) := by
  refine ⟨fun hoff j hlo hj hc => SevenSeg.ct_dark (hst j hlo hj) (hst.ctTemp hoff hlo hj hc), ?_⟩
  intro n hkey hlt hc x
  have hon : ∀ j, lo < j → j ≤ hi → edges ps (lo + 1) + 5 ≤ edges ps j → (ssAt s₀ ps d j).ctTemp = 1 :=
    fun j h₁ h₂ h₃ => hst.ctTemp (b := true) (fun i h₄ h₅ => by rw [hkey i h₄ h₅]) h₁ h₂ h₃
  have hnum : ∀ j, lo < j → j ≤ hi → ((ssAt s₀ ps d j).keyed.decode (ps j) (d j)).num = n :=
    fun j h₁ h₂ => congrArg KpDecode.num (hkey j h₁ h₂)
  have hle : ∀ w : BitVec 4, w.setWidth 5 ≤ (16 : BitVec 5) := by decide
  -- one place: what is seen there in the stretch is the one number it shows
  have hplace : ∀ (k : ℕ) (y : BitVec 4), k < 4 →
      (∀ j, lo < j → j ≤ hi → edges ps (lo + 1) + 5 ≤ edges ps j → (ssAt s₀ ps d j).digit.toNat = k →
        (ssAt s₀ ps d j).displayNum n = y.setWidth 5) →
      ((∃ j, lo < j ∧ j ≤ hi ∧ edges ps (lo + 1) + 5 ≤ edges ps j ∧ (ssAt s₀ ps d j).ct = 1#4 <<< k ∧
        (ssAt s₀ ps d j).leds (ps j) (d j) = decode7 (x.setWidth 5)) ↔ x = y) := by
    intro k y hk hshown
    constructor
    · rintro ⟨j, hlo, hj, hcj, hct, hleds⟩
      have hdigit := (SevenSeg.ct_game1 (hst j hlo hj) (hon j hlo hj hcj) hk).1 hct
      rw [SevenSeg.leds, hnum j hlo hj, hshown j hlo hj hcj hdigit] at hleds
      have hinj : ∀ w w' : BitVec 4, w.setWidth 5 = w'.setWidth 5 → w' = w := by decide
      exact hinj _ _ (decode7_injOn _ _ (hle _) hleds)
    · rintro rfl
      -- the place comes round after the fifth edge
      obtain ⟨m, hlom, hmhi, hm⟩ : ∃ m, lo + 1 ≤ m ∧ m ≤ hi ∧ edges ps m = edges ps (lo + 1) + 5 :=
        exists_count hlt (Nat.le_add_right _ 5) (by unfold edges at hc ⊢; omega)
      obtain ⟨i, rfl⟩ : ∃ i, m = i + 1 := ⟨m - 1, by omega⟩
      obtain ⟨j, hij, hj, hdigit⟩ : ∃ j, i < j ∧ j ≤ hi ∧ (ssAt s₀ ps d j).digit.toNat = k :=
        digit_visited hmhi (by omega) hk
      have hmono : edges ps (i + 1) ≤ edges ps j := Nat.count_monotone _ hij
      refine ⟨j, by omega, hj, by omega, ?_, ?_⟩
      · exact (SevenSeg.ct_game1 (hst j (by omega) hj) (hon j (by omega) hj (by omega)) hk).2 hdigit
      · rw [SevenSeg.leds, hnum j (by omega) hj, hshown j (by omega) hj (by omega) hdigit]
  have hwide : ∀ c : BitVec 3, (c.setWidth 4).setWidth 5 = c.setWidth 5 := by decide
  refine ⟨hplace 3 _ (by decide) fun j h₁ h₂ h₃ h₄ => ?_, hplace 0 n (by decide) fun j h₁ h₂ h₃ h₄ => ?_⟩
  · rw [((ssAt s₀ ps d j).displayNum_game1 (hst j h₁ h₂) n).1 (BitVec.eq_of_toNat_eq h₄), hst.shown hkey h₁ h₂ h₃,
      hwide]
  · exact ((ssAt s₀ ps d j).displayNum_game1 (hst j h₁ h₂) n).2 (BitVec.eq_of_toNat_eq h₄)

/-- Key 9 held down, with `CLOCK_50` at rest. -/
def ninePins (_ : ℕ) : Pins := ⟨true, false, true, 0b1101, 0, 0, false⟩

/-- The lock in `game_1` with the scan on that key, some edges later. -/
def nineKeyed : Keyed :=
  (fun s => Keyed.step (ninePins 0, 0) s)^[4] ⟨0b1101, { powerUp with nextState := game1, gameOne := ⟨0, false⟩, gameOneCounter := 0 }⟩

/-- The display in front of it, at any place. -/
def nineStart : SevenSeg where
  keyed := nineKeyed
  debounce0 := ⟨false, true, 7, false⟩
  delayCnt := 200
  digit := 5
  ctTemp := 0

theorem nineKeyed_rests (j : ℕ) : (ssAt nineStart ninePins (fun _ => 0) j).keyed = nineKeyed := by
  induction j with
  | zero => rfl
  | succ j ih =>
    rw [ssAt_succ]
    change Keyed.step (ninePins j, 0) (ssAt nineStart ninePins (fun _ => 0) j).keyed = _
    rw [ih]
    change Keyed.step (ninePins 0, 0) nineKeyed = _
    decide +kernel

theorem hint_displayed_nine :
    ((∃ j, 0 < j ∧ j ≤ 1286 ∧ edges ninePins 1 + 5 ≤ edges ninePins j ∧
        (ssAt nineStart ninePins (fun _ => 0) j).ct = 1#4 <<< 3 ∧
        (ssAt nineStart ninePins (fun _ => 0) j).leds (ninePins j) 0 = decode7 ((0 : BitVec 4).setWidth 5)) ↔
      0 = (ssAt nineStart ninePins (fun _ => 0) 1286).vault.gameOneCounter.setWidth 4) ∧
    ((∃ j, 0 < j ∧ j ≤ 1286 ∧ edges ninePins 1 + 5 ≤ edges ninePins j ∧
        (ssAt nineStart ninePins (fun _ => 0) j).ct = 1#4 <<< 0 ∧
        (ssAt nineStart ninePins (fun _ => 0) j).leds (ninePins j) 0 = decode7 ((0 : BitVec 4).setWidth 5)) ↔
      0 = 9#4) := by
  have hcount : ∀ n, edges ninePins n = n := fun n => Nat.count_of_forall fun _ _ => rfl
  have hstage : nineKeyed.vault.currentState = game1 := by decide +kernel
  have hkey : ∀ j, reported nineStart ninePins (fun _ => 0) j = ⟨true, 9⟩ := fun j => by
    rw [reported, nineKeyed_rests]
    change Keyed.decode (ninePins 0) 0 nineKeyed = _
    decide +kernel
  exact (hint_displayed nineStart ninePins (fun _ => 0) 0 1286
    (fun j _ _ => by rw [SevenSeg.vault, nineKeyed_rests, hstage])).2 9 (fun j _ _ => hkey j) (by decide)
      (by rw [hcount, hcount]) 0

end BankVault
