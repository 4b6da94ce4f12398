import BankVault.Proof.Soundness

/-!
# The two knock stages

`game_3` and `harder` are left on a **low** `unlocked_flag`, and a low flag is also
what `safe_tilt_and_unlock` drives while it is disabled. Over a stay at a constant
debounced level the flag takes that level by the first `clk` edge after the entry, so
a stage entered with the level low is left at once, without a knock; a stage entered
with the level high is left only after the level changed.

* `flag_of_const`: the flag after a `CLOCK_50` edge inside a stay of constant level.
* `knock_iff`: in a run with `CLOCK_50` edges between its `clk` edges, a knock is needed
  for every passage if and only if each entry finds the level high or it changes before
  the next `clk` edge.
-/

namespace BankVault

open Clocked

/-- The two stages that wait for a knock. -/
def KnockStage (t : BitVec 3) : Prop := t = game3 ∨ t = harder

namespace Vault

/-- The `safe_tilt_and_unlock` instance of a knock stage. -/
def safe (s : Vault) (t : BitVec 3) : SafeTilt := if t = game3 then s.safe0 else s.safe1

/-- The debounced knock level of a knock stage. -/
def level (s : Vault) (t : BitVec 3) : Bool := (s.safe t).debounceGood

variable {s : Vault} {ev : Ev} {t : BitVec 3}

theorem step_safe (ht : KnockStage t) :
    (s.step ev).safe t = (s.safe t).step ev.clock50 ev.resetN ev.knockInput (s.currentState == t) := by
  rcases ht with rfl | rfl <;> rfl

/-- The gate of a knock stage is its low flag. -/
theorem gate_knock (ht : KnockStage t) (h : s.currentState = t) :
    s.gate ev = !(s.safe t).unlockedFlag := by
  rcases ht with rfl | rfl <;> simp [gate, h, safe, emagStateFlag, emagStateFlag2]

/-- Inside its stage the flag follows the debounced level at `CLOCK_50` edges. -/
theorem step_flag (ht : KnockStage t) (h : s.currentState = t) (hr : ev.resetN = true) :
    ((s.step ev).safe t).unlockedFlag =
      if ev.clock50 then s.level t else (s.safe t).unlockedFlag := by
  rw [step_safe ht, SafeTilt.step_unlockedFlag, hr, h]
  simp [level]

/-- A knock stage is left at a `clk` edge with `reset_n` high and the flag low, and then
always. -/
theorem leaves_iff (ev : Ev) (ht : KnockStage t) (h : s.currentState = t) :
    (s.step ev).currentState = t + 1 ↔
      ev.clk = true ∧ ev.resetN = true ∧ (s.safe t).unlockedFlag = false := by
  have hle : s.currentState ≤ victory := by
    rw [h]; rcases ht with rfl | rfl <;> decide
  have hne : t + 1 ≠ startUp ∧ t ≠ t + 1 := by rcases ht with rfl | rfl <;> decide
  constructor
  · intro hst
    obtain ⟨hr, hsame | ⟨hc, hg, -⟩⟩ := stage_inv hle (by rw [hst]; exact hne.1)
    · exact absurd ((h.symm.trans hsame.symm).trans hst) hne.2
    · rw [gate_knock ht h] at hg
      exact ⟨hc, hr, by simpa using hg⟩
  · rintro ⟨hc, hr, hf⟩
    rw [step_currentState_clk hr hc, stateHandler_eq hr hle, gate_knock ht h, hf, h]
    rfl

end Vault

variable {s₀ : Vault} {es : ℕ → Ev} {k e x : ℕ} {t : BitVec 3}

/-- The debounced level of stage `t` changes at event `j`. -/
def LevelChange (s₀ : Vault) (es : ℕ → Ev) (t : BitVec 3) (j : ℕ) : Prop :=
  (vAt s₀ es (j + 1)).level t ≠ (vAt s₀ es j).level t

/-- **No knock stage is passed without a knock**: whenever the stage is left at event
`x`, the debounced level changed since its entry edge. -/
def KnockNeeded (s₀ : Vault) (es : ℕ → Ev) (k : ℕ) : Prop :=
  ∀ t e x, KnockStage t → k ≤ e → Stay s₀ es t e x → (vAt s₀ es (x + 1)).currentState = t + 1 →
    ∃ j, e < j ∧ j < x ∧ LevelChange s₀ es t j

/-- **Every entry is safe**: when a knock stage is entered the debounced level is high,
or it changes before the next `clk` edge with `reset_n` high. -/
def EntriesHigh (s₀ : Vault) (es : ℕ → Ev) (k : ℕ) : Prop :=
  ∀ t e x, KnockStage t → k ≤ e → Stay s₀ es t e x →
    (∀ j, e < j → j < x → (es j).clk = false) → (es x).clk = true → (es x).resetN = true →
      (vAt s₀ es (e + 1)).level t = true ∨ ∃ j, e < j ∧ j < x ∧ LevelChange s₀ es t j

/-- Without a change the level keeps its value from just after the entry edge. -/
theorem level_const (hno : ∀ j, e < j → j < x → ¬ LevelChange s₀ es t j) : ∀ j, e < j → j ≤ x →
    (vAt s₀ es j).level t = (vAt s₀ es (e + 1)).level t := by
  apply stretch
  · rfl
  · intro j h1 h2 hj
    rw [← hj]
    exact not_not.1 (hno j h1 h2)

/-- **The flag of a constant level.** -/
theorem flag_of_const (ht : KnockStage t) (h : Stay s₀ es t e x) {m : ℕ} (hem : e < m) (hmx : m < x)
    (hm : (es m).clock50 = true) {d : Bool} (hd : ∀ j, e < j → j ≤ x → (vAt s₀ es j).level t = d) :
    ((vAt s₀ es x).safe t).unlockedFlag = d := by
  have hstep : ∀ j, e < j → j < x → ((vAt s₀ es (j + 1)).safe t).unlockedFlag =
      if (es j).clock50 then d else ((vAt s₀ es j).safe t).unlockedFlag := by
    intro j h1 h2
    rw [vAt_succ, Vault.step_flag ht (h.stage j h1 (by omega)) (h.resetN j (by omega) h2),
      hd j h1 (by omega)]
  -- the flag has the level just after the `CLOCK_50` edge `m`, and keeps it
  refine stretch (P := fun j => ((vAt s₀ es j).safe t).unlockedFlag = d) (e := m) ?_ ?_ x hmx le_rfl
  · rw [hstep m hem hmx, if_pos hm]
  · intro j h1 h2 hj
    rw [hstep j (by omega) h2, hj, ite_self]

/-- A stay up to a `clk` edge has a first `clk` edge after its entry. -/
theorem first_clk (h : Stay s₀ es t e x) (hx : (es x).clk = true) :
    ∃ y, e < y ∧ y ≤ x ∧ (es y).clk = true ∧ ∀ j, e < j → j < y → (es j).clk = false := by
  have hex : ∃ y, e < y ∧ (es y).clk = true := ⟨x, h.lt, hx⟩
  refine ⟨Nat.find hex, (Nat.find_spec hex).1, Nat.find_min' hex ⟨h.lt, hx⟩, (Nat.find_spec hex).2, ?_⟩
  intro j h1 h2
  have := Nat.find_min hex h2
  simpa [h1] using this

/-- **When a knock is needed.** In every run from reset with `CLOCK_50` edges between its
`clk` edges, no knock stage is passed without a change of the debounced level if and only
if every entry into one finds the level high, or it changes before the next `clk` edge. -/
theorem knock_iff (s₀ : Vault) (es : ℕ → Ev) (k : ℕ) (hf : FastClock es) :
    KnockNeeded s₀ es k ↔ EntriesHigh s₀ es k := by
  constructor
  · intro hK t e x ht hk hst _ hc hr
    by_contra hcon
    push Not at hcon
    obtain ⟨hlow, hno⟩ := hcon
    have hlow : (vAt s₀ es (e + 1)).level t = false := by simpa using hlow
    have hconst := level_const hno
    rw [hlow] at hconst
    obtain ⟨m, hem, hmx, hm⟩ := hf e x hst.lt hst.clk hc
    -- the low level makes the flag low, and the stage is left at `x`
    have hflag := flag_of_const ht hst hem hmx hm hconst
    have hleave := (Vault.leaves_iff (es x) ht (hst.stage x hst.lt le_rfl)).2 ⟨hc, hr, hflag⟩
    obtain ⟨j, h1, h2, hj⟩ := hK t e x ht hk hst hleave
    exact hno j h1 h2 hj
  · intro hE t e x ht hk hst hleave
    by_contra hcon
    push Not at hcon
    obtain ⟨hc, hr, hflag⟩ :=
      (Vault.leaves_iff (es x) ht (hst.stage x hst.lt le_rfl)).1 hleave
    have hconst := level_const hcon
    obtain ⟨m, hem, hmx, hm⟩ := hf e x hst.lt hst.clk hc
    have hd := flag_of_const ht hst hem hmx hm hconst
    -- the first `clk` edge after the entry contradicts the condition
    obtain ⟨y, hey, hyx, hcy, hfirst⟩ := first_clk hst hc
    have hry : (es y).resetN = true := by
      rcases Nat.eq_or_lt_of_le hyx with h | h
      · rw [h]; exact hr
      · exact hst.resetN y (by omega) h
    rcases hE t e y ht hk (hst.mono hey hyx) hfirst hcy hry with hhigh | ⟨j, h1, h2, hj⟩
    · rw [hflag, hhigh] at hd
      exact absurd hd (by decide)
    · exact hcon j h1 (by omega) hj

theorem quietGame_fast : FastClock quietGame := by
  intro i j hij hi hj
  refine ⟨i + 1, Nat.lt_succ_self i, ?_, rfl⟩
  have h1 : i % 4 = 3 := by simpa [quietGame] using hi
  have h2 : j % 4 = 3 := by simpa [quietGame] using hj
  omega

theorem knock_iff_quietGame : KnockNeeded powerUp quietGame 4 ↔ EntriesHigh powerUp quietGame 4 :=
  knock_iff powerUp quietGame 4 quietGame_fast

/-- In `quietGame` the stay in `game_3` lasts from event 91 to event 95. -/
theorem quietGame_game3 : Stay powerUp quietGame game3 91 95 where
  lt := by decide
  clk := by decide
  before := by decide +kernel
  gate := by decide +kernel
  stage := by
    intro j h1 h2
    obtain rfl | rfl | rfl | rfl : j = 92 ∨ j = 93 ∨ j = 94 ∨ j = 95 := by omega
    all_goals decide +kernel
  resetN := fun j h1 _ => decide_eq_true (show 4 ≤ j by omega)

/-- **A line held low passes both knock stages**: in `quietGame` the line is low throughout,
`game_3` is left one `clk` edge after it was entered and the vault is open one edge later. -/
theorem knock_not_needed : StartsInReset quietGame 4 ∧ FastClock quietGame ∧
    (∀ n, (quietGame n).knockInput = false) ∧
    (vAt powerUp quietGame 100).currentState = victory ∧ ¬ KnockNeeded powerUp quietGame 4 := by
  refine ⟨quietGame_starts, quietGame_fast, fun _ => rfl, by decide +kernel, fun h => ?_⟩
  obtain ⟨j, h1, h2, hj⟩ := h game3 91 95 (Or.inl rfl) (by decide) quietGame_game3 (by decide +kernel)
  obtain rfl | rfl | rfl : j = 92 ∨ j = 93 ∨ j = 94 := by omega
  all_goals exact absurd hj (by unfold LevelChange; decide +kernel)

end BankVault
