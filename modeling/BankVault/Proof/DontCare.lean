import BankVault.Rtl.Keyed
import BankVault.Proof.Soundness

/-!
# The don't-care key value

`num` is unknown while no single key is down. Three consumers read it without asking
for `kphit`: the start condition, the counter of game one and the joystick code. At an
instant at which one of them reads it (`Vault.reads`), some two resolutions part the
runs; at any other instant the resolution changes nothing.

* `step_of_not_reads`: a key value that is not read changes no register.
* `reads_parts`: a key value that is read decides something observable.
* `ReadsAreHits.start_up`: from a reset, runs in which it is read only with a hit stay in `start_up`.
* `dont_care_iff`: on given pins all resolutions agree if and only if, in every one of
  them, the key value is read only at instants with a hit.
-/

namespace BankVault

open Clocked

namespace Vault

/-- How far the lock has got: the stage, the counter and the joystick state. -/
def progress (s : Vault) : BitVec 3 × BitVec 3 × BitVec 3 :=
  (s.currentState, s.gameOneCounter, s.joyCode.joyState)

/-- **The key value is read** at an instant: at a `clk` edge in `start_up` with `reset_n`
high, in `game_1` with a digit on display, or in `game_2` with `reset_n` high, the joystick
over and the code incomplete. -/
def reads (s : Vault) (e : Ev) : Bool :=
  e.clk && ((s.currentState == startUp && e.resetN) ||
    (s.currentState == game1 && s.gameOne.shown ≤ 15) ||
    (s.currentState == game2 && e.resetN && JoyCode.posMatch e.adcXValue &&
      s.joyCode.currentState < JoyCode.sPass))

variable {s : Vault} {e : Ev}

/-- The same instant with another key value. -/
def withKey (e : Ev) (v : BitVec 4) : Ev := { e with kpNum := v }

@[simp] theorem withKey_clk (v : BitVec 4) : (withKey e v).clk = e.clk := rfl
@[simp] theorem withKey_resetN (v : BitVec 4) : (withKey e v).resetN = e.resetN := rfl
@[simp] theorem withKey_adcXValue (v : BitVec 4) : (withKey e v).adcXValue = e.adcXValue := rfl
@[simp] theorem withKey_kpNum (v : BitVec 4) : (withKey e v).kpNum = v := rfl

/-- The registers that do not see the key value at all. -/
theorem step_withKey_rest (v : BitVec 4) : s.step (withKey e v) =
    { s.step e with
      nextState := (s.step (withKey e v)).nextState
      gameOneCounter := (s.step (withKey e v)).gameOneCounter
      joyCode := (s.step (withKey e v)).joyCode } := rfl

/-- The start condition is the only way the stage sees the key. -/
theorem nextState_withKey {v : BitVec 4}
    (h : s.currentState ≠ startUp ∨ e.resetN = false ∨ e.clk = false) :
    (s.step (withKey e v)).nextState = (s.step e).nextState := by
  rcases h with h | h | h
  · have hs : s.stateHandler (withKey e v) = s.stateHandler e := by
      simp only [stateHandler, if_neg h]
      rfl
    simp only [step, hs, withKey_clk, withKey_resetN]
  · simp [step, h]
  · simp [step, h]

theorem counter_withKey {v : BitVec 4}
    (h : s.currentState ≠ game1 ∨ ¬ s.gameOne.shown ≤ 15 ∨ e.clk = false) :
    (s.step (withKey e v)).gameOneCounter = (s.step e).gameOneCounter := by
  rcases h with h | h | h
  · simp only [step, if_neg h, withKey_clk]
  · simp only [step, keyMatches_of_blank h, withKey_clk]
  · simp [step, h]

theorem joy_withKey {v : BitVec 4} (h : s.currentState ≠ game2 ∨ e.resetN = false ∨
    JoyCode.posMatch e.adcXValue = false ∨ ¬ s.joyCode.currentState < JoyCode.sPass ∨ e.clk = false) :
    (s.step (withKey e v)).joyCode = (s.step e).joyCode := by
  rcases h with h | h | h | h | h
  · have hen : s.game2En = false := beq_eq_false_iff_ne.2 h
    simp [step, JoyCode.step, hen]
  · simp [step, JoyCode.step, h]
  · simp [step, JoyCode.step, JoyCode.stateHandler, JoyCode.hit, h]
  · have hp : s.joyCode.currentState = JoyCode.sPass := by
      have := s.joyCode.currentState_le
      bv_omega
    simp [step, JoyCode.step, JoyCode.stateHandler, hp]
  · simp [step, JoyCode.step, h]

/-- **A key value that is not read changes nothing.** -/
theorem step_of_not_reads {v : BitVec 4} (h : s.reads e = false) :
    s.step (withKey e v) = s.step e := by
  simp only [reads, Bool.and_eq_false_iff, Bool.or_eq_false_iff, beq_eq_false_iff_ne,
    decide_eq_false_iff_not] at h
  rw [step_withKey_rest, nextState_withKey (by tauto), counter_withKey (by tauto),
    joy_withKey (by tauto)]

/-- In `start_up` key `b` opens the first game and key 0 does not. -/
theorem start_parts (hc : e.clk = true) (hr : e.resetN = true) (h : s.currentState = startUp) :
    (s.step (withKey e 0xb)).currentState ≠ (s.step (withKey e 0)).currentState := by
  rw [step_currentState_clk (e := withKey e 0xb) hr hc, step_currentState_clk (e := withKey e 0) hr hc]
  simp [stateHandler, h, startFlag]

/-- In `game_1` the digit on display moves the counter and any other key does not. -/
theorem game1_parts (hc : e.clk = true) (h : s.currentState = game1) (hs : s.gameOne.shown ≤ 15) :
    (s.step (withKey e (s.gameOne.shown.setWidth 4))).gameOneCounter ≠
      (s.step (withKey e (s.gameOne.shown.setWidth 4 + 1))).gameOneCounter := by
  have hm : s.keyMatches (withKey e (s.gameOne.shown.setWidth 4)) = true := by
    rw [keyMatches, withKey_kpNum]
    generalize s.gameOne.shown = w at hs
    revert w; decide
  have hm' : s.keyMatches (withKey e (s.gameOne.shown.setWidth 4 + 1)) = false := by
    rw [keyMatches, withKey_kpNum]
    generalize s.gameOne.shown = w at hs
    revert w; decide
  rw [step_counter_on h, step_counter_on h, if_pos ⟨hc, hm⟩,
    if_neg fun hx => absurd (hm'.symm.trans hx.2) (by decide)]
  simp

/-- In `game_2` with the joystick over, the digit asked for moves `joy_code` and any other
key does not. -/
theorem game2_parts (hc : e.clk = true) (hr : e.resetN = true) (h : s.currentState = game2)
    (hp : JoyCode.posMatch e.adcXValue = true) (hj : s.joyCode.currentState < JoyCode.sPass) :
    ∃ v v', (s.step (withKey e v)).joyCode.joyState ≠ (s.step (withKey e v')).joyCode.joyState := by
  have hen : s.game2En = true := beq_iff_eq.2 h
  have hj4 : s.joyCode.currentState.toNat < 4 := by bv_omega
  set num := s.code.num s.joyCode.currentState.toNat with hnum
  have hlow : ∀ b : BitVec 3, (b.setWidth 4).extractLsb' 0 3 = b := by decide
  have hhit : JoyCode.hit num (num.setWidth 4) e.adcXValue = true := by
    simp [JoyCode.hit, hlow, hp]
  have hmiss : JoyCode.hit num ((num + 1).setWidth 4) e.adcXValue = false := by
    have hne : ∀ b : BitVec 3, (b + 1 == b) = false := by decide
    simp only [JoyCode.hit, hlow, hne, Bool.false_and]
  refine ⟨num.setWidth 4, (num + 1).setWidth 4, ?_⟩
  have hstep : ∀ v, (s.step (withKey e v)).joyCode.joyState =
      if JoyCode.hit num v e.adcXValue then s.joyCode.currentState + 1 else s.joyCode.currentState := by
    intro v
    have hjoy : (s.step (withKey e v)).joyCode =
        ⟨JoyCode.stateHandler s.code v e.adcXValue s.joyCode.currentState⟩ := by
      simp [step, hc, hr, hen, JoyCode.step_on]
    rw [hjoy, JoyCode.joyState_stateHandler, JoyCode.stateHandler_wait hj4]
  rw [hstep, hstep, hhit, hmiss]
  simp

/-- **A key value that is read decides something**: two values part the progress. -/
theorem reads_parts (h : s.reads e = true) :
    ∃ v v', (s.step (withKey e v)).progress ≠ (s.step (withKey e v')).progress := by
  simp only [reads, Bool.and_eq_true, Bool.or_eq_true, beq_iff_eq, decide_eq_true_eq] at h
  obtain ⟨hc, (⟨hst, hr⟩ | ⟨hst, hs⟩) | ⟨⟨⟨hst, hr⟩, hp⟩, hj⟩⟩ := h
  · exact ⟨_, _, fun h => start_parts hc hr hst (congrArg Prod.fst h)⟩
  · exact ⟨_, _, fun h => game1_parts hc hst hs (congrArg (fun q => q.2.1) h)⟩
  · obtain ⟨v, v', hne⟩ := game2_parts hc hr hst hp hj
    exact ⟨v, v', fun h => hne (congrArg (fun q => q.2.2) h)⟩

end Vault

variable {s₀ : Keyed} {ps : ℕ → Pins} {d d' : ℕ → BitVec 4} {n : ℕ}

/-- The event the lock sees in resolution `d` at instant `n`. -/
def kEv (s₀ : Keyed) (ps : ℕ → Pins) (d : ℕ → BitVec 4) (n : ℕ) : Ev :=
  (kAt s₀ ps d n).ev (ps n) (d n)

/-- A key is really hit in resolution `d` at instant `n`. -/
def kHit (s₀ : Keyed) (ps : ℕ → Pins) (d : ℕ → BitVec 4) (n : ℕ) : Bool :=
  ((kAt s₀ ps d n).decode (ps n) (d n)).kphit

theorem kAt_vault : (kAt s₀ ps d (n + 1)).vault = (kAt s₀ ps d n).vault.step (kEv s₀ ps d n) := rfl

/-- Resolutions that agree before `n` lead to the same state at `n`. -/
theorem kAt_congr (h : ∀ i, i < n → d i = d' i) : kAt s₀ ps d n = kAt s₀ ps d' n :=
  stAt_congr n fun i hi => by rw [h i hi]

/-- **The don't-care value decides nothing**, on the pins `ps`: all resolutions of it give
the same stages, counter values and joystick states. -/
def DontCareDecidesNothing (s₀ : Keyed) (ps : ℕ → Pins) : Prop :=
  ∀ d d' n, (kAt s₀ ps d n).vault.progress = (kAt s₀ ps d' n).vault.progress

/-- **A key is hit whenever its value is read**, in every resolution. -/
def ReadsAreHits (s₀ : Keyed) (ps : ℕ → Pins) : Prop :=
  ∀ d n, (kAt s₀ ps d n).vault.reads (kEv s₀ ps d n) = true → kHit s₀ ps d n = true

/-- Changing the value at one instant without a hit changes the event there and nothing
before it. -/
theorem kAt_update (hmiss : kHit s₀ ps d n = false) (v : BitVec 4) :
    (kAt s₀ ps (Function.update d n v) (n + 1)).vault =
      (kAt s₀ ps d n).vault.step (Vault.withKey (kEv s₀ ps d n) v) := by
  have hbefore : kAt s₀ ps (Function.update d n v) n = kAt s₀ ps d n :=
    kAt_congr fun i hi => Function.update_of_ne (by omega) _ _
  have hev : kEv s₀ ps (Function.update d n v) n = Vault.withKey (kEv s₀ ps d n) v := by
    simp only [kEv, hbefore, Function.update_self, Keyed.ev, Vault.withKey, Keyed.decode]
    rw [kpdecode_miss hmiss v]
  rw [kAt_vault, hev, hbefore]

/-- Two resolutions in the same state take the same step, unless the key value is read
without a hit. -/
theorem kAt_step (h : kAt s₀ ps d n = kAt s₀ ps d' n)
    (hr : (kAt s₀ ps d n).vault.reads (kEv s₀ ps d n) = true → kHit s₀ ps d n = true) :
    kAt s₀ ps d (n + 1) = kAt s₀ ps d' (n + 1) := by
  have hvault : (kAt s₀ ps d (n + 1)).vault = (kAt s₀ ps d' (n + 1)).vault := by
    have hev : kEv s₀ ps d' n = Vault.withKey (kEv s₀ ps d n) (kEv s₀ ps d' n).kpNum := by
      simp only [kEv, ← h, Keyed.ev, Vault.withKey]
    rw [kAt_vault, kAt_vault, ← h, hev]
    cases hhit : kHit s₀ ps d n with
    | true =>
      -- both decode the same key
      have hkey : (kEv s₀ ps d' n).kpNum = (kEv s₀ ps d n).kpNum := by
        simp only [kEv, ← h, Keyed.ev, Keyed.decode]
        exact (kpdecode_hit hhit).symm
      rw [hkey]; rfl
    | false =>
      have hnr : (kAt s₀ ps d n).vault.reads (kEv s₀ ps d n) = false := by
        by_contra hc
        rw [hr (by simpa using hc)] at hhit
        exact absurd hhit (by decide)
      exact (Vault.step_of_not_reads hnr).symm
  have hkpc : (kAt s₀ ps d (n + 1)).kpc = (kAt s₀ ps d' (n + 1)).kpc := by
    simp only [kAt_succ, Keyed.step, h]
  exact Keyed.ext hkpc hvault

/-- From a reset the lock stays in `start_up` where the key value is read only with a hit: each `clk` edge
there reads it, a hit keeps the scan in its first column, and key `b` is in the last one. -/
theorem ReadsAreHits.start_up (h : ReadsAreHits s₀ ps) (hk : s₀.kpc = 0b0111)
    (hs : s₀.vault.currentState = startUp) (d : ℕ → BitVec 4) : ∀ n,
    (kAt s₀ ps d n).kpc = 0b0111 ∧ (kAt s₀ ps d n).vault.currentState = startUp := by
  intro n
  induction n with
  | zero => exact ⟨hk, hs⟩
  | succ n ih =>
    obtain ⟨hcol, hst⟩ := ih
    have hkpc : (kAt s₀ ps d (n + 1)).kpc =
        colseqStep (ps n).clk (ps n).resetN (ps n).kpr (kAt s₀ ps d n).kpc := rfl
    rw [kAt_vault, hkpc, hcol]
    cases hr : (ps n).resetN with
    | false => exact ⟨rfl, Vault.step_currentState_reset hr⟩
    | true =>
      cases hc : (ps n).clk with
      | false => exact ⟨rfl, (Vault.step_currentState_off hr hc).trans hst⟩
      | true =>
        have hread : (kAt s₀ ps d n).vault.reads (kEv s₀ ps d n) = true := by
          simp [Vault.reads, hst, kEv, Keyed.ev, hc, hr]
        have hhit := h d n hread
        unfold kHit Keyed.decode at hhit
        rw [hcol] at hhit
        have hrow : oneRowLow (ps n).kpr = true :=
          (kpdecodeColumn_kphit (d := d n) 1 4 7 14).symm.trans hhit
        have hnum : Vault.startFlag (kEv s₀ ps d n).kpNum = false := by
          change Vault.startFlag (kpdecode (d n) (ps n).kpr (kAt s₀ ps d n).kpc).num = false
          rw [hcol]
          unfold oneRowLow at hrow
          simp only [Bool.or_eq_true, beq_iff_eq] at hrow
          rcases hrow with ((hp | hp) | hp) | hp <;> rw [hp] <;> rfl
        refine ⟨?_, ?_⟩
        · simp [colseqStep, colseqNext, hrow]
        · rw [Vault.step_currentState_clk hr hc, Vault.stateHandler, if_pos hst, hnum]
          exact hst

/-- **When the don't-care value decides nothing.** On given pins and from a given state, all
resolutions of the unknown key value agree on the stage, the counter and the joystick state
for ever if and only if the key value is read only at instants with a hit, which from a reset keeps
the lock in `start_up`. -/
theorem dont_care_iff (s₀ : Keyed) (ps : ℕ → Pins) :
    DontCareDecidesNothing s₀ ps ↔ ReadsAreHits s₀ ps := by
  constructor
  · intro h d n hr
    by_contra hmiss
    have hmiss : kHit s₀ ps d n = false := by simpa using hmiss
    obtain ⟨v, v', hne⟩ := Vault.reads_parts hr
    apply hne
    rw [← kAt_update hmiss v, ← kAt_update hmiss v']
    exact h _ _ _
  · intro h d d' n
    have heq : ∀ n, kAt s₀ ps d n = kAt s₀ ps d' n := by
      intro n
      induction n with
      | zero => rfl
      | succ n ih => exact kAt_step ih (h d n)
    rw [heq]

/-- A keypad nobody touches: `reset_n` low over the first instant, all rows high. -/
def untouched (n : ℕ) : Pins where
  clk := true
  clock50 := true
  resetN := n ≠ 0
  kpr := 0xf
  adcValue := 0
  adcXValue := 0
  knockInput := true

/-- **An unknown key value starts the game**: on an untouched keypad, the lock leaves
`start_up` at the first edge after its reset or stays there, by the value `num` takes. -/
theorem dont_care_decides : ¬ DontCareDecidesNothing ⟨0, powerUp⟩ untouched := by
  intro h
  exact absurd (h (fun _ => 0xb) (fun _ => 0) 2) (by decide +kernel)

end BankVault
