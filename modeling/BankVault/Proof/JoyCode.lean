import BankVault.Clocked.Run
import BankVault.Rtl.Games
import BankVault.Seqs.Greedy

/-!
# The code of the joystick game

`joy_code` waits for the digits of its code one after the other and takes each of them from
the first enabled edge that finds it on the keypad with the joystick over. That is the greedy
way to find the code in the keys read with the joystick over, so its state is the length of
the longest prefix of the code that is a subsequence of them.

* `Attempt.matched`: the state during an attempt is the greedy matcher's.
* `joy_recognises`: the whole behaviour, from any visit of `s_one` on.
-/

namespace BankVault

open Clocked

/-- The inputs of `joy_code` at a clock edge. -/
structure JoyPins where
  enable : Bool
  resetN : Bool
  keyPress : BitVec 4
  adcX : BitVec 12
  deriving DecidableEq, Repr

/-- The digits of a code in the order they are asked for. -/
def Code.word (c : Code) : List (BitVec 3) := [c.num1, c.num2, c.num3, c.num4]

/-- `joy_code` after `n` clock edges. -/
def jAt (code : Code) (j₀ : JoyCode) (ps : ℕ → JoyPins) (n : ℕ) : JoyCode :=
  stAt (fun p j => j.step true p.resetN p.enable code p.keyPress p.adcX) j₀ ps n

/-- The keys, in their low three bits, of those of the `m` edges from edge `p` on that find
the joystick over. -/
def heard (ps : ℕ → JoyPins) (p m : ℕ) : List (BitVec 3) :=
  ((List.range m).filter fun i => JoyCode.posMatch (ps (p + i)).adcX).map
    fun i => (ps (p + i)).keyPress.extractLsb' 0 3

/-- An edge with `enable` and `reset_n` high. -/
def JoyPins.Enabled (p : JoyPins) : Prop := p.resetN = true ∧ p.enable = true

variable {code : Code} {j₀ : JoyCode} {ps : ℕ → JoyPins} {p m : ℕ}

theorem jAt_succ (n : ℕ) : jAt code j₀ ps (n + 1) =
    (jAt code j₀ ps n).step true (ps n).resetN (ps n).enable code (ps n).keyPress (ps n).adcX := rfl

theorem heard_zero : heard ps p 0 = [] := rfl

/-- One more edge of the keys heard. -/
theorem heard_succ : heard ps p (m + 1) = heard ps p m ++
    if JoyCode.posMatch (ps (p + m)).adcX then [(ps (p + m)).keyPress.extractLsb' 0 3] else [] := by
  unfold heard
  rw [List.range_succ, List.filter_append, List.map_append]
  congr 1
  cases h : JoyCode.posMatch (ps (p + m)).adcX <;> simp [h]

theorem word_getElem {k : ℕ} (hk : k < 4) : code.word[k]? = some (code.num k) := by
  obtain rfl | rfl | rfl | rfl : k = 0 ∨ k = 1 ∨ k = 2 ∨ k = 3 := by omega
  all_goals rfl

/-- An edge that is not enabled leads to `s_one`. -/
theorem joyState_disabled {j : JoyCode} {pins : JoyPins} (h : ¬ pins.Enabled) :
    (j.step true pins.resetN pins.enable code pins.keyPress pins.adcX).joyState = JoyCode.sOne := by
  have hoff : (!pins.resetN || !pins.enable) = true := by
    unfold JoyPins.Enabled at h
    cases hr : pins.resetN <;> cases he : pins.enable <;> simp_all
  simp only [JoyCode.step, hoff, if_true]
  rfl

/-- **One enabled edge**, in the state's number: the matcher's step on the key, if the
joystick is over. -/
theorem joyState_advance {j : JoyCode} {pins : JoyPins} (he : pins.Enabled)
    (hj : j.joyState.toNat < 4) :
    (j.step true pins.resetN pins.enable code pins.keyPress pins.adcX).joyState.toNat =
      if JoyCode.posMatch pins.adcX then
        Greedy.advance code.word j.joyState.toNat (pins.keyPress.extractLsb' 0 3)
      else j.joyState.toNat := by
  rw [he.1, he.2, JoyCode.step_on, JoyCode.joyState_stateHandler]
  change (JoyCode.stateHandler code pins.keyPress pins.adcX j.joyState).toNat = _
  rw [JoyCode.stateHandler_wait hj, Greedy.advance, word_getElem hj]
  unfold JoyCode.hit
  cases hp : JoyCode.posMatch pins.adcX with
  | false => simp
  | true =>
    by_cases hk : pins.keyPress.extractLsb' 0 3 = code.num j.joyState.toNat
    · rw [hk]
      simp only [BEq.rfl, Bool.and_true, if_true]
      bv_omega
    · have hk' : ¬ some (code.num j.joyState.toNat) = some (pins.keyPress.extractLsb' 0 3) :=
        fun h => hk (Option.some.inj h).symm
      simp [hk, hk']

/-- **An attempt** of `m` edges: from a visit of `s_one` on every edge is enabled, and before
the last of them the code is not complete. -/
structure Attempt (code : Code) (j₀ : JoyCode) (ps : ℕ → JoyPins) (p m : ℕ) : Prop where
  start : (jAt code j₀ ps p).joyState = JoyCode.sOne
  enabled : ∀ i, i < m → (ps (p + i)).Enabled
  incomplete : ∀ l, l < m → ¬ List.Sublist code.word (heard ps p l)

/-- **The state during an attempt** is what the greedy matcher has found. -/
theorem Attempt.matched : ∀ m, Attempt code j₀ ps p m →
    (jAt code j₀ ps (p + m)).joyState.toNat = Greedy.matched code.word (heard ps p m) := by
  intro m
  induction m with
  | zero => intro h; rw [heard_zero, Nat.add_zero, h.start]; rfl
  | succ m ih =>
    intro h
    have hm := ih ⟨h.start, fun i hi => h.enabled i (by omega), fun l hl => h.incomplete l (by omega)⟩
    -- the code is not complete yet, so the state waits for a digit
    have hlt : (jAt code j₀ ps (p + m)).joyState.toNat < 4 := by
      have hne := mt Greedy.sublist_iff_matched.2 (h.incomplete m (Nat.lt_succ_self m))
      have hle := Greedy.matched_le (w := code.word) (h := heard ps p m)
      change _ ≤ 4 at hle
      change _ ≠ 4 at hne
      omega
    rw [← Nat.add_assoc, jAt_succ, joyState_advance (h.enabled m (by omega)) hlt, heard_succ, hm]
    cases JoyCode.posMatch (ps (p + m)).adcX with
    | false => simp
    | true => simp only [if_true, Greedy.matched_concat]

/-- The pass flag is the state `s_pass`. -/
theorem passFlag_iff (j : JoyCode) : j.passFlag = true ↔ j.joyState.toNat = 4 := by
  unfold JoyCode.passFlag JoyCode.joyState
  rw [beq_iff_eq]
  constructor
  · intro h; rw [h]; rfl
  · intro h; exact BitVec.eq_of_toNat_eq h

/-- The edge after a pass leads to `s_one`, whatever it finds. -/
theorem joyState_after_pass {j : JoyCode} {pins : JoyPins} (h : j.passFlag = true) :
    (j.step true pins.resetN pins.enable code pins.keyPress pins.adcX).joyState = JoyCode.sOne := by
  by_cases he : pins.Enabled
  · have hs : j.currentState = JoyCode.sPass := beq_iff_eq.1 h
    rw [he.1, he.2, JoyCode.step_on, JoyCode.joyState_stateHandler, hs]
    rfl
  · exact joyState_disabled he

/-- **`joy_code` recognises its code as a subsequence.** For every code and all inputs: from
any visit of `s_one` on and up to the first pass, the state after each enabled edge is the
length of the longest prefix of the code that is a subsequence of the keys heard since, and
the pass flag is up exactly if the whole code is one. The edge after a pass returns to
`s_one`, and so does every edge with `enable` or `reset_n` low. -/
theorem joy_recognises (code : Code) (j₀ : JoyCode) (ps : ℕ → JoyPins) :
    (∀ p m, Attempt code j₀ ps p m →
      IsGreatest (Greedy.prefixLengths code.word (heard ps p m))
        (jAt code j₀ ps (p + m)).joyState.toNat ∧
      ((jAt code j₀ ps (p + m)).passFlag = true ↔ List.Sublist code.word (heard ps p m))) ∧
    (∀ n, (jAt code j₀ ps n).passFlag = true →
      (jAt code j₀ ps (n + 1)).joyState = JoyCode.sOne ∧
        (jAt code j₀ ps (n + 1)).passFlag = false) ∧
    ∀ n, ¬ (ps n).Enabled → (jAt code j₀ ps (n + 1)).joyState = JoyCode.sOne := by
  refine ⟨fun p m h => ?_, fun n h => ?_, fun n h => joyState_disabled h⟩
  · have hm := h.matched
    refine ⟨by rw [hm]; exact Greedy.longest_matched, ?_⟩
    rw [passFlag_iff, hm, Greedy.sublist_iff_matched]
    rfl
  · have hone : (jAt code j₀ ps (n + 1)).joyState = JoyCode.sOne := joyState_after_pass h
    refine ⟨hone, ?_⟩
    by_contra hp
    rw [Bool.not_eq_false, passFlag_iff, hone] at hp
    exact absurd hp (by decide)

end BankVault
