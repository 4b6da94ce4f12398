import BankVault.Proof.DontCare
import BankVault.Rtl.Matrix

/-!
# The keys that open the joystick game

The code digits stand in four-bit registers whose top bit is 0, and the display shows them
whole; `joy_code` compares the low three bits of the key value with them and does not ask
for `kphit`. So key 8 passes for digit 0, key 9 for 1, and so on, and so does an unknown key
value.

* `advances_iff`: when `joy_state` moves on.
* `displayed_iff`: only the displayed digits move it, if and only if no other key value with
  the low three bits of the digit asked for is found where it counts.
-/

namespace BankVault

open Clocked

variable {s₀ : Keyed} {ps : ℕ → Pins} {d : ℕ → BitVec 4} {k n : ℕ}

/-- The lock in front of its keypad is the lock on the events the keypad makes. -/
theorem kAt_eq_vAt (n : ℕ) : (kAt s₀ ps d n).vault = vAt s₀.vault (kEv s₀ ps d) n := by
  induction n with
  | zero => rfl
  | succ n ih => rw [kAt_vault, vAt_succ, ih]

namespace Vault

/-- `joy_state` as a number: how many digits have been taken. -/
def taken (s : Vault) : ℕ := s.joyCode.joyState.toNat

/-- The digit asked for, as it is displayed. -/
def asked (s : Vault) : BitVec 4 := s.rNum s.taken

/-- **A digit is taken at this instant**, if the key value fits: a `clk` edge in `game_2` with
`reset_n` high, the joystick over and the code incomplete. -/
def takes (s : Vault) (e : Ev) : Bool :=
  e.clk && e.resetN && s.currentState == game2 && JoyCode.posMatch e.adcXValue && s.taken < 4

variable {s : Vault} {e : Ev}

/-- The state after an event, where a digit is taken. -/
theorem taken_step (h : s.takes e = true) : (s.step e).taken =
    if e.kpNum.setWidth 3 = s.asked.setWidth 3 then s.taken + 1 else s.taken := by
  simp only [takes, Bool.and_eq_true, beq_iff_eq, decide_eq_true_eq] at h
  obtain ⟨⟨⟨⟨hc, hr⟩, hst⟩, hp⟩, hlt⟩ := h
  have hjoy : (s.step e).joyCode.joyState =
      JoyCode.stateHandler s.code e.kpNum e.adcXValue s.joyCode.joyState := by
    rw [step_joy_on hr hst, hc, JoyCode.step_on, JoyCode.joyState_stateHandler]; rfl
  have hlow : ∀ w : BitVec 4, w.extractLsb' 0 3 = w.setWidth 3 := by decide
  unfold taken at hlt ⊢
  rw [hjoy, JoyCode.stateHandler_wait hlt, JoyCode.hit, hp, Bool.and_true, hlow, code_num]
  change (if ((e.kpNum.setWidth 3 == s.asked.setWidth 3) = true) then _ else _ : BitVec 3).toNat = _
  by_cases hm : e.kpNum.setWidth 3 = s.asked.setWidth 3
  · rw [if_pos (beq_iff_eq.2 hm), if_pos hm]
    bv_omega
  · rw [if_neg (mt beq_iff_eq.1 hm), if_neg hm]

/-- Where no digit is taken, none is: `joy_state` stays or goes back to `s_one`. -/
theorem taken_rest (h : s.takes e = false) (hlt : s.taken < 4) : (s.step e).taken ≤ s.taken := by
  have hjoy : (s.step e).joyCode =
      s.joyCode.step e.clk e.resetN s.game2En s.code e.kpNum e.adcXValue := rfl
  unfold taken at hlt ⊢
  rw [hjoy]
  cases hc : e.clk with
  | false => exact le_rfl
  | true =>
    cases hr : e.resetN with
    | false => exact Nat.zero_le _
    | true =>
      cases hg : s.game2En with
      | false => rw [JoyCode.step_disabled]; exact Nat.zero_le _
      | true =>
        have hp : JoyCode.posMatch e.adcXValue = false := by
          have hst : s.currentState = game2 := beq_iff_eq.1 hg
          simpa [takes, hc, hr, hst, taken, hlt] using h
        rw [JoyCode.step_on, JoyCode.joyState_stateHandler]
        change (JoyCode.stateHandler s.code e.kpNum e.adcXValue s.joyCode.joyState).toNat ≤ _
        rw [JoyCode.stateHandler_wait hlt, JoyCode.hit, hp, Bool.and_false]
        exact le_rfl

/-- `joy_state` moves from one of the four waiting states to the next. -/
def Advances (s : Vault) (e : Ev) : Prop := s.taken < 4 ∧ (s.step e).taken = s.taken + 1

/-- **When `joy_state` moves on.** -/
theorem advances_iff : s.Advances e ↔
    s.takes e = true ∧ e.kpNum.setWidth 3 = s.asked.setWidth 3 := by
  constructor
  · rintro ⟨hlt, hnext⟩
    cases ht : s.takes e with
    | false => have := taken_rest ht hlt; omega
    | true =>
      refine ⟨rfl, ?_⟩
      rw [taken_step ht] at hnext
      by_contra hm
      rw [if_neg hm] at hnext
      omega
  · rintro ⟨ht, hm⟩
    have hlt : s.taken < 4 := by
      simp only [takes, Bool.and_eq_true, decide_eq_true_eq] at ht
      exact ht.2
    exact ⟨hlt, by rw [taken_step ht, if_pos hm]⟩

theorem takes_clk (h : s.takes e = true) : e.clk = true ∧ s.currentState = game2 := by
  simp only [takes, Bool.and_eq_true, beq_iff_eq] at h
  exact ⟨h.1.1.1.1, h.1.1.2⟩

end Vault

/-- The lock is at instant `n` where it takes a digit. -/
def kTakes (s₀ : Keyed) (ps : ℕ → Pins) (d : ℕ → BitVec 4) (n : ℕ) : Bool :=
  (kAt s₀ ps d n).vault.takes (kEv s₀ ps d n)

/-- **Only the displayed digits open the joystick game**: whenever `joy_state` moves on, it is
a `clk` edge, a key is hit, and the whole key value is the digit displayed. -/
def OnlyDisplayed (s₀ : Keyed) (ps : ℕ → Pins) (d : ℕ → BitVec 4) (k : ℕ) : Prop :=
  ∀ n, k ≤ n → (kAt s₀ ps d n).vault.Advances (kEv s₀ ps d n) →
    (ps n).clk = true ∧ kHit s₀ ps d n = true ∧
      (kEv s₀ ps d n).kpNum = (kAt s₀ ps d n).vault.asked

/-- **No other value passes for the digit**: where a digit is taken, a key value with the low
three bits of the digit asked for is a key that is hit, and one of the keys 0 to 7. -/
def DigitKeysOnly (s₀ : Keyed) (ps : ℕ → Pins) (d : ℕ → BitVec 4) (k : ℕ) : Prop :=
  ∀ n, k ≤ n → kTakes s₀ ps d n = true →
    (kEv s₀ ps d n).kpNum.setWidth 3 = (kAt s₀ ps d n).vault.asked.setWidth 3 →
      kHit s₀ ps d n = true ∧ (kEv s₀ ps d n).kpNum < 8

/-- In `game_2` the digits displayed are below 8. -/
theorem asked_lt (h : StartsInReset (kEv s₀ ps d) k) (hn : k ≤ n)
    (hst : (kAt s₀ ps d n).vault.currentState = game2) :
    ((kAt s₀ ps d n).vault.asked.setWidth 3).setWidth 4 = (kAt s₀ ps d n).vault.asked := by
  unfold Vault.asked
  rw [kAt_eq_vAt] at hst ⊢
  obtain ⟨e, -, hstay⟩ := stay_of h hn (by decide) hst
  exact game2_digit hstay _ hstay.lt le_rfl

/-- **When only the displayed digits open the game.** In every run from reset, for all pins and
every value of a don't-care key: `joy_state` moves on at hits of the displayed digits only, if
and only if no other key value passes for one. -/
theorem displayed_iff (s₀ : Keyed) (ps : ℕ → Pins) (d : ℕ → BitVec 4) (k : ℕ)
    (h : StartsInReset (kEv s₀ ps d) k) :
    OnlyDisplayed s₀ ps d k ↔ DigitKeysOnly s₀ ps d k := by
  constructor
  · intro hD n hn ht hm
    obtain ⟨-, hhit, hkey⟩ := hD n hn (Vault.advances_iff.2 ⟨ht, hm⟩)
    refine ⟨hhit, ?_⟩
    rw [hkey, ← asked_lt h hn (Vault.takes_clk ht).2]
    generalize (kAt s₀ ps d n).vault.asked.setWidth 3 = b
    revert b; decide
  · intro hK n hn hadv
    obtain ⟨ht, hm⟩ := Vault.advances_iff.1 hadv
    obtain ⟨hhit, hlt⟩ := hK n hn ht hm
    refine ⟨(Vault.takes_clk ht).1, hhit, ?_⟩
    -- below 8 the low three bits are the whole value
    have hwhole : ∀ w : BitVec 4, w < 8 → (w.setWidth 3).setWidth 4 = w := by decide
    rw [← hwhole _ hlt, hm, asked_lt h hn (Vault.takes_clk ht).2]

/-- The keys of a game: `b`, the digits 0 to 6, and then key 8, each for one instant. -/
def eightKeys (n : ℕ) : Option Key :=
  match n with
  | 4 => some (keyAt 2 0)
  | 7 => some (keyAt 0 2)
  | 11 => some (keyAt 3 3)
  | 17 => some (keyAt 3 2)
  | 23 => some (keyAt 3 1)
  | 26 => some (keyAt 2 3)
  | 32 => some (keyAt 2 2)
  | 38 => some (keyAt 2 1)
  | 42 => some (keyAt 1 2)
  | _ => none

/-- The row lines of that game, with the joystick over and the code 0000. -/
def eightPins (n : ℕ) : Pins where
  clk := true
  clock50 := true
  resetN := n ≠ 0
  kpr := (eightKeys n).elim 0xf fun key => lowLines fun r => r == key.row
  adcValue := 0
  adcXValue := 0xfff
  knockInput := true

theorem eightPins_starts : StartsInReset (kEv ⟨0, powerUp⟩ eightPins fun _ => 0xf) 1 :=
  ⟨by decide, ⟨0, by decide⟩, ⟨0, by decide⟩⟩

theorem displayed_iff_eightPins : OnlyDisplayed ⟨0, powerUp⟩ eightPins (fun _ => 0xf) 1 ↔
    DigitKeysOnly ⟨0, powerUp⟩ eightPins (fun _ => 0xf) 1 :=
  displayed_iff ⟨0, powerUp⟩ eightPins (fun _ => 0xf) 1 eightPins_starts

/-- **Key 8 passes for digit 0**: the rows of `eightPins` are those of the key matrix, and at
instant 42 key 8 moves `joy_state` from `s_one` to `s_two`. -/
theorem eight_for_zero :
    (∀ n, n < 43 → (eightPins n).kpr = keyMatrix (fun key => eightKeys n == some key)
      (kAt ⟨0, powerUp⟩ eightPins (fun _ => 0xf) n).kpc) ∧
    (kEv ⟨0, powerUp⟩ eightPins (fun _ => 0xf) 42).kpNum = 8 ∧
    (kAt ⟨0, powerUp⟩ eightPins (fun _ => 0xf) 42).vault.asked = 0 ∧
    ¬ OnlyDisplayed ⟨0, powerUp⟩ eightPins (fun _ => 0xf) 1 := by
  have hkey : (kEv ⟨0, powerUp⟩ eightPins (fun _ => 0xf) 42).kpNum = 8 := by decide +kernel
  have hasked : (kAt ⟨0, powerUp⟩ eightPins (fun _ => 0xf) 42).vault.asked = 0 := by decide +kernel
  refine ⟨by decide +kernel, hkey, hasked, fun h => ?_⟩
  have hadv : (kAt ⟨0, powerUp⟩ eightPins (fun _ => 0xf) 42).vault.Advances
      (kEv ⟨0, powerUp⟩ eightPins (fun _ => 0xf) 42) :=
    ⟨by decide +kernel, by decide +kernel⟩
  have hsame := (h 42 (by decide) hadv).2.2
  rw [hkey, hasked] at hsame
  exact absurd hsame (by decide)

end BankVault
