import BankVault.Proof.Scan
import BankVault.Rtl.Nets

/-!
# The reset of the display and the processor

`rgb_res` is active low and has two sources, the pin `reset_n` and the power key. Its
assignment combines them with `||`, which is low only if both are: but a low `reset_n` holds
the scan on column 3, away from the power key in column 0, so `rgb_res` is never low.

* `power_decoded`: the power key, held alone over four edges, is decoded.
* `res_high`: `rgb_res` is high at every moment of every run.
* `both_resets_iff`: so both sources reset the board only in runs that use neither.
-/

namespace BankVault

open Clocked

/-- The power key, with the legend D. -/
def powerKey : Key := keyAt 0 0

/-- The outputs of `kpdecode` just after instant `n`, with its keys still down; `d` is the value
of a don't-care `num`. -/
def decodeAfter (d : ℕ → BitVec 4) (kpc₀ : BitVec 4) (es : ℕ → KeyEv) (n : ℕ) : KpDecode :=
  kpdecode (d n) (keyMatrix (es n).pressed (colAt kpc₀ es (n + 1))) (colAt kpc₀ es (n + 1))

/-- `rgb_res` just after instant `n`. -/
def resAt (d : ℕ → BitVec 4) (kpc₀ : BitVec 4) (es : ℕ → KeyEv) (n : ℕ) : Bool :=
  rgbRes (es n).resetN (decodeAfter d kpc₀ es n).num (decodeAfter d kpc₀ es n).kphit

/-- **The power key is held over four edges**: it is the only key down from the first of them to
the last, with `reset_n` high. -/
structure PowerHeld (es : ℕ → KeyEv) (e₁ e₂ e₃ e₄ : ℕ) : Prop where
  lt₁₂ : e₁ < e₂
  lt₂₃ : e₂ < e₃
  lt₃₄ : e₃ < e₄
  clk : ∀ j, j = e₁ ∨ j = e₂ ∨ j = e₃ ∨ j = e₄ → (es j).clk = true
  held : ∀ j, e₁ ≤ j → j ≤ e₄ → (es j).resetN = true ∧ OnlyKey (es j).pressed powerKey

/-- **Both sources reset the board**: `rgb_res` is low while `reset_n` is, and from the fourth
edge on for as long as the power key is held; and it is high while `reset_n` is high and the
power key is up. -/
structure BothResets (d : ℕ → BitVec 4) (kpc₀ : BitVec 4) (es : ℕ → KeyEv) : Prop where
  pin : ∀ n, (es n).resetN = false → resAt d kpc₀ es n = false
  key : ∀ e₁ e₂ e₃ e₄ m, PowerHeld es e₁ e₂ e₃ e₄ → e₄ ≤ m →
    (∀ j, e₄ ≤ j → j ≤ m → OnlyKey (es j).pressed powerKey) → resAt d kpc₀ es m = false
  idle : ∀ n, (es n).resetN = true → (es n).pressed powerKey = false → resAt d kpc₀ es n = true

variable {d : ℕ → BitVec 4} {kpc₀ : BitVec 4} {es : ℕ → KeyEv} {n : ℕ}

/-- An edge or a reset leaves one column low, whatever stood in the register. -/
theorem oneColumn_set (h : (es n).clk = true ∨ (es n).resetN = false) : OneColumn (colAt kpc₀ es (n + 1)) := by
  change OneColumn (colseqStep (es n).clk (es n).resetN _ (colAt kpc₀ es n))
  unfold colseqStep
  cases hr : (es n).resetN with
  | false => exact ⟨3, rfl⟩
  | true =>
    rw [h.resolve_right (by simp [hr]), if_neg (by decide), if_pos rfl]
    exact oneColumn_colseqNext ..

/-- No instant loses it. -/
theorem oneColumn_kept (h : OneColumn (colAt kpc₀ es n)) : OneColumn (colAt kpc₀ es (n + 1)) := by
  cases hr : (es n).resetN with
  | false => exact oneColumn_set (Or.inr hr)
  | true =>
    obtain ⟨c, hc⟩ := h
    rw [colAt_succ hr hc]
    split_ifs
    · exact ⟨c - 1, rfl⟩
    · exact ⟨c, rfl⟩

/-- **The power key is decoded** from the fourth edge on for as long as it is held, wherever the
scan stood. -/
theorem power_decoded {e₁ e₂ e₃ e₄ m : ℕ} (h : PowerHeld es e₁ e₂ e₃ e₄) (hm : e₄ ≤ m)
    (hlast : ∀ j, e₄ ≤ j → j ≤ m → (es j).resetN = true ∧ OnlyKey (es j).pressed powerKey) :
    decodeAfter d kpc₀ es m = ⟨true, kpPower⟩ := by
  have h12 := h.lt₁₂
  have h23 := h.lt₂₃
  have h34 := h.lt₃₄
  have hheld : ∀ j, e₁ ≤ j → j ≤ m → (es j).resetN = true ∧ OnlyKey (es j).pressed powerKey := by
    intro j h1 h2
    rcases Nat.le_total j e₄ with h4 | h4
    · exact h.held j h1 h4
    · exact hlast j h4 h2
  -- the first edge brings the register to a column, the other three bring the scan to the key
  have hcol : OneColumn (colAt kpc₀ es e₂) :=
    stretch (P := fun j => OneColumn (colAt kpc₀ es j)) (oneColumn_set (Or.inl (h.clk e₁ (by tauto))))
      (fun _ _ _ hj => oneColumn_kept hj) e₂ h12 le_rfl
  have hfound : colAt kpc₀ es (m + 1) = scan powerKey.col :=
    scan_found hcol h23 h34 (by omega) (fun j hj => h.clk j (by tauto))
      (fun j h1 h2 => (hheld j (by omega) (by omega)).1) (fun j h1 h2 => (hheld j (by omega) (by omega)).2)
  unfold decodeAfter
  rw [hfound, rows_of_onlyInColumn (hlast m hm le_rfl).2.onlyInColumn, kpdecode_scan]
  rfl

/-- In reset the scan stands on column 3, and no key of it is the power key. -/
theorem not_power_in_reset (hr : (es n).resetN = false) :
    ((decodeAfter d kpc₀ es n).num == kpPower && (decodeAfter d kpc₀ es n).kphit) = false := by
  have hcol : colAt kpc₀ es (n + 1) = 0b0111 := by
    change colseqStep (es n).clk (es n).resetN _ _ = _
    rw [hr]; rfl
  unfold decodeAfter
  rw [hcol]
  generalize keyMatrix (es n).pressed 0b0111 = kpr
  generalize d n = x
  revert kpr x; decide

/-- **`rgb_res` is always high.** -/
theorem res_high (n : ℕ) : resAt d kpc₀ es n = true := by
  unfold resAt rgbRes
  cases hr : (es n).resetN with
  | true => rfl
  | false => rw [not_power_in_reset hr]; rfl

/-- **When both sources reset the board.** In every run, for every schedule of keys and resets
and wherever the scan starts: if and only if `reset_n` is never low and the power key is never
held over four edges, so that neither source asks for a reset. -/
theorem both_resets_iff (d : ℕ → BitVec 4) (kpc₀ : BitVec 4) (es : ℕ → KeyEv) :
    BothResets d kpc₀ es ↔
      (∀ n, (es n).resetN = true) ∧ ∀ e₁ e₂ e₃ e₄, ¬ PowerHeld es e₁ e₂ e₃ e₄ := by
  constructor
  · intro h
    refine ⟨fun n => ?_, fun e₁ e₂ e₃ e₄ hheld => ?_⟩
    · by_contra hr
      have hlow := h.pin n (by simpa using hr)
      rw [res_high] at hlow
      exact absurd hlow (by decide)
    · have hlow := h.key e₁ e₂ e₃ e₄ e₄ hheld le_rfl fun j h1 h2 =>
        (hheld.held j (by have := hheld.lt₁₂; have := hheld.lt₂₃; have := hheld.lt₃₄; omega) h2).2
      rw [res_high] at hlow
      exact absurd hlow (by decide)
  · rintro ⟨hgo, hno⟩
    refine ⟨fun n hr => ?_, fun e₁ e₂ e₃ e₄ _ hheld _ _ => ?_, fun n _ _ => res_high n⟩
    · rw [hgo n] at hr; exact absurd hr (by decide)
    · exact absurd hheld (hno e₁ e₂ e₃ e₄)

/-- `reset_n` low at the first instant. -/
def pinReset (n : ℕ) : KeyEv where
  clk := true
  resetN := n ≠ 0
  pressed := fun _ => false

/-- The power key down at every edge. -/
def powerDown (_ : ℕ) : KeyEv where
  clk := true
  resetN := true
  pressed := fun key => key = powerKey

theorem powerDown_held : PowerHeld powerDown 0 1 2 3 :=
  ⟨by decide, by decide, by decide, fun _ _ => rfl, fun _ _ _ => ⟨rfl, fun _ => decide_eq_true_iff⟩⟩

/-- **Neither source resets the board**: `rgb_res` is high in reset, and with the power key held
over four edges and decoded. -/
theorem resets_lost :
    (resAt (fun _ => 0) 0 pinReset 0 = true ∧ ¬ BothResets (fun _ => 0) 0 pinReset) ∧
    (decodeAfter (fun _ => 0) 0 powerDown 3 = ⟨true, kpPower⟩ ∧
      resAt (fun _ => 0) 0 powerDown 3 = true ∧ ¬ BothResets (fun _ => 0) 0 powerDown) := by
  have hpin : resAt (fun _ => 0) 0 pinReset 0 = true := by decide
  have hkey : resAt (fun _ => 0) 0 powerDown 3 = true := by decide
  refine ⟨⟨hpin, fun h => ?_⟩, by decide, hkey, fun h => ?_⟩
  · exact absurd (hpin.symm.trans (h.pin 0 rfl)) (by decide)
  · have hlow := h.key 0 1 2 3 3 powerDown_held le_rfl fun _ _ _ _ => decide_eq_true_iff
    exact absurd (hkey.symm.trans hlow) (by decide)

end BankVault
