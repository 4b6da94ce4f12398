import BankVault.Rtl.Vault

/-!
# Stays in a stage

The lock is reset to `start_up` by any low `reset_n`, and from there each stage is
entered only from the one before, at a clock edge, through that stage's gate. So a
stage other than `start_up` reached after a reset has an **entry edge**, and since it
the stage and a high `reset_n` have been held (`stay_of`). Applied at the entry edge
itself this walks back through the whole history of a stage.
-/

namespace BankVault

open Clocked

variable {s₀ : Vault} {es : ℕ → Ev} {k n : ℕ}

/-- **The stay in stage `t` up to `n`**, with its entry edge `e`. -/
structure Stay (s₀ : Vault) (es : ℕ → Ev) (t : BitVec 3) (e n : ℕ) : Prop where
  lt : e < n
  clk : (es e).clk = true
  before : (vAt s₀ es e).currentState + 1 = t
  gate : (vAt s₀ es e).gate (es e) = true
  stage : ∀ j, e < j → j ≤ n → (vAt s₀ es j).currentState = t
  resetN : ∀ j, e ≤ j → j < n → (es j).resetN = true

theorem StartsInReset.pos (h : StartsInReset es k) : 0 < k := by
  obtain ⟨i, hi, -⟩ := h.clk; omega

theorem currentState_of_low (h : (es n).resetN = false) :
    (vAt s₀ es (n + 1)).currentState = startUp := Vault.step_currentState_reset h

/-- At the end of its reset the lock is in `start_up`. -/
theorem StartsInReset.stage (h : StartsInReset es k) (s₀ : Vault) : (vAt s₀ es k).currentState = startUp := by
  obtain ⟨m, rfl⟩ : ∃ m, k = m + 1 := ⟨k - 1, by have := h.pos; omega⟩
  exact currentState_of_low (h.low m (by omega))

/-- The stage is one of the six from the reset on. -/
theorem StartsInReset.stage_le (h : StartsInReset es k) (s₀ : Vault) (hn : k ≤ n) :
    (vAt s₀ es n).currentState ≤ victory := by
  have hk : (vAt s₀ es k).currentState ≤ victory := by rw [h.stage s₀]; decide
  exact inv_from (I := fun s : Vault => s.currentState ≤ victory) (fun _ _ => Vault.step_stage_le)
    hk n hn

/-- **Every stage but `start_up` has an entry edge.** -/
theorem stay_of (h : StartsInReset es k) (hn : k ≤ n) {t : BitVec 3} (ht : t ≠ startUp)
    (hst : (vAt s₀ es n).currentState = t) : ∃ e, k ≤ e ∧ Stay s₀ es t e n := by
  have hk : ¬ (vAt s₀ es k).currentState = t := by rw [h.stage s₀]; exact fun h0 => ht h0.symm
  obtain ⟨e, hke, hen, hne, hin⟩ :=
    last_entry (P := fun j => (vAt s₀ es j).currentState = t) hn hk hst
  -- every event from `e` on leads to `t`, so none of them is a reset
  have hlead : ∀ j, e ≤ j → j < n → (Vault.step (es j) (vAt s₀ es j)).currentState = t :=
    fun j h1 h2 => hin (j + 1) (by omega) (by omega)
  have hres : ∀ j, e ≤ j → j < n → (es j).resetN = true := fun j h1 h2 =>
    (Vault.stage_inv (h.stage_le s₀ (show k ≤ j by omega)) (by rw [hlead j h1 h2]; exact ht)).1
  have he := hlead e le_rfl hen
  obtain ⟨-, hsame | ⟨hclk, hgate, hnext⟩⟩ :=
    Vault.stage_inv (h.stage_le s₀ hke) (by rw [he]; exact ht)
  · exact absurd (hsame.symm.trans he) hne
  · exact ⟨e, hke, hen, hclk, hnext.symm.trans he, hgate, hin, hres⟩

namespace Stay

variable {t : BitVec 3} {e : ℕ}

/-- A stay is a stay up to any earlier point. -/
theorem mono (h : Stay s₀ es t e n) {m : ℕ} (h1 : e < m) (h2 : m ≤ n) : Stay s₀ es t e m :=
  ⟨h1, h.clk, h.before, h.gate, fun j a b => h.stage j a (by omega),
    fun j a b => h.resetN j a (by omega)⟩

/-- **The stage before**, at the entry edge. -/
theorem prev (h : Stay s₀ es t e n) {t' : BitVec 3} (ht : t = t' + 1) :
    (vAt s₀ es e).currentState = t' := by
  have := h.before
  bv_omega

/-- The stage a stay was entered from has its own stay up to the entry edge. -/
theorem back (h : Stay s₀ es t e n) (hs : StartsInReset es k) (hk : k ≤ e) (t' : BitVec 3)
    (ht : t = t' + 1) (ht' : t' ≠ startUp) : ∃ e', k ≤ e' ∧ Stay s₀ es t' e' e :=
  stay_of hs hk ht' (h.prev ht)

/-- A stay continues over an event that keeps the stage. -/
theorem succ (h : Stay s₀ es t e n) (hr : (es n).resetN = true)
    (hst : (vAt s₀ es (n + 1)).currentState = t) : Stay s₀ es t e (n + 1) := by
  refine ⟨by have := h.lt; omega, h.clk, h.before, h.gate, fun j h1 h2 => ?_, fun j h1 h2 => ?_⟩
  · rcases Nat.eq_or_lt_of_le h2 with h2 | h2
    · rw [h2]; exact hst
    · exact h.stage j h1 (by omega)
  · rcases Nat.eq_or_lt_of_le (show j ≤ n by omega) with h2 | h2
    · rw [h2]; exact hr
    · exact h.resetN j h1 h2

end Stay

end BankVault
