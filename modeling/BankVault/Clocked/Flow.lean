import BankVault.Clocked.Run
import Mathlib.Algebra.BigOperators.Intervals

/-!
# What flows through a clocked machine

A machine takes items in and gives items out; at each event it may do both, and what it has
taken in and not yet given out it holds. `log` collects what the events of a run yield. If
every event conserves the items, the whole run does.

* `log_conserved`: what was held (`H`) and what came in (`F`) is what went out (`G`) and what is
  held, in order.
* `tally_conserved`: the same for items that are only counted.
-/

namespace Clocked

variable {σ ε α β : Type*} {step : ε → σ → σ} {s₀ : σ} {es : ℕ → ε} {f : ε → σ → List α} {n : ℕ}

/-- What the events before `n` yield, in order. -/
def log (step : ε → σ → σ) (s₀ : σ) (es : ℕ → ε) (f : ε → σ → List α) (n : ℕ) : List α :=
  (List.range n).flatMap fun i => f (es i) (stAt step s₀ es i)

theorem log_snoc (n : ℕ) :
    log step s₀ es f (n + 1) = log step s₀ es f n ++ f (es n) (stAt step s₀ es n) := by
  unfold log
  rw [List.range_succ, List.flatMap_append, List.flatMap_singleton]

/-- What later events yield comes after it. -/
theorem log_from {m : ℕ} (h : m ≤ n) : ∃ xs, log step s₀ es f n = log step s₀ es f m ++ xs ∧
    ∀ x ∈ xs, ∃ i, m ≤ i ∧ i < n ∧ x ∈ f (es i) (stAt step s₀ es i) := by
  induction n, h using Nat.le_induction with
  | base => exact ⟨[], (List.append_nil _).symm, fun x hx => absurd hx (List.not_mem_nil)⟩
  | succ n hn ih =>
    obtain ⟨xs, hxs, hmem⟩ := ih
    refine ⟨xs ++ f (es n) (stAt step s₀ es n), by rw [log_snoc, hxs, List.append_assoc], fun x hx => ?_⟩
    rcases List.mem_append.1 hx with hx | hx
    · obtain ⟨i, h₁, h₂, h₃⟩ := hmem x hx
      exact ⟨i, h₁, h₂.trans (Nat.lt_succ_self n), h₃⟩
    · exact ⟨n, hn, Nat.lt_succ_self n, hx⟩

/-- Each item of a log turned into several. -/
theorem log_flatMap (g : α → List β) (n : ℕ) :
    (log step s₀ es f n).flatMap g = log step s₀ es (fun e s => (f e s).flatMap g) n := by
  unfold log
  rw [List.flatMap_assoc]

/-- **The conservation rule.** -/
theorem log_conserved {I : σ → Prop} {H : σ → List α} {F G : ε → σ → List α}
    (hI : ∀ e s, I s → I (step e s)) (h : ∀ e s, I s → H s ++ F e s = G e s ++ H (step e s)) (h0 : I s₀)
    (es : ℕ → ε) :
    ∀ n, H s₀ ++ log step s₀ es F n = log step s₀ es G n ++ H (stAt step s₀ es n) := by
  intro n
  induction n with
  | zero => exact List.append_nil _
  | succ n ih =>
    have hn : I (stAt step s₀ es n) := inv_from hI (k := 0) h0 n (Nat.zero_le n)
    rw [log_snoc, log_snoc, ← List.append_assoc, ih, List.append_assoc, h _ _ hn, List.append_assoc]
    rfl

/-! ### Counts -/

/-- What the events before `n` add up to. -/
def tally (step : ε → σ → σ) (s₀ : σ) (es : ℕ → ε) (f : ε → σ → ℕ) (n : ℕ) : ℕ :=
  ∑ i ∈ Finset.range n, f (es i) (stAt step s₀ es i)

variable {f g : ε → σ → ℕ} {m : ℕ}

theorem tally_succ (n : ℕ) :
    tally step s₀ es f (n + 1) = tally step s₀ es f n + f (es n) (stAt step s₀ es n) :=
  Finset.sum_range_succ _ n

theorem tally_mono (h : m ≤ n) : tally step s₀ es f m ≤ tally step s₀ es f n := by
  induction n, h using Nat.le_induction with
  | base => exact le_rfl
  | succ n _ ih => exact (ih.trans (Nat.le_add_right _ _)).trans_eq (tally_succ n).symm

theorem tally_add (n : ℕ) : tally step s₀ es (fun e s => f e s + g e s) n =
    tally step s₀ es f n + tally step s₀ es g n :=
  Finset.sum_add_distrib

/-- **The conservation rule** for counts. -/
theorem tally_conserved {I : σ → Prop} {H : σ → ℕ} (hI : ∀ e s, I s → I (step e s))
    (h : ∀ e s, I s → H s + f e s = g e s + H (step e s)) (h0 : I s₀) (es : ℕ → ε) :
    ∀ n, H s₀ + tally step s₀ es f n = tally step s₀ es g n + H (stAt step s₀ es n) := by
  intro n
  induction n with
  | zero =>
    rw [tally, tally, Finset.range_zero, Finset.sum_empty, Finset.sum_empty, Nat.add_zero, Nat.zero_add]
    rfl
  | succ n ih =>
    have hn : I (stAt step s₀ es n) := inv_from hI (k := 0) h0 n (Nat.zero_le n)
    have hstep := h (es n) _ hn
    rw [tally_succ, tally_succ, stAt_succ]
    omega

end Clocked
