import Mathlib.Order.Interval.Finset.Nat
import Mathlib.Data.Finset.Card

/-!
# Runs of a clocked machine

A machine is a total step function `step : ε → σ → σ` on register states; one
event of `ε` is one instant at which some clocks tick or an asynchronous input
moves. `stAt step s₀ es n` is the state after the first `n` events of the stream
`es`, so event `n` is read in `stAt n` and its effect is seen in `stAt (n + 1)`.

* `stAt_congr`: the state after `n` events depends on those events only.
* `last_entry`: a predicate that fails at one point and holds at a later one was
  entered by some event and has held since.
* `hits`: how many events strictly between two points satisfy a predicate.
* `Climb`: `k` events in increasing order strictly between two points, the `i`-th
  of them satisfying the `i`-th condition.
-/

namespace Clocked

variable {σ ε : Type*}

/-- The state after the first `n` events. -/
def stAt (step : ε → σ → σ) (s₀ : σ) (es : ℕ → ε) : ℕ → σ
  | 0 => s₀
  | n + 1 => step (es n) (stAt step s₀ es n)

variable {step : ε → σ → σ} {s₀ : σ} {es es' : ℕ → ε}

theorem stAt_succ (n : ℕ) : stAt step s₀ es (n + 1) = step (es n) (stAt step s₀ es n) := rfl

/-- **Causality.** -/
theorem stAt_congr : ∀ n, (∀ i, i < n → es i = es' i) → stAt step s₀ es n = stAt step s₀ es' n := by
  intro n
  induction n with
  | zero => intro _; rfl
  | succ n ih =>
    intro h
    rw [stAt_succ, stAt_succ, ih (fun i hi => h i (by omega)), h n (by omega)]

/-- **The invariant rule**, from any point of the run on. -/
theorem inv_from {I : σ → Prop} (hstep : ∀ e s, I s → I (step e s)) {k : ℕ}
    (hk : I (stAt step s₀ es k)) : ∀ n, k ≤ n → I (stAt step s₀ es n) := by
  intro n hn
  induction n, hn using Nat.le_induction with
  | base => exact hk
  | succ n _ ih => exact hstep _ _ ih

/-- **The last entry.** -/
theorem last_entry {P : ℕ → Prop} {k n : ℕ} (hkn : k ≤ n) (hk : ¬ P k) (hn : P n) :
    ∃ e, k ≤ e ∧ e < n ∧ ¬ P e ∧ ∀ j, e < j → j ≤ n → P j := by
  induction n, hkn using Nat.le_induction with
  | base => exact absurd hn hk
  | succ n hkn ih =>
    by_cases hp : P n
    · obtain ⟨e, h1, h2, h3, h4⟩ := ih hp
      refine ⟨e, h1, by omega, h3, fun j hj hjn => ?_⟩
      rcases Nat.eq_or_lt_of_le hjn with h | h
      · rw [h]; exact hn
      · exact h4 j hj (by omega)
    · refine ⟨n, hkn, by omega, hp, fun j hj hjn => ?_⟩
      have : j = n + 1 := by omega
      rw [this]; exact hn

/-- **The induction rule for a stretch of a run**: what holds just after event `e`
and is kept by every event before `n` holds up to `n`. -/
theorem stretch {P : ℕ → Prop} {e n : ℕ} (h0 : P (e + 1))
    (hs : ∀ j, e < j → j < n → P j → P (j + 1)) : ∀ j, e < j → j ≤ n → P j := by
  intro j hj
  induction j, hj using Nat.le_induction with
  | base => intro _; exact h0
  | succ j hj ih => intro hjn; exact hs j (by omega) (by omega) (ih (by omega))

section Hits

variable (P : ℕ → Prop) [DecidablePred P]

/-- The number of events strictly between `lo` and `hi` that satisfy `P`. -/
def hits (lo hi : ℕ) : ℕ := ((Finset.Ioo lo hi).filter P).card

theorem hits_succ {lo hi : ℕ} (h : lo < hi) :
    hits P lo (hi + 1) = hits P lo hi + if P hi then 1 else 0 := by
  unfold hits
  have hI : Finset.Ioo lo (hi + 1) = insert hi (Finset.Ioo lo hi) := by
    ext x; simp only [Finset.mem_Ioo, Finset.mem_insert]; omega
  have hni : hi ∉ (Finset.Ioo lo hi).filter P := by simp
  rw [hI, Finset.filter_insert]
  split
  · rw [Finset.card_insert_of_notMem hni]
  · rfl

end Hits

/-- **`k` events in increasing order** strictly between `lo` and `hi`, the `i`-th of
them satisfying `M i`. -/
def Climb (M : ℕ → ℕ → Prop) (lo hi k : ℕ) : Prop :=
  ∃ t : Fin k → ℕ, StrictMono t ∧ ∀ i, lo < t i ∧ t i < hi ∧ M i (t i)

variable {M : ℕ → ℕ → Prop} {lo hi k : ℕ}

theorem Climb.zero : Climb M lo hi 0 := ⟨Fin.elim0, fun i => i.elim0, fun i => i.elim0⟩

theorem Climb.mono {hi' : ℕ} (h : Climb M lo hi k) (hle : hi ≤ hi') : Climb M lo hi' k := by
  obtain ⟨t, ht, hM⟩ := h
  exact ⟨t, ht, fun i => ⟨(hM i).1, by have := (hM i).2.1; omega, (hM i).2.2⟩⟩

/-- One more event on top. -/
theorem Climb.snoc (h : Climb M lo hi k) (hlo : lo < hi) (hM : M k hi) :
    Climb M lo (hi + 1) (k + 1) := by
  obtain ⟨t, ht, hM'⟩ := h
  refine ⟨Fin.snoc t hi, ?_, ?_⟩
  · intro i j hij
    induction j using Fin.lastCases with
    | last =>
      obtain ⟨i', rfl⟩ : ∃ i', i = Fin.castSucc i' := ⟨i.castPred (ne_of_lt hij), by simp⟩
      simpa using (hM' i').2.1
    | cast j =>
      obtain ⟨i', rfl⟩ : ∃ i', i = Fin.castSucc i' :=
        ⟨i.castPred (ne_of_lt (lt_of_lt_of_le hij (Fin.le_last _))), by simp⟩
      simpa using ht (Fin.castSucc_lt_castSucc_iff.1 hij)
  · intro i
    induction i using Fin.lastCases with
    | last => simpa using ⟨hlo, hM⟩
    | cast i =>
      obtain ⟨h1, h2, h3⟩ := hM' i
      simp only [Fin.snoc_castSucc, Fin.val_castSucc]
      exact ⟨h1, by omega, h3⟩

end Clocked
