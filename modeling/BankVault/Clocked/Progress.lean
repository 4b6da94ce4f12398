import BankVault.Clocked.Run
import Mathlib.Data.Nat.Count

/-!
# Progress of a clocked machine

Progress under a recurring kind of event: a rank that every event keeps from growing
and every event of that kind lowers reaches its goal (`eventually_of_rank`), in bounded
time where these events come in bounded time (`within_of_rank`), and by so many of them
(`rank_le_of_count`). `closed` is a machine whose inputs a controller reads off the state; its run is a run of the open machine (`stAt_closed`), so a goal
reached in the closed loop is reached there on some inputs.
-/

namespace Clocked

variable {σ ε : Type*} {step : ε → σ → σ} {s₀ : σ} {es : ℕ → ε}

/-- Events satisfying `P` come again and again. -/
def Recurring (P : ε → Prop) (es : ℕ → ε) : Prop := ∀ m, ∃ n, m ≤ n ∧ P (es n)

/-- **The progress rule.** -/
theorem eventually_of_rank {P : ε → Prop} {I G : σ → Prop} {r : σ → ℕ}
    (hI : ∀ e s, I s → I (step e s))
    (hdec : ∀ e s, I s → ¬ G s → P e → G (step e s) ∨ r (step e s) < r s)
    (hkeep : ∀ e s, I s → ¬ G s → ¬ P e → G (step e s) ∨ r (step e s) ≤ r s)
    (hrec : Recurring P es) {m : ℕ} (hm : I (stAt step s₀ es m)) :
    ∃ n, m ≤ n ∧ G (stAt step s₀ es n) := by
  induction hr : r (stAt step s₀ es m) using Nat.strong_induction_on generalizing m with
  | _ R ih =>
    by_contra hno
    push Not at hno
    -- the first event of the kind at or after `m`
    obtain ⟨p, ⟨hmp, hp⟩, hmin⟩ : ∃ p, (m ≤ p ∧ P (es p)) ∧ ∀ j, j < p → ¬ (m ≤ j ∧ P (es j)) := by
      classical
      exact ⟨Nat.find (hrec m), Nat.find_spec (hrec m), fun j => Nat.find_min (hrec m)⟩
    have hinv : ∀ n, m ≤ n → I (stAt step s₀ es n) := inv_from hI hm
    -- up to it the rank does not grow
    have hle : ∀ n, m ≤ n → n ≤ p → r (stAt step s₀ es n) ≤ R := by
      intro n hn
      induction n, hn using Nat.le_induction with
      | base => intro _; exact hr.le
      | succ n hmn ihn =>
        intro hnp
        have hnP : ¬ P (es n) := fun h => hmin n (by omega) ⟨hmn, h⟩
        rcases hkeep (es n) _ (hinv n hmn) (hno n hmn) hnP with hg | hk
        · exact absurd hg (hno (n + 1) (by omega))
        · exact le_trans hk (ihn (by omega))
    rcases hdec (es p) _ (hinv p hmp) (hno p hmp) hp with hg | hd
    · exact hno (p + 1) (by omega) hg
    · have hlt : r (stAt step s₀ es (p + 1)) < R := lt_of_lt_of_le hd (hle p hmp le_rfl)
      obtain ⟨n, hn, hg⟩ := ih _ hlt (hinv (p + 1) (by omega)) rfl
      exact hno n (by omega) hg

/-- **The timed progress rule**: where the events that lower the rank come within `W` of each other,
the goal is reached within `W` events for each step of the rank. -/
theorem within_of_rank {P G : ℕ → Prop} {r : ℕ → ℕ} {W : ℕ}
    (hrec : ∀ j, ∃ i, j ≤ i ∧ i < j + W ∧ P i) {m : ℕ}
    (hdec : ∀ i, m ≤ i → i < m + W * r m → ¬ G i → P i → G (i + 1) ∨ r (i + 1) < r i)
    (hkeep : ∀ i, m ≤ i → i < m + W * r m → ¬ G i → G (i + 1) ∨ r (i + 1) ≤ r i)
    (hzero : ∀ i, r i = 0 → G i) : ∃ n, m ≤ n ∧ n ≤ m + W * r m ∧ G n := by
  induction hr : r m using Nat.strong_induction_on generalizing m with
  | _ R ih =>
    subst hr
    by_cases h0 : r m = 0
    · exact ⟨m, le_rfl, Nat.le_add_right _ _, hzero m h0⟩
    obtain ⟨p, hmp, hpW, hp⟩ := hrec m
    have hround : W * 1 ≤ W * r m := Nat.mul_le_mul_left W (by omega)
    by_cases hg : ∃ n, m ≤ n ∧ n ≤ p + 1 ∧ G n
    · obtain ⟨n, h₁, h₂, h₃⟩ := hg
      exact ⟨n, h₁, by omega, h₃⟩
    push Not at hg
    -- up to the event the rank does not grow, and the event lowers it
    have hle : ∀ i, m ≤ i → i ≤ p → r i ≤ r m := by
      intro i hi
      induction i, hi using Nat.le_induction with
      | base => intro _; exact le_rfl
      | succ i hi ihi =>
        intro hip
        rcases hkeep i hi (by omega) (hg i hi (by omega)) with h | h
        · exact absurd h (hg (i + 1) (by omega) (by omega))
        · exact h.trans (ihi (by omega))
    have hlt : r (p + 1) < r m := by
      rcases hdec p hmp (by omega) (hg p hmp (by omega)) hp with h | h
      · exact absurd h (hg (p + 1) (by omega) le_rfl)
      · exact lt_of_lt_of_le h (hle p hmp le_rfl)
    have hroom : p + 1 + W * r (p + 1) ≤ m + W * r m := by
      have hmul : W * (r (p + 1) + 1) ≤ W * r m := Nat.mul_le_mul_left W hlt
      rw [Nat.mul_add] at hmul
      omega
    obtain ⟨n, h₁, h₂, h₃⟩ := ih _ hlt (fun i h₁ h₂ => hdec i (by omega) (by omega))
      (fun i h₁ h₂ => hkeep i (by omega) (by omega)) rfl
    exact ⟨n, by omega, by omega, h₃⟩

/-- **The counted progress rule**: a rank that each event of some kind lowers, over a stretch. -/
theorem rank_le_of_count {P : ℕ → Prop} [DecidablePred P] {r : ℕ → ℕ} {a b : ℕ}
    (h : ∀ i, a ≤ i → i < b → r (i + 1) ≤ r i - if P i then 1 else 0) :
    ∀ j, a ≤ j → j ≤ b → r j ≤ r a - (Nat.count P j - Nat.count P a) := by
  intro j hj
  induction j, hj using Nat.le_induction with
  | base => intro _; rw [Nat.sub_self]; exact le_rfl
  | succ j hj ih =>
    intro hjb
    have hlast := ih (by omega)
    have hstep := h j hj hjb
    have hmono := Nat.count_monotone P hj
    rw [Nat.count_succ]
    split_ifs at hstep ⊢ <;> omega

variable {κ : Type*}

/-- The machine under a controller that picks the event from the state. -/
def closed (step : ε → σ → σ) (ctl : σ → κ → ε) (c : κ) (s : σ) : σ := step (ctl s c) s

/-- The events a controller picks along its run. -/
def picked (step : ε → σ → σ) (ctl : σ → κ → ε) (s₀ : σ) (cs : ℕ → κ) (n : ℕ) : ε :=
  ctl (stAt (closed step ctl) s₀ cs n) (cs n)

/-- **The closed loop is a run of the open machine.** -/
theorem stAt_closed (ctl : σ → κ → ε) (cs : ℕ → κ) : ∀ n,
    stAt step s₀ (picked step ctl s₀ cs) n = stAt (closed step ctl) s₀ cs n := by
  intro n
  induction n with
  | zero => rfl
  | succ n ih => rw [stAt_succ, stAt_succ, ih]; rfl

end Clocked
