import BankVault.Clocked.Run
import BankVault.Clocked.Window
import BankVault.Rtl.Knock

/-!
# What `debounce` filters

`debounce` compares two delayed copies of its input: at an edge where they agree it counts,
and at the second such edge in a row it loads the older copy. So its output is the value of
the latest three equal samples, the newest of them being the sample of the edge before.

* `filter_inv`: the registers after every edge, in terms of the samples.
* `debounce_filters`: the output after every edge, and what bursts of samples do to it.
-/

namespace BankVault

open Clocked

/-- The samples at the edges after a reset, with three zeros for what went before it: the
sample of edge `n` (counted from 1) stands at `n + 2`. -/
def history (r : ℕ → Bool) (i : ℕ) : Bool := if i < 3 then false else r (i - 3)

/-- `debounce` after an asynchronous reset, which may come with a clock edge or without, and
then `n` clock edges that find the samples `r`. -/
def dAt (s₀ : Debounce) (clk₀ raw₀ : Bool) (r : ℕ → Bool) (n : ℕ) : Debounce :=
  stAt (fun raw d => d.step true true raw) (s₀.step clk₀ false raw₀) r n

variable {s₀ : Debounce} {clk₀ raw₀ : Bool} {r : ℕ → Bool}

theorem dAt_zero : dAt s₀ clk₀ raw₀ r 0 = .cleared := by simp [dAt, stAt, Debounce.step]

theorem dAt_succ (n : ℕ) : dAt s₀ clk₀ raw₀ r (n + 1) = (dAt s₀ clk₀ raw₀ r n).edge (r n) := by
  simp [dAt, stAt, Debounce.step]

theorem history_sample (n : ℕ) : history r (n + 3) = r n := by simp [history]

/-- **The registers after `n` edges**, in terms of the samples: `Q1` and `Q2` are the last
two, and `count` tells whether the last edge found two equal copies without loading. -/
structure Filtered (h : ℕ → Bool) (n : ℕ) (d : Debounce) : Prop where
  q1 : d.q1 = h (n + 2)
  q2 : d.q2 = h (n + 1)
  counting : d.count = 1 → h (n + 1) = h n
  resting : d.count = 0 → h (n + 1) ≠ h n ∨ d.debouncedInput = h (n + 1)
  count_le : d.count ≤ 1

/-- One edge, by what the two copies and the counter are before it. -/
theorem edge_cases (raw : Bool) (d : Debounce) (hc : d.count ≤ 1) :
    (d.edge raw).q1 = raw ∧ (d.edge raw).q2 = d.q1 ∧
      ((d.q1 ≠ d.q2 ∧ (d.edge raw).count = 0 ∧ (d.edge raw).debouncedInput = d.debouncedInput) ∨
        (d.q1 = d.q2 ∧ d.count = 0 ∧ (d.edge raw).count = 1 ∧
          (d.edge raw).debouncedInput = d.debouncedInput) ∨
        (d.q1 = d.q2 ∧ d.count = 1 ∧ (d.edge raw).count = 0 ∧ (d.edge raw).debouncedInput = d.q2)) := by
  obtain ⟨q1, q2, count, out⟩ := d
  revert raw q1 q2 count out
  decide

/-- **One edge of the filter**: the invariant goes on, and the output takes the value of the
three samples it now completes, if they are equal. -/
theorem Filtered.edge {h : ℕ → Bool} {n : ℕ} {d : Debounce} (hf : Filtered h n d) :
    Filtered h (n + 1) (d.edge (h (n + 3))) ∧
      (Latest h 3 (n + 2) d.debouncedInput →
        Latest h 3 (n + 3) (d.edge (h (n + 3))).debouncedInput) := by
  obtain ⟨h1, h2, hcase⟩ := edge_cases (h (n + 3)) d hf.count_le
  rw [hf.q1, hf.q2] at hcase
  rcases hcase with ⟨hne, hc, hout⟩ | ⟨heq, hc0, hc, hout⟩ | ⟨heq, hc1, hc, hout⟩
  · -- the copies differ: the counter restarts and no window ends here
    refine ⟨⟨h1, h2.trans hf.q1, ?_, fun _ => Or.inl hne, by rw [hc]; decide⟩, fun hl => ?_⟩
    · intro h1'; rw [hc] at h1'; exact absurd h1' (by decide)
    · rw [hout]
      refine hl.keep fun m u hm hw => hne ?_
      obtain rfl : m = n := by omega
      exact (hw 2 (by omega)).trans (hw 1 (by omega)).symm
  · -- the first edge with equal copies: a window that ends here was loaded before
    refine ⟨⟨h1, h2.trans hf.q1, fun _ => heq, ?_, by rw [hc]; decide⟩, fun hl => ?_⟩
    · intro h0; rw [hc] at h0; exact absurd h0 (by decide)
    · rw [hout]
      rcases hf.resting hc0 with hdiff | hload
      · refine hl.keep fun m u hm hw => hdiff ?_
        obtain rfl : m = n := by omega
        exact (hw 1 (by omega)).trans (hw 0 (by omega)).symm
      · by_cases hn : h (n + 1) = h n
        · rw [hload]
          refine Latest.load (m := n) (fun i hi => ?_) rfl
          obtain rfl | rfl | rfl : i = 0 ∨ i = 1 ∨ i = 2 := by omega
          · exact hn.symm
          · rfl
          · exact heq
        · refine hl.keep fun m u hm hw => hn ?_
          obtain rfl : m = n := by omega
          exact (hw 1 (by omega)).trans (hw 0 (by omega)).symm
  · -- the second edge with equal copies: three equal samples are loaded
    refine ⟨⟨h1, h2.trans hf.q1, ?_, fun _ => Or.inr (hout.trans heq.symm), by rw [hc]; decide⟩,
      fun _ => ?_⟩
    · intro h1'; rw [hc] at h1'; exact absurd h1' (by decide)
    · rw [hout]
      refine Latest.load (m := n) (fun i hi => ?_) rfl
      obtain rfl | rfl | rfl : i = 0 ∨ i = 1 ∨ i = 2 := by omega
      · exact (hf.counting hc1).symm
      · rfl
      · exact heq

/-- **The registers after every edge.** -/
theorem filter_inv (s₀ : Debounce) (clk₀ raw₀ : Bool) (r : ℕ → Bool) (n : ℕ) :
    Filtered (history r) n (dAt s₀ clk₀ raw₀ r n) := by
  induction n with
  | zero =>
    rw [dAt_zero]
    exact ⟨rfl, rfl, fun _ => rfl, fun _ => Or.inr rfl, by decide⟩
  | succ n ih =>
    rw [dAt_succ, ← history_sample (r := r) n]
    exact ih.edge.1

/-- The output after every edge is the value of the latest three equal samples. -/
theorem output_latest (n : ℕ) :
    Latest (history r) 3 (n + 3) (dAt s₀ clk₀ raw₀ r (n + 1)).debouncedInput := by
  induction n with
  | zero =>
    have hzero : (dAt s₀ clk₀ raw₀ r 1).debouncedInput = false := by
      rw [dAt_succ, dAt_zero]; rfl
    rw [hzero]
    refine Latest.load (m := 0) (fun i hi => ?_) rfl
    rw [history, if_pos (by omega)]
  | succ n ih =>
    have hnext := (filter_inv s₀ clk₀ raw₀ r (n + 1)).edge.2 ih
    rwa [history_sample, ← dAt_succ] at hnext

/-- **The output moves only with three equal samples.** -/
theorem window_of_change {n : ℕ} (hne : (dAt s₀ clk₀ raw₀ r (n + 1)).debouncedInput ≠
    (dAt s₀ clk₀ raw₀ r n).debouncedInput) :
    Window (history r) 3 n (dAt s₀ clk₀ raw₀ r (n + 1)).debouncedInput := by
  have hf := filter_inv s₀ clk₀ raw₀ r n
  rw [dAt_succ] at hne ⊢
  rcases (edge_cases (r n) _ hf.count_le).2.2 with ⟨-, -, hout⟩ | ⟨-, -, -, hout⟩ | ⟨heq, hc, -, hout⟩
  · exact absurd hout hne
  · exact absurd hout hne
  · rw [hout]
    intro i hi
    obtain rfl | rfl | rfl : i = 0 ∨ i = 1 ∨ i = 2 := by omega
    · exact (hf.counting hc).symm.trans hf.q2.symm
    · exact hf.q2.symm
    · exact hf.q1.symm.trans heq

/-- **`debounce` is a three-sample filter.** For every stream of samples after a reset:
the output after an edge is the value of the latest three equal samples up to the edge
before; it moves only with three equal samples, so a burst of one or two never moves it; and
a burst of three or more is loaded three edges after its first sample and not before. -/
theorem debounce_filters (s₀ : Debounce) (clk₀ raw₀ : Bool) (r : ℕ → Bool) :
    (∀ n, Latest (history r) 3 (n + 3) (dAt s₀ clk₀ raw₀ r (n + 1)).debouncedInput) ∧
    (∀ n, (dAt s₀ clk₀ raw₀ r (n + 1)).debouncedInput ≠ (dAt s₀ clk₀ raw₀ r n).debouncedInput →
      Window (history r) 3 n (dAt s₀ clk₀ raw₀ r (n + 1)).debouncedInput) ∧
    ∀ n b, history r (n + 2) ≠ b → Window (history r) 3 (n + 3) b →
      (dAt s₀ clk₀ raw₀ r (n + 2)).debouncedInput = (dAt s₀ clk₀ raw₀ r (n + 1)).debouncedInput ∧
      (dAt s₀ clk₀ raw₀ r (n + 3)).debouncedInput = (dAt s₀ clk₀ raw₀ r (n + 1)).debouncedInput ∧
      (dAt s₀ clk₀ raw₀ r (n + 4)).debouncedInput = b := by
  refine ⟨output_latest, fun n => window_of_change, fun n b hstart hburst => ?_⟩
  have hfirst : history r (n + 3) = b := hburst 0 (by omega)
  -- a move before the third edge would need a window across the start of the burst
  have h2 : (dAt s₀ clk₀ raw₀ r (n + 2)).debouncedInput = (dAt s₀ clk₀ raw₀ r (n + 1)).debouncedInput := by
    by_contra hne
    have hw := window_of_change hne
    exact hstart ((hw 1 (by omega)).trans ((hw 2 (by omega)).symm.trans hfirst))
  have h3 : (dAt s₀ clk₀ raw₀ r (n + 3)).debouncedInput = (dAt s₀ clk₀ raw₀ r (n + 2)).debouncedInput := by
    by_contra hne
    have hw := window_of_change hne
    exact hstart ((hw 0 (by omega)).trans ((hw 1 (by omega)).symm.trans hfirst))
  exact ⟨h2, h3.trans h2, (output_latest (n + 3)).unique (by omega) hburst.latest⟩

end BankVault
