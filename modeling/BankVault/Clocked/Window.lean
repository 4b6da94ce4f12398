import Mathlib.Order.Basic

/-!
# Windows of a sampled signal

A signal is a stream of samples `s : ℕ → α`. `Window s w m v` says that the `w` samples
from the `m`-th on all have the value `v`; `Latest s w n v` that the last such window
among the first `n` samples has the value `v`.

* `Latest.unique`: there is one latest value.
* `Latest.keep`, `Latest.load`: how the next sample moves it.
-/

namespace Clocked

variable {α : Type*} {s : ℕ → α} {w m n : ℕ} {u v : α}

/-- The `w` samples from the `m`-th on have the value `v`. -/
def Window (s : ℕ → α) (w m : ℕ) (v : α) : Prop := ∀ i, i < w → s (m + i) = v

/-- The latest window within the first `n` samples has the value `v`. -/
def Latest (s : ℕ → α) (w n : ℕ) (v : α) : Prop :=
  ∃ m, m + w ≤ n ∧ Window s w m v ∧ ∀ m' u, m < m' → m' + w ≤ n → ¬ Window s w m' u

theorem Window.value (h : Window s w m v) (h' : Window s w m u) (hw : 0 < w) : v = u :=
  (h 0 hw).symm.trans (h' 0 hw)

theorem Latest.unique (hw : 0 < w) (h : Latest s w n v) (h' : Latest s w n u) : v = u := by
  obtain ⟨m, hm, hwin, hlast⟩ := h
  obtain ⟨m', hm', hwin', hlast'⟩ := h'
  rcases Nat.lt_trichotomy m m' with hlt | heq | hgt
  · exact absurd hwin' (hlast m' u hlt hm')
  · subst heq; exact hwin.value hwin' hw
  · exact absurd hwin (hlast' m v hgt hm)

/-- A window that ends with the last sample is the latest one. -/
theorem Window.latest (h : Window s w m v) : Latest s w (m + w) v :=
  ⟨m, Nat.le_refl _, h, fun m' _ h1 h2 => by omega⟩

/-- **A sample that completes a window** loads its value. -/
theorem Latest.load (h : Window s w m v) (hn : n + 1 = m + w) : Latest s w (n + 1) v :=
  hn ▸ h.latest

/-- **A sample that completes no window** keeps the value. -/
theorem Latest.keep (h : Latest s w n v) (hno : ∀ m u, n + 1 = m + w → ¬ Window s w m u) :
    Latest s w (n + 1) v := by
  obtain ⟨m, hm, hwin, hlast⟩ := h
  refine ⟨m, by omega, hwin, fun m' u h1 h2 => ?_⟩
  rcases Nat.eq_or_lt_of_le h2 with h2 | h2
  · exact hno m' u h2.symm
  · exact hlast m' u h1 (by omega)

end Clocked
