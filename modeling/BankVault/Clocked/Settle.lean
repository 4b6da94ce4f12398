import Mathlib.Order.Basic
import Mathlib.Tactic.Choose

/-!
# Combinational nets

A net `w` has values in `V w`; `drive a w` is what it is driven to when the nets have the
values `a`. The nets have settled on `a` when each of them has the value it is driven to.
Nets that read only nets of a lower rank always settle, on one assignment. A net that reads
itself settles if its own equation has one solution, once the nets below it have settled.

* `Stable.self`: a settled assignment solves the equation of each net.
* `agree`: there is at most one settled assignment.
* `settles`: there is exactly one.
-/

namespace Clocked

variable {W : Type*} {V : W → Type*}

/-- The nets have settled on `a`. -/
def Stable (drive : (∀ w, V w) → ∀ w, V w) (a : ∀ w, V w) : Prop := ∀ w, drive a w = a w

/-- The nets of a rank below `n` have settled. -/
def StableBelow (drive : (∀ w, V w) → ∀ w, V w) (rank : W → ℕ) (n : ℕ) (a : ∀ w, V w) : Prop :=
  ∀ w, rank w < n → drive a w = a w

/-- **The net list of a circuit**: what a net is driven to depends on the nets it reads only,
and these are of a lower rank, or the net itself. -/
structure NetList (drive : (∀ w, V w) → ∀ w, V w) (reads : W → List W) (rank : W → ℕ) : Prop where
  local_reads : ∀ w a b, (∀ j ∈ reads w, a j = b j) → drive a w = drive b w
  layered : ∀ w, ∀ j ∈ reads w, j ≠ w → rank j < rank w

variable {drive : (∀ w, V w) → ∀ w, V w} {reads : W → List W} {rank : W → ℕ} {a b : ∀ w, V w}

/-- A net is driven alike if the nets of a lower rank and the net itself are alike. -/
theorem NetList.congr (h : NetList drive reads rank) {w : W} (hlow : ∀ j, rank j < rank w → a j = b j)
    (hself : w ∈ reads w → a w = b w) : drive a w = drive b w := by
  refine h.local_reads w a b fun j hj => ?_
  by_cases hjw : j = w
  · subst hjw; exact hself hj
  · exact hlow j (h.layered w j hj hjw)

section Self

variable [DecidableEq W]

/-- **The equation of net `w`**: driven by the others and by its own value `x`, it has the
value `x`. -/
def Solves (drive : (∀ w, V w) → ∀ w, V w) (a : ∀ w, V w) (w : W) (x : V w) : Prop :=
  drive (Function.update a w x) w = x

theorem Stable.self (h : Stable drive a) (w : W) : Solves drive a w (a w) := by
  unfold Solves
  rw [Function.update_eq_self]
  exact h w

/-- A net that does not read itself has the one value it is driven to. -/
theorem NetList.solves (h : NetList drive reads rank) {w : W} (hw : w ∉ reads w) (a : ∀ w, V w) :
    ∃! x, Solves drive a w x := by
  have hdrive : ∀ x, drive (Function.update a w x) w = drive a w := fun x =>
    h.congr (fun j hj => Function.update_of_ne (by rintro rfl; exact absurd hj (Nat.lt_irrefl _)) x a)
      fun hself => absurd hself hw
  refine ⟨drive a w, hdrive _, fun x hx => ?_⟩
  rw [← hx, hdrive]

/-- **The nets that read themselves settle** once the nets below them have. -/
def LoopsSettle (drive : (∀ w, V w) → ∀ w, V w) (reads : W → List W) (rank : W → ℕ) : Prop :=
  ∀ w, w ∈ reads w → ∀ a, StableBelow drive rank (rank w) a → ∃! x, Solves drive a w x

theorem NetList.solves_one (h : NetList drive reads rank) (hloop : LoopsSettle drive reads rank) {w : W}
    (ha : StableBelow drive rank (rank w) a) : ∃! x, Solves drive a w x := by
  by_cases hw : w ∈ reads w
  · exact hloop w hw a ha
  · exact h.solves hw a

/-- **Two settled assignments agree**, rank by rank. -/
theorem NetList.agree (h : NetList drive reads rank) (hloop : LoopsSettle drive reads rank)
    (ha : Stable drive a) (hb : Stable drive b) : ∀ n w, rank w < n → a w = b w := by
  intro n
  induction n with
  | zero => intro w hw; exact absurd hw (Nat.not_lt_zero _)
  | succ n ih =>
    intro w hw
    have hlow : ∀ j, rank j < rank w → a j = b j := fun j hj => ih j (by omega)
    -- the value in `b` solves the equation that the value in `a` solves
    have hb' : Solves drive a w (b w) := by
      unfold Solves
      rw [← hb w]
      refine h.congr (fun j hj => ?_) fun _ => ?_
      · rw [Function.update_of_ne (by rintro rfl; exact absurd hj (Nat.lt_irrefl _))]
        exact hlow j hj
      · rw [Function.update_self, hb w]
    exact (h.solves_one hloop fun j _ => ha j).unique (ha.self w) hb'

/-- The nets can settle rank by rank. -/
theorem NetList.stableBelow [∀ w, Nonempty (V w)] (h : NetList drive reads rank)
    (hloop : LoopsSettle drive reads rank) : ∀ n, ∃ a, StableBelow drive rank n a := by
  intro n
  induction n with
  | zero => exact ⟨fun w => Classical.arbitrary (V w), fun w hw => absurd hw (Nat.not_lt_zero _)⟩
  | succ n ih =>
    obtain ⟨a, ha⟩ := ih
    have hone : ∀ w, rank w = n → ∃ x, Solves drive a w x := fun w hw =>
      (h.solves_one hloop (hw ▸ ha)).exists
    choose x hx using hone
    -- the nets of rank `n` take their solutions, the others stay
    let a' : ∀ w, V w := fun w => if hw : rank w = n then x w hw else a w
    have hlow : ∀ w, rank w < n → a' w = a w := fun w hw => dif_neg (by omega)
    refine ⟨a', fun w hw => ?_⟩
    by_cases hwn : rank w = n
    · have hself : a' w = x w hwn := dif_pos hwn
      rw [hself, ← hx w hwn]
      refine h.congr (fun j hj => ?_) fun _ => ?_
      · rw [hlow j (by omega), Function.update_of_ne (by rintro rfl; exact absurd hj (Nat.lt_irrefl _))]
      · rw [hself, Function.update_self]
    · rw [hlow w (by omega), ← ha w (by omega)]
      exact h.congr (fun j hj => hlow j (by omega)) fun _ => hlow w (by omega)

/-- **The nets settle on exactly one assignment.** -/
theorem NetList.settles [∀ w, Nonempty (V w)] (h : NetList drive reads rank)
    (hloop : LoopsSettle drive reads rank) {n : ℕ} (hn : ∀ w, rank w < n) : ∃! a, Stable drive a := by
  obtain ⟨a, ha⟩ := h.stableBelow hloop n
  exact ⟨a, fun w => ha w (hn w), fun b hb => funext fun w =>
    h.agree hloop hb (fun w => ha w (hn w)) n w (hn w)⟩

end Self

end Clocked
