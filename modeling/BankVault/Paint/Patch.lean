import Mathlib.Logic.Function.Iterate
import Mathlib.Data.Option.Basic

/-!
# Patches

A patch repaints some of the points of a surface and leaves the others. What it paints does
not depend on the surface, so painting twice is painting once.

* `apply_atop`, `apply_stack`: a list of patches is one patch.
* `iterate_apply`: repeating a patch changes nothing after the first time.
* `apply_stack_cases`: a point shows what was there before, or what one of the patches paints.
-/

namespace Paint

variable {α β : Type*}

/-- The new value of the points a patch paints. -/
def Patch (α β : Type*) := α → Option β

namespace Patch

variable {p q : Patch α β} {f : α → β} {a : α} {b : β}

/-- The surface after the patch. -/
def apply (p : Patch α β) (f : α → β) : α → β := fun a => (p a).getD (f a)

/-- `q` painted over `p`. -/
def atop (q p : Patch α β) : Patch α β := fun a => (q a).or (p a)

/-- The patch that paints nothing. -/
def blank : Patch α β := fun _ => none

theorem apply_of_some (h : p a = some b) : p.apply f a = b := by rw [apply, h]; rfl

theorem apply_of_none (h : p a = none) : p.apply f a = f a := by rw [apply, h]; rfl

/-- One patch over another is one patch. -/
theorem apply_atop : (q.atop p).apply f = q.apply (p.apply f) := by
  funext a
  unfold apply atop
  cases q a with
  | none => rfl
  | some b => rfl

/-- A patch that paints everything leaves nothing of the surface. -/
theorem apply_total (h : ∀ a, p a = some b) : p.apply f = fun _ => b :=
  funext fun a => apply_of_some (h a)

/-- Painting twice is painting once. -/
theorem apply_idem : p.apply (p.apply f) = p.apply f := by
  funext a
  cases h : p a with
  | none => rw [apply_of_none h]
  | some b => rw [apply_of_some h, apply_of_some h]

/-- **Repeating a patch changes nothing after the first time.** -/
theorem iterate_apply (k : ℕ) : (p.apply)^[k + 1] f = p.apply f := by
  induction k with
  | zero => rfl
  | succ k ih => rw [Function.iterate_succ_apply', ih, apply_idem]

/-- The patches of a list, each painted over the ones before it. -/
def stack (ps : List (Patch α β)) : Patch α β := ps.foldl (fun p q => q.atop p) blank

theorem foldl_atop (ps : List (Patch α β)) (p : Patch α β) :
    (ps.foldl (fun p q => q.atop p) p).apply f = ps.foldl (fun f q => q.apply f) (p.apply f) := by
  induction ps generalizing p with
  | nil => rfl
  | cons q ps ih => rw [List.foldl_cons, List.foldl_cons, ih, apply_atop]

/-- **A list of patches is one patch.** -/
theorem apply_stack (ps : List (Patch α β)) :
    (stack ps).apply f = ps.foldl (fun f q => q.apply f) f := foldl_atop ps blank

/-- **Where the value of a point comes from**: from before, or from one of the patches. -/
theorem apply_stack_cases (ps : List (Patch α β)) (f : α → β) (a : α) :
    (stack ps).apply f a = f a ∨ ∃ q ∈ ps, q a = some ((stack ps).apply f a) := by
  rw [apply_stack]
  induction ps generalizing f with
  | nil => exact Or.inl rfl
  | cons q ps ih =>
    rw [List.foldl_cons]
    rcases ih (q.apply f) with h | ⟨q', hq', h⟩
    · rw [h]
      cases hq : q a with
      | none => exact Or.inl (apply_of_none hq)
      | some b => exact Or.inr ⟨q, List.mem_cons_self .., by rw [hq, apply_of_some hq]⟩
    · exact Or.inr ⟨q', List.mem_cons_of_mem q hq', h⟩

end Patch

end Paint
