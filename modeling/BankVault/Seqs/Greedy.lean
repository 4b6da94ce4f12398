import Mathlib.Order.Bounds.Basic
import Mathlib.Data.List.Basic
import Mathlib.Data.List.Induction

/-!
# Greedy matching of a word as a subsequence

A matcher reads a stream of letters and moves on whenever it finds the letter of the word
it waits for. `matched w h` is how far it has come in `w` after `h`.

* `take_sublist_iff`: the prefixes of `w` that are subsequences of `h` are those up to
  `matched w h`: reading greedily loses nothing.
* `longest_matched`: so `matched w h` is the length of the longest such prefix.
-/

namespace Greedy

variable {α : Type*} {w h : List α} {x : α} {k : ℕ}

/-- A subsequence of a list with one more letter leaves the letter out or ends with it. -/
theorem sublist_concat_iff {l : List α} :
    List.Sublist l (h ++ [x]) ↔ List.Sublist l h ∨ ∃ l', l = l' ++ [x] ∧ List.Sublist l' h := by
  constructor
  · intro hl
    obtain ⟨l₁, l₂, rfl, h₁, h₂⟩ := List.sublist_append_iff.1 hl
    rcases List.sublist_singleton.1 h₂ with rfl | rfl
    · rw [List.append_nil]; exact Or.inl h₁
    · exact Or.inr ⟨l₁, rfl, h₁⟩
  · rintro (hl | ⟨l', rfl, hl⟩)
    · exact hl.trans (List.sublist_append_left h [x])
    · exact hl.append (List.Sublist.refl [x])

/-- A prefix that ends with the letter `x` is one letter longer than the prefix before it. -/
theorem take_eq_concat {l' : List α} (hk : k ≤ w.length) (hl : w.take k = l' ++ [x]) :
    ∃ j, k = j + 1 ∧ w[j]? = some x ∧ l' = w.take j := by
  have hlen := congrArg List.length hl
  rw [List.length_take_of_le hk, List.length_append, List.length_singleton] at hlen
  have hlt : l'.length < w.length := by omega
  refine ⟨l'.length, hlen, ?_, ?_⟩
  · have hlast := congrArg (fun l => l[l'.length]?) hl
    simpa [List.getElem?_take, hlen] using hlast
  · have htake := congrArg (List.take l'.length) hl
    rw [List.take_take, Nat.min_eq_left (by omega), List.take_left] at htake
    exact htake.symm

variable [DecidableEq α]

/-- One letter, read when `k` letters of `w` have been found. -/
def advance (w : List α) (k : ℕ) (x : α) : ℕ := if w[k]? = some x then k + 1 else k

/-- How many letters of `w` have been found in `h`. -/
def matched (w h : List α) : ℕ := h.foldl (advance w) 0

@[simp] theorem matched_nil : matched w [] = 0 := rfl

theorem matched_concat : matched w (h ++ [x]) = advance w (matched w h) x := by
  rw [matched, List.foldl_append]; rfl

theorem advance_le (hk : k ≤ w.length) : advance w k x ≤ w.length := by
  unfold advance
  split_ifs with hx
  · obtain ⟨hlt, -⟩ := List.getElem?_eq_some_iff.1 hx
    exact hlt
  · exact hk

theorem matched_le : matched w h ≤ w.length := by
  induction h using List.reverseRecOn with
  | nil => exact Nat.zero_le _
  | append_singleton h x ih => rw [matched_concat]; exact advance_le ih

/-- **Greedy matching loses nothing**: a prefix of the word is a subsequence of what was read
exactly if the matcher has come that far. -/
theorem take_sublist_iff : ∀ k, k ≤ w.length → (List.Sublist (w.take k) h ↔ k ≤ matched w h) := by
  induction h using List.reverseRecOn with
  | nil =>
    intro k hk
    rw [List.sublist_nil, matched_nil, List.take_eq_nil_iff, Nat.le_zero]
    constructor
    · rintro (h0 | hw)
      · exact h0
      · rw [hw] at hk; exact Nat.le_zero.1 hk
    · exact Or.inl
  | append_singleton h x ih =>
    intro k hk
    rw [sublist_concat_iff, matched_concat, ih k hk]
    unfold advance
    constructor
    · rintro (hle | ⟨l', hl, hsub⟩)
      · split_ifs <;> omega
      · obtain ⟨j, rfl, hx, rfl⟩ := take_eq_concat hk hl
        have hj := (ih j (by omega)).1 hsub
        -- the matcher has found `j` letters: it waits for `x`, or is further already
        rcases Nat.eq_or_lt_of_le hj with heq | hlt
        · rw [← heq, if_pos hx]
        · split_ifs <;> omega
    · intro hle
      by_cases hk' : k ≤ matched w h
      · exact Or.inl hk'
      · split_ifs at hle with hx
        · have hkm : k = matched w h + 1 := by omega
          have hlt : matched w h < w.length := by omega
          refine Or.inr ⟨w.take (matched w h), ?_, (ih _ hlt.le).2 le_rfl⟩
          rw [hkm, List.take_add_one, hx, Option.toList_some]
        · exact absurd hle hk'

/-- The lengths of the prefixes of `w` that are subsequences of `h`. -/
def prefixLengths (w h : List α) : Set ℕ := {k | k ≤ w.length ∧ List.Sublist (w.take k) h}

/-- **The longest prefix.** -/
theorem longest_matched : IsGreatest (prefixLengths w h) (matched w h) :=
  ⟨⟨matched_le, (take_sublist_iff _ matched_le).2 le_rfl⟩,
    fun _ hk => (take_sublist_iff _ hk.1).1 hk.2⟩

/-- The whole word is a subsequence exactly if the matcher has come to its end. -/
theorem sublist_iff_matched : List.Sublist w h ↔ matched w h = w.length := by
  have hw := take_sublist_iff (w := w) (h := h) w.length le_rfl
  rw [List.take_length] at hw
  rw [hw]
  exact ⟨fun hle => Nat.le_antisymm matched_le hle, fun heq => heq.ge⟩

end Greedy
