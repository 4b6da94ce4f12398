import BankVault.Proof.Picture

/-!
# Where a pixel's colour comes from

The panel in the middle of a frame. A stream that breaks off anywhere has executed the commands
that were complete, so once the panel has been cleared for the first time each pixel is black or
in a colour some iteration has painted it in, and an iteration paints the picture of the state it
has read.

* `provenance`: the iteration a colour comes from.
* `iteration_paints`: what an iteration paints.
* `display_settles`: on one state, from the second iteration on, its picture is on the panel.
-/

namespace BankVault

namespace Firmware

open Paint Wire

/-! ### Lists of commands -/

theorem fillAfter_cons (b : Bool) (com : Byte) (args : List Byte) (cs : List (List Byte)) :
    fillAfter b ((com :: args) :: cs) =
      if com = fillMode then fillAfter ((args.getD 0 0).getLsbD 0) cs else fillAfter b cs := rfl

theorem patches_cons (b : Bool) (com : Byte) (args : List Byte) (cs : List (List Byte)) :
    patches b ((com :: args) :: cs) =
      if com = drawCom then rectPatch b args :: patches b cs
      else if com = fillMode then patches ((args.getD 0 0).getLsbD 0) cs else patches b cs := rfl

theorem fillAfter_append (cs ds : List (List Byte)) : ∀ b : Bool,
    fillAfter b (cs ++ ds) = fillAfter (fillAfter b cs) ds := by
  induction cs with
  | nil => exact fun b => rfl
  | cons c cs ih =>
    intro b
    cases c with
    | nil => exact ih b
    | cons com args =>
      rw [List.cons_append, fillAfter_cons, fillAfter_cons]
      split_ifs
      · exact ih _
      · exact ih b

theorem patches_append (cs ds : List (List Byte)) : ∀ b : Bool,
    patches b (cs ++ ds) = patches b cs ++ patches (fillAfter b cs) ds := by
  induction cs with
  | nil => exact fun b => rfl
  | cons c cs ih =>
    intro b
    cases c with
    | nil => exact ih b
    | cons com args =>
      rw [List.cons_append, patches_cons, patches_cons, fillAfter_cons]
      split_ifs with hdraw hfill hfill
      · exact absurd (hdraw.symm.trans hfill) (by decide)
      · rw [ih b, List.cons_append]
      · exact ih _
      · exact ih b

/-! ### What an iteration paints -/

/-- The picture of a state has a rectangle that paints a pixel in a colour. -/
def State.Paints (s : State) (x y : Byte) (a : Pixel) (c : Colour) : Prop :=
  ∃ q ∈ patches true ((s.picture x y).flatMap SpiCommand.commands), q a = some c

/-- What the whole picture paints. -/
def State.patch (s : State) (x y : Byte) : Patch Pixel Colour :=
  Patch.stack (patches true ((s.picture x y).flatMap SpiCommand.commands))

variable {w : BitVec 32} {m : Main} {s : State} {a : Pixel} {c : Colour}

theorem wordPatch_eq (hs : stateVar w = s.code) : wordPatch w = s.patch (xVal w) (yVal w) := by
  rw [wordPatch, stateOf_eq hs, State.patch]

theorem flag_of_ne_error (h : s ≠ .error) : ∃ f, s.flag = some f := by
  cases s with
  | error => exact absurd rfl h
  | _ => exact ⟨_, rfl⟩

/-- Clearing paints in black. -/
theorem blackout_paints {q : Patch Pixel Colour} (hq : q ∈ patches true blackout.commands)
    (h : q a = some c) : c = black := by
  obtain rfl : q = rectPatch true blackout.writeData.tail := List.mem_singleton.1 hq
  unfold rectPatch at h
  split_ifs at h
  · exact (Option.some.inj h).symm
  · exact (Option.some.inj h).symm

/-- **An iteration clears, or paints the picture of the state it has read.** -/
theorem iteration_paints (hs : stateVar w = s.code) (hne : s ≠ .error) {q : Patch Pixel Colour}
    (hq : q ∈ patches true ((m.iteration w).sent.flatMap SpiCommand.commands)) (h : q a = some c) :
    c = black ∨ s.Paints (xVal w) (yVal w) a c := by
  obtain ⟨f, hf⟩ := flag_of_ne_error hne
  cases hflag : m.flags f with
  | true =>
    rw [(Main.iteration_clear hs hf hflag).1, List.flatMap_singleton] at hq
    exact Or.inl (blackout_paints hq h)
  | false =>
    rw [(Main.iteration_draw hs hf hflag).1] at hq
    exact Or.inr ⟨q, hq, h⟩

/-! ### Streams -/

variable {words : ℕ → BitVec 32}

/-- The commands of an iteration. -/
def frame (words : ℕ → BitVec 32) (i : ℕ) : List (List Byte) :=
  (mainAt words (i + 1)).sent.flatMap SpiCommand.commands

theorem chunk_succ (i : ℕ) : chunk words (i + 1) = (frame words i).flatten := by
  unfold chunk frame
  induction (mainAt words (i + 1)).sent with
  | nil => rfl
  | cons c cs ih => rw [List.flatMap_cons, List.flatMap_cons, List.flatten_append, ih, c.transmitted_eq]

theorem frame_proper (i : ℕ) : ∀ x ∈ frame words i, IsCommand panelArgs x := by
  intro x hx
  obtain ⟨c, hc, hxc⟩ := List.mem_flatMap.1 hx
  exact (iteration_proper _ _ c hc).commands x hxc

/-- What is transmitted is the boot sequence and the commands of the iterations. -/
theorem transmitted_frames (k : ℕ) :
    transmitted words k = chunk words 0 ++ ((List.range k).flatMap (frame words)).flatten := by
  unfold transmitted
  induction k with
  | zero => simp
  | succ k ih =>
    rw [List.range_succ, List.flatMap_append, ih, List.flatMap_singleton, List.range_succ (n := k),
      List.flatMap_append, List.flatten_append, List.flatMap_singleton, chunk_succ, List.append_assoc]

/-- Each iteration begins and ends with the fill mode on, so it paints what it paints on its own. -/
theorem patches_frames (k : ℕ) :
    patches true ((List.range k).flatMap (frame words)) =
      (List.range k).flatMap (fun i => patches true (frame words i)) ∧
    fillAfter true ((List.range k).flatMap (frame words)) = true := by
  induction k with
  | zero => exact ⟨rfl, rfl⟩
  | succ k ih =>
    obtain ⟨hp, hf⟩ := ih
    rw [List.range_succ, List.flatMap_append, List.flatMap_append, List.flatMap_singleton,
      List.flatMap_singleton, patches_append, fillAfter_append, hp, hf]
    exact ⟨rfl, fillAfter_iteration _ _⟩

/-- **The iteration a colour comes from.** At any point of the stream after the boot sequence, a
pixel is black or an iteration has painted it in its colour. -/
theorem provenance (p₀ : Panel) (k : ℕ) {bs : List Byte} (hboot : chunk words 0 <+: bs)
    (hbs : bs <+: transmitted words k) (a : Pixel) :
    (deliver ⟨[], p₀⟩ bs).device.pixels a = black ∨
      ∃ j, j < k ∧ ∃ q ∈ patches true (frame words j),
        q a = some ((deliver ⟨[], p₀⟩ bs).device.pixels a) := by
  obtain ⟨ys, rfl⟩ := hboot
  rw [transmitted_frames, List.prefix_append_right_inj] at hbs
  have hproper : ∀ x ∈ (List.range k).flatMap (frame words), IsCommand panelArgs x := by
    intro x hx
    obtain ⟨i, -, hxi⟩ := List.mem_flatMap.1 hx
    exact frame_proper i x hxi
  -- the frames start from a black panel
  have hstart : deliver ⟨[], p₀⟩ (chunk words 0) = ⟨[], ⟨fun _ => black, true⟩⟩ := by
    have hzero : displayAt p₀ words 0 = ⟨[], ⟨fun _ => black, true⟩⟩ := displayAt_zero
    rw [displayAt, transmitted_frames] at hzero
    simpa using hzero
  obtain ⟨ds, p, ⟨es, hes⟩, hfeed⟩ : ∃ ds p, ds <+: (List.range k).flatMap (frame words) ∧
      feed panelArgs Panel.exec ⟨[], ⟨fun _ => black, true⟩⟩ ys =
        ⟨p, Panel.run ⟨fun _ => black, true⟩ ds⟩ := feed_brokenOff hproper hbs
  have hpix : (deliver ⟨[], p₀⟩ (chunk words 0 ++ ys)).device.pixels =
      (Patch.stack (patches true ds)).apply fun _ => black := by
    have hrun := run_eq ds ⟨fun _ => black, true⟩
    unfold deliver at hstart ⊢
    rw [feed_append, hstart, hfeed]
    exact congrArg Panel.pixels hrun
  rw [hpix]
  rcases Patch.apply_stack_cases (patches true ds) (fun _ => black) a with h | ⟨q, hq, h⟩
  · exact Or.inl h
  · have hall : q ∈ patches true ((List.range k).flatMap (frame words)) := by
      rw [← hes, patches_append]
      exact List.mem_append_left _ hq
    rw [(patches_frames k).1] at hall
    obtain ⟨j, hj, hqj⟩ := List.mem_flatMap.1 hall
    exact Or.inr ⟨j, List.mem_range.1 hj, q, hqj, h⟩

/-! ### Staying in a state -/

/-- After an iteration on a state, as long as the state stays, its flag is not set. -/
theorem flag_spent {f : Fin 6} (hf : s.flag = some f) {i k : ℕ}
    (hs : ∀ j, i ≤ j → j < k → stateVar (words j) = s.code) :
    ∀ j, i < j → j ≤ k → (mainAt words j).flags f = false := by
  intro j hij
  induction j, hij using Nat.le_induction with
  | base =>
    intro hik
    have hsi := hs i le_rfl hik
    rw [mainAt_succ]
    cases hflag : (mainAt words i).flags f with
    | true =>
      rw [(Main.iteration_clear hsi hf hflag).2, State.cleared, if_pos rfl]
    | false => rw [(Main.iteration_draw hsi hf hflag).2, hflag]
  | succ j hij ih =>
    intro hjk
    have hflag := ih (by omega)
    rw [mainAt_succ, (Main.iteration_draw (hs j (by omega) (by omega)) hf hflag).2, hflag]

/-- **On one state, from the second iteration on, its picture is on the panel.** -/
theorem display_settles (p₀ : Panel) (hne : s ≠ .error) {i k : ℕ}
    (hs : ∀ j, i ≤ j → j < k → stateVar (words j) = s.code) {j : ℕ} (hij : i < j) (hjk : j < k) :
    ∃ px, displayAt p₀ words (j + 1) =
      ⟨[], ⟨(s.patch (xVal (words j)) (yVal (words j))).apply px, true⟩⟩ := by
  obtain ⟨f, hf⟩ := flag_of_ne_error hne
  obtain ⟨px, hpx⟩ := idle_inv p₀ words j
  rw [← wordPatch_eq (hs j hij.le hjk)]
  exact ⟨px, display_draw (hs j hij.le hjk) hf (flag_spent hf hs j hij hjk.le) hpx⟩

end Firmware

end BankVault
