import BankVault.Proof.Frames
import BankVault.Firmware.Panel

/-!
# What the panel shows

The firmware and the panel together. Between iterations the panel is between commands and
fills its rectangles, so an iteration of one state is one patch of the framebuffer; after
a clear the framebuffer is that patch over black, however often it is repeated.

* `idle_inv`: between iterations nothing is pending and the fill mode is on.
* `clear_black`: every `clear_screen` leaves the whole panel black.
* `clear_then_picture`: after a clear the panel shows a picture that depends on the word only.
-/

namespace BankVault

namespace Firmware

open Paint Wire

/-! ### Whole commands -/

/-- An SPI command as the panel reads it: a command, and stray zeros. -/
def SpiCommand.commands (c : SpiCommand) : List (List Byte) :=
  c.writeData :: List.replicate c.readLength [0]

theorem SpiCommand.transmitted_eq (c : SpiCommand) : c.transmitted = c.commands.flatten := by
  have hz : ∀ n, (List.replicate n [(0 : Byte)]).flatten = List.replicate n 0 := by
    intro n
    induction n with
    | zero => rfl
    | succ n ih => rw [List.replicate_succ, List.flatten_cons, ih]; rfl
  rw [SpiCommand.transmitted, SpiCommand.commands, List.flatten_cons, hz]

/-- The data is one command of the panel. -/
def SpiCommand.Proper (c : SpiCommand) : Prop := IsCommand panelArgs c.writeData

theorem SpiCommand.Proper.commands {c : SpiCommand} (h : c.Proper) :
    ∀ x ∈ c.commands, IsCommand panelArgs x := by
  intro x hx
  rcases List.mem_cons.1 hx with rfl | hx
  · exact h
  · rw [List.eq_of_mem_replicate hx]
    exact ⟨0, [], rfl, rfl⟩

/-- **Every picture is sent in whole commands.** -/
theorem picture_proper (x y : Byte) (s : State) : ∀ c ∈ s.picture x y, c.Proper := by
  intro c hc
  rcases picture_command x y s c hc with ⟨v, rl, rfl⟩ | ⟨pos, col, rl, hp, hcol, rfl⟩
  · exact setFill_isCommand rfl v rl
  · exact rectangle_isCommand rfl hp hcol rl

/-- Whole commands are executed one after the other. -/
theorem deliver_commands (p : Panel) (cs : List SpiCommand) (hcs : ∀ c ∈ cs, c.Proper) :
    deliver ⟨[], p⟩ (cs.flatMap SpiCommand.transmitted) =
      ⟨[], p.run (cs.flatMap SpiCommand.commands)⟩ := by
  have hflat : cs.flatMap SpiCommand.transmitted = (cs.flatMap SpiCommand.commands).flatten := by
    clear hcs
    induction cs with
    | nil => rfl
    | cons c cs ih =>
      rw [List.flatMap_cons, List.flatMap_cons, List.flatten_append, ih, c.transmitted_eq]
  rw [hflat]
  apply feed_flatten
  intro x hx
  obtain ⟨c, hc, hxc⟩ := List.mem_flatMap.1 hx
  exact (hcs c hc).commands x hxc

/-! ### The fill mode -/

/-- Commands that leave the fill mode as it is. -/
theorem fillAfter_of_draws (b : Bool) (cs : List (List Byte))
    (h : ∀ c ∈ cs, c.head? ≠ some fillMode) : fillAfter b cs = b := by
  induction cs with
  | nil => rfl
  | cons c cs ih =>
    have ih := ih fun d hd => h d (List.mem_cons_of_mem c hd)
    cases c with
    | nil => exact ih
    | cons com args =>
      have hcom : com ≠ fillMode := fun hc => h _ (List.mem_cons_self ..) (by rw [hc]; rfl)
      rw [fillAfter, if_neg hcom, ih]

/-- A picture ends with the fill mode on: the clock switches it off for its first rectangle
only. -/
theorem fillAfter_picture (x y : Byte) (s : State) :
    fillAfter true ((s.picture x y).flatMap SpiCommand.commands) = true := by
  by_cases hs : s = .game1
  · subst hs; rfl
  · apply fillAfter_of_draws
    intro d hd
    obtain ⟨c, hc, hdc⟩ := List.mem_flatMap.1 hd
    obtain ⟨pos, col, -, -, rfl⟩ := picture_rectangle x y hs c hc
    obtain rfl : d = _ := List.mem_singleton.1 hdc
    exact fun h => absurd (Option.some.inj h) (by decide)

/-! ### Runs -/

/-- The commands of the initialisation sequence. -/
def initCommands : List (List Byte) := [
  [0xAE], [0x81, 0xFF], [0x82, 0xFF], [0x83, 0xFF], [0x87, 0x06], [0x8A, 0x64], [0x8B, 0x78],
  [0x8C, 0x64], [0xA0, 0x73], [0xA1, 0x00], [0xA2, 0x00], [0xA4], [0xA8, 0x3F], [0xAD, 0x8E],
  [0xB0, 0x00], [0xB1, 0x31], [0xB3, 0x10], [0xBB, 0x3A], [0xBE, 0x3E], [0x2E], [0xAF],
  [fillMode, 0x01]]

theorem initdata_eq : initdata = initCommands.flatten := rfl

theorem initCommands_proper : ∀ c ∈ initCommands, IsCommand panelArgs c := by
  have hlen : ∀ c ∈ initCommands, c ≠ [] ∧ panelArgs (c.headD 0) = some c.tail.length := by decide
  intro c hc
  obtain ⟨hne, hargs⟩ := hlen c hc
  cases c with
  | nil => exact absurd rfl hne
  | cons b xs => exact ⟨b, xs, rfl, hargs⟩

/-- **Clearing**: with the fill mode on the rectangle covers the panel. -/
theorem run_blackout (px : Pixel → Colour) :
    Panel.run ⟨px, true⟩ blackout.commands = ⟨fun _ => black, true⟩ := by
  have htotal : ∀ p, rectPatch true blackout.writeData.tail p = some black := by
    rintro ⟨⟨x, hx⟩, ⟨y, hy⟩⟩
    have hin : inside blackout.writeData.tail (⟨x, hx⟩, ⟨y, hy⟩) := by
      refine ⟨Nat.zero_le _, ?_, Nat.zero_le _, ?_⟩
      · show x ≤ 95; omega
      · show y ≤ 127; omega
    unfold rectPatch
    rw [if_pos hin, if_pos rfl]
    exact ite_self _
  have hp : Panel.run ⟨px, true⟩ blackout.commands =
    ⟨(rectPatch true blackout.writeData.tail).apply px, true⟩ := rfl
  rw [hp, Patch.apply_total htotal]

variable {p₀ : Panel} {words : ℕ → BitVec 32}

theorem displayAt_succ (n : ℕ) :
    displayAt p₀ words (n + 1) = deliver (displayAt p₀ words n) (chunk words (n + 1)) := by
  rw [displayAt, transmitted, List.range_succ, List.flatMap_append, List.flatMap_singleton]
  exact feed_append _ _ _

/-- Every command of an iteration is whole. -/
theorem iteration_proper (w : BitVec 32) (m : Main) : ∀ c ∈ (m.iteration w).sent, c.Proper := by
  rcases m.iteration_cases w with ⟨s, f, -, -, ⟨-, hsent, -⟩ | ⟨-, hsent, -⟩⟩ | ⟨pos, hpos, hsent⟩
  · rw [hsent]
    intro c hc
    rw [List.mem_singleton.1 hc]
    exact blackout_isCommand rfl
  · rw [hsent]
    exact picture_proper _ _ s
  · rw [hsent]
    intro c hc
    rw [List.mem_singleton.1 hc]
    exact rectangle_isCommand rfl hpos rfl 0

/-- An iteration ends with the fill mode on. -/
theorem fillAfter_iteration (w : BitVec 32) (m : Main) :
    fillAfter true ((m.iteration w).sent.flatMap SpiCommand.commands) = true := by
  rcases m.iteration_cases w with ⟨s, f, -, -, ⟨-, hsent, -⟩ | ⟨-, hsent, -⟩⟩ | ⟨pos, -, hsent⟩
  · rw [hsent]; rfl
  · rw [hsent]; exact fillAfter_picture _ _ s
  · rw [hsent]; rfl

/-- The initialisation sequence switches the fill mode on. -/
theorem deliver_initdata : deliver ⟨[], p₀⟩ initdata = ⟨[], ⟨p₀.pixels, true⟩⟩ := by
  rw [initdata_eq]
  exact feed_flatten initCommands_proper

/-- `clear_screen` between commands, with the fill mode on. -/
theorem deliver_blackout (px : Pixel → Colour) :
    deliver ⟨[], ⟨px, true⟩⟩ blackout.transmitted = ⟨[], ⟨fun _ => black, true⟩⟩ := by
  have hrun := deliver_commands ⟨px, true⟩ [blackout] (fun c hc => List.mem_singleton.1 hc ▸ blackout_isCommand rfl)
  exact hrun.trans (congrArg _ (run_blackout px))

/-- The display at the start of the loop. -/
theorem displayAt_zero : displayAt p₀ words 0 = ⟨[], ⟨fun _ => black, true⟩⟩ := by
  have hbytes : transmitted words 0 = initdata ++ blackout.transmitted :=
    (List.append_nil (chunk words 0)).trans chunk_boot
  rw [displayAt, hbytes]
  unfold deliver
  rw [feed_append]
  show deliver (deliver _ _) _ = _
  rw [deliver_initdata, deliver_blackout]

/-- **Between iterations** nothing is pending and the fill mode is on. -/
theorem idle_inv (p₀ : Panel) (words : ℕ → BitVec 32) (n : ℕ) :
    ∃ px, displayAt p₀ words n = ⟨[], ⟨px, true⟩⟩ := by
  induction n with
  | zero => exact ⟨_, displayAt_zero⟩
  | succ n ih =>
    obtain ⟨px, hpx⟩ := ih
    rw [displayAt_succ, hpx, chunk, mainAt_succ, deliver_commands _ _ (iteration_proper _ _), run_eq]
    rw [fillAfter_iteration]
    exact ⟨_, rfl⟩

/-! ### Clearing -/

/-- Iteration `i` calls `clear_screen`. -/
def Clears (words : ℕ → BitVec 32) (i : ℕ) : Prop :=
  ∃ c ∈ (mainAt words (i + 1)).sent, c.caller = .clearScreen

/-- No picture calls `clear_screen`. -/
theorem picture_caller (x y : Byte) (s : State) : ∀ c ∈ s.picture x y, c.caller = .main := by
  intro c hc
  rcases picture_command x y s c hc with ⟨v, rl, rfl⟩ | ⟨pos, col, rl, -, -, rfl⟩ <;> rfl

/-- An iteration that calls `clear_screen` found the flag of its state set. -/
theorem Clears.flag {i : ℕ} (h : Clears words i) : ∃ (s : State) (f : Fin 6),
    stateVar (words i) = s.code ∧ s.flag = some f ∧ (mainAt words (i + 1)).sent = [blackout] ∧
      (mainAt words (i + 1)).flags = s.cleared f (mainAt words i).flags := by
  obtain ⟨c, hc, hcall⟩ := h
  rw [mainAt_succ] at hc ⊢
  rcases (mainAt words i).iteration_cases (words i) with
    ⟨s, f, hs, hf, ⟨-, hsent, hflags⟩ | ⟨-, hsent, -⟩⟩ | ⟨pos, -, hsent⟩
  · exact ⟨s, f, hs, hf, hsent, hflags⟩
  · rw [hsent] at hc
    exact absurd (hcall.symm.trans (picture_caller _ _ s c hc)) (by decide)
  · rw [hsent] at hc
    rw [List.mem_singleton.1 hc] at hcall
    have hmain : (rectangle pos Main.blue 0).caller = .main := rfl
    exact absurd (hmain.symm.trans hcall) (by decide)

/-- **Every `clear_screen` runs between commands and with the fill mode on, and leaves the
panel black.** -/
theorem clear_black {n : ℕ} {pre post : List SpiCommand} {c : SpiCommand}
    (h : (mainAt words n).sent = pre ++ c :: post) (hc : c.caller = .clearScreen) :
    ∃ px, deliver ⟨[], p₀⟩ ((List.range n).flatMap (chunk words) ++ pre.flatMap SpiCommand.transmitted) =
        ⟨[], ⟨px, true⟩⟩ ∧
      deliver ⟨[], ⟨px, true⟩⟩ c.transmitted = ⟨[], ⟨fun _ => black, true⟩⟩ := by
  cases n with
  | zero =>
    -- the one before the loop, after the initialisation sequence
    rw [boot_sent] at h
    match pre, h with
    | [], h =>
      obtain ⟨rfl, -⟩ := List.cons.inj h
      exact absurd hc (by decide)
    | [x], h =>
      obtain ⟨hx, htail⟩ := List.cons.inj h
      obtain ⟨rfl, -⟩ := List.cons.inj htail
      refine ⟨p₀.pixels, ?_, deliver_blackout _⟩
      have hbytes : (List.range 0).flatMap (chunk words) ++
          [(⟨.main, initdata, 0⟩ : SpiCommand)].flatMap SpiCommand.transmitted = initdata := by
        simp [SpiCommand.transmitted]
      rw [← hx, hbytes]
      exact deliver_initdata
    | _ :: _ :: pre, h => simp at h
  | succ n =>
    have hcl : Clears words n := ⟨c, by rw [h]; simp, hc⟩
    obtain ⟨s, f, -, -, hsent, -⟩ := hcl.flag
    rw [hsent] at h
    obtain ⟨px, hpx⟩ := idle_inv p₀ words n
    match pre, h with
    | [], h =>
      obtain ⟨rfl, -⟩ := List.cons.inj h
      refine ⟨px, ?_, deliver_blackout px⟩
      rw [List.flatMap_nil, List.append_nil]
      exact hpx
    | _ :: pre, h => simp at h

/-! ### Pictures -/

/-- The state a word holds, if any. -/
def stateOf (w : BitVec 32) : State :=
  ([.startUp, .game1, .game2, .game3, .harder, .victory].find? fun s => s.code = stateVar w).getD .error

theorem stateOf_eq {w : BitVec 32} {s : State} (hs : stateVar w = s.code) : stateOf w = s := by
  unfold stateOf
  rw [hs]
  cases s <;> rfl

theorem stateOf_congr {w w' : BitVec 32} (h : stateVar w = stateVar w') : stateOf w = stateOf w' := by
  unfold stateOf
  rw [h]

/-- What drawing a word paints. -/
def wordPatch (w : BitVec 32) : Patch Pixel Colour :=
  Patch.stack (patches true (((stateOf w).picture (xVal w) (yVal w)).flatMap SpiCommand.commands))

/-- **The picture of a word.** -/
def wordPicture (w : BitVec 32) : Pixel → Colour := (wordPatch w).apply fun _ => black

/-- An iteration that draws paints the patch of its word. -/
theorem display_draw {n : ℕ} {s : State} {f : Fin 6} {px : Pixel → Colour}
    (hs : stateVar (words n) = s.code) (hf : s.flag = some f) (h : (mainAt words n).flags f = false)
    (hd : displayAt p₀ words n = ⟨[], ⟨px, true⟩⟩) :
    displayAt p₀ words (n + 1) = ⟨[], ⟨(wordPatch (words n)).apply px, true⟩⟩ := by
  have hsent := (Main.iteration_draw hs hf h).1
  rw [displayAt_succ, hd, chunk, mainAt_succ, deliver_commands _ _ (iteration_proper _ _), run_eq,
    fillAfter_iteration, hsent, wordPatch, stateOf_eq hs]

/-- **The iterations after a clear**: the `j`-th of them on one word paints the word's patch
for the `j`-th time. -/
theorem display_after_clear (p₀ : Panel) {i k : ℕ} {w : BitVec 32} {s : State}
    (hs : stateVar (words i) = s.code) (hw : stateVar w = s.code) (hc : Clears words i)
    (hrep : ∀ j, i < j → j ≤ i + k → words j = w) :
    ∀ j, j ≤ k → displayAt p₀ words (i + 1 + j) = ⟨[], ⟨(wordPatch w).apply^[j] fun _ => black, true⟩⟩ ∧
      ∀ f, s.flag = some f → (mainAt words (i + 1 + j)).flags f = false := by
  obtain ⟨s', f, hs', hf, hsent, hflags⟩ := hc.flag
  have hss : s' = s := by rw [← stateOf_eq hs', stateOf_eq hs]
  subst hss
  intro j
  induction j with
  | zero =>
    intro _
    obtain ⟨px, hpx⟩ := idle_inv p₀ words i
    refine ⟨?_, fun f' hf' => ?_⟩
    · show displayAt p₀ words (i + 1) = _
      rw [displayAt_succ, hpx, chunk, hsent, List.flatMap_singleton, deliver_blackout]
      rfl
    · show (mainAt words (i + 1)).flags f' = false
      obtain rfl : f = f' := Option.some.inj (hf.symm.trans hf')
      rw [hflags, State.cleared, if_pos rfl]
  | succ j ih =>
    intro hj
    obtain ⟨hd, hfl⟩ := ih (by omega)
    have hword : words (i + 1 + j) = w := hrep _ (by omega) (by omega)
    have hsj : stateVar (words (i + 1 + j)) = s'.code := by rw [hword, hw]
    refine ⟨?_, fun f' hf' => ?_⟩
    · have hdraw := display_draw hsj hf (hfl f hf) hd
      rw [hword] at hdraw
      rw [Function.iterate_succ_apply']
      exact hdraw
    · rw [← Nat.add_assoc, mainAt_succ, (Main.iteration_draw hsj hf' (hfl f' hf')).2]
      exact hfl f' hf'

/-- **After a clear the panel shows the picture of the word**, which depends on nothing else;
and every `clear_screen` is executed with the fill mode on and leaves the panel black. -/
theorem clear_then_picture (p₀ : Panel) (words : ℕ → BitVec 32) :
    (∀ (i k : ℕ) (w : BitVec 32) (s : State), s ≠ .error → stateVar (words i) = s.code →
      stateVar w = s.code → Clears words i → (∀ j, i < j → j ≤ i + k → words j = w) →
      ∀ j, i < j → j ≤ i + k → (displayAt p₀ words (j + 1)).device.pixels = wordPicture w) ∧
    ∀ (n : ℕ) (pre post : List SpiCommand) (c : SpiCommand),
      (mainAt words n).sent = pre ++ c :: post → c.caller = .clearScreen →
      ∃ px, deliver ⟨[], p₀⟩ ((List.range n).flatMap (chunk words) ++ pre.flatMap SpiCommand.transmitted) =
          ⟨[], ⟨px, true⟩⟩ ∧
        deliver ⟨[], ⟨px, true⟩⟩ c.transmitted = ⟨[], ⟨fun _ => black, true⟩⟩ := by
  refine ⟨fun i k w s _ hs hw hc hrep j hij hjk => ?_, fun n pre post c h hc => clear_black h hc⟩
  obtain ⟨d, rfl⟩ : ∃ d, j = i + 1 + d := ⟨j - (i + 1), by omega⟩
  have hd := (display_after_clear p₀ hs hw hc hrep (d + 1) (by omega)).1
  rw [← Nat.add_assoc] at hd
  rw [hd]
  show (wordPatch w).apply^[d + 1] _ = _
  rw [Patch.iterate_apply, wordPicture]

/-- Four polls of `start_up`, from a panel that does not fill: the first clears. -/
theorem clear_then_picture_startUp :
    (displayAt ⟨fun _ => (1, 2, 3), false⟩ (fun _ => 0) (3 + 1)).device.pixels = wordPicture 0 := by
  have hclears : Clears (fun _ => 0) 0 := by
    refine ⟨blackout, ?_, rfl⟩
    show blackout ∈ (Main.boot.iteration 0).sent
    rw [(Main.iteration_clear (m := Main.boot) (w := 0) (s := .startUp) (f := 0) rfl rfl rfl).1]
    exact List.mem_singleton.2 rfl
  exact (clear_then_picture ⟨fun _ => (1, 2, 3), false⟩ (fun _ => 0)).1 0 3 0 .startUp (by decide) rfl rfl
    hclears (fun _ _ _ => rfl) 3 (by omega) (by omega)

end Firmware

end BankVault
