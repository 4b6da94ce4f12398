import BankVault.Proof.Frames

/-!
# The bytes sent to the display

Every buffer the firmware sends is one command; what is left over between commands are the
zeros that the clock of game one asks to read back.

* `stray_of_clock`: drawing the clock leaves a stray zero.
* `bytes_iff`: the bytes are the initialisation sequence and whole commands, exactly as long
  as the clock has not been drawn.
* `drawsClock_iff`: which iterations draw it, in terms of the words alone.
-/

namespace BankVault

namespace Firmware

open Wire

/-- The commands of the loop: a rectangle takes ten arguments, a fill mode one. -/
def drawArgs (b : Byte) : Option ℕ :=
  if b = drawCom then some 10 else if b = fillMode then some 1 else none

/-- **The bytes are whole**: the initialisation sequence, and whole commands after it. -/
def WholeCommands (words : ℕ → BitVec 32) (n : ℕ) : Prop :=
  ∃ bs, transmitted words n = initdata ++ bs ∧ Whole drawArgs bs

/-- Iteration `i` draws the clock. `drawsClock_iff` says the same of the words alone: it polls `game_1`,
an earlier one did, and no poll of `victory` between the two has set the flags again. -/
def DrawsClock (words : ℕ → BitVec 32) (i : ℕ) : Prop :=
  stateVar (words i) = State.game1.code ∧ (mainAt words i).flags 2 = false

/-- Nothing is read back. -/
theorem whole_of_commands {cs : List SpiCommand}
    (h : ∀ c ∈ cs, IsCommand drawArgs c.writeData ∧ c.readLength = 0) :
    Whole drawArgs (cs.flatMap SpiCommand.transmitted) := by
  rw [List.flatMap_def]
  apply whole_flatten
  intro bs hbs
  obtain ⟨c, hc, rfl⟩ := List.mem_map.1 hbs
  obtain ⟨hcmd, hrl⟩ := h c hc
  rw [SpiCommand.transmitted, hrl, List.replicate_zero, List.append_nil]
  exact hcmd.whole

/-- Every picture but the clock is sent in whole commands. -/
theorem picture_whole (x y : Byte) {s : State} (hs : s ≠ .game1) :
    Whole drawArgs ((s.picture x y).flatMap SpiCommand.transmitted) := by
  apply whole_of_commands
  intro c hc
  obtain ⟨pos, col, hp, hcol, rfl⟩ := picture_rectangle x y hs c hc
  exact ⟨rectangle_isCommand rfl hp hcol 0, rfl⟩

/-- The clock's first rectangle leaves a stray zero. -/
theorem clock_stray (n : ℕ) : Stray drawArgs ((clock (n + 1)).flatMap SpiCommand.transmitted) := by
  obtain ⟨rest, hrest⟩ : ∃ rest, clock (n + 1) =
      [setFill 0 0, rectangle (quad clock0 0) white 1] ++ rest :=
    ⟨_, by rw [clock, List.range_succ_eq_map, List.flatMap_cons]; rfl⟩
  rw [hrest, List.flatMap_append]
  apply Stray.append
  refine ⟨(setFill 0 0).writeData ++ (rectangle (quad clock0 0) white 1).writeData, 0, [], rfl, ?_, rfl⟩
  exact (setFill_isCommand rfl 0 0).whole.append (rectangle_isCommand rfl rfl rfl 1).whole

variable {words : ℕ → BitVec 32}

/-- **An iteration that does not draw the clock sends whole commands.** -/
theorem chunk_whole {n : ℕ} (h : ¬ DrawsClock words n) : Whole drawArgs (chunk words (n + 1)) := by
  rw [chunk, mainAt_succ]
  rcases (mainAt words n).iteration_cases (words n) with
    ⟨s, f, hs, hf, ⟨-, hsent, -⟩ | ⟨hoff, hsent, -⟩⟩ | ⟨pos, hpos, hsent⟩
  · rw [hsent]
    exact (blackout_isCommand rfl).whole
  · rw [hsent]
    apply picture_whole
    rintro rfl
    obtain rfl : 2 = f := Option.some.inj hf
    exact h ⟨hs, hoff⟩
  · rw [hsent]
    exact whole_of_commands fun c hc =>
      List.mem_singleton.1 hc ▸ ⟨rectangle_isCommand rfl hpos rfl 0, rfl⟩

/-- **Drawing the clock leaves a stray zero.** -/
theorem stray_of_clock {n : ℕ} (h : DrawsClock words n) : Stray drawArgs (chunk words (n + 1)) := by
  rw [chunk, mainAt_succ, (Main.iteration_draw (s := .game1) h.1 rfl h.2).1]
  exact clock_stray 6

/-- What is sent after the initialisation sequence. -/
def loopBytes (words : ℕ → BitVec 32) (n : ℕ) : List Byte :=
  blackout.transmitted ++ (List.range n).flatMap fun i => chunk words (i + 1)

theorem transmitted_eq (n : ℕ) : transmitted words n = initdata ++ loopBytes words n := by
  rw [transmitted, List.range_succ_eq_map, List.flatMap_cons, chunk_boot, List.append_assoc,
    List.flatMap_map]
  rfl

theorem loopBytes_succ (n : ℕ) : loopBytes words (n + 1) = loopBytes words n ++ chunk words (n + 1) := by
  rw [loopBytes, loopBytes, List.range_succ, List.flatMap_append, List.flatMap_singleton, List.append_assoc]

/-- As long as the clock is not drawn the commands are whole. -/
theorem loopBytes_whole {n : ℕ} (h : ∀ i, i < n → ¬ DrawsClock words i) :
    Whole drawArgs (loopBytes words n) := by
  induction n with
  | zero => exact (blackout_isCommand rfl).whole
  | succ n ih =>
    rw [loopBytes_succ]
    exact (ih fun i hi => h i (by omega)).append (chunk_whole (h n (by omega)))

/-- Once it has been drawn there is a stray zero, which nothing takes away. -/
theorem loopBytes_stray {n : ℕ} (h : ∃ i, i < n ∧ DrawsClock words i) :
    Stray drawArgs (loopBytes words n) := by
  induction n with
  | zero =>
    obtain ⟨i, hi, -⟩ := h
    omega
  | succ n ih =>
    rw [loopBytes_succ]
    by_cases hclock : ∃ j, j < n ∧ DrawsClock words j
    · exact (ih hclock).append _
    · push Not at hclock
      -- the clock is drawn for the first time
      obtain ⟨i, hi, hdraw⟩ := h
      obtain rfl : i = n := by
        by_contra hne
        exact hclock i (by omega) hdraw
      exact (loopBytes_whole hclock).stray (stray_of_clock hdraw)

theorem wholeCommands_eq (n : ℕ) : WholeCommands words n ↔ Whole drawArgs (loopBytes words n) := by
  unfold WholeCommands
  rw [transmitted_eq]
  refine ⟨fun ⟨bs, heq, hbs⟩ => ?_, fun h => ⟨_, rfl, h⟩⟩
  rw [List.append_cancel_left heq]
  exact hbs

/-- **The bytes are whole commands exactly as long as no iteration draws the clock**, that is
reads `game_1` with `flags[2]` clear. -/
theorem bytes_iff (words : ℕ → BitVec 32) (n : ℕ) :
    WholeCommands words n ↔ ∀ i, i < n → ¬ DrawsClock words i := by
  rw [wholeCommands_eq]
  refine ⟨fun hwhole i hi hdraw => ?_, loopBytes_whole⟩
  exact (loopBytes_stray ⟨i, hi, hdraw⟩).not_whole hwhole

/-! ### The words -/

/-- After the poll of a state its flag is clear. -/
theorem own_flag {w : BitVec 32} {m : Main} {s : State} {f : Fin 6} (hs : stateVar w = s.code)
    (hf : s.flag = some f) : (m.iteration w).flags f = false := by
  cases hset : m.flags f with
  | false => rw [(Main.iteration_draw hs hf hset).2, hset]
  | true =>
    rw [(Main.iteration_clear hs hf hset).2, State.cleared]
    exact if_pos rfl

/-- The poll of another state sets the flag `f` where its case rearms `f` and its own flag is set. -/
theorem other_flag {w : BitVec 32} {m : Main} {u : State} {f g : Fin 6} (hu : stateVar w = u.code)
    (hg : u.flag = some g) (hne : f ≠ g) :
    (m.iteration w).flags f = (m.flags f || (u.rearms f && m.flags g)) := by
  cases hset : m.flags g with
  | false => rw [(Main.iteration_draw hu hg hset).2, Bool.and_false, Bool.or_false]
  | true => rw [(Main.iteration_clear hu hg hset).2, State.cleared, if_neg hne, Bool.and_true, Bool.or_comm]

/-- **What an iteration does to a flag**: the poll of its own state `s` clears it, and a clear in the
state `r` that rearms it sets it. -/
theorem flags_next {s r : State} {f g : Fin 6} (hf : s.flag = some f) (hg : r.flag = some g)
    (hne : s ≠ r) (hr : ∀ u : State, u.rearms f = decide (u = r)) (w : BitVec 32) (m : Main) :
    (m.iteration w).flags f = true ↔
      stateVar w ≠ s.code ∧ (m.flags f = true ∨ (stateVar w = r.code ∧ m.flags g = true)) := by
  have hinj : ∀ u v : State, u.code = v.code → u = v := by
    intro u v
    cases u <;> cases v <;> decide
  have hown : ∀ u v : State, ∀ k, u.flag = some k → v.flag = some k → u = v := by
    intro u v
    cases u <;> cases v <;> decide
  by_cases h : ∃ (u : State) (k : Fin 6), u.flag = some k ∧ stateVar w = u.code
  · obtain ⟨u, k, hk, hu⟩ := h
    rw [hu]
    by_cases hus : u = s
    · subst hus
      rw [own_flag hu hf]
      exact ⟨fun hno => absurd hno Bool.false_ne_true, fun hno => absurd rfl hno.1⟩
    · have hfk : f ≠ k := fun heq => hus (hown u s k hk (heq ▸ hf))
      have hcode : u.code ≠ s.code := fun heq => hus (hinj u s heq)
      rw [other_flag hu hk hfk, hr, Bool.or_eq_true, Bool.and_eq_true, decide_eq_true_eq]
      constructor
      · rintro (hold | ⟨rfl, hset⟩)
        · exact ⟨hcode, Or.inl hold⟩
        · obtain rfl : k = g := Option.some.inj (hk.symm.trans hg)
          exact ⟨hcode, Or.inr ⟨rfl, hset⟩⟩
      · rintro ⟨-, hold | ⟨hur, hset⟩⟩
        · exact Or.inl hold
        · obtain rfl := hinj u r hur
          obtain rfl : k = g := Option.some.inj (hk.symm.trans hg)
          exact Or.inr ⟨rfl, hset⟩
  · push Not at h
    rw [(Main.iteration_default h).2]
    refine ⟨fun hold => ⟨h s f hf, Or.inl hold⟩, ?_⟩
    rintro ⟨-, hold | ⟨hwr, -⟩⟩
    · exact hold
    · exact absurd hwr (h r g hg)

/-- `flags[5]`, which `victory` spends. -/
theorem flag_five (j : ℕ) : (mainAt words (j + 1)).flags 5 = true ↔ stateVar (words j) ≠ State.victory.code ∧
    ((mainAt words j).flags 5 = true ∨
      (stateVar (words j) = State.startUp.code ∧ (mainAt words j).flags 0 = true)) := by
  rw [mainAt_succ]
  exact flags_next (s := .victory) (r := .startUp) rfl rfl (by decide) (fun u => by cases u <;> rfl) _ _

/-- `flags[0]`, which `start_up` spends. -/
theorem flag_zero (j : ℕ) : (mainAt words (j + 1)).flags 0 = true ↔ stateVar (words j) ≠ State.startUp.code ∧
    ((mainAt words j).flags 0 = true ∨
      (stateVar (words j) = State.victory.code ∧ (mainAt words j).flags 5 = true)) := by
  rw [mainAt_succ]
  exact flags_next (s := .startUp) (r := .victory) rfl rfl (by decide) (fun u => by cases u <;> rfl) _ _

/-- `flags[2]`, which `game_1` spends. -/
theorem flag_two (j : ℕ) : (mainAt words (j + 1)).flags 2 = true ↔ stateVar (words j) ≠ State.game1.code ∧
    ((mainAt words j).flags 2 = true ∨
      (stateVar (words j) = State.victory.code ∧ (mainAt words j).flags 5 = true)) := by
  rw [mainAt_succ]
  exact flags_next (s := .game1) (r := .victory) rfl rfl (by decide) (fun u => by cases u <;> rfl) _ _

/-- `start_up` and `victory` set each other's flags: one of the two is always set. -/
theorem flag_zero_or_five (j : ℕ) : (mainAt words j).flags 0 = true ∨ (mainAt words j).flags 5 = true := by
  induction j with
  | zero => exact Or.inl rfl
  | succ j ih =>
    have hcodes : State.startUp.code ≠ State.victory.code := by decide
    rw [flag_zero, flag_five]
    by_cases hs : stateVar (words j) = State.startUp.code
    · exact Or.inr ⟨fun hv => hcodes (hs.symm.trans hv), ih.symm.imp_right fun h0 => ⟨hs, h0⟩⟩
    · by_cases hv : stateVar (words j) = State.victory.code
      · exact Or.inl ⟨hs, ih.imp_right fun h5 => ⟨hv, h5⟩⟩
      · exact ih.imp (fun h0 => ⟨hs, Or.inl h0⟩) fun h5 => ⟨hv, Or.inl h5⟩

/-- Every poll of `victory` before iteration `j` has been followed by one of `start_up`. -/
def Restarted (words : ℕ → BitVec 32) (j : ℕ) : Prop :=
  ∀ u, u < j → stateVar (words u) = State.victory.code →
    ∃ t, u < t ∧ t < j ∧ stateVar (words t) = State.startUp.code

theorem flag_five_iff (j : ℕ) : (mainAt words j).flags 5 = true ↔ Restarted words j := by
  induction j with
  | zero => exact ⟨fun _ u hu => absurd hu (Nat.not_lt_zero u), fun _ => rfl⟩
  | succ j ih =>
    rw [flag_five]
    constructor
    · rintro ⟨hne, hold⟩ u hu hv
      have huj : u < j := lt_of_le_of_ne (Nat.le_of_lt_succ hu) fun heq => hne (heq ▸ hv)
      rcases hold with h5 | ⟨hs, -⟩
      · obtain ⟨t, h1, h2, h3⟩ := ih.1 h5 u huj hv
        exact ⟨t, h1, by omega, h3⟩
      · exact ⟨j, huj, Nat.lt_succ_self j, hs⟩
    · intro hall
      have hne : stateVar (words j) ≠ State.victory.code := by
        intro hv
        obtain ⟨t, h1, h2, -⟩ := hall j (Nat.lt_succ_self j) hv
        omega
      refine ⟨hne, ?_⟩
      by_cases hs : stateVar (words j) = State.startUp.code
      · exact (flag_zero_or_five j).symm.imp_right fun h0 => ⟨hs, h0⟩
      · refine Or.inl (ih.2 fun u hu hv => ?_)
        obtain ⟨t, h1, h2, h3⟩ := hall u (by omega) hv
        exact ⟨t, h1, lt_of_le_of_ne (Nat.le_of_lt_succ h2) fun heq => hs (heq ▸ h3), h3⟩

/-- Iteration `v` sets the flags again: it polls `victory`, and every poll of it before has been followed
by one of `start_up`. -/
def SetsAgain (words : ℕ → BitVec 32) (v : ℕ) : Prop :=
  stateVar (words v) = State.victory.code ∧ Restarted words v

/-- **Which iterations draw the clock**, on the words: those that poll `game_1` after another poll of it
with no poll of `victory` between the two that sets the flags again. -/
theorem drawsClock_iff (i : ℕ) : DrawsClock words i ↔ stateVar (words i) = State.game1.code ∧
    ∃ j, j < i ∧ stateVar (words j) = State.game1.code ∧ ∀ v, j < v → v < i → ¬ SetsAgain words v := by
  have hspent : ∀ i, (mainAt words i).flags 2 = false ↔
      ∃ j, j < i ∧ stateVar (words j) = State.game1.code ∧ ∀ v, j < v → v < i → ¬ SetsAgain words v := by
    intro i
    induction i with
    | zero =>
      have hset : (mainAt words 0).flags 2 = true := rfl
      exact ⟨fun h => absurd (h.symm.trans hset) (by decide), fun ⟨j, hj, _⟩ => absurd hj (Nat.not_lt_zero j)⟩
    | succ i ih =>
      rw [← Bool.not_eq_true, flag_two, flag_five_iff]
      constructor
      · intro hno
        by_cases hg : stateVar (words i) = State.game1.code
        · exact ⟨i, Nat.lt_succ_self i, hg, fun v h1 h2 => by omega⟩
        · have hleft : ¬ ((mainAt words i).flags 2 = true ∨ SetsAgain words i) := fun h => hno ⟨hg, h⟩
          rw [not_or, Bool.not_eq_true] at hleft
          obtain ⟨j, hj, hgame, hnone⟩ := ih.1 hleft.1
          refine ⟨j, by omega, hgame, fun v h1 h2 => ?_⟩
          rcases Nat.lt_succ_iff_lt_or_eq.1 h2 with hv | rfl
          · exact hnone v h1 hv
          · exact hleft.2
      · rintro ⟨j, hj, hgame, hnone⟩ ⟨hne, hset⟩
        have hji : j < i := lt_of_le_of_ne (Nat.le_of_lt_succ hj) fun heq => hne (heq ▸ hgame)
        rcases hset with h2 | hsets
        · have hfalse := ih.2 ⟨j, hji, hgame, fun v h1 h2 => hnone v h1 (by omega)⟩
          exact absurd (h2.symm.trans hfalse) (by decide)
        · exact hnone i hji (Nat.lt_succ_self i) hsets
  unfold DrawsClock
  rw [hspent]

/-- Two polls of `game_1`: the first clears the screen, the second draws the clock. -/
theorem bytes_left_over : ¬ WholeCommands (fun _ => 2) 2 := by
  have hdraw : DrawsClock (fun _ => 2) 1 := by
    refine ⟨rfl, ?_⟩
    show ((mainAt (fun _ => 2) 0).iteration 2).flags 2 = false
    rw [(Main.iteration_clear (s := .game1) rfl rfl rfl).2]
    rfl
  rw [wholeCommands_eq]
  exact (loopBytes_stray ⟨1, by omega, hdraw⟩).not_whole

end Firmware

end BankVault
