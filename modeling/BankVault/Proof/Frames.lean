import BankVault.Firmware.GraphicTop
import BankVault.Wire.Framing

/-!
# One iteration of the firmware

What an iteration sends is a function of the state it reads, of the flag of that state and,
for the joystick game, of the two position fields: `clear_screen`'s rectangle if the flag is
set, and otherwise the state's picture.

* `iteration_clear`, `iteration_draw`, `iteration_default`: the three kinds of iteration.
* `iteration_cases`: there are no others.
-/

namespace BankVault

namespace Firmware

open Wire

/-! ### Buffers -/

variable {com : Byte}

/-- Bytes 1 to 4 of a draw command. -/
def Buffer.position (b : Buffer com drawSize) : List Byte := (b.bytes.drop 1).take 4

/-- Bytes 5 to 10 of a draw command. -/
def Buffer.colour (b : Buffer com drawSize) : List Byte := b.bytes.drop 5

/-- The eleven bytes of a draw command. -/
theorem Buffer.explicit (b : Buffer com drawSize) :
    ∃ a₁ a₂ a₃ a₄ a₅ a₆ a₇ a₈ a₉ a₁₀, b.bytes = [com, a₁, a₂, a₃, a₄, a₅, a₆, a₇, a₈, a₉, a₁₀] := by
  obtain ⟨bytes, hl, hh⟩ := b
  match bytes, hl, hh with
  | [a₀, a₁, a₂, a₃, a₄, a₅, a₆, a₇, a₈, a₉, a₁₀], _, hh =>
    obtain rfl : a₀ = com := by simpa using hh
    exact ⟨_, _, _, _, _, _, _, _, _, _, rfl⟩

theorem Buffer.bytes_eq (b : Buffer com drawSize) : b.bytes = com :: (b.position ++ b.colour) := by
  obtain ⟨a₁, a₂, a₃, a₄, a₅, a₆, a₇, a₈, a₉, a₁₀, h⟩ := b.explicit
  rw [Buffer.position, Buffer.colour, h]; rfl

theorem Buffer.fill_bytes (b : Buffer fillMode 2) (v : Byte) : (b.write 1 v).bytes = [fillMode, v] := by
  obtain ⟨bytes, hl, hh⟩ := b
  match bytes, hl, hh with
  | [a₀, a₁], _, hh =>
    obtain rfl : a₀ = fillMode := by simpa using hh
    rfl

namespace Main

variable (m : Main)

theorem setDrawColour_colour (col : List Byte) : (m.setDrawColour col).drawData.colour =
    [col.getD 0 0, col.getD 1 0, col.getD 2 0, col.getD 3 0, col.getD 4 0, col.getD 5 0] := by
  obtain ⟨a₁, a₂, a₃, a₄, a₅, a₆, a₇, a₈, a₉, a₁₀, h⟩ := m.drawData.explicit
  simp [Buffer.colour, setDrawColour, Buffer.write, h]

theorem setDrawData_position (t : List Byte) (i : ℕ) :
    (m.setDrawData t i).drawData.position = quad t i := by
  obtain ⟨a₁, a₂, a₃, a₄, a₅, a₆, a₇, a₈, a₉, a₁₀, h⟩ := m.drawData.explicit
  simp [Buffer.position, setDrawData, Buffer.write, h, quad]

/-- `set_draw_data` keeps the colour. -/
theorem setDrawData_colour (t : List Byte) (i : ℕ) :
    (m.setDrawData t i).drawData.colour = m.drawData.colour := by
  obtain ⟨a₁, a₂, a₃, a₄, a₅, a₆, a₇, a₈, a₉, a₁₀, h⟩ := m.drawData.explicit
  simp [Buffer.colour, setDrawData, Buffer.write, h]

end Main

/-! ### What is sent -/

/-- `clear_screen`'s rectangle. -/
def blackout : SpiCommand :=
  ⟨.clearScreen, [drawCom, 0x00, 0x00, screenHeight, screenWidth, 0x00, 0x00, 0x00, 0x00, 0x00, 0x00], 0⟩

/-- A rectangle drawn by `main`. -/
def rectangle (pos col : List Byte) (readLength : ℕ) : SpiCommand :=
  ⟨.main, drawCom :: (pos ++ col), readLength⟩

def setFill (v : Byte) (readLength : ℕ) : SpiCommand := ⟨.main, [fillMode, v], readLength⟩

/-- The rectangles of a table. -/
def rectangles (table : List Byte) (size : ℕ) (col : List Byte) : List SpiCommand :=
  (List.range (size / 4)).map fun x => rectangle (quad table (x * 4)) col 0

/-- The square of the joystick's position. -/
def square (xVal yVal : Byte) : List Byte :=
  if yVal > 8 then if xVal < 8 then joyResTL else joyResTR
  else if xVal < 8 then joyResBL else joyResBR

def squares (xVal yVal : Byte) : List SpiCommand :=
  [rectangle joyResTR red 0, rectangle joyResBL red 0, rectangle joyResTL red 0,
    rectangle joyResBR red 0, rectangle (square xVal yVal) green 0]

/-- The clock of game one: every command but the first asks for a byte back. -/
def clock (n : ℕ) : List SpiCommand :=
  (List.range n).flatMap fun x =>
    [if x = 0 then setFill 0 0 else setFill 1 1, rectangle (quad clock0 (x * 4)) white 1]

/-- **The picture of a state.** -/
def State.picture (xVal yVal : Byte) : State → List SpiCommand
  | .startUp => rectangles start0 startSize white
  | .game1 => clock (clockSize / 4)
  | .game2 => squares xVal yVal
  | .game3 => rectangles spank0 spank0Size white
  | .harder => rectangles spank1 spank1Size white
  | .victory => rectangles victory0 victorySize white
  | .error => []

/-- The flag that a state's case tests. -/
def State.flag : State → Option (Fin 6)
  | .startUp => some 0
  | .game1 => some 2
  | .game2 => some 1
  | .game3 => some 3
  | .harder => some 4
  | .victory => some 5
  | .error => none

/-- The flags that a state's case sets after clearing the screen. -/
def State.rearms : State → Fin 6 → Bool
  | .startUp, i => i = 5
  | .victory, i => i ≠ 5
  | _, _ => false

/-- The flags after a state's case has cleared the screen. -/
def State.cleared (s : State) (f : Fin 6) (flags : Fin 6 → Bool) (i : Fin 6) : Bool :=
  if i = f then false else s.rearms i || flags i

namespace Main

variable {m : Main} {w : BitVec 32} {s : State} {f : Fin 6}

theorem clearScreen_sent : m.clearScreen.sent = m.sent ++ [blackout] := by
  obtain ⟨a₁, a₂, a₃, a₄, a₅, a₆, a₇, a₈, a₉, a₁₀, h⟩ := m.drawData.explicit
  simp [clearScreen, altAvalonSpiCommand, Buffer.write, h, blackout]

/-- Setting the position and drawing sends that rectangle in the current colour. -/
theorem sendDraw_setDrawData (t : List Byte) (i rl : ℕ) :
    ((m.setDrawData t i).sendDraw rl).sent = m.sent ++ [rectangle (quad t i) m.drawData.colour rl] := by
  simp only [sendDraw, altAvalonSpiCommand, Buffer.bytes_eq, setDrawData_position, setDrawData_colour]
  rfl

/-- **The draw loop**: the rectangles of the table in the colour set before it. -/
theorem drawLoop (t : List Byte) (n : ℕ) (m : Main) :
    let m' := (List.range n).foldl (fun m x => (m.setDrawData t (x * 4)).sendDraw 0) m
    m'.sent = m.sent ++ (List.range n).map (fun x => rectangle (quad t (x * 4)) m.drawData.colour 0) ∧
      m'.drawData.colour = m.drawData.colour ∧ m'.flags = m.flags := by
  induction n with
  | zero => exact ⟨(List.append_nil _).symm, rfl, rfl⟩
  | succ n ih =>
    obtain ⟨hs, hc, hf⟩ := ih
    rw [List.range_succ, List.foldl_append, List.map_append]
    refine ⟨?_, ?_, hf⟩
    · simp only [List.foldl_cons, List.foldl_nil, sendDraw_setDrawData, hs, hc, List.append_assoc]
      rfl
    · simp only [List.foldl_cons, List.foldl_nil]
      exact (setDrawData_colour _ t _).trans hc

theorem sendFill_sent (v : Byte) (rl : ℕ) (m : Main) :
    (m.sendFill v rl).sent = m.sent ++ [setFill v rl] := by
  simp only [sendFill, altAvalonSpiCommand, Buffer.fill_bytes]
  rfl

/-- One turn of the clock's loop. -/
theorem clockTurn (x : ℕ) (m : Main) :
    let m₁ := m.setDrawColour white
    let m₂ := if x = 0 then m₁.sendFill 0 0 else m₁.sendFill 1 1
    let m' := (m₂.setDrawData clock0 (x * 4)).sendDraw 1
    m'.sent = m.sent ++ [if x = 0 then setFill 0 0 else setFill 1 1,
      rectangle (quad clock0 (x * 4)) white 1] ∧ m'.flags = m.flags := by
  intro m₁ m₂ m'
  have hcol : m₁.drawData.colour = white := setDrawColour_colour m white
  have hsent : m'.sent = m₂.sent ++ [rectangle (quad clock0 (x * 4)) m₂.drawData.colour 1] :=
    sendDraw_setDrawData clock0 (x * 4) 1
  by_cases hx : x = 0
  · have h₂ : m₂ = m₁.sendFill 0 0 := if_pos hx
    have hcol₂ : m₂.drawData.colour = white := by rw [h₂]; exact hcol
    rw [hsent, hcol₂, h₂, sendFill_sent, if_pos hx, List.append_assoc]
    exact ⟨rfl, by show m₂.flags = _; rw [h₂]; rfl⟩
  · have h₂ : m₂ = m₁.sendFill 1 1 := if_neg hx
    have hcol₂ : m₂.drawData.colour = white := by rw [h₂]; exact hcol
    rw [hsent, hcol₂, h₂, sendFill_sent, if_neg hx, List.append_assoc]
    exact ⟨rfl, by show m₂.flags = _; rw [h₂]; rfl⟩

/-- The clock's loop. -/
theorem clockLoop (n : ℕ) (m : Main) :
    let m' := (List.range n).foldl (fun m x =>
      let m₁ := m.setDrawColour white
      let m₂ := if x = 0 then m₁.sendFill 0 0 else m₁.sendFill 1 1
      (m₂.setDrawData clock0 (x * 4)).sendDraw 1) m
    m'.sent = m.sent ++ clock n ∧ m'.flags = m.flags := by
  induction n with
  | zero => exact ⟨(List.append_nil _).symm, rfl⟩
  | succ n ih =>
    obtain ⟨hs, hf⟩ := ih
    rw [List.range_succ, List.foldl_append]
    obtain ⟨hs', hf'⟩ := clockTurn n ((List.range n).foldl _ m)
    refine ⟨hs'.trans ?_, hf'.trans hf⟩
    rw [hs, List.append_assoc, clock, clock, List.range_succ, List.flatMap_append]
    rfl

/-! ### The iteration -/

/-- A table drawn in white. -/
theorem drawTable_white (t : List Byte) (size : ℕ) (m : Main) :
    ((m.setDrawColour white).drawTable t size).sent = m.sent ++ rectangles t size white ∧
      ((m.setDrawColour white).drawTable t size).flags = m.flags := by
  obtain ⟨hs, -, hf⟩ := drawLoop t (size / 4) (m.setDrawColour white)
  have hcol : (m.setDrawColour white).drawData.colour = white := setDrawColour_colour m white
  rw [hcol] at hs
  exact ⟨hs, hf⟩

theorem drawOne_sent (q : List Byte) (m : Main) :
    (m.drawOne q).sent = m.sent ++ [rectangle (quad q 0) m.drawData.colour 0] :=
  sendDraw_setDrawData q 0 0

theorem drawOne_colour (q : List Byte) (m : Main) :
    (m.drawOne q).drawData.colour = m.drawData.colour := setDrawData_colour m q 0

/-- Single rectangles, one after the other. -/
theorem drawOnes (qs : List (List Byte)) : ∀ m : Main,
    (qs.foldl (fun m q => m.drawOne q) m).sent =
        m.sent ++ qs.map (fun q => rectangle (quad q 0) m.drawData.colour 0) ∧
      (qs.foldl (fun m q => m.drawOne q) m).flags = m.flags := by
  induction qs with
  | nil => exact fun m => ⟨(List.append_nil _).symm, rfl⟩
  | cons q qs ih =>
    intro m
    obtain ⟨hs, hf⟩ := ih (m.drawOne q)
    refine ⟨?_, hf⟩
    rw [drawOne_sent, drawOne_colour, List.append_assoc] at hs
    exact hs

/-- The red squares, and a green one over them. -/
theorem squares_sent (q : List Byte) (hq : quad q 0 = q) (m : Main) :
    let m' := ((((m.setDrawColour red).drawOne joyResTR).drawOne joyResBL).drawOne joyResTL).drawOne
      joyResBR
    ((m'.setDrawColour green).drawOne q).sent = m.sent ++
        [rectangle joyResTR red 0, rectangle joyResBL red 0, rectangle joyResTL red 0,
          rectangle joyResBR red 0, rectangle q green 0] ∧
      ((m'.setDrawColour green).drawOne q).flags = m.flags := by
  intro m'
  have hred : (m.setDrawColour red).drawData.colour = red := setDrawColour_colour m red
  have hgreen : (m'.setDrawColour green).drawData.colour = green := setDrawColour_colour m' green
  obtain ⟨hs, hf⟩ := drawOnes [joyResTR, joyResBL, joyResTL, joyResBR] (m.setDrawColour red)
  refine ⟨?_, hf⟩
  rw [drawOne_sent, hgreen, hq]
  show m'.sent ++ _ = _
  rw [hred] at hs
  have hs' : m'.sent = m.sent ++ [rectangle joyResTR red 0, rectangle joyResBL red 0,
      rectangle joyResTL red 0, rectangle joyResBR red 0] := hs
  rw [hs', List.append_assoc]
  rfl

/-- The case of a state. -/
def branch (w : BitVec 32) : State → Main → Main
  | .startUp => caseStartUp
  | .game1 => caseGame1
  | .game2 => caseGame2 (xVal w) (yVal w)
  | .game3 => caseGame3
  | .harder => caseHarder
  | .victory => caseVictory
  | .error => caseDefault

theorem iteration_eq (hs : stateVar w = s.code) : m.iteration w = branch w s { m with sent := [] } := by
  unfold iteration
  rw [hs]
  cases s <;> rfl

/-- A case that clears the screen and spends flag `f`. -/
theorem spend_flag (hs : ∀ i, s.rearms i = false) (hsent : m.sent = []) :
    (m.clearScreen.setFlag f false).sent = [blackout] ∧
      (m.clearScreen.setFlag f false).flags = s.cleared f m.flags := by
  constructor
  · show m.clearScreen.sent = _
    rw [clearScreen_sent, hsent]
    rfl
  · funext i
    show Function.update m.flags f false i = _
    unfold State.cleared
    by_cases hi : i = f
    · rw [hi, Function.update_self, if_pos rfl]
    · rw [Function.update_of_ne hi, if_neg hi, hs, Bool.false_or]

/-- **The screen is cleared** where the state's flag is set. -/
theorem iteration_clear (hs : stateVar w = s.code) (hf : s.flag = some f) (h : m.flags f = true) :
    (m.iteration w).sent = [blackout] ∧ (m.iteration w).flags = s.cleared f m.flags := by
  rw [iteration_eq hs]
  have hclear : ({ m with sent := [] } : Main).clearScreen.sent = [blackout] := clearScreen_sent
  cases s with
  | error => exact absurd hf (by simp [State.flag])
  | startUp =>
    obtain rfl : 0 = f := Option.some.inj hf
    simp only [branch, caseStartUp, h, if_true]
    -- the case sets `flags[5]` as well
    exact ⟨hclear, by funext i; match i with | 0 | 1 | 2 | 3 | 4 | 5 => rfl⟩
  | victory =>
    obtain rfl : 5 = f := Option.some.inj hf
    simp only [branch, caseVictory, h, if_true]
    -- the case sets the other five
    exact ⟨hclear, by funext i; match i with | 0 | 1 | 2 | 3 | 4 | 5 => rfl⟩
  | game1 =>
    obtain rfl : 2 = f := Option.some.inj hf
    simp only [branch, caseGame1, h, if_true]
    exact spend_flag (s := .game1) (fun _ => rfl) rfl
  | game2 =>
    obtain rfl : 1 = f := Option.some.inj hf
    simp only [branch, caseGame2, h, if_true]
    exact spend_flag (s := .game2) (fun _ => rfl) rfl
  | game3 =>
    obtain rfl : 3 = f := Option.some.inj hf
    simp only [branch, caseGame3, caseKnock, h, if_true]
    exact spend_flag (s := .game3) (fun _ => rfl) rfl
  | harder =>
    obtain rfl : 4 = f := Option.some.inj hf
    simp only [branch, caseHarder, caseKnock, h, if_true]
    exact spend_flag (s := .harder) (fun _ => rfl) rfl

/-- **The state's picture is sent** where its flag is not set. -/
theorem iteration_draw (hs : stateVar w = s.code) (hf : s.flag = some f) (h : m.flags f = false) :
    (m.iteration w).sent = s.picture (xVal w) (yVal w) ∧ (m.iteration w).flags = m.flags := by
  rw [iteration_eq hs]
  cases s with
  | error => exact absurd hf (by simp [State.flag])
  | startUp =>
    obtain rfl : 0 = f := Option.some.inj hf
    simp only [branch, caseStartUp]
    rw [if_neg (by simp [h])]
    exact drawTable_white _ _ _
  | game1 =>
    obtain rfl : 2 = f := Option.some.inj hf
    simp only [branch, caseGame1]
    rw [if_neg (by simp [h])]
    exact clockLoop _ _
  | game2 =>
    obtain rfl : 1 = f := Option.some.inj hf
    simp only [branch, caseGame2]
    rw [if_neg (by simp [h])]
    unfold State.picture squares square
    by_cases hy : yVal w > 8 <;> by_cases hx : xVal w < 8
    · rw [if_pos hy, if_pos hx, if_pos hy, if_pos hx]
      exact squares_sent joyResTL rfl _
    · rw [if_pos hy, if_neg hx, if_pos hy, if_neg hx]
      exact squares_sent joyResTR rfl _
    · rw [if_neg hy, if_pos hx, if_neg hy, if_pos hx]
      exact squares_sent joyResBL rfl _
    · rw [if_neg hy, if_neg hx, if_neg hy, if_neg hx]
      exact squares_sent joyResBR rfl _
  | game3 =>
    obtain rfl : 3 = f := Option.some.inj hf
    simp only [branch, caseGame3, caseKnock]
    rw [if_neg (by simp [h])]
    exact drawTable_white _ _ _
  | harder =>
    obtain rfl : 4 = f := Option.some.inj hf
    simp only [branch, caseHarder, caseKnock]
    rw [if_neg (by simp [h])]
    exact drawTable_white _ _ _
  | victory =>
    obtain rfl : 5 = f := Option.some.inj hf
    simp only [branch, caseVictory]
    rw [if_neg (by simp [h])]
    -- writing the coordinates in place is what `set_draw_data` does
    exact drawTable_white victory0 victorySize _

/-- The interior and outline of the default case. -/
def blue : List Byte := [0x00, 0x00, 0xff, 0x00, 0x00, 0xff]

/-- **A word of no state** draws one rectangle, wherever the last one was. -/
theorem iteration_default (h : ∀ (s : State) (f : Fin 6), s.flag = some f → stateVar w ≠ s.code) :
    (m.iteration w).sent = [rectangle m.drawData.position blue 0] ∧ (m.iteration w).flags = m.flags := by
  have hd : m.iteration w = caseDefault { m with sent := [] } := by
    unfold iteration
    rw [if_neg (h .startUp 0 rfl), if_neg (h .game2 1 rfl), if_neg (h .game1 2 rfl),
      if_neg (h .game3 3 rfl), if_neg (h .harder 4 rfl), if_neg (h .victory 5 rfl)]
  obtain ⟨a₁, a₂, a₃, a₄, a₅, a₆, a₇, a₈, a₉, a₁₀, hb⟩ := m.drawData.explicit
  rw [hd]
  refine ⟨?_, rfl⟩
  simp [caseDefault, sendDraw, altAvalonSpiCommand, Buffer.write, hb, rectangle, Buffer.position, blue]

theorem position_length (b : Buffer com drawSize) : b.position.length = 4 := by
  obtain ⟨a₁, a₂, a₃, a₄, a₅, a₆, a₇, a₈, a₉, a₁₀, h⟩ := b.explicit
  rw [Buffer.position, h]; rfl

/-- **What an iteration can send**: `clear_screen`'s rectangle, the picture of the state it
reads, or, where it reads no state, one rectangle. -/
theorem iteration_cases (w : BitVec 32) (m : Main) :
    (∃ (s : State) (f : Fin 6), stateVar w = s.code ∧ s.flag = some f ∧
      ((m.flags f = true ∧ (m.iteration w).sent = [blackout] ∧ (m.iteration w).flags = s.cleared f m.flags) ∨
        (m.flags f = false ∧ (m.iteration w).sent = s.picture (xVal w) (yVal w) ∧
          (m.iteration w).flags = m.flags))) ∨
      ∃ pos, pos.length = 4 ∧ (m.iteration w).sent = [rectangle pos blue 0] := by
  by_cases h : ∃ (s : State) (f : Fin 6), s.flag = some f ∧ stateVar w = s.code
  · obtain ⟨s, f, hf, hs⟩ := h
    refine Or.inl ⟨s, f, hs, hf, ?_⟩
    cases hm : m.flags f
    · exact Or.inr ⟨rfl, iteration_draw hs hf hm⟩
    · exact Or.inl ⟨rfl, iteration_clear hs hf hm⟩
  · push Not at h
    exact Or.inr ⟨_, position_length _, (iteration_default h).1⟩

end Main

/-! ### The commands of a picture -/

/-- Every picture but the clock consists of rectangles. -/
theorem picture_rectangle (x y : Byte) {s : State} (hs : s ≠ .game1) : ∀ c ∈ s.picture x y,
    ∃ pos col, pos.length = 4 ∧ col.length = 6 ∧ c = rectangle pos col 0 := by
  have htable : ∀ t size, ∀ c ∈ rectangles t size white,
      ∃ pos col, pos.length = 4 ∧ col.length = 6 ∧ c = rectangle pos col 0 := by
    intro t size c hc
    obtain ⟨i, -, rfl⟩ := List.mem_map.1 hc
    exact ⟨_, _, rfl, rfl, rfl⟩
  cases s with
  | startUp => exact htable _ _
  | game1 => exact absurd rfl hs
  | game3 => exact htable _ _
  | harder => exact htable _ _
  | victory => exact htable _ _
  | error => intro c hc; exact absurd hc List.not_mem_nil
  | game2 =>
    have hsq : (square x y).length = 4 := by
      unfold square; split_ifs <;> rfl
    intro c hc
    simp only [State.picture, squares, List.mem_cons, List.not_mem_nil, or_false] at hc
    rcases hc with rfl | rfl | rfl | rfl | rfl
    · exact ⟨_, _, rfl, rfl, rfl⟩
    · exact ⟨_, _, rfl, rfl, rfl⟩
    · exact ⟨_, _, rfl, rfl, rfl⟩
    · exact ⟨_, _, rfl, rfl, rfl⟩
    · exact ⟨_, _, hsq, rfl, rfl⟩

/-- **Every picture consists of rectangles and fill modes.** -/
theorem picture_command (x y : Byte) (s : State) : ∀ c ∈ s.picture x y, (∃ v rl, c = setFill v rl) ∨
    ∃ pos col rl, pos.length = 4 ∧ col.length = 6 ∧ c = rectangle pos col rl := by
  by_cases hs : s = .game1
  · subst hs
    intro c hc
    obtain ⟨i, -, hc⟩ := List.mem_flatMap.1 hc
    rcases List.mem_pair.1 hc with rfl | rfl
    · split_ifs
      · exact Or.inl ⟨0, 0, rfl⟩
      · exact Or.inl ⟨1, 1, rfl⟩
    · exact Or.inr ⟨_, _, 1, rfl, rfl, rfl⟩
  · intro c hc
    obtain ⟨pos, col, hp, hcol, rfl⟩ := picture_rectangle x y hs c hc
    exact Or.inr ⟨pos, col, 0, hp, hcol, rfl⟩

/-! ### Whole commands

For any display that takes ten arguments for a rectangle and one for the fill mode. -/

section Whole

variable {args : Byte → Option ℕ}

theorem rectangle_isCommand (ha : args drawCom = some 10) {pos col : List Byte} (hp : pos.length = 4)
    (hc : col.length = 6) (rl : ℕ) : IsCommand args (rectangle pos col rl).writeData := by
  refine ⟨drawCom, pos ++ col, rfl, ?_⟩
  rw [ha, List.length_append, hp, hc]

theorem setFill_isCommand (ha : args fillMode = some 1) (v : Byte) (rl : ℕ) :
    IsCommand args (setFill v rl).writeData := ⟨fillMode, [v], rfl, ha⟩

theorem blackout_isCommand (ha : args drawCom = some 10) : IsCommand args blackout.writeData :=
  ⟨drawCom, _, rfl, ha⟩

end Whole

/-! ### Runs -/

variable {words : ℕ → BitVec 32}

theorem mainAt_succ (n : ℕ) : mainAt words (n + 1) = (mainAt words n).iteration (words n) := rfl

theorem boot_sent : (mainAt words 0).sent = [⟨.main, initdata, 0⟩, blackout] := Main.clearScreen_sent

theorem chunk_boot : chunk words 0 = initdata ++ blackout.transmitted := by
  rw [chunk, boot_sent]; rfl

end Firmware

end BankVault
