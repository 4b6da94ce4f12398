import BankVault.Clocked.Run
import BankVault.Firmware.Image
import Mathlib.Logic.Function.Basic

/-!
# The display firmware: `graphic_top.c` and `graphic_top.h`

`main` polls a PIO word forever and draws the screen of the state in it. `Main` holds its
variables and the header's command buffer; `sent` are the SPI commands of the current
iteration. `frame_delay` and the `CLEAR_DCN` of `clear_screen` send nothing and are left out.
-/

namespace BankVault

namespace Firmware

abbrev drawCom : Byte := 0x22
abbrev fillMode : Byte := 0x26
abbrev screenWidth : Byte := 0x7f
abbrev screenHeight : Byte := 0x5f
abbrev drawSize : ℕ := 11
abbrev stateMask : BitVec 32 := 0x00000007

/-- A command buffer. Its first byte is the command, which nothing writes. -/
structure Buffer (com : Byte) (size : ℕ) where
  bytes : List Byte
  length_eq : bytes.length = size
  head_eq : bytes.head? = some com
  deriving DecidableEq, Repr

/-- `buffer[i] = v`. -/
def Buffer.write {com : Byte} {size : ℕ} (b : Buffer com size) (i : ℕ) (v : Byte)
    (hi : i ≠ 0 := by decide) : Buffer com size where
  bytes := b.bytes.set i v
  length_eq := by rw [List.length_set, b.length_eq]
  head_eq := by
    rw [List.head?_eq_getElem?, List.getElem?_set_ne hi, ← List.head?_eq_getElem?, b.head_eq]

/-- The function that issued an SPI command. -/
inductive Caller
  | main
  | clearScreen
  deriving DecidableEq, Repr

/-- One call of `alt_avalon_spi_command`. -/
structure SpiCommand where
  caller : Caller
  writeData : List Byte
  readLength : ℕ
  deriving DecidableEq, Repr

/-- The bytes on the wire: the data, and a zero for every byte to be read. -/
def SpiCommand.transmitted (c : SpiCommand) : List Byte :=
  c.writeData ++ List.replicate c.readLength 0

/-- `enum state`. -/
inductive State
  | startUp
  | game1
  | game2
  | game3
  | harder
  | victory
  | error
  deriving DecidableEq, Repr

/-- The values of the enumeration. -/
def State.code : State → BitVec 32
  | .startUp => 0
  | .game1 => 1
  | .game2 => 2
  | .game3 => 3
  | .harder => 4
  | .victory => 5
  | .error => 7

instance neZero_flags : NeZero 6 := ⟨by decide⟩

/-- `main`'s variables and `draw_data`. -/
structure Main where
  drawData : Buffer drawCom drawSize
  fillCom : Buffer fillMode 2
  flags : Fin 6 → Bool
  sent : List SpiCommand

namespace Main

def altAvalonSpiCommand (caller : Caller) (data : List Byte) (readLength : ℕ) (m : Main) : Main :=
  { m with sent := m.sent ++ [⟨caller, data, readLength⟩] }

/-- `alt_avalon_spi_command(…, DRAW_SIZE, draw_data, readLength, …)`. -/
def sendDraw (readLength : ℕ) (m : Main) : Main :=
  m.altAvalonSpiCommand .main m.drawData.bytes readLength

/-- `fill_com[1] = v`, and `fill_com` sent. -/
def sendFill (v : Byte) (readLength : ℕ) (m : Main) : Main :=
  let m' := { m with fillCom := m.fillCom.write 1 v }
  m'.altAvalonSpiCommand .main m'.fillCom.bytes readLength

def clearScreen (m : Main) : Main :=
  let m' := { m with
    drawData := (((((((((m.drawData.write 1 0x00).write 2 0x00).write 3 screenHeight).write 4
      screenWidth).write 5 0x00).write 6 0x00).write 7 0x00).write 8 0x00).write 9 0x00).write 10 0x00 }
  m'.altAvalonSpiCommand .clearScreen m'.drawData.bytes 0

def setDrawColour (col : List Byte) (m : Main) : Main :=
  { m with
    drawData := (((((m.drawData.write 5 (col.getD 0 0)).write 6 (col.getD 1 0)).write 7
      (col.getD 2 0)).write 8 (col.getD 3 0)).write 9 (col.getD 4 0)).write 10 (col.getD 5 0) }

/-- `set_draw_data(&table[i])`. -/
def setDrawData (table : List Byte) (i : ℕ) (m : Main) : Main :=
  { m with
    drawData := (((m.drawData.write 1 (table.getD i 0)).write 2 (table.getD (i + 1) 0)).write 3
      (table.getD (i + 2) 0)).write 4 (table.getD (i + 3) 0) }

/-- The draw loop over a table. -/
def drawTable (table : List Byte) (size : ℕ) (m : Main) : Main :=
  (List.range (size / 4)).foldl (fun m x => (m.setDrawData table (x * 4)).sendDraw 0) m

/-- A single rectangle. -/
def drawOne (q : List Byte) (m : Main) : Main := (m.setDrawData q 0).sendDraw 0

def setFlag (i : Fin 6) (v : Bool) (m : Main) : Main := { m with flags := Function.update m.flags i v }

/-! ### The cases of the switch -/

def caseStartUp (m : Main) : Main :=
  if m.flags 0 then (m.clearScreen.setFlag 0 false).setFlag 5 true
  else (m.setDrawColour white).drawTable start0 startSize

def caseGame2 (xVal yVal : Byte) (m : Main) : Main :=
  if m.flags 1 then m.clearScreen.setFlag 1 false
  else
    let m' := ((((m.setDrawColour red).drawOne joyResTR).drawOne joyResBL).drawOne joyResTL).drawOne
      joyResBR
    if yVal > 8 then
      if xVal < 8 then (m'.setDrawColour green).drawOne joyResTL
      else (m'.setDrawColour green).drawOne joyResTR
    else
      if xVal < 8 then (m'.setDrawColour green).drawOne joyResBL
      else (m'.setDrawColour green).drawOne joyResBR

def caseGame1 (m : Main) : Main :=
  if m.flags 2 then m.clearScreen.setFlag 2 false
  else (List.range (clockSize / 4)).foldl (fun m x =>
    let m₁ := m.setDrawColour white
    -- the first rectangle is unfilled
    let m₂ := if x = 0 then m₁.sendFill 0 0 else m₁.sendFill 1 1
    (m₂.setDrawData clock0 (x * 4)).sendDraw 1) m

/-- The case of a knock stage: `flags[f]`, and a table drawn in white. -/
def caseKnock (f : Fin 6) (table : List Byte) (size : ℕ) (m : Main) : Main :=
  if m.flags f then m.clearScreen.setFlag f false
  else (m.setDrawColour white).drawTable table size

def caseGame3 : Main → Main := caseKnock 3 spank0 spank0Size

def caseHarder : Main → Main := caseKnock 4 spank1 spank1Size

def caseVictory (m : Main) : Main :=
  if m.flags 5 then
    (((((m.clearScreen.setFlag 5 false).setFlag 0 true).setFlag 1 true).setFlag 2 true).setFlag 3
      true).setFlag 4 true
  else (List.range (victorySize / 4)).foldl (fun m x =>
    -- the coordinates are written here, not by `set_draw_data`
    let m' := { m with
      drawData := (((m.drawData.write 1 (victory0.getD (x * 4) 0)).write 2
        (victory0.getD (x * 4 + 1) 0)).write 3 (victory0.getD (x * 4 + 2) 0)).write 4
        (victory0.getD (x * 4 + 3) 0) }
    m'.sendDraw 0) (m.setDrawColour white)

def caseDefault (m : Main) : Main :=
  sendDraw 0 { m with
    drawData := (((((m.drawData.write 5 0x00).write 6 0x00).write 7 0xff).write 8 0x00).write 9
      0x00).write 10 0xff }

end Main

/-! ### The polling loop -/

def stateVar (pioInput : BitVec 32) : BitVec 32 := (pioInput >>> 1) &&& stateMask

/-- `x_val`. -/
def xVal (pioInput : BitVec 32) : Byte := ((pioInput >>> 24) &&& 0xf).setWidth 8

/-- `y_val`. -/
def yVal (pioInput : BitVec 32) : Byte := ((pioInput >>> 16) &&& 0xf).setWidth 8

/-- One iteration of the loop, on the PIO word it reads. -/
def Main.iteration (w : BitVec 32) (m : Main) : Main :=
  let m' := { m with sent := [] }
  if stateVar w = State.startUp.code then m'.caseStartUp
  else if stateVar w = State.game2.code then m'.caseGame2 (xVal w) (yVal w)
  else if stateVar w = State.game1.code then m'.caseGame1
  else if stateVar w = State.game3.code then m'.caseGame3
  else if stateVar w = State.harder.code then m'.caseHarder
  else if stateVar w = State.victory.code then m'.caseVictory
  else m'.caseDefault

def initdata : List Byte := [
  0xAE, 0x81, 0xFF, 0x82, 0xFF, 0x83, 0xFF,
  0x87, 0x06, 0x8A, 0x64, 0x8B, 0x78, 0x8C,
  0x64, 0xA0, 0x73, 0xA1, 0x00, 0xA2, 0x00,
  0xA4, 0xA8, 0x3F, 0xAD, 0x8E, 0xB0, 0x00,
  0xB1, 0x31, 0xB3, 0x10, 0xBB, 0x3A, 0xBE,
  0x3E, 0x2E, 0xAF, 0x26, 0x01]

/-- The initial values of the variables. -/
def Main.initial : Main where
  drawData := ⟨[drawCom, 0x00, 0x00, screenWidth, screenHeight, 0x00, 0x00, 0x00, 0x00, 0x00, 0x00], rfl, rfl⟩
  fillCom := ⟨[fillMode, 1], rfl, rfl⟩
  flags := fun _ => true
  sent := []

/-- `main` before its loop. -/
def Main.boot : Main := (Main.initial.altAvalonSpiCommand .main initdata 0).clearScreen

/-- `main` after `n` iterations, on the words it reads. -/
def mainAt (words : ℕ → BitVec 32) (n : ℕ) : Main := Clocked.stAt Main.iteration Main.boot words n

/-- The bytes transmitted before the loop (`chunk 0`) and by iteration `n` (`chunk (n + 1)`). -/
def chunk (words : ℕ → BitVec 32) (n : ℕ) : List Byte :=
  (mainAt words n).sent.flatMap SpiCommand.transmitted

/-- Everything transmitted before iteration `n`. -/
def transmitted (words : ℕ → BitVec 32) (n : ℕ) : List Byte :=
  (List.range (n + 1)).flatMap (chunk words)

end Firmware

end BankVault
