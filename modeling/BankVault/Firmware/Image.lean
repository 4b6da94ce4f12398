import Mathlib.Data.BitVec

/-!
# `image.h`: what is drawn

Each group of four is the start column, start row, end column and end row of one rectangle;
a colour is the outline's three bytes followed by the interior's.

* `tables_wellFormed`: the draw loops read each table to its end, and every rectangle in it
  lies on the panel.
-/

namespace BankVault

abbrev Byte := BitVec 8

namespace Firmware

abbrev spank0Size : ℕ := 136
abbrev spank1Size : ℕ := 244
abbrev victorySize : ℕ := 220
abbrev startSize : ℕ := 52
abbrev clockSize : ℕ := 28

def spank0 : List Byte := [
  13, 9, 22, 13,  10, 12, 13, 15,  13, 15, 19, 16,  19, 16, 22, 21,  10, 21, 19, 24,
  25, 9, 34, 12,  25, 9, 26, 24,  28, 15, 34, 16,  34, 13, 37, 15,  43, 9, 49, 12,
  40, 12, 43, 24,  43, 15, 49, 18,  49, 12, 52, 32,  55, 9, 58, 24,  58, 12, 61, 15,
  61, 15, 64, 16,  64, 9, 67, 24,  70, 9, 73, 24,  79, 9, 82, 12,  76, 12, 79, 15,
  73, 15, 76, 18,  76, 18, 79, 21,  79, 21, 82, 24,  10, 27, 13, 42,  13, 30, 16, 33,
  16, 33, 19, 39,  19, 30, 22, 33,  22, 27, 26, 42,  26, 27, 40, 30,  26, 27, 31, 42,
  31, 33, 37, 36,  31, 39, 40, 42,  46, 27, 49, 36,  46, 39, 49, 42]

def spank1 : List Byte := [
  13, 9, 22, 13,  10, 12, 13, 15,  13, 15, 19, 16,  19, 16, 22, 21,  10, 21, 19, 24,
  25, 9, 34, 12,  25, 9, 26, 24,  28, 15, 34, 16,  34, 13, 37, 15,  43, 9, 49, 12,
  40, 12, 43, 24,  43, 15, 49, 18,  49, 12, 52, 32,  55, 9, 58, 24,  58, 12, 61, 15,
  61, 15, 64, 16,  64, 9, 67, 24,  70, 9, 73, 24,  79, 9, 82, 12,  76, 12, 79, 15,
  73, 15, 76, 18,  76, 18, 79, 21,  79, 21, 82, 24,  10, 27, 13, 42,  13, 30, 16, 33,
  16, 33, 19, 39,  19, 30, 22, 33,  22, 27, 26, 42,  28, 27, 40, 30,  26, 27, 31, 42,
  31, 33, 37, 36,  31, 39, 40, 42,  46, 27, 49, 36,  46, 39, 49, 42,  5, 45, 6, 60,
  6, 51, 14, 54,  14, 45, 17, 60,  23, 45, 29, 48,  20, 48, 23, 60,  23, 51, 29, 54,
  29, 48, 32, 60,  35, 45, 44, 48,  35, 45, 38, 60,  44, 48, 47, 51,  38, 51, 44, 54,
  41, 54, 44, 57,  50, 45, 59, 48,  50, 45, 53, 60,  59, 46, 60, 48,  53, 57, 59, 60,
  65, 45, 77, 46,  65, 45, 68, 60,  68, 51, 74, 54,  68, 57, 77, 60,  80, 45, 89, 48,
  80, 45, 83, 60,  89, 48, 92, 51,  83, 51, 89, 54,  86, 54, 89, 57,  89, 57, 92, 60,
  59, 48, 62, 57]

def victory0 : List Byte := [
  5, 7, 8, 13,  8, 13, 17, 16,  17, 7, 20, 13,  11, 16, 14, 22,  26, 7, 32, 10,
  23, 10, 26, 19,  32, 10, 35, 19,  26, 19, 32, 22,  38, 7, 41, 19,  47, 7, 50, 19,
  41, 19, 47, 22,  8, 25, 14, 28,  5, 26, 8, 40,  14, 28, 17, 40,  8, 31, 14, 34,
  20, 25, 29, 28,  20, 25, 23, 40,  29, 28, 31, 31,  23, 31, 29, 34,  26, 34, 29, 37,
  29, 37, 31, 40,  35, 25, 47, 26,  35, 25, 38, 40,  38, 31, 44, 34,  38, 37, 47, 40,
  59, 25, 65, 28,  56, 28, 59, 40,  59, 31, 65, 34,  65, 28, 68, 40,  5, 43, 8, 58,
  17, 43, 20, 58,  11, 49, 14, 52,  8, 52, 11, 57,  14, 52, 17, 57,  23, 43, 32, 46,
  23, 55, 32, 58,  26, 46, 29, 53,  35, 43, 38, 58,  38, 46, 41, 49,  41, 49, 44, 52,
  44, 43, 47, 58,  50, 43, 53, 58,  53, 46, 56, 49,  56, 49, 59, 52,  59, 43, 62, 58,
  65, 43, 77, 46,  65, 43, 68, 58,  68, 49, 74, 52,  68, 55, 77, 58,  80, 43, 89, 46,
  80, 43, 83, 58,  89, 46, 92, 49,  83, 49, 89, 52,  86, 52, 89, 55,  89, 55, 92, 58]

def start0 : List Byte := [
  16, 19, 26, 24,  11, 24, 16, 39,  16, 39, 26, 44,  26, 24, 31, 29,  26, 34, 31, 39,
  51, 19, 56, 39,  36, 34, 41, 39,  41, 39, 51, 44,  61, 19, 66, 44,  66, 24, 71, 29,
  71, 29, 76, 34,  76, 24, 81, 29,  81, 19, 86, 44]

def clock0 : List Byte := [
  25, 10, 72, 56,  47, 13, 50, 19,  48, 21, 49, 34,  63, 32, 66, 35,  29, 32, 34, 35,
  47, 47, 50, 52,  48, 33, 56, 34]

def white : List Byte := [0xff, 0xff, 0xff, 0xff, 0xff, 0xff]
def green : List Byte := [0x00, 0xff, 0x00, 0x00, 0xff, 0x00]
def red : List Byte := [0xff, 0x00, 0x00, 0xff, 0x00, 0x00]

def joyResTL : List Byte := [13, 13, 34, 18]
def joyResTR : List Byte := [61, 13, 82, 16]
def joyResBL : List Byte := [13, 45, 34, 50]
def joyResBR : List Byte := [61, 45, 82, 50]

/-- The rectangle at byte `i` of a table, `&table[i]`. -/
def quad (table : List Byte) (i : ℕ) : List Byte :=
  [table.getD i 0, table.getD (i + 1) 0, table.getD (i + 2) 0, table.getD (i + 3) 0]

/-- A rectangle of the panel: its corners are in order and on the 96 by 64 pixels. -/
def OnPanel (q : List Byte) : Prop :=
  q.getD 0 0 ≤ q.getD 2 0 ∧ q.getD 2 0 < 96 ∧ q.getD 1 0 ≤ q.getD 3 0 ∧ q.getD 3 0 < 64

instance (q : List Byte) : Decidable (OnPanel q) := inferInstanceAs (Decidable (_ ∧ _ ∧ _ ∧ _))

/-- A table as long as its draw loop reads, of rectangles of the panel. -/
def WellFormed (table : List Byte) (size : ℕ) : Prop :=
  table.length = size ∧ 4 ∣ size ∧ ∀ x, x < size / 4 → OnPanel (quad table (x * 4))

instance (table : List Byte) (size : ℕ) : Decidable (WellFormed table size) :=
  inferInstanceAs (Decidable (_ ∧ _ ∧ _))

/-- **Every table is well formed.** -/
theorem tables_wellFormed : WellFormed start0 startSize ∧ WellFormed clock0 clockSize ∧
    WellFormed spank0 spank0Size ∧ WellFormed spank1 spank1Size ∧ WellFormed victory0 victorySize ∧
    ∀ q ∈ [joyResTL, joyResTR, joyResBL, joyResBR], OnPanel (quad q 0) := by
  decide +kernel

end Firmware

end BankVault
