import BankVault.Rtl.Keypad
import Mathlib.Data.Fin.VecNotation
import Mathlib.Data.Fintype.Pi
import Mathlib.Tactic.FinCases

/-!
# The key matrix

The sixteen keys in front of `colseq` and `kpdecode`: a row line is pulled low exactly when
some pressed key of that row stands in a column that is driven low.
-/

namespace BankVault

/-- A key of the matrix, by the lines `kpr[row]` and `kpc[col]` it joins. -/
@[ext]
structure Key where
  row : Fin 4
  col : Fin 4
  deriving DecidableEq, Repr

/-- The key that joins `kpr[row]` and `kpc[col]`. -/
def keyAt (row col : ℕ) : Key := ⟨Fin.ofNat 4 row, Fin.ofNat 4 col⟩

/-- What is printed on a key, rows 0 to 3 and columns 0 to 3. -/
def Key.legend (k : Key) : BitVec 4 :=
  (![![13, 15, 0, 14],
     ![12, 9, 8, 7],
     ![11, 6, 5, 4],
     ![10, 3, 2, 1]] : Fin 4 → Fin 4 → BitVec 4) k.row k.col

/-- The lines that are low where `f` holds. -/
def lowLines (f : Fin 4 → Bool) : BitVec 4 :=
  BitVec.ofBool (!f 3) ++ BitVec.ofBool (!f 2) ++ BitVec.ofBool (!f 1) ++ BitVec.ofBool (!f 0)

/-- The row lines `kpr`, for the pressed keys and the driven columns. -/
def keyMatrix (pressed : Key → Bool) (kpc : BitVec 4) : BitVec 4 :=
  lowLines fun r => decide (∃ c : Fin 4, pressed ⟨r, c⟩ = true ∧ kpc.getLsbD c = false)

/-- The columns with only column `c` low. -/
def scan (c : Fin 4) : BitVec 4 := lowLines fun i => i == c

/-- Exactly one column is driven low. -/
def OneColumn (kpc : BitVec 4) : Prop := ∃ c, kpc = scan c

theorem getLsbD_lowLines (f : Fin 4 → Bool) (r : Fin 4) : (lowLines f).getLsbD r = !f r := by
  revert f r; decide

/-- The scanned column is the only low one. -/
theorem getLsbD_scan (c i : Fin 4) : (scan c).getLsbD i = false ↔ i = c := by
  rw [scan, getLsbD_lowLines]
  simp

/-- **The rows show the keys of the scanned column.** -/
theorem keyMatrix_scan (pressed : Key → Bool) (c : Fin 4) :
    keyMatrix pressed (scan c) = lowLines fun r => pressed ⟨r, c⟩ := by
  unfold keyMatrix
  congr 1
  funext r
  simp only [getLsbD_scan, exists_eq_right]
  exact Bool.decide_coe _

/-- One low row is one pressed key. -/
theorem oneRowLow_lowLines (f : Fin 4 → Bool) :
    oneRowLow (lowLines f) = true ↔ ∃! r, f r = true := by
  unfold ExistsUnique
  revert f; decide

/-- **`colseq` on the matrix**: it stays on a column with one pressed key and otherwise goes on
to the next lower one, from column 0 to column 3. -/
theorem colseqNext_scan (c : Fin 4) (kpr : BitVec 4) :
    colseqNext (scan c) kpr = if oneRowLow kpr then scan c else scan (c - 1) := by
  fin_cases c <;> rfl

/-- An edge of `colseq` drives one column, whatever the register held. -/
theorem oneColumn_colseqNext (kpc kpr : BitVec 4) : OneColumn (colseqNext kpc kpr) := by
  unfold OneColumn colseqNext
  generalize oneRowLow kpr = one
  revert kpc one; decide

/-- `kpdecode` reports a hit when one row is low. -/
theorem kphit_scan (d kpr : BitVec 4) (c : Fin 4) :
    (kpdecode d kpr (scan c)).kphit = oneRowLow kpr := by
  fin_cases c <;> exact kpdecodeColumn_kphit ..

/-- **`kpdecode` on the matrix**: a hit is one pressed key in the scanned column, and `num` is
its legend. -/
theorem kpdecode_scan (d : BitVec 4) (c r : Fin 4) :
    kpdecode d (lowLines fun s => s == r) (scan c) = ⟨true, (Key.mk r c).legend⟩ := by
  revert d c r; decide

end BankVault
