import Mathlib.Data.BitVec

/-!
# The keypad: `colseq.sv` and `kpdecode.sv`

`colseq` drives one column low at a time and stays on a column while exactly one of
its rows is pulled low; `kpdecode` names the key at the scanned column and the low
row. The row and column lines are active low.
-/

namespace BankVault

/-- Exactly one row line is low. -/
def oneRowLow (kpr : BitVec 4) : Bool :=
  kpr == 0b0111 || kpr == 0b1011 || kpr == 0b1101 || kpr == 0b1110

/-- The `always_comb` block of `colseq`. -/
def colseqNext (kpc kpr : BitVec 4) : BitVec 4 :=
  if kpc = 0b0111 then (if oneRowLow kpr then 0b0111 else 0b1011)
  else if kpc = 0b1011 then (if oneRowLow kpr then 0b1011 else 0b1101)
  else if kpc = 0b1101 then (if oneRowLow kpr then 0b1101 else 0b1110)
  else if kpc = 0b1110 then (if oneRowLow kpr then 0b1110 else 0b0111)
  else 0b0111

/-- One instant of `colseq`: the register `kpc`, cleared asynchronously. -/
def colseqStep (clk resetN : Bool) (kpr kpc : BitVec 4) : BitVec 4 :=
  if resetN = false then 0b0111
  else if clk then colseqNext kpc kpr
  else kpc

/-- The outputs of `kpdecode`. -/
structure KpDecode where
  kphit : Bool
  num : BitVec 4
  deriving DecidableEq, Repr

/-- The keys of one column, rows 3 down to 0. In the default branch `num` is
`4'bxxxx`; `dontCare` is the value it takes there. -/
def kpdecodeColumn (row3 row2 row1 row0 dontCare kpr : BitVec 4) : KpDecode :=
  if kpr = 0b0111 then ⟨true, row3⟩
  else if kpr = 0b1011 then ⟨true, row2⟩
  else if kpr = 0b1101 then ⟨true, row1⟩
  else if kpr = 0b1110 then ⟨true, row0⟩
  else ⟨false, dontCare⟩

/-- `kpdecode`. -/
def kpdecode (dontCare kpr kpc : BitVec 4) : KpDecode :=
  if kpc = 0b0111 then kpdecodeColumn 1 4 7 14 dontCare kpr
  else if kpc = 0b1011 then kpdecodeColumn 2 5 8 0 dontCare kpr
  else if kpc = 0b1101 then kpdecodeColumn 3 6 9 15 dontCare kpr
  else if kpc = 0b1110 then kpdecodeColumn 10 11 12 13 dontCare kpr
  else ⟨false, dontCare⟩

variable {d d' kpr kpc : BitVec 4}

/-- A column reports a hit exactly when one row is low. -/
theorem kpdecodeColumn_kphit (r3 r2 r1 r0 : BitVec 4) :
    (kpdecodeColumn r3 r2 r1 r0 d kpr).kphit = oneRowLow kpr := by
  unfold kpdecodeColumn oneRowLow
  split_ifs <;> simp_all

/-- What `num` is when no row, or more than one, is low. -/
theorem kpdecodeColumn_miss {r3 r2 r1 r0 : BitVec 4} (h : oneRowLow kpr = false) :
    kpdecodeColumn r3 r2 r1 r0 d kpr = ⟨false, d⟩ := by
  unfold oneRowLow at h
  simp only [Bool.or_eq_false_iff, beq_eq_false_iff_ne] at h
  obtain ⟨⟨⟨h3, h2⟩, h1⟩, h0⟩ := h
  simp only [kpdecodeColumn, if_neg h3, if_neg h2, if_neg h1, if_neg h0]

/-- What `num` is when one row is low does not depend on the don't-care value. -/
theorem kpdecodeColumn_hit {r3 r2 r1 r0 : BitVec 4} (h : oneRowLow kpr = true) (d d' : BitVec 4) :
    kpdecodeColumn r3 r2 r1 r0 d kpr = kpdecodeColumn r3 r2 r1 r0 d' kpr := by
  unfold oneRowLow at h
  simp only [Bool.or_eq_true, beq_iff_eq] at h
  rcases h with ((rfl | rfl) | rfl) | rfl <;> rfl

/-- **A hit**: the scanned column and one low row decide both outputs; otherwise
there is no hit and `num` is the don't-care value. -/
theorem kpdecode_cases (kpr kpc : BitVec 4) :
    (∃ n, ∀ d, kpdecode d kpr kpc = ⟨true, n⟩) ∨ ∀ d, kpdecode d kpr kpc = ⟨false, d⟩ := by
  have col : ∀ r3 r2 r1 r0 : BitVec 4, (∃ n, ∀ d, kpdecodeColumn r3 r2 r1 r0 d kpr = ⟨true, n⟩) ∨
      ∀ d, kpdecodeColumn r3 r2 r1 r0 d kpr = ⟨false, d⟩ := by
    intro r3 r2 r1 r0
    cases h : oneRowLow kpr
    · exact Or.inr fun d => kpdecodeColumn_miss h
    · refine Or.inl ⟨(kpdecodeColumn r3 r2 r1 r0 0 kpr).num, fun d => ?_⟩
      have hk : (kpdecodeColumn r3 r2 r1 r0 0 kpr).kphit = true := by rw [kpdecodeColumn_kphit, h]
      rw [kpdecodeColumn_hit h d 0, ← hk]
  unfold kpdecode
  split_ifs
  · exact col ..
  · exact col ..
  · exact col ..
  · exact col ..
  · exact Or.inr fun _ => rfl

/-- With a key hit, `num` does not depend on the don't-care value. -/
theorem kpdecode_hit (h : (kpdecode d kpr kpc).kphit = true) :
    (kpdecode d kpr kpc).num = (kpdecode d' kpr kpc).num := by
  rcases kpdecode_cases kpr kpc with ⟨n, hn⟩ | hn
  · rw [hn, hn]
  · rw [hn] at h; exact absurd h (by simp)

/-- Without a hit, `num` is the don't-care value. -/
theorem kpdecode_miss (h : (kpdecode d kpr kpc).kphit = false) (d' : BitVec 4) :
    (kpdecode d' kpr kpc).num = d' := by
  rcases kpdecode_cases kpr kpc with ⟨n, hn⟩ | hn
  · rw [hn] at h; exact absurd h (by simp)
  · rw [hn]

end BankVault
