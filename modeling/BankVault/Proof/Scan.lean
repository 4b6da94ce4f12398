import BankVault.Clocked.Run
import BankVault.Rtl.Matrix

/-!
# Scanning the keypad

`colseq` and `kpdecode` around the key matrix, for any schedule of pressed keys. One column
is scanned at a time; the scan stops on a column with exactly one pressed key, and a key that
is pressed alone is at most three columns away.

* `column_inv`: one column is low at every moment after the reset.
* `away_run`: how far the scan is from the column of a key pressed alone.
* `keypad_scans`: the four properties together.
-/

namespace BankVault

open Clocked

/-- One instant of the keypad: the clock, the reset, and the keys that are down. -/
structure KeyEv where
  clk : Bool
  resetN : Bool
  pressed : Key → Bool

/-- The column register after `n` instants. -/
def colAt (kpc₀ : BitVec 4) (es : ℕ → KeyEv) (n : ℕ) : BitVec 4 :=
  stAt (fun e kpc => colseqStep e.clk e.resetN (keyMatrix e.pressed kpc) kpc) kpc₀ es n

/-- The outputs of `kpdecode` at instant `n`; `d` is the value of a don't-care `num`. -/
def decodeAt (d kpc₀ : BitVec 4) (es : ℕ → KeyEv) (n : ℕ) : KpDecode :=
  kpdecode d (keyMatrix (es n).pressed (colAt kpc₀ es n)) (colAt kpc₀ es n)

/-- `reset_n` is low over the first `k` instants and high from then on. -/
structure ResetsOnce (es : ℕ → KeyEv) (k : ℕ) : Prop where
  pos : 0 < k
  low : ∀ i, i < k → (es i).resetN = false
  high : ∀ i, k ≤ i → (es i).resetN = true

/-- `key` is down and no other key is. -/
def OnlyKey (pressed : Key → Bool) (key : Key) : Prop := ∀ key', pressed key' = true ↔ key' = key

/-- `key` is the only one of its column that is down. -/
def OnlyInColumn (pressed : Key → Bool) (key : Key) : Prop :=
  ∀ r, pressed ⟨r, key.col⟩ = true ↔ r = key.row

variable {kpc₀ : BitVec 4} {es : ℕ → KeyEv} {k n : ℕ} {c : Fin 4} {key : Key}

theorem OnlyKey.onlyInColumn {pressed : Key → Bool} (h : OnlyKey pressed key) :
    OnlyInColumn pressed key := fun r => by
  rw [h, Key.ext_iff]
  exact and_iff_left rfl

/-- The rows while `key` is the only one of the scanned column that is down. -/
theorem rows_of_onlyInColumn {pressed : Key → Bool} (h : OnlyInColumn pressed key) :
    keyMatrix pressed (scan key.col) = lowLines fun r => r == key.row := by
  rw [keyMatrix_scan]
  congr 1
  funext r
  rw [Bool.eq_iff_iff, h r, beq_iff_eq]

/-- One low row in a scanned column is one of its keys. -/
theorem onlyInColumn_of_hit {pressed : Key → Bool}
    (h : oneRowLow (keyMatrix pressed (scan c)) = true) :
    ∃ r, OnlyInColumn pressed ⟨r, c⟩ := by
  rw [keyMatrix_scan, oneRowLow_lowLines] at h
  obtain ⟨r, hr, huniq⟩ := h
  refine ⟨r, fun s => ⟨huniq s, ?_⟩⟩
  rintro rfl
  exact hr

theorem oneRow_of_onlyInColumn {pressed : Key → Bool} (h : OnlyInColumn pressed key) :
    oneRowLow (keyMatrix pressed (scan key.col)) = true := by
  rw [keyMatrix_scan, oneRowLow_lowLines]
  exact ⟨key.row, (h key.row).2 rfl, fun r hr => (h r).1 hr⟩

/-- **One instant of the scan**: off the clock it rests, at an edge it stays on a column with
one pressed key and otherwise goes on. -/
theorem colAt_succ (hr : (es n).resetN = true) (hc : colAt kpc₀ es n = scan c) :
    colAt kpc₀ es (n + 1) =
      if (es n).clk && !oneRowLow (keyMatrix (es n).pressed (scan c)) then scan (c - 1) else scan c := by
  change colseqStep (es n).clk (es n).resetN (keyMatrix (es n).pressed (colAt kpc₀ es n))
    (colAt kpc₀ es n) = _
  rw [hc, hr]
  unfold colseqStep
  rw [colseqNext_scan]
  cases (es n).clk <;> cases oneRowLow (keyMatrix (es n).pressed (scan c)) <;> rfl

/-- **One column is low** at every moment from the reset on. -/
theorem column_inv (kpc₀ : BitVec 4) (h : ResetsOnce es k) (n : ℕ) (hn : k ≤ n) : OneColumn (colAt kpc₀ es n) := by
  induction n, hn using Nat.le_induction with
  | base =>
    obtain ⟨m, rfl⟩ : ∃ m, k = m + 1 := ⟨k - 1, by have := h.pos; omega⟩
    refine ⟨3, ?_⟩
    change colseqStep (es m).clk (es m).resetN _ _ = _
    rw [h.low m (Nat.lt_succ_self m)]
    rfl
  | succ n hn ih =>
    obtain ⟨c, hc⟩ := ih
    rw [colAt_succ (h.high n hn) hc]
    split_ifs
    · exact ⟨c - 1, rfl⟩
    · exact ⟨c, rfl⟩

/-! ### The way to a key -/

/-- How many columns the scan at `c` is before column `col`. -/
def away (c col : Fin 4) : ℕ := (c - col).val

theorem away_eq_zero {col : Fin 4} : away c col = 0 ↔ c = col := by
  revert c col; decide

theorem away_next {col : Fin 4} (h : c ≠ col) : away (c - 1) col + 1 = away c col := by
  revert c col; decide

theorem away_le (c col : Fin 4) : away c col ≤ 3 := by
  revert c col; decide

/-- One instant of the scan while `key` is the only key down: an edge brings it nearer. -/
theorem away_step (hr : (es n).resetN = true) (hc : colAt kpc₀ es n = scan c)
    (hkey : OnlyKey (es n).pressed key) : ∃ c', colAt kpc₀ es (n + 1) = scan c' ∧
      away c' key.col ≤ away c key.col - if (es n).clk then 1 else 0 := by
  rw [colAt_succ hr hc]
  by_cases hcol : c = key.col
  · have hrow := oneRow_of_onlyInColumn hkey.onlyInColumn
    refine ⟨c, by rw [hcol, hrow]; simp, ?_⟩
    rw [away_eq_zero.2 hcol]
    exact Nat.zero_le _
  · have hrow : oneRowLow (keyMatrix (es n).pressed (scan c)) = false := by
      by_contra hone
      obtain ⟨r, hr⟩ := onlyInColumn_of_hit (Bool.not_eq_false _ ▸ hone)
      have hk := (hkey ⟨r, c⟩).1 ((hr r).2 rfl)
      exact hcol (by rw [← hk])
    rw [hrow]
    have hnext := away_next hcol
    cases (es n).clk with
    | false => exact ⟨c, rfl, by simp⟩
    | true => exact ⟨c - 1, rfl, by simp; omega⟩

/-- **Over a stretch** without a reset in which `key` is the only key down, the scan comes
nearer at every edge of it. -/
theorem away_run {i m : ℕ} {a : ℕ} {c : Fin 4} (hc : colAt kpc₀ es i = scan c) (ha : away c key.col ≤ a)
    (him : i ≤ m) (hgo : ∀ j, i ≤ j → j < m → (es j).resetN = true)
    (honly : ∀ j, i ≤ j → j < m → OnlyKey (es j).pressed key) :
    ∃ c', colAt kpc₀ es m = scan c' ∧ away c' key.col ≤ a := by
  induction m, him using Nat.le_induction with
  | base => exact ⟨c, hc, ha⟩
  | succ m him ih =>
    obtain ⟨c', hc', ha'⟩ := ih (fun j h1 h2 => hgo j h1 (by omega)) (fun j h1 h2 => honly j h1 (by omega))
    obtain ⟨c'', hc'', hle⟩ :=
      away_step (hgo m him (Nat.lt_succ_self m)) hc' (honly m him (Nat.lt_succ_self m))
    exact ⟨c'', hc'', by omega⟩

/-- One edge nearer, and still so at any later point of the stretch. -/
theorem away_edge {i m : ℕ} (hclk : (es i).clk = true) {a : ℕ}
    (hc : ∃ c, colAt kpc₀ es i = scan c ∧ away c key.col ≤ a + 1) (him : i < m)
    (hgo : ∀ j, i ≤ j → j < m → (es j).resetN = true)
    (honly : ∀ j, i ≤ j → j < m → OnlyKey (es j).pressed key) :
    ∃ c, colAt kpc₀ es m = scan c ∧ away c key.col ≤ a := by
  obtain ⟨c, hc, ha⟩ := hc
  obtain ⟨c', hc', hle⟩ := away_step (hgo i le_rfl him) hc (honly i le_rfl him)
  rw [hclk, if_pos rfl] at hle
  exact away_run hc' (by omega) him (fun j h1 h2 => hgo j (by omega) h2) (fun j h1 h2 => honly j (by omega) h2)

/-- **Three edges find the key**: from then on the scan stands on its column. -/
theorem scan_found {e₁ e₂ e₃ m : ℕ} (hcol : OneColumn (colAt kpc₀ es e₁)) (h12 : e₁ < e₂) (h23 : e₂ < e₃)
    (h3m : e₃ < m) (hclk : ∀ j, j = e₁ ∨ j = e₂ ∨ j = e₃ → (es j).clk = true)
    (hgo : ∀ j, e₁ ≤ j → j < m → (es j).resetN = true)
    (honly : ∀ j, e₁ ≤ j → j < m → OnlyKey (es j).pressed key) :
    colAt kpc₀ es m = scan key.col := by
  obtain ⟨c, hc⟩ := hcol
  have at₂ := away_edge (hclk e₁ (by tauto)) ⟨c, hc, away_le c key.col⟩ h12
    (fun j h1 h2 => hgo j h1 (by omega)) (fun j h1 h2 => honly j h1 (by omega))
  have at₃ := away_edge (hclk e₂ (by tauto)) at₂ h23
    (fun j h1 h2 => hgo j (by omega) (by omega)) (fun j h1 h2 => honly j (by omega) (by omega))
  obtain ⟨c', hc', hzero⟩ := away_edge (hclk e₃ (by tauto)) at₃ h3m
    (fun j h1 h2 => hgo j (by omega) h2) (fun j h1 h2 => honly j (by omega) h2)
  rw [hc', away_eq_zero.1 (Nat.le_zero.1 hzero)]

/-- What `kpdecode` makes of the only pressed key of the scanned column. -/
theorem decodeAt_onlyInColumn {d : BitVec 4} (hc : colAt kpc₀ es n = scan key.col)
    (hkey : OnlyInColumn (es n).pressed key) : decodeAt d kpc₀ es n = ⟨true, key.legend⟩ := by
  unfold decodeAt
  rw [hc, rows_of_onlyInColumn hkey, kpdecode_scan]

/-- **The keypad is sound and finds a key.** For every schedule of pressed keys after a
reset: one column is driven low at every moment; a hit names a key that is down, the only one
of the scanned column; the scan stays on a column as long as exactly one of its keys is
down; and once a key has been the only one down over three clock edges, it is reported for
as long as it stays so. -/
theorem keypad_scans (kpc₀ : BitVec 4) (es : ℕ → KeyEv) (k : ℕ) (h : ResetsOnce es k) :
    (∀ n, k ≤ n → OneColumn (colAt kpc₀ es n)) ∧
    (∀ n d, k ≤ n → (decodeAt d kpc₀ es n).kphit = true →
      ∃ key, colAt kpc₀ es n = scan key.col ∧ OnlyInColumn (es n).pressed key ∧
        (decodeAt d kpc₀ es n).num = key.legend) ∧
    (∀ n key, k ≤ n → colAt kpc₀ es n = scan key.col → OnlyInColumn (es n).pressed key →
      colAt kpc₀ es (n + 1) = colAt kpc₀ es n) ∧
    ∀ key e₁ e₂ e₃ m d, k ≤ e₁ → e₁ < e₂ → e₂ < e₃ → e₃ < m →
      (∀ j, j = e₁ ∨ j = e₂ ∨ j = e₃ → (es j).clk = true) →
      (∀ j, e₁ ≤ j → j ≤ m → OnlyKey (es j).pressed key) →
        decodeAt d kpc₀ es m = ⟨true, key.legend⟩ := by
  refine ⟨column_inv kpc₀ h, ?_, ?_, ?_⟩
  · intro n d hn hhit
    obtain ⟨c, hc⟩ := column_inv kpc₀ h n hn
    have hone : oneRowLow (keyMatrix (es n).pressed (scan c)) = true := by
      rw [← kphit_scan d, ← hc]; exact hhit
    obtain ⟨r, hr⟩ := onlyInColumn_of_hit hone
    have hkey : decodeAt d kpc₀ es n = ⟨true, (Key.mk r c).legend⟩ :=
      decodeAt_onlyInColumn (show colAt kpc₀ es n = scan (Key.mk r c).col from hc) hr
    exact ⟨⟨r, c⟩, hc, hr, by rw [hkey]⟩
  · intro n key hn hc hkey
    rw [colAt_succ (h.high n hn) hc, oneRow_of_onlyInColumn hkey, hc]
    simp
  · intro key e₁ e₂ e₃ m d hk h12 h23 h3m hclk honly
    have hcol := scan_found (column_inv kpc₀ h e₁ hk) h12 h23 h3m hclk
      (fun j h1 _ => h.high j (by omega)) (fun j h1 h2 => honly j h1 h2.le)
    exact decodeAt_onlyInColumn hcol (honly m (by omega) le_rfl).onlyInColumn

/-- Key 5 held down after a reset. -/
def holdFive (n : ℕ) : KeyEv where
  clk := true
  resetN := n ≠ 0
  pressed := fun key => key = keyAt 2 2

theorem holdFive_resets : ResetsOnce holdFive 1 where
  pos := by decide
  low := by decide
  high := fun i hi => decide_eq_true (show i ≠ 0 by omega)

theorem keypad_scans_holdFive : decodeAt 0 0 holdFive 4 = ⟨true, 5⟩ :=
  (keypad_scans 0 holdFive 1 holdFive_resets).2.2.2 (keyAt 2 2) 1 2 3 4 0 (by decide) (by decide)
    (by decide) (by decide) (fun _ _ => rfl) (fun _ _ _ _ => decide_eq_true_iff)

end BankVault
