import BankVault.Proof.Soundness
import Mathlib.Data.Set.Card
import Mathlib.SetTheory.Cardinal.Finite

/-!
# The codes of the joystick game

`rn_generator` takes the four digits out of one ADC result, and neighbouring digits share a bit of
it. So not every code can come up.

* `codes_iff`: the codes that can come up are those whose shared bits agree, 512 of the 4096.
-/

namespace BankVault

open Clocked

namespace Code

/-- The code of an ADC result: its low nine bits. -/
def ofAdc (v : BitVec 9) : Code where
  num1 := v.extractLsb' 2 3
  num2 := v.extractLsb' 6 3
  num3 := v.extractLsb' 4 3
  num4 := v.extractLsb' 0 3

/-- The bits that two digits share agree. -/
structure Linked (c : Code) : Prop where
  bit2 : c.num4.getLsbD 2 = c.num1.getLsbD 0
  bit4 : c.num1.getLsbD 2 = c.num3.getLsbD 0
  bit6 : c.num3.getLsbD 2 = c.num2.getLsbD 0

/-- The ADC bits of a code. -/
def toAdc (c : Code) : BitVec 9 :=
  c.num2 ++ c.num3.extractLsb' 1 1 ++ c.num1 ++ c.num4.extractLsb' 0 2

theorem ext_num {c c' : Code} (h : ∀ i, c.num i = c'.num i) : c = c' := by
  obtain ⟨num1, num2, num3, num4⟩ := c
  obtain ⟨num1', num2', num3', num4'⟩ := c'
  have h0 : num1 = num1' := h 0
  have h1 : num2 = num2' := h 1
  have h2 : num3 = num3' := h 2
  have h3 : num4 = num4' := h 3
  rw [h0, h1, h2, h3]

theorem toAdc_ofAdc (v : BitVec 9) : (ofAdc v).toAdc = v := by
  revert v
  decide +kernel

theorem linked_ofAdc (v : BitVec 9) : (ofAdc v).Linked := by
  refine ⟨?_, ?_, ?_⟩ <;> simp [ofAdc]

theorem ofAdc_toAdc {c : Code} (h : c.Linked) : ofAdc c.toAdc = c := by
  obtain ⟨num1, num2, num3, num4⟩ := c
  obtain ⟨h2, h4, h6⟩ := h
  have key : ∀ n1 n2 n3 n4 : BitVec 3, n4.getLsbD 2 = n1.getLsbD 0 → n1.getLsbD 2 = n3.getLsbD 0 →
      n3.getLsbD 2 = n2.getLsbD 0 → ofAdc (toAdc ⟨n1, n2, n3, n4⟩) = ⟨n1, n2, n3, n4⟩ := by
    decide +kernel
  exact key num1 num2 num3 num4 h2 h4 h6

/-- **The linked codes** are those of the ADC results. -/
theorem linked_iff (c : Code) : c.Linked ↔ ∃ v, ofAdc v = c :=
  ⟨fun h => ⟨c.toAdc, ofAdc_toAdc h⟩, fun ⟨v, hv⟩ => hv ▸ linked_ofAdc v⟩

theorem ofAdc_injective : Function.Injective ofAdc := Function.LeftInverse.injective toAdc_ofAdc

theorem card_linked : {c : Code | c.Linked}.ncard = 512 := by
  have hrange : {c : Code | c.Linked} = Set.range ofAdc := Set.ext linked_iff
  have hcard : Nat.card (BitVec 9) = 512 := by
    rw [Nat.card_congr BitVec.equivFin.toEquiv, Nat.card_fin]
    rfl
  rw [hrange, ← Nat.card_coe_set_eq, Nat.card_range_of_injective ofAdc_injective, hcard]

end Code

variable {s₀ : Vault} {es : ℕ → Ev} {k n e : ℕ}

/-- The code right after an edge outside `game_2`. -/
theorem code_loaded {s : Vault} {ev : Ev} (hr : ev.resetN = true) (hc : ev.clk = true)
    (h : s.currentState ≠ game2) : (s.step ev).code = Code.ofAdc (ev.adcValue.setWidth 9) := by
  have hdigit : ∀ i, ((s.step ev).rNum i).setWidth 3 = Vault.adcDigit ev i := by
    intro i
    rw [Vault.step_rNum_off hr hc h i]
    generalize Vault.adcDigit ev i = b
    revert b
    decide
  have hbits : ∀ (v : BitVec 12) (i : ℕ), i + 3 ≤ 9 → v.extractLsb' i 3 = (v.setWidth 9).extractLsb' i 3 := by
    intro v i hi
    apply BitVec.eq_of_getLsbD_eq
    intro j hj
    simp [hj, show i + j < 9 by omega]
  apply Code.ext_num
  intro i
  rw [Vault.code_num, hdigit]
  match i with
  | 0 => exact hbits _ 2 (by omega)
  | 1 => exact hbits _ 6 (by omega)
  | 2 => exact hbits _ 4 (by omega)
  | _ + 3 => exact hbits _ 0 (by omega)

/-- In a stay in `game_2` the code is that of the ADC result at the entry edge. -/
theorem Stay.code (h : Stay s₀ es game2 e n) :
    (vAt s₀ es n).code = Code.ofAdc ((es e).adcValue.setWidth 9) := by
  have hst : (vAt s₀ es e).currentState = game1 := h.prev rfl
  have hload := code_loaded (h.resetN e le_rfl h.lt) h.clk (s := vAt s₀ es e) (by rw [hst]; decide)
  rw [← vAt_succ] at hload
  rw [← hload]
  apply Code.ext_num
  intro i
  rw [Vault.code_num, Vault.code_num, game2_frozen h i n h.lt le_rfl]

/-! ### Every linked code comes up -/

/-- `quietGame` with an ADC result at the edge into `game_2`. -/
def codeGame (v : BitVec 12) (n : ℕ) : Ev := { quietGame n with adcValue := if n = 71 then v else 0 }

theorem codeGame_before {n : ℕ} (v : BitVec 12) (hn : n < 71) : codeGame v n = quietGame n := by
  unfold codeGame
  rw [if_neg (by omega)]
  rfl

theorem codeGame_starts (v : BitVec 12) : StartsInReset (codeGame v) 4 :=
  ⟨quietGame_starts.low, quietGame_starts.clk, quietGame_starts.clock50⟩

theorem codeGame_code (v : BitVec 12) : Reachable (vAt powerUp (codeGame v) 72) ∧
    (vAt powerUp (codeGame v) 72).currentState = game2 ∧
    (vAt powerUp (codeGame v) 72).code = Code.ofAdc (v.setWidth 9) := by
  have hsame : vAt powerUp (codeGame v) 71 = vAt powerUp quietGame 71 :=
    stAt_congr 71 fun i hi => codeGame_before v hi
  have hstage : (vAt powerUp quietGame 71).currentState = game1 := by decide +kernel
  have hflag : (vAt powerUp quietGame 71).moFlag = true := by decide +kernel
  refine ⟨⟨powerUp, codeGame v, 4, 72, codeGame_starts v, by decide, rfl⟩, ?_, ?_⟩
  · rw [vAt_succ, hsame, Vault.step_currentState_clk rfl rfl, Vault.stateHandler_eq rfl (by rw [hstage]; decide)]
    have hgate : (vAt powerUp quietGame 71).gate (codeGame v 71) = true := by simp [Vault.gate, hstage, hflag]
    rw [hgate, if_pos rfl, hstage]
    rfl
  · rw [vAt_succ, hsame]
    exact code_loaded rfl rfl (by rw [hstage]; decide)

/-- **The codes that can come up** in the joystick game, over all runs from reset, are those whose
shared bits agree: 512 of the 4096. -/
theorem codes_iff : (∀ c : Code, (∃ s, Reachable s ∧ s.currentState = game2 ∧ s.code = c) ↔ c.Linked) ∧
    {c : Code | c.Linked}.ncard = 512 := by
  refine ⟨fun c => ⟨?_, fun hc => ?_⟩, Code.card_linked⟩
  · rintro ⟨s, ⟨s₀, es, k, n, hs, hkn, rfl⟩, hst, rfl⟩
    obtain ⟨e, -, hstay⟩ := stay_of hs hkn (by decide) hst
    rw [hstay.code]
    exact Code.linked_ofAdc _
  · obtain ⟨v, rfl⟩ := (Code.linked_iff c).1 hc
    obtain ⟨hreach, hst, hcode⟩ := codeGame_code (v.setWidth 12)
    refine ⟨_, hreach, hst, ?_⟩
    rw [hcode, BitVec.setWidth_setWidth_of_le v (by decide), BitVec.setWidth_eq]

end BankVault
