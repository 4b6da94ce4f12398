import BankVault.Proof.Open
import BankVault.Rtl.Nets

/-!
# The nets settle, but for one

Three nets read themselves. The two `current_state` blocks are settled by the registers: each
branch drives `next_state`, and `joy_code`'s register is one of its five states once a `clk`
edge has found `reset_n` low. `beep_beep`'s `count` is settled at 0 while no key is hit; while
one is, `count = count + 1` has no solution.

* `nets_settle_iff`: in every reachable state the nets settle if and only if no key is hit.
* `settled_values`: what the model of the lock takes for the nets is what they settle on.
-/

namespace BankVault

open Clocked

variable {i : NetIn} {a : Nets}

/-- The equation of `current_state` in `bankVault`. -/
theorem solves_currentState (x : BitVec 3) :
    Solves (drive i) a .currentState x ↔ x = i.vault.nextState := by
  unfold Solves
  change Vault.stateLogic (Function.update a .currentState x .currentState) i.vault.nextState = x ↔ _
  rw [Function.update_self]
  exact Vault.stateLogic_settles x i.vault.nextState

/-- The equation of `current_state` in `joy_code`, in one of its five states. -/
theorem solves_joyCurrentState (h : i.vault.joyCode.nextState ≤ JoyCode.sPass) (x : BitVec 3) :
    Solves (drive i) a .joyCurrentState x ↔ x = i.vault.joyCode.nextState := by
  unfold Solves
  change JoyCode.stateLogic (Function.update a .joyCurrentState x .joyCurrentState) _ = x ↔ _
  rw [Function.update_self]
  exact JoyCode.stateLogic_settles h x

/-- The equation of `count`. -/
theorem solves_count (x : BitVec 16) :
    Solves (drive i) a .count x ↔ beepCount (a .kphit) x = x := by
  unfold Solves
  change beepCount (Function.update a .count x .kphit) (Function.update a .count x .count) = x ↔ _
  rw [Function.update_self, Function.update_of_ne (by decide)]

/-- **`count` has a stable value only while it is disabled.** -/
theorem beepCount_settles (enable : Bool) : (∃! c, beepCount enable c = c) ↔ enable = false := by
  unfold beepCount
  cases enable with
  | false => exact iff_of_true ⟨0, rfl, fun c hc => hc.symm⟩ rfl
  | true =>
    refine iff_of_false ?_ (by decide)
    rintro ⟨c, hc, -⟩
    change c + 1 = c at hc
    bv_omega

/-- `kphit` is settled by `kpdecode` alone. -/
theorem kphit_below {n : ℕ} (ha : StableBelow (drive i) Net.rank (n + 1) a) :
    a .kphit = (kpdecode i.dontCare i.kpr i.kpc).kphit :=
  (ha .kphit (Nat.succ_pos n)).symm

/-- **The loops settle** while no key is hit. -/
theorem loops_settle (hjoy : i.vault.joyCode.nextState ≤ JoyCode.sPass)
    (hhit : (kpdecode i.dontCare i.kpr i.kpc).kphit = false) :
    LoopsSettle (drive i) Net.reads Net.rank := by
  intro w hw a ha
  obtain rfl | rfl | rfl := Net.mem_reads hw
  · exact ⟨_, (solves_currentState _).2 rfl, fun x hx => (solves_currentState x).1 hx⟩
  · exact ⟨_, (solves_joyCurrentState hjoy _).2 rfl, fun x hx => (solves_joyCurrentState hjoy x).1 hx⟩
  · have hlow : a .kphit = false := (kphit_below ha).trans hhit
    obtain ⟨c, hc, huniq⟩ := (beepCount_settles (a .kphit)).2 hlow
    exact ⟨c, (solves_count c).2 hc, fun x hx => huniq x ((solves_count x).1 hx)⟩

/-- **While a key is hit** no assignment is stable: `count` would have to be its own
successor. -/
theorem not_stable_of_hit (hhit : (kpdecode i.dontCare i.kpr i.kpc).kphit = true) :
    ¬ Stable (drive i) a := by
  intro ha
  have hcount := (solves_count _).1 (ha.self .count)
  rw [kphit_below (n := 0) fun w _ => ha w, hhit] at hcount
  change a .count + 1 = a .count at hcount
  bv_omega

/-- **When the nets settle.** In every state reachable from reset and for every input: the two
`current_state` blocks are settled by `next_state` and by nothing else; and the equations of
all nets together have exactly one solution if and only if no key is hit. -/
theorem nets_settle_iff (i : NetIn) (h : Reachable i.vault) :
    (∀ x, Vault.stateLogic x i.vault.nextState = x ↔ x = i.vault.nextState) ∧
    (∀ x, JoyCode.stateLogic x i.vault.joyCode.nextState = x ↔ x = i.vault.joyCode.nextState) ∧
    ((∃! a, Stable (drive i) a) ↔ (kpdecode i.dontCare i.kpr i.kpc).kphit = false) := by
  have hjoy := (proper_of_reachable h).joy
  refine ⟨fun x => Vault.stateLogic_settles x _, fun x => JoyCode.stateLogic_settles hjoy x, ?_, ?_⟩
  · rintro ⟨a, ha, -⟩
    by_contra hne
    exact not_stable_of_hit (Bool.not_eq_false _ ▸ hne) ha
  · exact fun hhit => (drive_netList i).settles (loops_settle hjoy hhit) Net.rank_lt

/-- **What the nets settle on** is what the model of the lock reads from them. -/
theorem settled_values (h : Reachable i.vault) (ha : Stable (drive i) a) :
    a .currentState = i.vault.currentState ∧ a .joyCurrentState = i.vault.joyCode.currentState ∧
    a .game1En = i.vault.game1En ∧ a .game2En = i.vault.game2En ∧
    a .game3En = i.vault.game3En ∧ a .game4En = i.vault.game4En ∧
    a .gpio3 = i.vault.gpio3 ∧ a .passFlag = i.vault.jamesFlag ∧
    a .startFlag = Vault.startFlag (kpdecode i.dontCare i.kpr i.kpc).num ∧
    a .rgbInput = rgbInput i.adcXValue i.adcYValue i.rgbOutput i.vault.currentState := by
  have hjoy := (proper_of_reachable h).joy
  have hcur : a .currentState = i.vault.currentState := (solves_currentState _).1 (ha.self _)
  have hjcur : a .joyCurrentState = i.vault.joyCode.currentState := by
    rw [JoyCode.currentState_eq hjoy]
    exact (solves_joyCurrentState hjoy _).1 (ha.self _)
  refine ⟨hcur, hjcur, ?_, ?_, ?_, ?_, ?_, ?_, ?_, ?_⟩
  · rw [← ha .game1En, Vault.game1En, ← hcur]; rfl
  · rw [← ha .game2En, Vault.game2En, ← hcur]; rfl
  · rw [← ha .game3En, Vault.game3En, ← hcur]; rfl
  · rw [← ha .game4En, Vault.game4En, ← hcur]; rfl
  · rw [← ha .gpio3, Vault.gpio3, ← hcur]; rfl
  · rw [← ha .passFlag, Vault.jamesFlag, JoyCode.passFlag, ← hjcur]
    change (if a .joyCurrentState = JoyCode.sPass then true else false) = _
    split_ifs with hp
    · rw [hp]; rfl
    · exact (beq_eq_false_iff_ne.2 hp).symm
  · rw [← ha .startFlag]
    change Vault.startFlag (a .kpNum) = _
    rw [← ha .kpNum]
    rfl
  · have hstart : a .startString = startString i.rgbOutput := (ha .startString).symm
    have hgame1 : a .game1String = game1String i.adcXValue i.adcYValue i.rgbOutput := by
      rw [← ha .game1String]
      change 0#4 ++ a .xPos ++ 0#4 ++ a .yPos ++ 0#12 ++ 0b001#3 ++ _ = _
      rw [← ha .xPos, ← ha .yPos]
      rfl
    have hgame2 : a .game2String = game2String i.rgbOutput := (ha .game2String).symm
    have hgame3 : a .game3String = game3String i.rgbOutput := (ha .game3String).symm
    have hharder : a .harderString = harderString i.rgbOutput := (ha .harderString).symm
    have hvictory : a .victoryString = victoryString i.rgbOutput := (ha .victoryString).symm
    rw [← ha .rgbInput, rgbInput, ← hcur, ← hstart, ← hgame1, ← hgame2, ← hgame3, ← hharder, ← hvictory]
    rfl

/-- Key 1 down right after a reset. -/
def keyDown : NetIn where
  vault := vAt powerUp quietGame 4
  kpc := 0b0111
  kpr := 0b0111
  dontCare := 0
  resetN := true
  adcXValue := 0
  adcYValue := 0
  rgbOutput := 0
  digit := 0
  ctTemp := 0

theorem keyDown_reachable : Reachable keyDown.vault :=
  ⟨powerUp, quietGame, 4, 4, quietGame_starts, le_rfl, rfl⟩

theorem nets_settle_iff_keyDown : (∃! a, Stable (drive keyDown) a) ↔
    (kpdecode keyDown.dontCare keyDown.kpr keyDown.kpc).kphit = false :=
  (nets_settle_iff keyDown keyDown_reachable).2.2

/-- **With key 1 down the nets do not settle.** -/
theorem count_unsettled : Reachable keyDown.vault ∧
    kpdecode keyDown.dontCare keyDown.kpr keyDown.kpc = ⟨true, 1⟩ ∧ ¬ ∃! a, Stable (drive keyDown) a := by
  refine ⟨keyDown_reachable, rfl, ?_⟩
  rintro ⟨a, ha, -⟩
  exact not_stable_of_hit rfl ha

end BankVault
