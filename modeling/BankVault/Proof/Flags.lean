import BankVault.Proof.Soundness
import BankVault.Proof.Words

/-!
# Clearing the screen on a change of state

Each state's flag is spent by the first poll of the state and set again only by a clear in
`victory`, or for `victory` itself by a clear in `start_up`. The lock can reach a state
again without that poll in between: after a reset in the middle of a game, or where the
firmware polls too slowly to see it.

* `cleared_iff`: for any sequence of polled states, every change is cleared exactly if every
  state polled again was set again in between.
* `clears_iff`: the same for the firmware polling a run of the lock.
-/

namespace BankVault

open Firmware

namespace Firmware

/-- The state whose clear sets the flag of `s` again. -/
def State.rearming (s : State) : State := if s = .victory then .startUp else .victory

theorem State.flag_of_ne {s : State} (h : s ≠ .error) : ∃ f, s.flag = some f := by
  cases s <;> first | exact absurd rfl h | exact ⟨_, rfl⟩

theorem State.flag_inj {s s' : State} {f : Fin 6} (h : s.flag = some f) (h' : s'.flag = some f) : s = s' := by
  revert f
  cases s <;> cases s' <;> decide

/-- A clear in another state sets the flag of `s` exactly if that is its rearming state. -/
theorem State.rearms_iff {s u : State} {f : Fin 6} (h : s.flag = some f) (hu : u ≠ s) :
    u.rearms f = true ↔ u = s.rearming := by
  revert f hu
  cases s <;> cases u <;> decide

theorem State.rearming_ne (s : State) : s.rearming ≠ s := by cases s <;> decide

variable {words : ℕ → BitVec 32} {s : State} {i j : ℕ}

/-- Every word of the run holds one of the six states. -/
def AllStates (words : ℕ → BitVec 32) : Prop :=
  ∀ j, stateOf (words j) ≠ .error ∧ stateVar (words j) = (stateOf (words j)).code

/-- **Every change of state is cleared**: an iteration that reads another state than the one
before it calls `clear_screen` first. -/
def ClearsOnChange (words : ℕ → BitVec 32) : Prop :=
  ∀ j, stateVar (words (j + 1)) ≠ stateVar (words j) →
    ∃ c rest, (mainAt words (j + 2)).sent = c :: rest ∧ c.caller = .clearScreen

/-- **Every state polled again was set again**: between two visits to a state its rearming
state was polled. -/
def Rearmed (words : ℕ → BitVec 32) : Prop :=
  ∀ i j, i ≤ j → stateOf (words i) = stateOf (words (j + 1)) →
    stateOf (words j) ≠ stateOf (words (j + 1)) →
    ∃ m, i < m ∧ m ≤ j ∧ stateOf (words m) = (stateOf (words (j + 1))).rearming

/-- The flag of `s` is set before iteration `j`. -/
def Armed (words : ℕ → BitVec 32) (j : ℕ) (s : State) : Prop :=
  ∃ f, s.flag = some f ∧ (mainAt words j).flags f = true

theorem armed_zero (hs : s ≠ .error) : Armed words 0 s := by
  obtain ⟨f, hf⟩ := s.flag_of_ne hs
  exact ⟨f, hf, rfl⟩

theorem armed_iff {f : Fin 6} (hf : s.flag = some f) : Armed words j s ↔ (mainAt words j).flags f = true := by
  refine ⟨fun ⟨f', hf', h⟩ => ?_, fun h => ⟨f, hf, h⟩⟩
  obtain rfl : f = f' := Option.some.inj (hf.symm.trans hf')
  exact h

/-- **What one iteration does to a flag**: the poll of its own state spends it, a clear in its
rearming state sets it, and nothing else touches it. -/
theorem armed_succ (hw : AllStates words) (hs : s ≠ .error) : Armed words (j + 1) s ↔
    stateOf (words j) ≠ s ∧
      (Armed words j s ∨ (stateOf (words j) = s.rearming ∧ Armed words j s.rearming)) := by
  obtain ⟨f, hf⟩ := s.flag_of_ne hs
  obtain ⟨hne, hcode⟩ := hw j
  obtain ⟨g, hg⟩ := State.flag_of_ne hne
  rw [armed_iff hf, armed_iff hf, mainAt_succ]
  cases hset : (mainAt words j).flags g
  · -- a picture is drawn: no flag moves
    rw [(Main.iteration_draw hcode hg hset).2]
    refine ⟨fun h => ⟨?_, Or.inl h⟩, ?_⟩
    · rintro rfl
      obtain rfl : g = f := Option.some.inj (hg.symm.trans hf)
      exact absurd h (by simp [hset])
    · rintro ⟨-, h | ⟨hre, harm⟩⟩
      · exact h
      · rw [← hre, armed_iff hg, hset] at harm
        exact absurd harm (by decide)
  · rw [(Main.iteration_clear hcode hg hset).2, State.cleared]
    by_cases hu : stateOf (words j) = s
    · obtain rfl : g = f := Option.some.inj (hg.symm.trans (hu ▸ hf))
      rw [if_pos rfl]
      exact ⟨fun h => absurd h (by decide), fun h => absurd hu h.1⟩
    · have hfg : f ≠ g := fun h => hu (State.flag_inj hg (h ▸ hf))
      rw [if_neg hfg, Bool.or_eq_true, State.rearms_iff hf hu]
      constructor
      · intro h
        refine ⟨hu, ?_⟩
        rcases h with h | h
        · exact Or.inr ⟨h, h ▸ (armed_iff hg).2 hset⟩
        · exact Or.inl h
      · rintro ⟨-, h | ⟨h, -⟩⟩
        · exact Or.inr h
        · exact Or.inl h

/-- An iteration calls `clear_screen` first exactly if the flag of its state is set. -/
theorem clears_first_iff (hw : AllStates words) (j : ℕ) :
    (∃ c rest, (mainAt words (j + 1)).sent = c :: rest ∧ c.caller = .clearScreen) ↔
      Armed words j (stateOf (words j)) := by
  obtain ⟨hne, hcode⟩ := hw j
  obtain ⟨g, hg⟩ := State.flag_of_ne hne
  rw [armed_iff hg, mainAt_succ]
  cases hset : (mainAt words j).flags g
  · refine ⟨fun ⟨c, rest, hsent, hcall⟩ => ?_, fun h => absurd h (by decide)⟩
    rw [(Main.iteration_draw hcode hg hset).1] at hsent
    have hmain := picture_caller _ _ _ c (hsent ▸ List.mem_cons_self ..)
    exact absurd (hmain.symm.trans hcall) (by decide)
  · refine ⟨fun _ => rfl, fun _ => ⟨blackout, [], (Main.iteration_clear hcode hg hset).1, rfl⟩⟩

/-- A flag stays set until its state is polled. -/
theorem armed_until (hw : AllStates words) (hs : s ≠ .error) (h : Armed words i s) (hij : i ≤ j)
    (hno : ∀ m, i ≤ m → m < j → stateOf (words m) ≠ s) : Armed words j s := by
  induction j, hij using Nat.le_induction with
  | base => exact h
  | succ j hij ih =>
    rw [armed_succ hw hs]
    exact ⟨hno j hij (by omega), Or.inl (ih fun m h1 h2 => hno m h1 (by omega))⟩

/-- Once spent it stays clear until its rearming state is polled. -/
theorem spent_until (hw : AllStates words) (hs : s ≠ .error) (h : ¬ Armed words i s) (hij : i ≤ j)
    (hno : ∀ m, i ≤ m → m < j → stateOf (words m) ≠ s.rearming) : ¬ Armed words j s := by
  induction j, hij using Nat.le_induction with
  | base => exact h
  | succ j hij ih =>
    rw [armed_succ hw hs]
    rintro ⟨-, harm | ⟨hre, -⟩⟩
    · exact ih (fun m h1 h2 => hno m h1 (by omega)) harm
    · exact hno j hij (by omega) hre

/-- If every change is cleared, a state polled again was set again. -/
theorem rearmed_of_clears (hw : AllStates words) (h : ClearsOnChange words) : Rearmed words := by
  intro i j hij hsame hchange
  set s := stateOf (words (j + 1)) with hsdef
  by_contra hno
  push Not at hno
  have hs : s ≠ .error := (hw (j + 1)).1
  have hspent : ¬ Armed words (i + 1) s := fun harm => ((armed_succ hw hs).1 harm).1 hsame
  have hstill := spent_until hw hs hspent (show i + 1 ≤ j + 1 by omega)
    fun m h1 h2 => hno m (by omega) (by omega)
  apply hstill
  rw [hsdef]
  exact (clears_first_iff hw (j + 1)).1 (h j fun hvar => hchange (stateOf_congr hvar.symm))

/-- **The entry of the rearming state**: between two visits to `s` there is a first poll of
it, and that one is a change of state. -/
theorem Rearmed.entry (h : Rearmed words) (hij : i ≤ j) (hsame : stateOf (words i) = stateOf (words (j + 1)))
    (hchange : stateOf (words j) ≠ stateOf (words (j + 1))) :
    ∃ m, i ≤ m ∧ m < j ∧ stateOf (words (m + 1)) = (stateOf (words (j + 1))).rearming ∧
      stateOf (words m) ≠ stateOf (words (m + 1)) := by
  set s := stateOf (words (j + 1))
  obtain ⟨m, him, hmj, hm⟩ := h i j hij hsame hchange
  have hi : ¬ stateOf (words i) = s.rearming := fun hi => s.rearming_ne (hi.symm.trans hsame)
  obtain ⟨e, hie, hem, hne, hin⟩ :=
    Clocked.last_entry (P := fun k => stateOf (words k) = s.rearming) (by omega : i ≤ m) hi hm
  have hent : stateOf (words (e + 1)) = s.rearming := hin (e + 1) (by omega) (by omega)
  exact ⟨e, hie, by omega, hent, fun heq => hne (heq.trans hent)⟩

/-- If every state polled again was set again, every change is cleared. -/
theorem clears_of_rearmed (hw : AllStates words) (h : Rearmed words) :
    ∀ j, stateOf (words j) ≠ stateOf (words (j + 1)) → Armed words (j + 1) (stateOf (words (j + 1))) := by
  intro j
  -- strong induction: the rearming poll is an earlier change, hence itself a clear
  induction j using Nat.strong_induction_on with
  | _ j ih =>
    intro hchange
    set s := stateOf (words (j + 1))
    have hs : s ≠ .error := (hw (j + 1)).1
    by_cases hbefore : ∃ i, i ≤ j ∧ stateOf (words i) = s
    · -- the last poll of `s` before this one
      obtain ⟨i₀, hi₀, hs₀⟩ := hbefore
      set i := Nat.findGreatest (fun i => stateOf (words i) = s) j with hidef
      have hi : stateOf (words i) = s := Nat.findGreatest_spec (P := fun i => stateOf (words i) = s) hi₀ hs₀
      have hij : i ≤ j := Nat.findGreatest_le j
      have hlast : ∀ m, i < m → m ≤ j → stateOf (words m) ≠ s := fun m h1 h2 =>
        Nat.findGreatest_is_greatest h1 h2
      obtain ⟨m, him, hmj, hm, hmchange⟩ := h.entry hij hi hchange
      have harm : Armed words (m + 1) s.rearming := hm ▸ ih m hmj hmchange
      have hset : Armed words (m + 2) s := by
        rw [armed_succ hw hs]
        exact ⟨hlast (m + 1) (by omega) (by omega), Or.inr ⟨hm, harm⟩⟩
      exact armed_until hw hs hset (by omega) fun m' h1 h2 => hlast m' (by omega) (by omega)
    · push Not at hbefore
      exact armed_until hw hs (armed_zero hs) (Nat.zero_le _) fun m _ hm => hbefore m (by omega)

/-- **Every change is cleared exactly if every state polled again was set again.** -/
theorem cleared_iff (hw : AllStates words) : ClearsOnChange words ↔ Rearmed words := by
  refine ⟨rearmed_of_clears hw, fun h j hvar => ?_⟩
  rw [clears_first_iff hw (j + 1)]
  apply clears_of_rearmed hw h j
  intro heq
  apply hvar
  rw [(hw (j + 1)).2, (hw j).2, heq]

end Firmware

/-! ### Polling the lock -/

open Firmware

variable {s₀ : Vault} {es : ℕ → Ev} {k : ℕ}

/-- A polling schedule: when each iteration reads the PIO word, in the order of the run and
after its reset, and the other values in the word then. States may be read many times or
missed. -/
structure Polls (k : ℕ) where
  event : ℕ → ℕ
  after : k ≤ event 0
  mono : Monotone event
  adcXValue : ℕ → BitVec 12
  adcYValue : ℕ → BitVec 12
  rgbOutput : ℕ → BitVec 32

namespace Polls

variable (p : Polls k) (s₀ : Vault) (es : ℕ → Ev)

/-- The state of the lock at each poll. -/
def state (j : ℕ) : BitVec 3 := (vAt s₀ es (p.event j)).currentState

/-- The word each iteration reads. -/
def words (j : ℕ) : BitVec 32 :=
  rgbInput (p.adcXValue j) (p.adcYValue j) (p.rgbOutput j) (p.state s₀ es j)

/-- **Between two visits to a state its rearming state is polled**: `victory`, or `start_up`
where the state is `victory`. -/
def RevisitsRearmed : Prop :=
  ∀ i j, i ≤ j → p.state s₀ es i = p.state s₀ es (j + 1) → p.state s₀ es j ≠ p.state s₀ es (j + 1) →
    ∃ m, i < m ∧ m ≤ j ∧ p.state s₀ es m = if p.state s₀ es (j + 1) = victory then startUp else victory

end Polls

/-- The firmware's name of a state of the lock. -/
def lockState (cs : BitVec 3) : State :=
  ([.startUp, .game1, .game2, .game3, .harder, .victory].find? fun s => s.code = cs.setWidth 32).getD .error

theorem lockState_code {cs : BitVec 3} (h : cs ≤ victory) :
    lockState cs ≠ .error ∧ (lockState cs).code = cs.setWidth 32 := by
  revert cs; decide

theorem lockState_inj {cs cs' : BitVec 3} (h : cs ≤ victory) (h' : cs' ≤ victory) :
    lockState cs = lockState cs' ↔ cs = cs' := by
  revert cs cs'; decide

theorem lockState_rearming {cs cs' : BitVec 3} (h : cs ≤ victory) (h' : cs' ≤ victory) :
    lockState cs = (lockState cs').rearming ↔ cs = if cs' = victory then startUp else victory := by
  revert cs cs'; decide

/-- A word of the lock holds its state. -/
theorem stateOf_rgbInput {cs : BitVec 3} (h : cs ≤ victory) (x y : BitVec 12) (out : BitVec 32) :
    stateOf (rgbInput x y out cs) = lockState cs := by
  unfold stateOf lockState
  rw [stateVar_rgbInput, if_pos h]

/-- The lock is in one of the six states at every poll. -/
theorem Polls.state_le (p : Polls k) (h : StartsInReset es k) (s₀ : Vault) (j : ℕ) :
    p.state s₀ es j ≤ victory :=
  h.stage_le s₀ (p.after.trans (p.mono (Nat.zero_le j)))

theorem Polls.allStates (p : Polls k) (h : StartsInReset es k) : AllStates (p.words s₀ es) := by
  intro j
  have hle := p.state_le h s₀ j
  have hst : stateOf (p.words s₀ es j) = lockState (p.state s₀ es j) := stateOf_rgbInput hle _ _ _
  rw [hst]
  refine ⟨(lockState_code hle).1, ?_⟩
  rw [(lockState_code hle).2, Polls.words, stateVar_rgbInput, if_pos hle]

/-- **The screen is cleared on every change of state exactly if, between two visits of the
polls to a state, its rearming state is polled**, in every run of the lock from reset and
for every polling schedule. -/
theorem clears_iff (s₀ : Vault) (es : ℕ → Ev) (k : ℕ) (h : StartsInReset es k) (p : Polls k) :
    ClearsOnChange (p.words s₀ es) ↔ p.RevisitsRearmed s₀ es := by
  have hst : ∀ j, stateOf (p.words s₀ es j) = lockState (p.state s₀ es j) := fun j =>
    stateOf_rgbInput (p.state_le h s₀ j) _ _ _
  have hle : ∀ j, p.state s₀ es j ≤ victory := p.state_le h s₀
  have hre : Rearmed (p.words s₀ es) ↔ p.RevisitsRearmed s₀ es := by
    unfold Rearmed Polls.RevisitsRearmed
    simp only [hst, ne_eq, lockState_inj (hle _) (hle _), lockState_rearming (hle _) (hle _)]
  rw [← hre]
  exact cleared_iff (p.allStates h)

/-- A game that is reset as soon as it has been started. -/
def abandonedGame (n : ℕ) : Ev where
  clk := true
  clock50 := true
  resetN := n ≠ 0 ∧ n ≠ 2
  kpNum := 0xb
  adcValue := 0
  adcXValue := 0
  knockInput := false

theorem abandonedGame_starts : StartsInReset abandonedGame 1 :=
  ⟨by decide, ⟨0, by decide⟩, ⟨0, by decide⟩⟩

/-- A poll after every event. -/
def everyEvent : Polls 1 where
  event j := j + 1
  after := le_refl 1
  mono _ _ h := Nat.succ_le_succ h
  adcXValue _ := 0
  adcYValue _ := 0
  rgbOutput _ := 0

theorem clears_iff_abandonedGame : ClearsOnChange (everyEvent.words powerUp abandonedGame) ↔
    everyEvent.RevisitsRearmed powerUp abandonedGame :=
  clears_iff powerUp abandonedGame 1 abandonedGame_starts everyEvent

/-- **A reset in the middle of a game is drawn over**: the polls see `start_up`, `game_1`
and `start_up` again, and the third one draws without clearing. -/
theorem reset_not_cleared : StartsInReset abandonedGame 1 ∧
    everyEvent.state powerUp abandonedGame 0 = startUp ∧
    everyEvent.state powerUp abandonedGame 1 = game1 ∧
    everyEvent.state powerUp abandonedGame 2 = startUp ∧
    ¬ ClearsOnChange (everyEvent.words powerUp abandonedGame) := by
  refine ⟨abandonedGame_starts, by decide +kernel, by decide +kernel, by decide +kernel, fun h => ?_⟩
  obtain ⟨c, rest, hsent, hcall⟩ := h 1 (by decide +kernel)
  have hdraws : ((mainAt (everyEvent.words powerUp abandonedGame) 3).sent.head?.map fun c => c.caller) =
      some .main := by decide +kernel
  rw [hsent] at hdraws
  exact absurd (hcall.symm.trans (Option.some.inj hdraws)) (by decide)

end BankVault
