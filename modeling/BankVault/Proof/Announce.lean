import BankVault.Firmware.Wired
import BankVault.Proof.Open
import BankVault.Proof.PanelPins
import BankVault.Proof.Provenance
import BankVault.Proof.Words

/-!
# What the panel says about the lock

The whole system, from the lock's stage to the pixels. A pixel of the panel has its colour from a
word that the processor has read, and a word holds the stage the lock was in.

* `panel_honest`: at any moment, also in the middle of a frame, a coloured pixel is from the
  picture of a stage the lock has been in, and a telltale of the victory from a lock that was opened.
* `panel_follows`: once the lock stays in a stage, the panel comes to show its picture.
* `announced_iff`: so in a run without another reset the victory is announced exactly if the lock
  is opened.
-/

namespace BankVault

open Clocked Wire Paint

namespace Firmware

/-- **A telltale of a state**: a pixel that its picture shows in a colour in which no other
picture paints it. -/
structure Telltale (s : State) (a : Pixel) (c : Colour) : Prop where
  shown : s.patch 0 0 a = some c
  coloured : c ≠ black
  only : ∀ s' : State, s'.Paints 0 0 a c → s' = s

variable {s₀ : Vault} {vs : ℕ → Ev} {adcY : ℕ → BitVec 12} {es : ℕ → BusEv} {t : ℕ → ℕ} {n m k : ℕ}

/-! ### The words -/

/-- The picture of a word of the lock does not depend on the stick: the word of `game_2` has no
position fields, and no other picture reads them. -/
theorem picture_rgbInput (x y : BitVec 12) (out : BitVec 32) {cs : BitVec 3} {s : State}
    (hs : s.code = cs.setWidth 32) (hcs : cs ≤ victory) :
    s.picture (xVal (rgbInput x y out cs)) (yVal (rgbInput x y out cs)) = s.picture 0 0 := by
  cases s with
  | game2 =>
    have hgame : cs = game2 := by
      revert cs
      decide
    obtain ⟨hx, hy⟩ := position_game2 x y out
    rw [hgame, hx, hy]
  | _ => rfl

/-- The state of a stage. -/
theorem exists_state {cs : BitVec 3} (hcs : cs ≤ victory) :
    ∃ s : State, s ≠ .error ∧ s.code = cs.setWidth 32 := by
  have hc : cs = startUp ∨ cs = game1 ∨ cs = game2 ∨ cs = game3 ∨ cs = harder ∨ cs = victory := by
    bv_omega
  rcases hc with rfl | rfl | rfl | rfl | rfl | rfl
  · exact ⟨.startUp, by decide, rfl⟩
  · exact ⟨.game1, by decide, rfl⟩
  · exact ⟨.game2, by decide, rfl⟩
  · exact ⟨.game3, by decide, rfl⟩
  · exact ⟨.harder, by decide, rfl⟩
  · exact ⟨.victory, by decide, rfl⟩

/-- **A word that `main` reads holds the stage of that instant.** -/
theorem Wired.polled (hw : Wired s₀ vs adcY es t) {w : BitVec 32}
    (h : w ∈ (processorAt es n).polled (es n)) : Polls es n ∧ w =
      rgbInput (vs (t n)).adcXValue (adcY (t n)) (processorAt es n).pio.outPort (vAt s₀ vs (t n)).currentState := by
  cases he : es n with
  | stall i =>
    rw [he] at h
    exact absurd h List.not_mem_nil
  | access i₁ i₂ =>
    rw [he] at h
    cases hpc : (processorAt es n).pc with
    | poll =>
      unfold Processor.polled at h
      rw [hpc] at h
      rw [List.mem_singleton.1 h]
      exact ⟨⟨hpc, by rw [he]; exact trivial⟩, hw.word n i₁ i₂ he⟩
    | _ =>
      unfold Processor.polled at h
      rw [hpc] at h
      exact absurd h List.not_mem_nil

/-- A word read from event `m` on, with the event that has read it. -/
theorem wordsRead_from (h : m ≤ n) {j : ℕ} (hm : (polledWords es m).length ≤ j)
    (hn : j < (polledWords es n).length) :
    ∃ i, m ≤ i ∧ i < n ∧ wordsRead es n j ∈ (processorAt es i).polled (es i) := by
  obtain ⟨xs, hxs, hmem⟩ : ∃ xs, polledWords es n = polledWords es m ++ xs ∧
      ∀ w ∈ xs, ∃ i, m ≤ i ∧ i < n ∧ w ∈ (processorAt es i).polled (es i) := log_from h
  have hlt : j - (polledWords es m).length < xs.length := by
    rw [hxs, List.length_append] at hn
    omega
  apply hmem
  rw [wordsRead, hxs, List.getD_eq_getElem?_getD, List.getElem?_append_right hm,
    List.getElem?_eq_getElem hlt, Option.getD_some]
  exact List.getElem_mem hlt

/-! ### At any moment -/

theorem panelBits_mono (h : m ≤ n) : panelBits es m <+: panelBits es n := by
  obtain ⟨bs, hbs, -⟩ : ∃ bs, panelBits es n = panelBits es m ++ bs ∧ _ := log_from h
  exact ⟨bs, hbs.symm⟩

/-- Once `main` is in its loop the panel has been sent the boot sequence. -/
theorem Booted.boot (h : Booted es n) (words : ℕ → BitVec 32) :
    chunk words 0 <+: assemble 8 (panelBits es n) := by
  obtain ⟨m, hmn, hpc⟩ := h
  have hsent : chunk words 0 <+: assemble 8 (panelBits es m) := by
    rw [assemble_poll hpc, transmitted_frames]
    exact List.prefix_append _ _
  exact hsent.trans (assemble_mono (panelBits_mono hmn))

/-- **Where the colour of a pixel comes from.** -/
theorem Wired.honest (hw : Wired s₀ vs adcY es t) (hs : StartsInReset vs k) (hk : k ≤ t 0) (p₀ : Panel)
    (hb : Booted es n) (a : Pixel) :
    (panelAt p₀ es n).pixels a = black ∨ ∃ (m : ℕ) (s : State), m < n ∧ Polls es m ∧
      s.code = (vAt s₀ vs (t m)).currentState.setWidth 32 ∧ s.Paints 0 0 a ((panelAt p₀ es n).pixels a) := by
  have hbytes : assemble 8 (panelBits es n) <+: transmitted (wordsRead es n) (polledWords es n).length :=
    assemble_brokenOff (by decide) (panelBits_sent es n)
  rcases provenance p₀ _ (hb.boot _) hbytes a with h | ⟨j, hj, q, hq, h⟩
  · exact Or.inl h
  · obtain ⟨m, -, hmn, hmem⟩ := wordsRead_from (Nat.zero_le n) (Nat.zero_le j) hj
    obtain ⟨hpoll, hword⟩ := hw.polled hmem
    have hle : (vAt s₀ vs (t m)).currentState ≤ victory :=
      hs.stage_le s₀ (hk.trans (hw.mono (Nat.zero_le m)))
    obtain ⟨s, hne, hcode⟩ := exists_state hle
    have hvar : stateVar (wordsRead es n j) = s.code := by
      rw [hword, stateVar_rgbInput, if_pos hle, hcode]
    rcases iteration_paints hvar hne hq h with hblack | hpaints
    · exact Or.inl hblack
    · refine Or.inr ⟨m, s, hmn, hpoll, hcode, ?_⟩
      unfold State.Paints at hpaints ⊢
      rw [hword, picture_rgbInput _ _ _ hcode hle] at hpaints
      exact hpaints

/-- A telltale of the victory is from an instant at which the lock was in `victory`. -/
theorem Wired.announced (hw : Wired s₀ vs adcY es t) (hs : StartsInReset vs k) (hk : k ≤ t 0) {p₀ : Panel}
    (hb : Booted es n) {a : Pixel} {c : Colour} (hc : Telltale .victory a c)
    (h : (panelAt p₀ es n).pixels a = c) : ∃ m, m < n ∧ (vAt s₀ vs (t m)).currentState = victory := by
  rcases hw.honest hs hk p₀ hb a with hblack | ⟨m, s, hmn, -, hcode, hpaints⟩
  · exact absurd (h.symm.trans hblack) hc.coloured
  · rw [h] at hpaints
    obtain rfl := hc.only s hpaints
    refine ⟨m, hmn, ?_⟩
    generalize (vAt s₀ vs (t m)).currentState = cs at hcode
    revert cs
    decide

/-- **The panel is honest.** In every run of the whole system in which the lock has been reset
before the processor starts, at every moment after the boot sequence: a pixel is black, or in a
colour in which it is painted by the picture of a stage that the lock was in at an earlier poll;
and a telltale of the victory means that the vault was opened, with all that this takes. -/
theorem panel_honest (s₀ : Vault) (vs : ℕ → Ev) (adcY : ℕ → BitVec 12) (es : ℕ → BusEv) (t : ℕ → ℕ) (k n : ℕ)
    (hs : StartsInReset vs k) (hw : Wired s₀ vs adcY es t) (hk : k ≤ t 0) (p₀ : Panel) (hb : Booted es n)
    (a : Pixel) :
    ((panelAt p₀ es n).pixels a = black ∨ ∃ (m : ℕ) (s : State), m < n ∧ Polls es m ∧
      s.code = (vAt s₀ vs (t m)).currentState.setWidth 32 ∧
      s.Paints 0 0 a ((panelAt p₀ es n).pixels a)) ∧
    (∀ c, Telltale .victory a c → (panelAt p₀ es n).pixels a = c →
      ∃ m e1 e2 e3 e4 e5, m < n ∧ Opened s₀ vs k (t m) e1 e2 e3 e4 e5) := by
  refine ⟨hw.honest hs hk p₀ hb a, fun c hc h => ?_⟩
  obtain ⟨m, hmn, hv⟩ := hw.announced hs hk hb hc h
  obtain ⟨e1, e2, e3, e4, e5, ho⟩ := opened_of_victory hs (hk.trans (hw.mono (Nat.zero_le m))) hv
  exact ⟨m, e1, e2, e3, e4, e5, hmn, ho⟩

/-! ### In the end -/

theorem polledWords_mono (h : m ≤ n) : (polledWords es m).length ≤ (polledWords es n).length := by
  obtain ⟨xs, hxs, -⟩ : ∃ xs, polledWords es n = polledWords es m ++ xs ∧ _ := log_from h
  rw [hxs, List.length_append]
  exact Nat.le_add_right _ _

theorem polledWords_poll (h : Polls es n) : (polledWords es (n + 1)).length = (polledWords es n).length + 1 := by
  obtain ⟨hpc, hacc⟩ := h
  rw [polledWords_succ, List.length_append]
  congr 1
  cases he : es n with
  | stall i =>
    rw [he] at hacc
    exact hacc.elim
  | access i₁ i₂ =>
    unfold Processor.polled
    rw [hpc]
    rfl

/-- **The panel follows a lock that stays in a stage.** -/
theorem Wired.follows (hw : Wired s₀ vs adcY es t) (htime : ∀ i, ∃ n, i ≤ t n)
    (hrec : Recurring BusEv.isAccess es) {s : State} (hne : s ≠ .error) {i : ℕ}
    (hstay : ∀ j, i ≤ j → s.code = (vAt s₀ vs j).currentState.setWidth 32) :
    ∃ N, ∀ n, N ≤ n → (processorAt es n).pc = .poll → ∀ (p₀ : Panel) (a : Pixel) (c : Colour),
      s.patch 0 0 a = some c → (panelAt p₀ es n).pixels a = c := by
  obtain ⟨n₀, hn₀⟩ := htime i
  -- two more polls, the first of which may be spent on clearing
  obtain ⟨m₁, hm₁, hpoll₁⟩ := next_poll hrec n₀
  obtain ⟨m₂, hm₂, hpoll₂⟩ := next_poll hrec (m₁ + 1)
  refine ⟨m₂ + 1, fun n hn hpc p₀ a c hc => ?_⟩
  have hlen : (polledWords es n₀).length + 2 ≤ (polledWords es n).length := by
    have h₁ : (polledWords es n₀).length ≤ _ := polledWords_mono hm₁
    have h₂ : (polledWords es (m₁ + 1)).length ≤ _ := polledWords_mono hm₂
    have h₃ : (polledWords es (m₂ + 1)).length ≤ _ := polledWords_mono hn
    rw [polledWords_poll hpoll₁] at h₂
    rw [polledWords_poll hpoll₂] at h₃
    omega
  have hword : ∀ j, (polledWords es n₀).length ≤ j → j < (polledWords es n).length →
      stateVar (wordsRead es n j) = s.code ∧
        s.picture (xVal (wordsRead es n j)) (yVal (wordsRead es n j)) = s.picture 0 0 := by
    intro j hj hjn
    obtain ⟨m, hm, -, hmem⟩ := wordsRead_from (by omega : n₀ ≤ n) hj hjn
    obtain ⟨-, heq⟩ := hw.polled hmem
    have hcode := hstay (t m) (hn₀.trans (hw.mono hm))
    have hle : (vAt s₀ vs (t m)).currentState ≤ victory := by
      generalize (vAt s₀ vs (t m)).currentState = cs at hcode
      cases s with
      | error => exact absurd rfl hne
      | _ => revert cs; decide
    rw [heq, stateVar_rgbInput, if_pos hle, hcode]
    exact ⟨rfl, picture_rgbInput _ _ _ hcode hle⟩
  obtain ⟨j, hj⟩ : ∃ j, (polledWords es n).length = j + 1 := ⟨(polledWords es n).length - 1, by omega⟩
  obtain ⟨px, hpx⟩ := display_settles p₀ hne (fun j h₁ h₂ => (hword j h₁ h₂).1)
    (by omega : (polledWords es n₀).length < j) (by omega : j < (polledWords es n).length)
  have hpic := (hword j (by omega) (by omega)).2
  have hpanel : panelAt p₀ es n = (displayAt p₀ (wordsRead es n) (j + 1)).device := by
    rw [panelAt, assemble_poll hpc, hj, displayAt]
  rw [hpanel, hpx]
  apply Patch.apply_of_some
  rw [State.patch, hpic]
  exact hc

/-- **The panel follows the lock.** In every run of the whole system in which time goes on and the
processor goes on making accesses: once the lock stays in a stage, from some event on the panel
shows the picture of that stage whenever `main` is at its next read, whatever it showed before. Where
nothing of the picture is painted, remains of earlier stages may stay. -/
theorem panel_follows (s₀ : Vault) (vs : ℕ → Ev) (adcY : ℕ → BitVec 12) (es : ℕ → BusEv) (t : ℕ → ℕ)
    (hw : Wired s₀ vs adcY es t) (htime : ∀ i, ∃ n, i ≤ t n) (hrec : Recurring BusEv.isAccess es)
    (s : State) (hne : s ≠ .error) (i : ℕ)
    (hstay : ∀ j, i ≤ j → s.code = (vAt s₀ vs j).currentState.setWidth 32) :
    ∃ N, ∀ n, N ≤ n → (processorAt es n).pc = .poll → ∀ (p₀ : Panel) (a : Pixel) (c : Colour),
      s.patch 0 0 a = some c → (panelAt p₀ es n).pixels a = c :=
  hw.follows htime hrec hne hstay

/-- Without a reset the lock stays in `victory`. -/
theorem victory_stays {i : ℕ} (hv : (vAt s₀ vs i).currentState = victory)
    (hhigh : ∀ j, i ≤ j → (vs j).resetN = true) : ∀ j, i ≤ j → (vAt s₀ vs j).currentState = victory := by
  intro j hj
  induction j, hj using Nat.le_induction with
  | base => exact hv
  | succ j hj ih =>
    have hr := hhigh j hj
    rw [vAt_succ]
    cases hc : (vs j).clk with
    | false => rw [Vault.step_currentState_off hr hc, ih]
    | true =>
      rw [Vault.step_currentState_clk hr hc, Vault.stateHandler_eq hr (by rw [ih]; decide), ih]
      have hgate : (vAt s₀ vs j).gate (vs j) = false := by simp [Vault.gate, ih]
      rw [hgate]
      rfl

/-- **The victory is announced exactly if the vault is opened.** In every run of the whole system
that starts in reset and is not reset again, in which time goes on and the processor goes on making
accesses, a telltale of the victory comes to be on the panel if and only if the lock comes into
`victory`. -/
theorem announced_iff (s₀ : Vault) (vs : ℕ → Ev) (adcY : ℕ → BitVec 12) (es : ℕ → BusEv) (t : ℕ → ℕ) (k : ℕ)
    (hs : StartsInReset vs k) (hhigh : ∀ j, k ≤ j → (vs j).resetN = true) (hw : Wired s₀ vs adcY es t)
    (hk : k ≤ t 0) (htime : ∀ i, ∃ n, i ≤ t n) (hrec : Recurring BusEv.isAccess es) (p₀ : Panel)
    (a : Pixel) (c : Colour) (hc : Telltale .victory a c) :
    (∃ n, Booted es n ∧ (panelAt p₀ es n).pixels a = c) ↔
      ∃ j, k ≤ j ∧ (vAt s₀ vs j).currentState = victory := by
  constructor
  · rintro ⟨n, hb, h⟩
    obtain ⟨m, -, hv⟩ := hw.announced hs hk hb hc h
    exact ⟨t m, hk.trans (hw.mono (Nat.zero_le m)), hv⟩
  · rintro ⟨j, hkj, hv⟩
    have hstay : ∀ l, j ≤ l → State.victory.code = (vAt s₀ vs l).currentState.setWidth 32 := by
      intro l hl
      rw [victory_stays hv (fun i hi => hhigh i (hkj.trans hi)) l hl]
      rfl
    obtain ⟨N, hN⟩ := hw.follows htime hrec (by decide) hstay
    obtain ⟨n, hn, hpc, -⟩ := next_poll hrec N
    exact ⟨n, ⟨n, le_rfl, hpc⟩, hN n hn hpc p₀ a c hc.shown⟩

/-! ### The quiet game on the panel -/

/-- The leftmost pixel of the victory screen's first line. -/
theorem telltale_victory : Telltale .victory (5, 7) (0xff, 0xff, 0xff) where
  shown := by decide +kernel
  coloured := by decide
  only := by
    have hno : ∀ s ∈ [State.startUp, .game1, .game2, .game3, .harder, .error],
        ¬ s.Paints 0 0 (5, 7) (0xff, 0xff, 0xff) := by
      unfold State.Paints
      decide +kernel
    intro s hs
    cases s with
    | victory => rfl
    | _ => exact absurd hs (hno _ (by decide))

/-- A processor that makes one access after the other while `quietGame` is played. -/
def quietBus (n : ℕ) : BusEv :=
  let word := rgbInput (quietGame (4 + n)).adcXValue 0 0 (vAt powerUp quietGame (4 + n)).currentState
  let i : BusIn := ⟨⟨false, true, true, 0, 0, false⟩, ⟨0, false, true, 0, word⟩⟩
  .access i i

theorem quietBus_wired : Wired powerUp quietGame (fun _ => 0) quietBus (fun n => 4 + n) where
  mono := fun _ _ h => Nat.add_le_add_left h 4
  word := by
    intro n i₁ i₂ h
    obtain ⟨rfl, -⟩ := BusEv.access.inj h
    -- only bit 0 of `rgb_output` is in the word, and it is low
    have hdc : rgbDc (processorAt quietBus n).pio.outPort = rgbDc 0 := by
      have hlow : (processorAt quietBus n).pio.outPort.getLsbD 0 = false := (processorAt_inv n).dcn
      apply BitVec.eq_of_getLsbD_eq
      intro i hi
      obtain rfl : i = 0 := by omega
      rw [rgbDc, BitVec.getLsbD_extractLsb', hlow]
      rfl
    unfold rgbInput startString game1String game2String game3String harderString victoryString
    rw [hdc]

theorem quietBus_recurring : Recurring BusEv.isAccess quietBus := fun m => ⟨m, le_rfl, trivial⟩

theorem quietGame_high : ∀ j, 4 ≤ j → (quietGame j).resetN = true := fun _ h => decide_eq_true h

theorem quietGame_victory : ∀ j, 100 ≤ j →
    State.victory.code = (vAt powerUp quietGame j).currentState.setWidth 32 := by
  intro j hj
  have hv : (vAt powerUp quietGame 100).currentState = victory := by decide +kernel
  rw [victory_stays hv (fun i hi => quietGame_high i (by omega)) j hj]
  rfl

theorem panel_follows_quietGame : ∃ N, ∀ n, N ≤ n → (processorAt quietBus n).pc = .poll →
    ∀ (p₀ : Panel) (a : Pixel) (c : Colour),
      State.victory.patch 0 0 a = some c → (panelAt p₀ quietBus n).pixels a = c :=
  panel_follows powerUp quietGame (fun _ => 0) quietBus (fun n => 4 + n) quietBus_wired
    (fun i => ⟨i, Nat.le_add_left i 4⟩) quietBus_recurring .victory (by decide) 100 quietGame_victory

theorem panel_honest_quietGame : ∃ n m e1 e2 e3 e4 e5, m < n ∧
    Opened powerUp quietGame 4 (4 + m) e1 e2 e3 e4 e5 := by
  obtain ⟨N, hN⟩ := quietBus_wired.follows (fun i => ⟨i, Nat.le_add_left i 4⟩) quietBus_recurring
    (by decide) quietGame_victory
  obtain ⟨n, hn, hpc, -⟩ := next_poll quietBus_recurring N
  have hshown := hN n hn hpc ⟨fun _ => black, true⟩ _ _ telltale_victory.shown
  exact ⟨n, (panel_honest powerUp quietGame (fun _ => 0) quietBus (fun n => 4 + n) 4 n quietGame_starts
    quietBus_wired le_rfl ⟨fun _ => black, true⟩ ⟨n, le_rfl, hpc⟩ (5, 7)).2 _ telltale_victory hshown⟩

theorem announced_iff_quietGame :
    (∃ n, Booted quietBus n ∧ (panelAt ⟨fun _ => black, true⟩ quietBus n).pixels (5, 7) = (0xff, 0xff, 0xff)) ↔
      ∃ j, 4 ≤ j ∧ (vAt powerUp quietGame j).currentState = victory :=
  announced_iff powerUp quietGame (fun _ => 0) quietBus (fun n => 4 + n) 4 quietGame_starts quietGame_high
    quietBus_wired le_rfl (fun i => ⟨i, Nat.le_add_left i 4⟩) quietBus_recurring ⟨fun _ => black, true⟩
    (5, 7) (0xff, 0xff, 0xff) telltale_victory

end Firmware

end BankVault
