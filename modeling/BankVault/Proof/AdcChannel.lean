import BankVault.Proof.AdcStore

/-!
# Which axis a stored sample belongs to

`bankVault`'s channel block and `adcinterface`, with the ADC they drive: the word shifted
in during one frame of `ADC_SCK` configures the conversion started by the next rising edge
of `ADC_CONVST`, and the bits of that conversion are shifted out in the frame after that
edge. A result is therefore stored two frames after its channel was commanded, while the
channel block has toggled the channel once in between: each register receives the samples
of the other axis.

* `frame_inv`: the state of the board at every offset of every frame.
* `axes_swapped`: from the third frame on, every stored value is a sample of the other axis.
-/

namespace BankVault

open Clocked AdcInterface

variable {b : Board} {analog : List Bool → BitVec 12}

/-! ### The frame of the board -/

/-- A word as far as it has been shifted in: after its first bit it is the command word of
the channel, from bit 11 down. The first bit is still the last one of the frame before. -/
def Command (chan : BitVec 4) (w : List Bool) (k : ℕ) : Prop :=
  w.length = k ∧ ∀ i, i + 1 < k → w.getD (i + 1) false = (commandWord (chan.setWidth 3)).getLsbD (11 - i)

/-- A whole command selects its channel. -/
theorem Command.channel {chan : BitVec 4} {w : List Bool} {k : ℕ} {v : BitVec 12}
    (h : Command chan w k) (hk : 4 ≤ k) : (Conversion.mk w v).channel = chan.setWidth 3 := by
  have h1 := h.2 0 (by omega)
  have h2 := h.2 1 (by omega)
  have h3 := h.2 2 (by omega)
  simp only [Conversion.channel, h1, h2, h3]
  have hbits : ∀ c : BitVec 3, BitVec.ofBool ((commandWord c).getLsbD (11 - 1)) ++
      BitVec.ofBool ((commandWord c).getLsbD (11 - 2)) ++
      BitVec.ofBool ((commandWord c).getLsbD (11 - 0)) = c := by
    decide
  exact hbits _

/-- One more bit of the command. -/
theorem Command.snoc {chan : BitVec 4} {w : List Bool} {k : ℕ} {bit : Bool} (h : Command chan w k)
    (hb : 0 < k → bit = (commandWord (chan.setWidth 3)).getLsbD (11 - (k - 1))) :
    Command chan (w ++ [bit]) (k + 1) := by
  obtain ⟨hl, hw⟩ := h
  refine ⟨by simp [hl], fun i hi => ?_⟩
  rw [List.getD_eq_getElem?_getD]
  rcases Nat.lt_or_ge (i + 1) k with h1 | h1
  · rw [List.getElem?_append_left (by omega), ← List.getD_eq_getElem?_getD]
    exact hw i h1
  · have hik : i + 1 = w.length := by omega
    have hbit := hb (by omega)
    rw [hik, List.getElem?_concat_length, Option.getD_some, hbit]
    congr 2; omega

/-- **The board at offset `p` of frame `f`**; `prev` is the conversion at the frame's start.
Frame 0 starts with whatever the ADC holds at power-up, and its conversion with it. -/
def BoardAt (f : ℕ) (prev : Conversion) : ℕ → Board → Prop
  | 0, b => At 0 b.axes.adc ∧ b.axes.adcChan = chanOf f ∧ b.ltc.conv = prev ∧
      (f ≠ 0 → b.axes.adc.resultReg = prev.value ∧ Command (chanOf f) b.ltc.din 12)
  | 1, b => At 1 b.axes.adc ∧ b.axes.adcChan = chanOf f ∧ b.ltc.conv = prev ∧
      (f ≠ 0 → b.axes.adc.result = prev.value ∧ Command (chanOf f) b.ltc.din 12)
  | 2, b => At 2 b.axes.adc ∧ b.axes.adcChan = chanOf f ∧
      (f ≠ 0 → b.axes.adc.result = prev.value ∧ b.ltc.conv.channel = (chanOf f).setWidth 3) ∧
      b.ltc.din = [] ∧ b.ltc.sent = 0
  | 3, b => At 3 b.axes.adc ∧ b.axes.adcChan = chanOf (f + 1) ∧
      (f ≠ 0 → b.ltc.conv.channel = (chanOf f).setWidth 3) ∧ b.ltc.din = [] ∧ b.ltc.sent = 0
  | k + 4, b => At (k + 4) b.axes.adc ∧ b.axes.adcChan = chanOf (f + 1) ∧
      (f ≠ 0 → b.ltc.conv.channel = (chanOf f).setWidth 3) ∧ b.ltc.sent = k ∧
      Command (chanOf (f + 1)) b.ltc.din k ∧
      (0 < k → b.axes.adc.sdi = (commandWord ((chanOf (f + 1)).setWidth 3)).getLsbD (11 - (k - 1))) ∧
      ∀ i, i < k → b.axes.adc.resultReg.getLsbD (11 - i) = b.ltc.conv.value.getLsbD (11 - i)

/-- A register all of whose bits are those of a value holds the value. -/
theorem resultReg_full {r v : BitVec 12} (h : ∀ i, i < 12 → r.getLsbD (11 - i) = v.getLsbD (11 - i)) :
    r = v := by
  apply BitVec.eq_of_getLsbD_eq
  intro i hi
  have := h (11 - i) (by omega)
  rwa [show 11 - (11 - i) = i by omega] at this

/-- The ADC interface after a cycle. -/
theorem cycle_adc : (b.cycle analog).axes.adc =
    b.axes.adc.cycle b.ltc.sdo (b.axes.channelBlock.adcChan.setWidth 3) := rfl

theorem cycle_chan : (b.cycle analog).axes.adcChan = b.axes.channelBlock.adcChan := rfl

/-- The high phase keeps `ADC_CONVST`, and has its `ADC_SCK` pulse in `SCK_CYCLE`. -/
theorem high_sck (sdo : Bool) (a : AdcInterface) :
    (a.high true sdo).sck = (a.nextState == sSckCycle) ∧ (a.high true sdo).convst = a.convst := by
  unfold AdcInterface.high
  by_cases hn : a.nextState = sSckCycle
  · have hs : (a.posedgeClk true).sck = true := beq_iff_eq.2 hn
    simp only [hs, if_true]
    exact ⟨by simp [sck, posedgeSck, posedgeClk], rfl⟩
  · have hs : (a.posedgeClk true).sck = false := beq_eq_false_iff_ne.2 hn
    simp only [hs]
    exact ⟨by simp [sck, posedgeClk], rfl⟩

/-- **The ADC over a cycle**: a pulse if the cycle is in `SCK_CYCLE`, a conversion if
`ADC_CONVST` rises. -/
theorem cycle_ltc : (b.cycle analog).ltc =
    let ltc₁ := if b.axes.adc.nextState = sSckCycle then b.ltc.pulse b.axes.adc.sdi else b.ltc
    if b.axes.adc.convst = false ∧ (b.cycle analog).axes.adc.convst = true
    then ltc₁.convert analog else ltc₁ := by
  obtain ⟨hs, hc⟩ := high_sck b.ltc.sdo b.axes.adc
  have hl : (b.cycle analog).ltc =
      if !(b.axes.adc.high true b.ltc.sdo).convst && (b.cycle analog).axes.adc.convst then
        (if (b.axes.adc.high true b.ltc.sdo).sck then b.ltc.pulse b.axes.adc.sdi else b.ltc).convert analog
      else if (b.axes.adc.high true b.ltc.sdo).sck then b.ltc.pulse b.axes.adc.sdi else b.ltc := rfl
  rw [hl, hs, hc]
  simp only [beq_iff_eq, Bool.and_eq_true, Bool.not_eq_true']

/-- Outside `SCK_CYCLE` and without a rise of `ADC_CONVST` the ADC rests. -/
theorem ltc_rest (hn : b.axes.adc.nextState ≠ sSckCycle)
    (hc : b.axes.adc.convst = true ∨ (b.cycle analog).axes.adc.convst = false) :
    (b.cycle analog).ltc = b.ltc := by
  rw [cycle_ltc, if_neg hn, if_neg]
  rintro ⟨hlow, hhigh⟩
  rcases hc with h | h
  · rw [hlow] at h; exact absurd h (by decide)
  · rw [hhigh] at h; exact absurd h (by decide)

variable {f : ℕ} {prev : Conversion}

/-- `RESET`: the result is published. -/
theorem boardAt_one (h : BoardAt f prev 0 b) : BoardAt f prev 1 (b.cycle analog) := by
  obtain ⟨ha, hch, hconv, hdata⟩ := h
  have hadc : (b.cycle analog).axes.adc = _ := cycle_adc.trans (cycle_reset ha)
  have hltc : (b.cycle analog).ltc = b.ltc :=
    ltc_rest (by rw [ha.1]; decide) (Or.inr (by rw [hadc]; exact ha.2))
  have hAt : At 1 (b.cycle analog).axes.adc := cycle_adc ▸ At.cycle (by omega) ha
  refine ⟨hAt, ?_, hltc ▸ hconv, fun hf => ?_⟩
  · rw [cycle_chan, channelBlock_rest ha.2, hch]
  · obtain ⟨hr, hw⟩ := hdata hf
    rw [hltc]
    exact ⟨by rw [hadc]; exact hr, hw⟩

/-- The second cycle: `ADC_CONVST` rises, and the word of this frame configures the
conversion. -/
theorem boardAt_two (h : BoardAt f prev 1 b) : BoardAt f prev 2 (b.cycle analog) := by
  obtain ⟨ha, hch, hconv, hdata⟩ := h
  have hadc : (b.cycle analog).axes.adc = _ := cycle_adc.trans (cycle_raise ha.1 ha.2.1)
  have hltc : (b.cycle analog).ltc = b.ltc.convert analog := by
    rw [cycle_ltc, hadc]
    simp [ha.1, ha.2.2.1]
  have hAt : At 2 (b.cycle analog).axes.adc := cycle_adc ▸ At.cycle (by omega) ha
  refine ⟨hAt, ?_, fun hf => ⟨?_, ?_⟩, ?_, ?_⟩
  · rw [cycle_chan, channelBlock_rest ha.2.2.1, hch]
  · rw [hadc]; exact (hdata hf).1
  · rw [hltc]; exact (hdata hf).2.channel (by omega)
  · rw [hltc]; rfl
  · rw [hltc]; rfl

/-- The third cycle: the result is stored and the channel toggles. -/
theorem boardAt_three (h : BoardAt f prev 2 b) : BoardAt f prev 3 (b.cycle analog) := by
  obtain ⟨ha, hch, hdata, hdin, hsent⟩ := h
  have hadc : (b.cycle analog).axes.adc = _ := cycle_adc.trans (cycle_lower ha)
  have hltc : (b.cycle analog).ltc = b.ltc :=
    ltc_rest (by rw [ha.1]; decide) (Or.inl ha.2.2.1)
  have hAt : At 3 (b.cycle analog).axes.adc := cycle_adc ▸ At.cycle (by omega) ha
  refine ⟨hAt, ?_, ?_, ?_, ?_⟩
  · rw [cycle_chan, channelBlock_toggle ha.2.2.1 hch]
  · rw [hltc]; exact fun hf => (hdata hf).2
  · rw [hltc]; exact hdin
  · rw [hltc]; exact hsent

/-- The fourth cycle leaves `ARM`. -/
theorem boardAt_four (h : BoardAt f prev 3 b) : BoardAt f prev 4 (b.cycle analog) := by
  obtain ⟨ha, hch, hdata, hdin, hsent⟩ := h
  have hadc : (b.cycle analog).axes.adc = _ := cycle_adc.trans (cycle_leave ha)
  have hltc : (b.cycle analog).ltc = b.ltc :=
    ltc_rest (by rw [ha.1]; decide) (Or.inr (by rw [hadc]; exact ha.2.2.1))
  have hAt : At 4 (b.cycle analog).axes.adc := cycle_adc ▸ At.cycle (by omega) ha
  refine ⟨hAt, ?_, ?_, ?_, ?_, fun h0 => absurd h0 (Nat.lt_irrefl 0),
    fun i hi => absurd hi (Nat.not_lt_zero i)⟩
  · rw [cycle_chan, channelBlock_rest ha.2.2.1, hch]
  · rw [hltc]; exact hdata
  · rw [hltc]; exact hsent
  · rw [hltc, hdin]
    exact ⟨rfl, fun i hi => absurd hi (Nat.not_lt_zero _)⟩

/-- A cycle in `SCK_CYCLE`: one more bit of the command out, and of the conversion in. -/
theorem boardAt_shift (analog : List Bool → BitVec 12) {k : ℕ} (hk : k < 12) (h : BoardAt f prev (k + 4) b) :
    (b.cycle analog).axes.adcChan = chanOf (f + 1) ∧ (b.cycle analog).ltc.conv = b.ltc.conv ∧
      (b.cycle analog).ltc.sent = k + 1 ∧ Command (chanOf (f + 1)) (b.cycle analog).ltc.din (k + 1) ∧
      (b.cycle analog).axes.adc.sdi = (commandWord ((chanOf (f + 1)).setWidth 3)).getLsbD (11 - k) ∧
      ∀ i, i < k + 1 →
        (b.cycle analog).axes.adc.resultReg.getLsbD (11 - i) = b.ltc.conv.value.getLsbD (11 - i) := by
  obtain ⟨ha, hch, -, hsent, hcmd, hsdi, hres⟩ := h
  have hadc : (b.cycle analog).axes.adc = _ := cycle_adc.trans (cycle_shift ha)
  have hchan := channelBlock_rest (s := b.axes) ha.2.2.1
  have hltc : (b.cycle analog).ltc = b.ltc.pulse b.axes.adc.sdi := by
    rw [cycle_ltc, hadc]
    simp [ha.1, ha.2.2.1]
  refine ⟨?_, ?_, ?_, ?_, ?_, ?_⟩
  · rw [cycle_chan, hchan, hch]
  · rw [hltc]; rfl
  · rw [hltc, ← hsent]; rfl
  · rw [hltc]; exact hcmd.snoc hsdi
  · rw [hadc, hchan, hch]
  · intro i hi
    rw [hadc]
    show (setBit _ (11 - k) b.ltc.sdo).getLsbD (11 - i) = _
    rw [getLsbD_setBit _ (by omega)]
    by_cases hik : i = k
    · rw [if_pos (by omega), hik, ← hsent]; rfl
    · rw [if_neg (by omega)]; exact hres i (by omega)

/-- **One cycle within a frame.** -/
theorem BoardAt.cycle {p : ℕ} (hp : p < 15) (h : BoardAt f prev p b) :
    BoardAt f prev (p + 1) (b.cycle analog) := by
  match p, hp, h with
  | 0, _, h => exact boardAt_one h
  | 1, _, h => exact boardAt_two h
  | 2, _, h => exact boardAt_three h
  | 3, _, h => exact boardAt_four h
  | k + 4, hp, h =>
    have hAt : At ((k + 4 + 1) % 16) (b.cycle analog).axes.adc :=
      cycle_adc ▸ At.cycle (by omega) h.1
    rw [Nat.mod_eq_of_lt (by omega)] at hAt
    obtain ⟨hch, hconv, hsent, hcmd, hsdi, hres⟩ := boardAt_shift analog (k := k) (by omega) h
    exact ⟨hAt, hch, hconv ▸ h.2.2.1, hsent, hcmd, fun _ => hsdi, hconv ▸ hres⟩

/-- **From a frame into the next.** -/
theorem BoardAt.next (analog : List Bool → BitVec 12) (h : BoardAt f prev 15 b) :
    BoardAt (f + 1) b.ltc.conv 0 (b.cycle analog) := by
  have hAt : At 0 (b.cycle analog).axes.adc := cycle_adc ▸ At.cycle (p := 15) (by omega) h.1
  obtain ⟨hch, hconv, -, hcmd, -, hres⟩ := boardAt_shift analog (k := 11) (by omega) h
  exact ⟨hAt, hch, hconv, fun _ => ⟨resultReg_full hres, hcmd⟩⟩

/-! ### Whole runs -/

variable {b₀ : Board} (analog : ℕ → List Bool → BitVec 12)

theorem bAt_succ (n : ℕ) : bAt b₀ analog (n + 1) = (bAt b₀ analog n).cycle (analog n) := rfl

/-- **The board at every cycle** of a reset-free run from power-up. -/
theorem frame_inv (hb : b₀.axes.PowerUp) (n : ℕ) :
    BoardAt (n / 16) (bAt b₀ analog (16 * (n / 16))).ltc.conv (n % 16) (bAt b₀ analog n) := by
  induction n with
  | zero =>
    exact ⟨⟨hb.nextState, hb.convst⟩, hb.adcChan, rfl, fun h => absurd rfl h⟩
  | succ n ih =>
    by_cases hp : n % 16 < 15
    · rw [show (n + 1) / 16 = n / 16 by omega, show (n + 1) % 16 = n % 16 + 1 by omega, bAt_succ]
      exact ih.cycle hp
    · rw [show n % 16 = 15 by omega] at ih
      have hnext := ih.next (analog n)
      rw [← bAt_succ] at hnext
      -- the new frame starts with the conversion of the one that ended
      have hconv : (bAt b₀ analog (n + 1)).ltc.conv = (bAt b₀ analog n).ltc.conv := hnext.2.2.1
      rw [show (n + 1) / 16 = n / 16 + 1 by omega, show (n + 1) % 16 = 0 by omega,
        show 16 * (n / 16 + 1) = n + 1 by omega, hconv]
      exact hnext

/-- From the second frame on, a conversion's channel is the one its frame started with. -/
theorem conversion_channel (hb : b₀.axes.PowerUp) {g : ℕ} (hg : g ≠ 0) :
    (conversion b₀ analog g).channel = (chanOf g).setWidth 3 := by
  have h := frame_inv analog hb (16 * g + 15)
  rw [show (16 * g + 15) / 16 = g by omega, show (16 * g + 15) % 16 = 15 by omega] at h
  have hconv : conversion b₀ analog g = (bAt b₀ analog (16 * g + 15)).ltc.conv :=
    (h.next (analog (16 * g + 15))).2.2.1
  rw [hconv]
  exact h.2.2.1 hg

/-- A store is the third cycle of its frame. -/
theorem offset_of_convst {p : ℕ} {a : AdcInterface} (h : At p a) (hc : a.convst = true) : p = 2 := by
  match p, h with
  | 0, h => exact absurd h.2 (by simp [hc])
  | 1, h => exact absurd h.2.2.1 (by simp [hc])
  | 2, _ => rfl
  | 3, h => exact absurd h.2.2.1 (by simp [hc])
  | k + 4, h => exact absurd h.2.2.1 (by simp [hc])

theorem BoardAt.at {p : ℕ} {b : Board} (h : BoardAt f prev p b) : At p b.axes.adc := by
  match p, h with
  | 0, h => exact h.1
  | 1, h => exact h.1
  | 2, h => exact h.1
  | 3, h => exact h.1
  | k + 4, h => exact h.1

/-- **From the third frame on, every axis register receives the samples of the other axis**:
a store for axis `a` writes the value of the conversion of the frame before, and that one was
configured for the other axis. -/
theorem store_other (hb : b₀.axes.PowerUp) {n : ℕ} {a : Axis} (hn : 32 ≤ n)
    (hs : (bAt b₀ analog n).Stores a) :
    (bAt b₀ analog (n + 1)).axes.value a = (conversion b₀ analog (n / 16 - 1)).value ∧
      (conversion b₀ analog (n / 16 - 1)).channel = a.other.channel.setWidth 3 := by
  have h := frame_inv analog hb n
  have hp : n % 16 = 2 := offset_of_convst h.at hs.2
  rw [hp] at h
  obtain ⟨-, hch, hdata, -, -⟩ := h
  obtain ⟨f, hf⟩ : ∃ f, n / 16 = f + 2 := ⟨n / 16 - 2, by omega⟩
  rw [hf] at hch hdata ⊢
  refine ⟨?_, ?_⟩
  · have hstored : (bAt b₀ analog (n + 1)).axes.value a = (bAt b₀ analog n).axes.adc.result :=
      (cycle_value a (bAt b₀ analog n).ltc.sdo).1 hs
    rw [hstored, (hdata (by omega)).1, conversion]
    congr 5
  · have hprev := conversion_channel analog hb (g := f + 1) (by omega)
    show (conversion b₀ analog (f + 1)).channel = _
    rw [hprev]
    have hown : chanOf (f + 2) = a.channel := hch.symm.trans hs.1
    unfold chanOf at hown ⊢
    rcases Nat.mod_two_eq_zero_or_one f with h2 | h2
    · rw [if_pos (by omega)] at hown
      rw [if_neg (by omega)]
      cases a with
      | x => exact absurd hown (by decide)
      | y => rfl
    · rw [if_neg (by omega)] at hown
      rw [if_pos (by omega)]
      cases a with
      | x => rfl
      | y => exact absurd hown (by decide)

/-- Every frame stores once, in its third cycle. -/
theorem stores_at (hb : b₀.axes.PowerUp) (f : ℕ) : ∃ a, (bAt b₀ analog (16 * f + 2)).Stores a := by
  have h := frame_inv analog hb (16 * f + 2)
  rw [show (16 * f + 2) / 16 = f by omega, show (16 * f + 2) % 16 = 2 by omega] at h
  obtain ⟨ha, hch, -⟩ := h
  rcases Nat.mod_two_eq_zero_or_one f with h2 | h2
  · exact ⟨.y, by rw [hch, chanOf, if_pos h2]; rfl, ha.2.2.1⟩
  · exact ⟨.x, by rw [hch, chanOf, if_neg (by omega)]; rfl, ha.2.2.1⟩

/-- **Each axis register holds samples of its own axis**: from the third frame on, the
conversion whose bits a store finds in the result (the one of the frame before) was
configured for the axis of the register. -/
def OwnAxis (b₀ : Board) (analog : ℕ → List Bool → BitVec 12) : Prop :=
  ∀ n a, 32 ≤ n → (bAt b₀ analog n).Stores a →
    (bAt b₀ analog (n + 1)).axes.value a = (conversion b₀ analog (n / 16 - 1)).value ∧
      (conversion b₀ analog (n / 16 - 1)).channel = a.channel.setWidth 3

/-- **The axes are swapped**, in every run from power-up and for every stream of analog
values: no register ever holds a sample of its own axis from the third frame on. -/
theorem axes_swapped (b₀ : Board) (analog : ℕ → List Bool → BitVec 12) (hb : b₀.axes.PowerUp) :
    (∀ n a, 32 ≤ n → (bAt b₀ analog n).Stores a →
      (bAt b₀ analog (n + 1)).axes.value a = (conversion b₀ analog (n / 16 - 1)).value ∧
        (conversion b₀ analog (n / 16 - 1)).channel = a.other.channel.setWidth 3) ∧
      ¬ OwnAxis b₀ analog := by
  refine ⟨fun n a hn hs => store_other analog hb hn hs, fun hown => ?_⟩
  obtain ⟨a, hs⟩ := stores_at analog hb 2
  have hother := (store_other analog hb (n := 16 * 2 + 2) (by omega) hs).2
  have hthis := (hown (16 * 2 + 2) a (by omega) hs).2
  rw [hthis] at hother
  cases a <;> exact absurd hother (by decide)

/-- A board at power-up with an ADC that has nothing to shift out. -/
def quietBoard : Board where
  axes :=
    { adc := { currentState := 0, nextState := 0, resultReg := 0, armFlag := false, sckCount := 0,
               convst := false, result := 0, sdi := false }
      adcChan := 0
      adcXValue := 0
      adcYValue := 0 }
  ltc := { din := [], conv := { word := [], value := 0 }, sent := 0 }

/-- The two axes of a stick pushed to one side: 5 on channel 1, 9 on channel 0. -/
def sideways (_ : ℕ) (w : List Bool) : BitVec 12 := if (Conversion.mk w 0).channel = 1 then 5 else 9

theorem axes_swapped_quietBoard :
    (∀ n a, 32 ≤ n → (bAt quietBoard sideways n).Stores a →
      (bAt quietBoard sideways (n + 1)).axes.value a = (conversion quietBoard sideways (n / 16 - 1)).value ∧
        (conversion quietBoard sideways (n / 16 - 1)).channel = a.other.channel.setWidth 3) ∧
      ¬ OwnAxis quietBoard sideways :=
  axes_swapped quietBoard sideways ⟨rfl, rfl, rfl, rfl, rfl, rfl, rfl⟩

/-- In the third frame the `Y` register receives the 5 of channel 1. -/
theorem yValue_of_xChannel : (bAt quietBoard sideways 34).Stores .y ∧
    (bAt quietBoard sideways 35).axes.adcYValue = 5 ∧
    (conversion quietBoard sideways 1).channel = 1 ∧ ¬ OwnAxis quietBoard sideways := by
  have hs : (bAt quietBoard sideways 34).Stores .y := by decide +kernel
  have hv : (bAt quietBoard sideways 35).axes.adcYValue = 5 := by decide +kernel
  have hc : (conversion quietBoard sideways 1).channel = 1 := by decide +kernel
  refine ⟨hs, hv, hc, fun hown => ?_⟩
  have hy : (conversion quietBoard sideways 1).channel = Axis.y.channel.setWidth 3 :=
    (hown 34 .y (by omega) hs).2
  exact absurd (hc.symm.trans hy) (by decide)

end BankVault
