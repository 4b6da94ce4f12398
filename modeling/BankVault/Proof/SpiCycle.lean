import BankVault.Firmware.SpiDriver
import BankVault.Proof.SpiLine

/-!
# Bus accesses of the SPI core

What the cycles of one access do, with at most one byte on its way through the core: waiting,
being sent, or back in `rxdata`. Only a write to `txdata` adds one and only a read of `rxdata`
takes one away; everything else lets the byte go on.

* `posedge_flow`: one cycle of the byte on its way.
* `read_flow`, `write_flow`: an access.
-/

namespace BankVault

open Clocked Wire SpiCtrl Firmware

namespace SpiCore

/-- No access is under way. -/
structure Quiet (s : SpiCore) : Prop where
  rd : s.rdStrobe = false
  dataRd : s.dataRdStrobe = false
  wr : s.wrStrobe = false
  dataWr : s.dataWrStrobe = false

/-- How many bytes are on their way. -/
def inflight (s : SpiCore) : ℕ :=
  s.txHoldingPrimed.toNat + s.transmitting.toNat + s.rrdy.toNat

/-- How many cycles there are until the byte on its way is in `rxdata`. -/
def ticks (s : SpiCore) : ℕ :=
  if s.txHoldingPrimed then 92 else if s.transmitting then 91 - s.ctrl.position else 0

/-- **At most one byte is on its way**, and none has been lost. -/
structure Single (s : SpiCore) : Prop where
  timed : s.Timed
  one : s.inflight ≤ 1
  toe : s.toe = false
  roe : s.roe = false

variable {i : SpiIn} {s : SpiCore}

theorem Timed.transmitting_of_primed (h : s.Timed) (hp : s.transactionPrimed = true) :
    s.transmitting = true := by
  rcases h with ⟨after, ha⟩ | ⟨c, -, hb⟩
  · have hno : s.transactionPrimed = false := congrArg SpiCtrl.transactionPrimed ha
    rw [hno] at hp
    exact absurd hp (by decide)
  · exact congrArg SpiCtrl.transmitting hb

/-- The strobes of an access, one cycle later. -/
theorem strobes_posedge : (s.posedge i).rdStrobe = s.p1RdStrobe i ∧
    (s.posedge i).dataRdStrobe = s.p1DataRdStrobe i ∧ (s.posedge i).wrStrobe = s.p1WrStrobe i ∧
    (s.posedge i).dataWrStrobe = s.p1DataWrStrobe i ∧ (s.posedge i).dataToCpu = s.p1DataToCpu i :=
  ⟨rfl, rfl, rfl, rfl, rfl⟩

/-- **One cycle of the byte on its way.** -/
theorem posedge_flow (h : s.Single) (hs : s.statusWrStrobe i = false)
    (hw : s.dataWrStrobe = true → s.inflight = 0) :
    (s.posedge i).Single ∧
    (s.posedge i).inflight = (if s.dataWrStrobe then 1
      else if s.dataRdStrobe && s.rrdy then 0 else s.inflight) ∧
    (s.rrdy = true → s.dataRdStrobe = false → (s.posedge i).rrdy = true) ∧
    s.accepted i = (if s.dataWrStrobe then [i.dataFromCpu.setWidth 8] else []) := by
  have hp := h.timed.transmitting_of_primed
  have hone := h.one
  have hflow : (s.posedge i).inflight = (if s.dataWrStrobe then 1
      else if s.dataRdStrobe && s.rrdy then 0 else s.inflight) := by
    unfold inflight at hone hw ⊢
    rw [posedge_txHoldingPrimed, posedge_transmitting, posedge_rrdy, hs]
    unfold writeTxHolding writeShiftReg trdy
    revert hp hone hw
    generalize s.txHoldingPrimed = a, s.transmitting = b, s.rrdy = c, s.dataWrStrobe = d,
      s.dataRdStrobe = e, s.transactionPrimed = f
    revert a b c d e f
    decide
  refine ⟨⟨h.timed.posedge, ?_, ?_, ?_⟩, hflow, ?_, ?_⟩
  · rw [hflow]
    split_ifs
    · exact le_rfl
    · exact Nat.zero_le 1
    · exact hone
  · rw [posedge_toe, h.toe, hs]
    unfold inflight at hw
    unfold trdy
    revert hw
    generalize s.txHoldingPrimed = a, s.transmitting = b, s.rrdy = c, s.dataWrStrobe = d
    revert a b c d
    decide
  · rw [posedge_roe, h.roe, hs]
    unfold inflight at hone
    revert hp hone
    generalize s.txHoldingPrimed = a, s.transmitting = b, s.rrdy = c, s.transactionPrimed = d
    revert a b c d
    decide
  · intro hr hd
    rw [posedge_rrdy, hr, hd, hs]
    simp
  · unfold accepted writeTxHolding trdy
    unfold inflight at hw
    revert hw
    generalize s.txHoldingPrimed = a, s.transmitting = b, s.rrdy = c
    cases s.dataWrStrobe <;> revert a b c <;> simp

/-- A byte back in `rxdata` is the only one, and no cycle is left for it. -/
theorem Single.rrdy_iff (h : s.Single) : s.rrdy = true ↔ s.inflight = 1 ∧ s.ticks = 0 := by
  have hone := h.one
  have hpos : s.transmitting = true → 91 - s.ctrl.position ≠ 0 := by
    intro htr
    rcases h.timed with ⟨after, ha⟩ | ⟨c, hc, hb⟩
    · have hno : s.transmitting = false := congrArg SpiCtrl.transmitting ha
      rw [hno] at htr
      exact absurd htr (by decide)
    · rw [hb, position_inByte hc]
      omega
  unfold inflight at hone ⊢
  unfold ticks
  cases hp : s.txHoldingPrimed <;> cases ht : s.transmitting <;> cases hr : s.rrdy <;> simp_all

/-- While a byte is sent, none waits. -/
theorem Single.not_waiting (h : s.Single) (htr : s.transmitting = true) : s.txHoldingPrimed = false := by
  have hone := h.one
  unfold inflight at hone
  rw [htr] at hone
  by_contra hp
  rw [Bool.not_eq_false] at hp
  rw [hp, Bool.toNat_true] at hone
  omega

/-- **The byte on its way is one cycle nearer.** -/
theorem ticks_posedge (h : s.Single) (hw : s.dataWrStrobe = false) :
    (s.posedge i).ticks = s.ticks - 1 := by
  have hacc : s.writeTxHolding = false := by simp [writeTxHolding, hw]
  unfold ticks
  rw [posedge_txHoldingPrimed, hacc]
  unfold writeShiftReg
  rcases h.timed.cases (i := i) with ⟨after, ha, h'⟩ | ⟨c, hc, hb, h'⟩ | ⟨hb, h'⟩
  · have htr : s.transmitting = false := congrArg SpiCtrl.transmitting ha
    rw [htr]
    cases hp : s.txHoldingPrimed with
    | true =>
      rw [hp, if_pos rfl] at h'
      have htr' : (s.posedge i).transmitting = true := congrArg SpiCtrl.transmitting h'
      rw [htr', h', position_inByte (Nat.zero_le _)]
      rfl
    | false =>
      rw [hp] at h'
      have htr' : (s.posedge i).transmitting = false := congrArg SpiCtrl.transmitting h'
      rw [htr']
      rfl
  · have htr : s.transmitting = true := congrArg SpiCtrl.transmitting hb
    have htr' : (s.posedge i).transmitting = true := congrArg SpiCtrl.transmitting h'
    have hp := h.not_waiting htr
    rw [htr, htr', hp, hb, h', position_inByte hc.le, position_inByte hc]
    simp
    omega
  · have htr : s.transmitting = true := congrArg SpiCtrl.transmitting hb
    have htr' : (s.posedge i).transmitting = false := congrArg SpiCtrl.transmitting h'
    have hp := h.not_waiting htr
    rw [htr, htr', hp, hb, position_inByte le_rfl]
    rfl

/-! ### Events -/

/-- **The core after an event** that found it in `s` with no access under way: none is under
way, and `k` bytes are on their way. -/
structure After (s' : SpiCore) (k : ℕ) : Prop where
  quiet : s'.Quiet
  single : s'.Single
  inflight : s'.inflight = k

/-- A cycle without an access. -/
theorem idle_flow (hq : s.Quiet) (h : s.Single) (i : SpiIn) :
    (s.posedge (idlePins i)).After s.inflight ∧
    (s.rrdy = true → (s.posedge (idlePins i)).rrdy = true) ∧
    (s.posedge (idlePins i)).ticks = s.ticks - 1 ∧ s.accepted (idlePins i) = [] := by
  have hs : s.statusWrStrobe (idlePins i) = false := by simp [statusWrStrobe, hq.wr]
  obtain ⟨hsingle, hin, hr, hacc⟩ := posedge_flow h hs (by simp [hq.dataWr])
  have hno : ∀ b : Bool, (b && (idlePins i).spiSelect) = false := fun b => Bool.and_false b
  refine ⟨⟨⟨?_, ?_, ?_, ?_⟩, hsingle, ?_⟩, fun hrr => hr hrr hq.dataRd, ticks_posedge h hq.dataWr, ?_⟩
  · rw [strobes_posedge.1, p1RdStrobe, hno, Bool.false_and]
  · rw [strobes_posedge.2.1, p1DataRdStrobe, p1RdStrobe, hno, Bool.false_and, Bool.false_and]
  · rw [strobes_posedge.2.2.1, p1WrStrobe, hno, Bool.false_and]
  · rw [strobes_posedge.2.2.2.1, p1DataWrStrobe, p1WrStrobe, hno, Bool.false_and, Bool.false_and]
  · rw [hin, hq.dataWr, hq.dataRd]
    rfl
  · rw [hacc, hq.dataWr]
    rfl

/-- **A read.** Of `rxdata`, it takes the byte there away; of another register, nothing. -/
theorem read_flow (hq : s.Quiet) (h : s.Single) (addr : BitVec 3) (i₁ i₂ : SpiIn)
    (hrx : addr = rxdataReg → s.rrdy = true ∨ s.inflight = 0) :
    let s₁ := s.posedge ((SpiAccess.read addr).pins i₁)
    let s₂ := s₁.posedge ((SpiAccess.read addr).pins i₂)
    s₂.After (if addr = rxdataReg then 0 else s.inflight) ∧
    (addr ≠ rxdataReg → s₂.ticks = s.ticks - 2) ∧
    s₁.dataToCpu = s.p1DataToCpu ((SpiAccess.read addr).pins i₁) ∧
    s.accepted ((SpiAccess.read addr).pins i₁) ++ s₁.accepted ((SpiAccess.read addr).pins i₂) = [] := by
  intro s₁ s₂
  have hs : s.statusWrStrobe ((SpiAccess.read addr).pins i₁) = false := by simp [statusWrStrobe, hq.wr]
  obtain ⟨hsingle, hin, hr, hacc⟩ := posedge_flow h hs (by simp [hq.dataWr])
  rw [hq.dataWr, hq.dataRd, if_neg (by simp), if_neg (by simp)] at hin
  rw [hq.dataWr, if_neg (by simp)] at hacc
  have hrd₁ : s₁.rdStrobe = true := by
    change (!s.rdStrobe && true && !false) = true
    rw [hq.rd]
    rfl
  have hdrd₁ : s₁.dataRdStrobe = (addr == 0) := by
    change (!s.rdStrobe && true && !false && addr == 0) = _
    rw [hq.rd]
    rfl
  have hwr₁ : s₁.wrStrobe = false := by
    change (!s.wrStrobe && true && !true) = false
    rw [Bool.not_true, Bool.and_false]
  have hdwr₁ : s₁.dataWrStrobe = false := by
    change (!s.wrStrobe && true && !true && addr == 1) = false
    rw [Bool.not_true, Bool.and_false, Bool.false_and]
  have hs₁ : s₁.statusWrStrobe ((SpiAccess.read addr).pins i₂) = false := by simp [statusWrStrobe, hwr₁]
  obtain ⟨hsingle₂, hin₂, -, hacc₂⟩ := posedge_flow hsingle hs₁ (by simp [s₁, hdwr₁])
  rw [hdwr₁, if_neg (by simp)] at hin₂ hacc₂
  have hq₂ : s₂.Quiet := by
    refine ⟨?_, ?_, ?_, ?_⟩
    · change (!s₁.rdStrobe && true && !false) = false
      rw [hrd₁]
      rfl
    · change (!s₁.rdStrobe && true && !false && addr == 0) = false
      rw [hrd₁]
      rfl
    · change (!s₁.wrStrobe && true && !true) = false
      rw [Bool.not_true, Bool.and_false]
    · change (!s₁.wrStrobe && true && !true && addr == 1) = false
      rw [Bool.not_true, Bool.and_false, Bool.false_and]
  refine ⟨⟨hq₂, hsingle₂, ?_⟩, ?_, rfl, by rw [hacc, hacc₂]; rfl⟩
  · rw [hin₂, hdrd₁]
    by_cases haddr : addr = rxdataReg
    · rw [if_pos haddr]
      rcases hrx haddr with hrr | h0
      · have hrr₁ : s₁.rrdy = true := hr hrr hq.dataRd
        rw [hrr₁, haddr]
        rfl
      · rw [hin, h0]
        exact ite_self 0
    · rw [if_neg haddr, show (addr == 0) = false from beq_eq_false_iff_ne.2 haddr, Bool.false_and,
        if_neg (by simp), hin]
  · intro _
    rw [show s₂.ticks = s₁.ticks - 1 from ticks_posedge hsingle hdwr₁,
      show s₁.ticks = s.ticks - 1 from ticks_posedge h hq.dataWr]
    omega

/-- **A write.** To `txdata`, with nothing on its way, it adds a byte; to another register but
`status`, nothing. -/
theorem write_flow (hq : s.Quiet) (h : s.Single) (addr : BitVec 3) (data : BitVec 16) (i₁ i₂ : SpiIn)
    (hst : addr ≠ statusReg) (htx : addr = txdataReg → s.inflight = 0) :
    let s₁ := s.posedge ((SpiAccess.write addr data).pins i₁)
    let s₂ := s₁.posedge ((SpiAccess.write addr data).pins i₂)
    s₂.After (if addr = txdataReg then 1 else s.inflight) ∧
    s.accepted ((SpiAccess.write addr data).pins i₁) ++ s₁.accepted ((SpiAccess.write addr data).pins i₂) =
      if addr = txdataReg then [data.setWidth 8] else [] := by
  intro s₁ s₂
  have hs : s.statusWrStrobe ((SpiAccess.write addr data).pins i₁) = false := by
    simp [statusWrStrobe, hq.wr]
  obtain ⟨hsingle, hin, -, hacc⟩ := posedge_flow h hs (by simp [hq.dataWr])
  rw [hq.dataWr, hq.dataRd, if_neg (by simp), if_neg (by simp)] at hin
  rw [hq.dataWr, if_neg (by simp)] at hacc
  have hrd₁ : s₁.rdStrobe = false := by
    change (!s.rdStrobe && true && !true) = false
    rw [Bool.not_true, Bool.and_false]
  have hdrd₁ : s₁.dataRdStrobe = false := by
    change (!s.rdStrobe && true && !true && addr == 0) = false
    rw [Bool.not_true, Bool.and_false, Bool.false_and]
  have hwr₁ : s₁.wrStrobe = true := by
    change (!s.wrStrobe && true && !false) = true
    rw [hq.wr]
    rfl
  have hdwr₁ : s₁.dataWrStrobe = (addr == 1) := by
    change (!s.wrStrobe && true && !false && addr == 1) = _
    rw [hq.wr]
    rfl
  have hs₁ : s₁.statusWrStrobe ((SpiAccess.write addr data).pins i₂) = false := by
    change (s₁.wrStrobe && addr == 2) = false
    rw [beq_eq_false_iff_ne.2 hst, Bool.and_false]
  have hroom : s₁.dataWrStrobe = true → s₁.inflight = 0 := by
    intro hd
    rw [hdwr₁, beq_iff_eq] at hd
    exact hin.trans (htx hd)
  obtain ⟨hsingle₂, hin₂, -, hacc₂⟩ := posedge_flow hsingle hs₁ hroom
  have hq₂ : s₂.Quiet := by
    refine ⟨?_, ?_, ?_, ?_⟩
    · change (!s₁.rdStrobe && true && !true) = false
      rw [Bool.not_true, Bool.and_false]
    · change (!s₁.rdStrobe && true && !true && addr == 0) = false
      rw [Bool.not_true, Bool.and_false, Bool.false_and]
    · change (!s₁.wrStrobe && true && !false) = false
      rw [hwr₁]
      rfl
    · change (!s₁.wrStrobe && true && !false && addr == 1) = false
      rw [hwr₁]
      rfl
  refine ⟨⟨hq₂, hsingle₂, ?_⟩, ?_⟩
  · rw [hin₂, hdwr₁, hdrd₁, hin]
    simp only [Bool.false_and, Bool.false_eq_true, if_false, beq_iff_eq]
  · rw [hacc, hacc₂, hdwr₁]
    simp only [beq_iff_eq, List.nil_append]
    rfl

/-! ### The byte that is back -/

/-- The byte that is back in `rxdata`. -/
def back (s : SpiCore) : List (BitVec 8) := if s.rrdy then [s.rxHoldingReg] else []

theorem back_of_none (h : s.inflight = 0) : s.back = [] := by
  have hr : s.rrdy = false := by
    unfold inflight at h
    cases hr : s.rrdy with
    | false => rfl
    | true =>
      rw [hr, Bool.toNat_true] at h
      omega
  unfold back
  rw [hr]
  rfl

/-- While a byte is back, none comes in. -/
theorem Single.completed_of_rrdy (h : s.Single) (hr : s.rrdy = true) : s.completed i = [] := by
  have hone := h.one
  have hp := h.timed.transmitting_of_primed
  unfold inflight at hone
  unfold completed
  cases ht : s.transactionPrimed with
  | false => rfl
  | true =>
    rw [hr, hp ht, Bool.toNat_true] at hone
    omega

/-- **One cycle of the byte that is back.** -/
theorem back_posedge (h : s.Single) (hs : s.statusWrStrobe i = false) :
    s.back ++ s.completed i = (if s.dataRdStrobe then s.back else []) ++ (s.posedge i).back := by
  have hcomp := h.completed_of_rrdy (i := i)
  unfold back
  unfold completed at hcomp ⊢
  rw [posedge_rrdy, posedge_rxHoldingReg, hs]
  cases hr : s.rrdy with
  | true =>
    have hno := hcomp hr
    cases ht : s.transactionPrimed with
    | true =>
      rw [ht] at hno
      exact absurd hno (List.cons_ne_nil _ _)
    | false => cases s.dataRdStrobe <;> rfl
  | false => cases s.transactionPrimed <;> cases s.dataRdStrobe <;> rfl

theorem idle_back (hq : s.Quiet) (h : s.Single) (i : SpiIn) :
    s.back ++ s.completed (idlePins i) = (s.posedge (idlePins i)).back := by
  rw [back_posedge h (by simp [statusWrStrobe, hq.wr]), hq.dataRd]
  rfl

/-- Only a read of `rxdata` takes the byte. -/
theorem read_back (hq : s.Quiet) (h : s.Single) (addr : BitVec 3) (i₁ i₂ : SpiIn)
    (hrx : addr = rxdataReg → s.rrdy = true ∨ s.inflight = 0) :
    let s₁ := s.posedge ((SpiAccess.read addr).pins i₁)
    let s₂ := s₁.posedge ((SpiAccess.read addr).pins i₂)
    s.back ++ (s.completed ((SpiAccess.read addr).pins i₁) ++ s₁.completed ((SpiAccess.read addr).pins i₂)) =
      (if addr = rxdataReg then s.back else []) ++ s₂.back := by
  intro s₁ s₂
  have hs : s.statusWrStrobe ((SpiAccess.read addr).pins i₁) = false := by simp [statusWrStrobe, hq.wr]
  obtain ⟨hsingle, hin, -, -⟩ := posedge_flow h hs (by simp [hq.dataWr])
  rw [hq.dataWr, hq.dataRd, if_neg (by simp), if_neg (by simp)] at hin
  have hwr₁ : s₁.wrStrobe = false := by
    change (!s.wrStrobe && true && !true) = false
    rw [Bool.not_true, Bool.and_false]
  have hdrd₁ : s₁.dataRdStrobe = (addr == 0) := by
    change (!s.rdStrobe && true && !false && addr == 0) = _
    rw [hq.rd]
    rfl
  have hs₁ : s₁.statusWrStrobe ((SpiAccess.read addr).pins i₂) = false := by simp [statusWrStrobe, hwr₁]
  have h₁ := back_posedge h hs
  have h₂ := back_posedge (i := (SpiAccess.read addr).pins i₂) hsingle hs₁
  rw [hq.dataRd, if_neg (by simp), List.nil_append] at h₁
  rw [← List.append_assoc, h₁, h₂, hdrd₁]
  simp only [beq_iff_eq]
  by_cases haddr : addr = rxdataReg
  · rw [if_pos haddr, if_pos haddr]
    rcases hrx haddr with hrr | h0
    · rw [← h₁, h.completed_of_rrdy hrr, List.append_nil]
    · rw [back_of_none h0, back_of_none (hin.trans h0)]
  · rw [if_neg haddr, if_neg haddr]

theorem write_back (hq : s.Quiet) (h : s.Single) (addr : BitVec 3) (data : BitVec 16) (i₁ i₂ : SpiIn)
    (hst : addr ≠ statusReg) :
    let s₁ := s.posedge ((SpiAccess.write addr data).pins i₁)
    let s₂ := s₁.posedge ((SpiAccess.write addr data).pins i₂)
    s.back ++ (s.completed ((SpiAccess.write addr data).pins i₁) ++
      s₁.completed ((SpiAccess.write addr data).pins i₂)) = s₂.back := by
  intro s₁ s₂
  have hs : s.statusWrStrobe ((SpiAccess.write addr data).pins i₁) = false := by
    simp [statusWrStrobe, hq.wr]
  obtain ⟨hsingle, -, -, -⟩ := posedge_flow h hs (by simp [hq.dataWr])
  have hdrd₁ : s₁.dataRdStrobe = false := by
    change (!s.rdStrobe && true && !true && addr == 0) = false
    rw [Bool.not_true, Bool.and_false, Bool.false_and]
  have hs₁ : s₁.statusWrStrobe ((SpiAccess.write addr data).pins i₂) = false := by
    change (s₁.wrStrobe && addr == 2) = false
    rw [beq_eq_false_iff_ne.2 hst, Bool.and_false]
  have h₁ := back_posedge h hs
  have h₂ := back_posedge (i := (SpiAccess.write addr data).pins i₂) hsingle hs₁
  rw [hq.dataRd, if_neg (by simp), List.nil_append] at h₁
  rw [hdrd₁, if_neg (by simp), List.nil_append] at h₂
  rw [← List.append_assoc, h₁, h₂]

end SpiCore

end BankVault
