import BankVault.Proof.SpiCycle

/-!
# The driver and the core

A call keeps one credit: at each moment it may write a byte, or one byte is on its way, or one
has come back and is to be read. So the core always has room, nothing is overrun, and what the
call has still to write is what the core has not yet accepted of it.

* `Inv.kept`: what every event keeps, and that it conserves the bytes of the call.
* `Inv.access`: every access of a call that sends something is a step towards its return.
-/

namespace BankVault

open Clocked Wire SpiCtrl

namespace Firmware

/-- The bytes a call has still to write. -/
def SpiDriver.remaining (d : SpiDriver) : List Byte :=
  (match d.pc with
    | .txdata v => [v]
    | _ => []) ++ d.writeData ++ List.replicate d.writeZeros 0

/-- How many bytes a call has still to read back. -/
def SpiDriver.owed (a : SpiArgs) (d : SpiDriver) : ℕ :=
  d.readIgnore + (a.readLength - d.readData.length)

namespace Link

def owed (l : Link) : ℕ := l.driver.owed l.args

/-- **The one credit**, at each point of the call. -/
def Flow (l : Link) : Prop :=
  match l.driver.pc with
  | .slaveSel | .sso | .discard => l.driver.credits = 1 ∧ l.core.inflight = 0
  | .status => l.driver.credits = 1 - (l.core.inflight : ℤ) ∨
      (l.driver.credits = -1024 ∧ l.core.inflight = 0 ∧ l.driver.remaining = [])
  | .txdata _ => l.driver.credits = 0 ∧ l.core.inflight = 0 ∧ SpiDriver.rrdy l.driver.status = false
  | .rxdata => l.driver.credits = 0 ∧ l.core.rrdy = true
  | .tmt | .release | .returned => l.core.inflight = 0 ∧ l.owed = 0

/-- What holds between the events of a call. -/
structure Inv (l : Link) : Prop where
  quiet : l.core.Quiet
  single : l.core.Single
  flow : l.Flow
  count : l.driver.remaining.length + l.core.inflight = l.owed
  room : l.driver.readData.length ≤ l.args.readLength

variable {l : Link} {e : LinkEv} {a : SpiAccess}

theorem step_stall (i : SpiIn) : l.step (.stall i) = { l with core := l.core.posedge (idlePins i) } := rfl

theorem step_access (ha : l.driver.access l.args = some a) (i₁ i₂ : SpiIn) : l.step (.access i₁ i₂) =
    { l with
      driver := l.driver.next l.args (l.core.posedge (a.pins i₁)).dataToCpu
      core := (l.core.posedge (a.pins i₁)).posedge (a.pins i₂) } := by
  unfold step inputs
  rw [ha]
  rfl

theorem step_returned (ha : l.driver.access l.args = none) (i₁ i₂ : SpiIn) : l.step (.access i₁ i₂) =
    { l with core := l.core.posedge (idlePins i₁) } := by
  unfold step inputs
  rw [ha]
  rfl

theorem observe_access {α : Type*} {f : SpiIn → SpiCore → List α}
    (ha : l.driver.access l.args = some a) (i₁ i₂ : SpiIn) : l.observe f (.access i₁ i₂) =
      f (a.pins i₁) l.core ++ f (a.pins i₂) (l.core.posedge (a.pins i₁)) := by
  unfold observe inputs
  rw [ha]

theorem observe_returned {α : Type*} {f : SpiIn → SpiCore → List α}
    (ha : l.driver.access l.args = none) (i₁ i₂ : SpiIn) :
    l.observe f (.access i₁ i₂) = f (idlePins i₁) l.core := by
  unfold observe inputs
  rw [ha]

/-! ### The status word -/

theorem status_bits (s : SpiCore) : SpiDriver.trdy s.spiStatus = s.trdy ∧
    SpiDriver.rrdy s.spiStatus = s.rrdy ∧ SpiDriver.tmt s.spiStatus = s.tmt := by
  unfold SpiDriver.trdy SpiDriver.rrdy SpiDriver.tmt SpiCore.spiStatus
  generalize s.eop = b₁, s.e = b₂, s.rrdy = b₃, s.trdy = b₄, s.tmt = b₅, s.toe = b₆, s.roe = b₇
  revert b₁ b₂ b₃ b₄ b₅ b₆ b₇
  decide

theorem trdy_of_single {s : SpiCore} (h : s.Single) : s.trdy = true := by
  unfold SpiCore.trdy
  cases htr : s.transmitting with
  | false => rfl
  | true => rw [h.not_waiting htr]; rfl

theorem flags_of_none {s : SpiCore} (h : s.inflight = 0) : s.rrdy = false ∧ s.tmt = true := by
  unfold SpiCore.inflight at h
  unfold SpiCore.tmt
  revert h
  generalize s.txHoldingPrimed = b₁, s.transmitting = b₂, s.rrdy = b₃
  revert b₁ b₂ b₃
  decide

/-! ### Events -/

/-- A cycle without an access changes nothing for the call. -/
theorem Inv.idle (h : l.Inv) (i : SpiIn) :
    ({ l with core := l.core.posedge (idlePins i) } : Link).Inv ∧ l.core.accepted (idlePins i) = [] := by
  obtain ⟨⟨hq, hs, hin⟩, hr, -, hacc⟩ := SpiCore.idle_flow h.quiet h.single i
  refine ⟨⟨hq, hs, ?_, ?_, h.room⟩, hacc⟩
  · have hflow := h.flow
    unfold Flow at hflow ⊢
    cases hpc : l.driver.pc <;> simp only [hpc, hin] at hflow ⊢
    all_goals first | exact hflow | exact ⟨hflow.1, hr hflow.2⟩
  · change l.driver.remaining.length + (l.core.posedge (idlePins i)).inflight = _
    rw [hin]
    exact h.count

/-- An access that leaves the byte on its way alone and only moves the call on. -/
theorem Inv.moved (h : l.Inv) {c : SpiCore} {p : SpiPc} (hc : c.After l.core.inflight)
    (hrem : ({ l.driver with pc := p } : SpiDriver).remaining = l.driver.remaining)
    (hflow : ({ l with driver := { l.driver with pc := p }, core := c } : Link).Flow) :
    ({ l with driver := { l.driver with pc := p }, core := c } : Link).Inv := by
  refine ⟨hc.quiet, hc.single, hflow, ?_, h.room⟩
  change ({ l.driver with pc := p } : SpiDriver).remaining.length + c.inflight = _
  rw [hrem, hc.inflight]
  exact h.count

/-- What an access keeps: the invariant, and the bytes of the call. -/
def Kept (e : LinkEv) (l : Link) : Prop :=
  (l.step e).Inv ∧ l.observe SpiCore.accepted e ++ (l.step e).driver.remaining = l.driver.remaining

/-- An access of a register other than the byte's moves the call on. -/
theorem Inv.write_moved (h : l.Inv) {addr : BitVec 3} {data : BitVec 16} {p : SpiPc}
    (ha : l.driver.access l.args = some (.write addr data)) (hst : addr ≠ statusReg)
    (htx : addr ≠ txdataReg) (hnext : ∀ w, l.driver.next l.args w = { l.driver with pc := p })
    (hrem : ({ l.driver with pc := p } : SpiDriver).remaining = l.driver.remaining)
    (hflow : ∀ c : SpiCore, c.inflight = l.core.inflight →
      ({ l with driver := { l.driver with pc := p }, core := c } : Link).Flow) (i₁ i₂ : SpiIn) :
    Kept (.access i₁ i₂) l ∧ (l.step (.access i₁ i₂)).driver = { l.driver with pc := p } := by
  obtain ⟨hc, hacc⟩ := SpiCore.write_flow h.quiet h.single addr data i₁ i₂ hst (fun heq => absurd heq htx)
  rw [if_neg htx] at hc hacc
  unfold Kept
  rw [step_access ha, observe_access ha, hacc, hnext]
  exact ⟨⟨h.moved hc hrem (hflow _ hc.inflight), hrem⟩, rfl⟩

/-- The slave is selected. -/
theorem Inv.slaveSel (h : l.Inv) (hpc : l.driver.pc = .slaveSel) (i₁ i₂ : SpiIn) : Kept (.access i₁ i₂) l ∧
    (l.step (.access i₁ i₂)).driver =
      { l.driver with pc := if l.args.toggleSsN then .discard else .sso } := by
  have hflow := h.flow
  unfold Flow at hflow
  rw [hpc] at hflow
  have ha : l.driver.access l.args = some (.write slaveSelReg (1#16 <<< l.args.slave)) := by
    unfold SpiDriver.access
    rw [hpc]
  apply h.write_moved ha
  · decide
  · decide
  · intro w
    simp only [SpiDriver.next, hpc]
  · simp only [SpiDriver.remaining, hpc]
    cases l.args.toggleSsN <;> rfl
  · intro c hc
    cases l.args.toggleSsN <;> exact ⟨hflow.1, hc.trans hflow.2⟩

/-- The select line is forced. -/
theorem Inv.sso (h : l.Inv) (hpc : l.driver.pc = .sso) (i₁ i₂ : SpiIn) : Kept (.access i₁ i₂) l ∧
    (l.step (.access i₁ i₂)).driver = { l.driver with pc := .discard } := by
  have hflow := h.flow
  unfold Flow at hflow
  rw [hpc] at hflow
  have ha : l.driver.access l.args = some (.write controlReg 0x400) := by
    unfold SpiDriver.access
    rw [hpc]
  apply h.write_moved ha
  · decide
  · decide
  · intro w
    simp only [SpiDriver.next, hpc]
  · simp only [SpiDriver.remaining, hpc]
  · exact fun c hc => ⟨hflow.1, hc.trans hflow.2⟩

/-- The select line is released. -/
theorem Inv.release (h : l.Inv) (hpc : l.driver.pc = .release) (i₁ i₂ : SpiIn) : Kept (.access i₁ i₂) l ∧
    (l.step (.access i₁ i₂)).driver = { l.driver with pc := .returned } := by
  have hflow := h.flow
  unfold Flow at hflow
  rw [hpc] at hflow
  have ha : l.driver.access l.args = some (.write controlReg 0) := by
    unfold SpiDriver.access
    rw [hpc]
  apply h.write_moved ha
  · decide
  · decide
  · intro w
    simp only [SpiDriver.next, hpc]
  · simp only [SpiDriver.remaining, hpc]
  · exact fun c hc => ⟨hc.trans hflow.1, hflow.2⟩

/-- Nothing stale is there to discard. -/
theorem Inv.discard (h : l.Inv) (hpc : l.driver.pc = .discard) (i₁ i₂ : SpiIn) : Kept (.access i₁ i₂) l ∧
    (l.step (.access i₁ i₂)).driver = { l.driver with pc := .status } ∧
    (l.step (.access i₁ i₂)).core.inflight = 0 := by
  have ha : l.driver.access l.args = some (.read rxdataReg) := by
    unfold SpiDriver.access
    rw [hpc]
  have hflow := h.flow
  unfold Flow at hflow
  rw [hpc] at hflow
  obtain ⟨hc, -, -, hacc⟩ := SpiCore.read_flow h.quiet h.single rxdataReg i₁ i₂ fun _ => Or.inr hflow.2
  rw [if_pos rfl, ← hflow.2] at hc
  have hrem : ({ l.driver with pc := .status } : SpiDriver).remaining = l.driver.remaining := by
    simp only [SpiDriver.remaining, hpc]
  unfold Kept
  rw [step_access ha, observe_access ha, hacc, SpiDriver.next, hpc]
  refine ⟨⟨h.moved hc hrem (Or.inl ?_), hrem⟩, rfl, hc.inflight.trans hflow.2⟩
  rw [hc.inflight, hflow.1, hflow.2]
  rfl

/-- With nothing on its way the transmitter is empty. -/
theorem Inv.tmt (h : l.Inv) (hpc : l.driver.pc = .tmt) (i₁ i₂ : SpiIn) : Kept (.access i₁ i₂) l ∧
    (l.step (.access i₁ i₂)).driver =
      { l.driver with pc := if l.args.merge then .returned else .release } := by
  have ha : l.driver.access l.args = some (.read statusReg) := by
    unfold SpiDriver.access
    rw [hpc]
  have hflow := h.flow
  unfold Flow at hflow
  rw [hpc] at hflow
  obtain ⟨hc, -, hdata, hacc⟩ := SpiCore.read_flow h.quiet h.single statusReg i₁ i₂
    (fun heq => absurd heq (by decide))
  rw [if_neg (by decide)] at hc
  have hw : SpiDriver.tmt (l.core.posedge ((SpiAccess.read statusReg).pins i₁)).dataToCpu = true := by
    rw [hdata]
    exact (status_bits l.core).2.2.trans (flags_of_none hflow.1).2
  have hrem : ({ l.driver with pc := if l.args.merge then .returned else .release } : SpiDriver).remaining =
      l.driver.remaining := by
    simp only [SpiDriver.remaining, hpc]
    cases l.args.merge <;> rfl
  unfold Kept
  rw [step_access ha, observe_access ha, hacc, SpiDriver.next, hpc]
  simp only [hw, if_true]
  refine ⟨⟨h.moved hc hrem ?_, hrem⟩, trivial⟩
  cases l.args.merge <;> exact ⟨hc.inflight.trans hflow.1, hflow.2⟩

/-- A byte is written. -/
theorem Inv.txdata (h : l.Inv) {v : Byte} (hpc : l.driver.pc = .txdata v) (i₁ i₂ : SpiIn) :
    Kept (.access i₁ i₂) l ∧ (l.step (.access i₁ i₂)).driver = { l.driver with pc := .status } ∧
      (l.step (.access i₁ i₂)).core.inflight = 1 := by
  have ha : l.driver.access l.args = some (.write txdataReg (v.setWidth 16)) := by
    unfold SpiDriver.access
    rw [hpc]
  have hflow := h.flow
  unfold Flow at hflow
  rw [hpc] at hflow
  obtain ⟨hcr, hin, hst⟩ := hflow
  obtain ⟨hc, hacc⟩ := SpiCore.write_flow h.quiet h.single txdataReg (v.setWidth 16) i₁ i₂ (by decide)
    fun _ => hin
  rw [if_pos rfl] at hc hacc
  have hv : (v.setWidth 16).setWidth 8 = v := by
    rw [BitVec.setWidth_setWidth_of_le _ (by decide), BitVec.setWidth_eq]
  have hrem : l.driver.remaining = v :: ({ l.driver with pc := .status } : SpiDriver).remaining := by
    simp only [SpiDriver.remaining, hpc]
    rfl
  have hcount := h.count
  rw [hrem, hin, List.length_cons] at hcount
  unfold Kept
  rw [step_access ha, observe_access ha, hacc, SpiDriver.next, hpc]
  have hready : l.driver.readIfReady = { l.driver with pc := .status } := by
    unfold SpiDriver.readIfReady
    rw [hst]
    rfl
  simp only [hready]
  refine ⟨⟨⟨hc.quiet, hc.single, Or.inl ?_, ?_, h.room⟩, ?_⟩, trivial, hc.inflight⟩
  · rw [hc.inflight]
    exact hcr
  · change ({ l.driver with pc := .status } : SpiDriver).remaining.length + _ = l.owed
    rw [hc.inflight]
    omega
  · rw [hv, hrem]
    rfl

/-! ### The loop -/

/-- How many accesses a call is from its return, at most. -/
def rank (l : Link) : ℕ :=
  200 * l.owed +
    match l.driver.pc with
    | .slaveSel => 203
    | .sso => 202
    | .discard => 201
    | .status => if l.core.inflight = 0 then 200 else 100 + l.core.ticks
    | .txdata _ => 199
    | .rxdata => 99
    | .tmt => 2
    | .release => 1
    | .returned => 0

/-- With a credit and something left the loop writes the next byte. -/
theorem gotStatus_send {w : BitVec 16} {d : SpiDriver} (hpc : d.pc = .status) (ht : SpiDriver.trdy w = true)
    (hc : d.credits = 1) (hne : d.remaining ≠ []) :
    ∃ v d', d.gotStatus w = d' ∧ d'.pc = .txdata v ∧ d'.remaining = d.remaining ∧ d'.credits = 0 ∧
      d'.status = w ∧ d'.readIgnore = d.readIgnore ∧ d'.readData = d.readData := by
  unfold SpiDriver.gotStatus
  have hgo : ((!SpiDriver.trdy w || decide (d.credits = 0)) && !SpiDriver.rrdy w) = false := by
    rw [ht, hc]
    rfl
  have hcredit : (SpiDriver.trdy w && decide (d.credits > 0)) = true := by
    rw [ht, hc]
    rfl
  simp only [hgo, hcredit, Bool.false_eq_true, if_false, if_true]
  cases hw : d.writeData with
  | cons v vs =>
    refine ⟨v, _, rfl, rfl, ?_, by simp [hc], rfl, rfl, rfl⟩
    simp [SpiDriver.remaining, hpc, hw]
  | nil =>
    have hz : d.writeZeros > 0 := by
      rw [gt_iff_lt, Nat.pos_iff_ne_zero]
      intro h0
      apply hne
      simp [SpiDriver.remaining, hpc, hw, h0]
    obtain ⟨z, hz'⟩ : ∃ z, d.writeZeros = z + 1 := ⟨d.writeZeros - 1, by omega⟩
    rw [if_pos hz]
    refine ⟨0, _, rfl, rfl, ?_, by simp [hc], rfl, rfl, rfl⟩
    simp [SpiDriver.remaining, hpc, hw, hz', List.replicate_succ]

/-- With a credit and nothing left it gives its credits up, and goes on polling. -/
theorem gotStatus_none {w : BitVec 16} {d : SpiDriver} (hpc : d.pc = .status) (ht : SpiDriver.trdy w = true)
    (hr : SpiDriver.rrdy w = false) (hc : d.credits = 1 ∨ d.credits = -1024) (hne : d.remaining = []) :
    d.gotStatus w = { d with status := w, credits := -1024 } := by
  have hparts : d.writeData = [] ∧ d.writeZeros = 0 := by
    simp only [SpiDriver.remaining, hpc, List.nil_append, List.append_eq_nil_iff,
      List.replicate_eq_nil_iff] at hne
    exact hne
  obtain ⟨pc, wd, wz, ri, rd, credits, status⟩ := d
  obtain ⟨rfl, rfl⟩ : wd = [] ∧ wz = 0 := hparts
  obtain rfl : pc = .status := hpc
  rcases hc with hc | hc
  · obtain rfl : credits = 1 := hc
    simp [SpiDriver.gotStatus, SpiDriver.readIfReady, ht, hr]
  · obtain rfl : credits = -1024 := hc
    simp [SpiDriver.gotStatus, SpiDriver.readIfReady, ht, hr]

/-- Without a credit it waits for the byte on its way. -/
theorem gotStatus_wait {w : BitVec 16} {d : SpiDriver} (hpc : d.pc = .status) (hc : d.credits = 0) :
    d.gotStatus w = { d with status := w, pc := if SpiDriver.rrdy w then .rxdata else .status } := by
  obtain ⟨pc, wd, wz, ri, rd, credits, status⟩ := d
  obtain rfl : pc = .status := hpc
  obtain rfl : credits = 0 := hc
  cases hr : SpiDriver.rrdy w <;> simp [SpiDriver.gotStatus, SpiDriver.readIfReady, hr]

/-- **A poll of the status.** -/
theorem Inv.status (h : l.Inv) (hpc : l.driver.pc = .status) (i₁ i₂ : SpiIn) : Kept (.access i₁ i₂) l ∧
    (0 < l.owed → (l.step (.access i₁ i₂)).rank < l.rank ∧ 0 < (l.step (.access i₁ i₂)).owed) ∧
    (l.owed = 0 → (l.step (.access i₁ i₂)).driver.pc = .status ∧ (l.step (.access i₁ i₂)).owed = 0) := by
  have ha : l.driver.access l.args = some (.read statusReg) := by
    unfold SpiDriver.access
    rw [hpc]
  obtain ⟨hc, hticks, hdata, hacc⟩ := SpiCore.read_flow h.quiet h.single statusReg i₁ i₂
    (fun heq => absurd heq (by decide))
  rw [if_neg (by decide)] at hc
  have hticks := hticks (by decide)
  have hstep := step_access ha i₁ i₂
  have hobs := observe_access (f := SpiCore.accepted) ha i₁ i₂
  rw [hacc] at hobs
  have hnext : l.driver.next l.args (l.core.posedge ((SpiAccess.read statusReg).pins i₁)).dataToCpu =
      l.driver.gotStatus l.core.spiStatus := by
    rw [hdata, SpiDriver.next, hpc]
    rfl
  rw [hnext] at hstep
  obtain ⟨htrdy, hrrdy, -⟩ := status_bits l.core
  rw [trdy_of_single h.single] at htrdy
  have hcount := h.count
  have hone := h.single.one
  have hflow := h.flow
  unfold Flow at hflow
  rw [hpc] at hflow
  unfold Kept
  rw [hobs, List.nil_append]
  by_cases h0 : l.core.inflight = 0
  · have hr0 : SpiDriver.rrdy l.core.spiStatus = false := hrrdy.trans (flags_of_none h0).1
    by_cases hrem : l.driver.remaining = []
    · -- nothing is left: the credits are given up, and the poll is repeated
      have howed : l.owed = 0 := by
        rw [← hcount, hrem, h0]
        rfl
      have hcr : l.driver.credits = 1 ∨ l.driver.credits = -1024 := by
        rcases hflow with hf | ⟨hf, -, -⟩
        · left; rw [hf, h0]; rfl
        · exact Or.inr hf
      rw [gotStatus_none hpc htrdy hr0 hcr hrem] at hstep
      have hrem' : ({ l.driver with status := l.core.spiStatus, credits := -1024 } : SpiDriver).remaining =
          l.driver.remaining := by simp only [SpiDriver.remaining]
      rw [hstep]
      refine ⟨⟨⟨hc.quiet, hc.single, ?_, ?_, h.room⟩, hrem'⟩, fun hpos => by omega, fun _ => ⟨hpc, howed⟩⟩
      · unfold Flow
        simp only [hpc]
        exact Or.inr ⟨trivial, hc.inflight.trans h0, by simpa only [SpiDriver.remaining, hpc] using hrem⟩
      · change ({ l.driver with status := l.core.spiStatus, credits := -1024 } : SpiDriver).remaining.length +
          _ = l.owed
        rw [hrem', hc.inflight]
        exact hcount
    · have hpos : 0 < l.owed := by
        have := List.length_pos_iff.2 hrem
        omega
      have hcr : l.driver.credits = 1 := by
        rcases hflow with hf | ⟨-, -, hf⟩
        · rw [hf, h0]; rfl
        · exact absurd hf hrem
      obtain ⟨v, d', hgot, hpc', hrem', hcr', hst', hri', hrd'⟩ := gotStatus_send hpc htrdy hcr hrem
      rw [hgot] at hstep
      have howed' : (l.step (.access i₁ i₂)).owed = l.owed := by
        rw [hstep]
        unfold owed SpiDriver.owed
        rw [hri', hrd']
      refine ⟨⟨⟨?_, ?_, ?_, ?_, ?_⟩, ?_⟩, fun _ => ⟨?_, by rw [howed']; exact hpos⟩, fun hz => by omega⟩
      · rw [hstep]; exact hc.quiet
      · rw [hstep]; exact hc.single
      · rw [hstep]
        unfold Flow
        simp only [hpc']
        exact ⟨hcr', hc.inflight.trans h0, by rw [hst']; exact hr0⟩
      · rw [howed', hstep]
        change d'.remaining.length + _ = _
        rw [hrem', hc.inflight]
        exact hcount
      · rw [hstep]
        change d'.readData.length ≤ _
        rw [hrd']
        exact h.room
      · rw [hstep]; exact hrem'
      · unfold rank
        rw [howed', hstep]
        simp only [hpc', hpc, h0, if_true]
        omega
  · have h1 : l.core.inflight = 1 := by omega
    have hpos : 0 < l.owed := by omega
    have hcr : l.driver.credits = 0 := by
      rcases hflow with hf | ⟨-, hf, -⟩
      · rw [hf, h1]; rfl
      · exact absurd hf h0
    rw [gotStatus_wait hpc hcr, hrrdy] at hstep
    have hiff := h.single.rrdy_iff
    have hiff' := hc.single.rrdy_iff
    have howed' : (l.step (.access i₁ i₂)).owed = l.owed := by
      rw [hstep]
      rfl
    have hrem' : (l.step (.access i₁ i₂)).driver.remaining = l.driver.remaining := by
      rw [hstep]
      cases l.core.rrdy <;> simp [SpiDriver.remaining, hpc]
    refine ⟨⟨⟨?_, ?_, ?_, ?_, ?_⟩, hrem'⟩, fun _ => ⟨?_, by rw [howed']; exact hpos⟩, fun hz => by omega⟩
    · rw [hstep]; exact hc.quiet
    · rw [hstep]; exact hc.single
    · rw [hstep]
      unfold Flow
      cases hr : l.core.rrdy with
      | true =>
        have h00 := (hiff.1 hr).2
        exact ⟨hcr, hiff'.2 ⟨hc.inflight.trans h1, by rw [hticks, h00]⟩⟩
      | false =>
        refine Or.inl ?_
        rw [hc.inflight, h1]
        exact hcr
    · rw [howed', hrem', hstep, hc.inflight]
      exact hcount
    · rw [hstep]; exact h.room
    · unfold rank
      rw [howed', hstep]
      cases hr : l.core.rrdy with
      | true =>
        simp only [hpc, if_true, h1]
        simp
        omega
      | false =>
        have hticks0 : l.core.ticks ≠ 0 := fun h00 => by
          rw [hiff.2 ⟨h1, h00⟩] at hr
          exact absurd hr (by decide)
        simp only [hpc, Bool.false_eq_true, if_false, hc.inflight, h1, hticks]
        simp
        omega

/-- The byte read back is dropped or stored, and the credit is back. -/
theorem gotRxdata_cases {a : SpiArgs} {w : BitVec 16} {d : SpiDriver} (hpc : d.pc = .rxdata)
    (hc : d.credits = 0) (howed : 0 < d.owed a) (hroom : d.readData.length ≤ a.readLength) :
    (d.gotRxdata a w).remaining = d.remaining ∧ (d.gotRxdata a w).owed a + 1 = d.owed a ∧
      (d.gotRxdata a w).readData.length ≤ a.readLength ∧
      ((d.gotRxdata a w).pc = .status ∧ (d.gotRxdata a w).credits = 1 ∧ 0 < (d.gotRxdata a w).owed a ∨
        (d.gotRxdata a w).pc = .tmt ∧ (d.gotRxdata a w).owed a = 0) := by
  obtain ⟨pc, wd, wz, ri, rd, credits, status⟩ := d
  obtain rfl : pc = .rxdata := hpc
  obtain rfl : credits = 0 := hc
  simp only [SpiDriver.owed, SpiDriver.remaining] at howed hroom ⊢
  by_cases hri : ri > 0
  · by_cases hend : ri - 1 = 0 ∧ rd.length = a.readLength
    · simp only [SpiDriver.gotRxdata, if_pos hri, if_pos hend]
      exact ⟨trivial, by omega, hroom, Or.inr ⟨trivial, by omega⟩⟩
    · simp only [SpiDriver.gotRxdata, if_pos hri, if_neg hend]
      exact ⟨trivial, by omega, hroom, Or.inl ⟨trivial, rfl, by omega⟩⟩
  · have hlen : (rd ++ [w.setWidth 8]).length = rd.length + 1 := List.length_append
    by_cases hend : ri = 0 ∧ (rd ++ [w.setWidth 8]).length = a.readLength
    · simp only [SpiDriver.gotRxdata, if_neg hri, if_pos hend]
      exact ⟨trivial, by omega, by omega, Or.inr ⟨trivial, by omega⟩⟩
    · simp only [SpiDriver.gotRxdata, if_neg hri, if_neg hend]
      exact ⟨trivial, by omega, by omega, Or.inl ⟨trivial, rfl, by omega⟩⟩

/-- **A byte is read back.** -/
theorem Inv.rxdata (h : l.Inv) (hpc : l.driver.pc = .rxdata) (i₁ i₂ : SpiIn) : Kept (.access i₁ i₂) l ∧
    (l.step (.access i₁ i₂)).driver = l.driver.gotRxdata l.args (l.core.rxHoldingReg.setWidth 16) ∧
    (l.step (.access i₁ i₂)).owed + 1 = l.owed ∧ (l.step (.access i₁ i₂)).core.inflight = 0 ∧
    ((l.step (.access i₁ i₂)).driver.pc = .status ∧ 0 < (l.step (.access i₁ i₂)).owed ∨
      (l.step (.access i₁ i₂)).driver.pc = .tmt) := by
  have ha : l.driver.access l.args = some (.read rxdataReg) := by
    unfold SpiDriver.access
    rw [hpc]
  have hflow := h.flow
  unfold Flow at hflow
  rw [hpc] at hflow
  obtain ⟨hcr, hrr⟩ := hflow
  have hcount := h.count
  rw [(h.single.rrdy_iff.1 hrr).1] at hcount
  obtain ⟨hc, -, hdata, hacc⟩ := SpiCore.read_flow h.quiet h.single rxdataReg i₁ i₂ fun _ => Or.inl hrr
  rw [if_pos rfl] at hc
  have hstep := step_access ha i₁ i₂
  have hobs := observe_access (f := SpiCore.accepted) ha i₁ i₂
  rw [hacc] at hobs
  have hnext : l.driver.next l.args (l.core.posedge ((SpiAccess.read rxdataReg).pins i₁)).dataToCpu =
      l.driver.gotRxdata l.args (l.core.rxHoldingReg.setWidth 16) := by
    rw [hdata, SpiDriver.next, hpc]
    rfl
  rw [hnext] at hstep
  obtain ⟨hrem, howed, hroom, hpc'⟩ := gotRxdata_cases (w := l.core.rxHoldingReg.setWidth 16) hpc hcr
    (by unfold owed at hcount; omega) h.room
  unfold Kept
  rw [hobs, hstep]
  refine ⟨⟨⟨hc.quiet, hc.single, ?_, ?_, hroom⟩, hrem⟩, rfl, howed, hc.inflight, ?_⟩
  · unfold Flow
    rcases hpc' with ⟨hp, hcr', -⟩ | ⟨hp, h0⟩
    · simp only [hp]
      left
      rw [hcr', hc.inflight]
      rfl
    · simp only [hp]
      exact ⟨hc.inflight, h0⟩
  · change _ + _ = (l.driver.gotRxdata l.args _).owed l.args
    rw [hrem, hc.inflight]
    change _ = l.driver.owed l.args at hcount
    omega
  · rcases hpc' with ⟨hp, -, h0⟩ | ⟨hp, -⟩
    · exact Or.inl ⟨hp, h0⟩
    · exact Or.inr hp

/-! ### Any event -/

/-- In its loop the call has something to read back. -/
def Live (l : Link) : Prop :=
  match l.driver.pc with
  | .tmt | .release | .returned => True
  | _ => 0 < l.owed

/-- The call is at or before its loop with nothing to send and nothing to read back. -/
def Barren (l : Link) : Prop :=
  l.owed = 0 ∧ match l.driver.pc with
    | .slaveSel | .sso | .discard | .status => True
    | _ => False

theorem ticks_le (s : SpiCore) : s.ticks ≤ 92 := by
  unfold SpiCore.ticks
  split_ifs <;> omega

/-- **An access**: the invariant is kept, a call with something to send comes nearer to its
return, and one without never leaves the loop. -/
theorem Inv.access (h : l.Inv) (i₁ i₂ : SpiIn) : Kept (.access i₁ i₂) l ∧
    (l.Live → l.driver.pc ≠ .returned →
      (l.step (.access i₁ i₂)).rank < l.rank ∧ (l.step (.access i₁ i₂)).Live) ∧
    (l.Barren → (l.step (.access i₁ i₂)).Barren) := by
  -- an access that only moves the pc keeps what is owed
  have howed : ∀ {p : SpiPc}, (l.step (.access i₁ i₂)).driver = { l.driver with pc := p } →
      (l.step (.access i₁ i₂)).owed = l.owed := by
    intro p hd
    change SpiDriver.owed l.args _ = _
    rw [hd]
    rfl
  unfold Live Barren rank
  cases hpc : l.driver.pc with
  | slaveSel =>
    obtain ⟨hk, hd⟩ := h.slaveSel hpc i₁ i₂
    rw [howed hd, hd]
    refine ⟨hk, fun hl _ => ?_, fun hb => ?_⟩
    · cases l.args.toggleSsN <;> exact ⟨by simp, hl⟩
    · cases l.args.toggleSsN <;> exact hb
  | sso =>
    obtain ⟨hk, hd⟩ := h.sso hpc i₁ i₂
    rw [howed hd, hd]
    exact ⟨hk, fun hl _ => ⟨by simp, hl⟩, id⟩
  | discard =>
    obtain ⟨hk, hd, hin⟩ := h.discard hpc i₁ i₂
    rw [howed hd, hd, hin]
    exact ⟨hk, fun hl _ => ⟨by simp, hl⟩, id⟩
  | status =>
    obtain ⟨hk, hlive, hbarren⟩ := h.status hpc i₁ i₂
    refine ⟨hk, fun hl _ => ?_, fun hb => ?_⟩
    · obtain ⟨hrank, hpos⟩ := hlive hl
      unfold rank at hrank
      rw [hpc] at hrank
      refine ⟨hrank, ?_⟩
      split
      · trivial
      · trivial
      · trivial
      · exact hpos
    · obtain ⟨hp, h0⟩ := hbarren hb.1
      rw [hp]
      exact ⟨h0, trivial⟩
  | txdata v =>
    obtain ⟨hk, hd, hin⟩ := h.txdata hpc i₁ i₂
    have hle := ticks_le (l.step (.access i₁ i₂)).core
    rw [howed hd, hd, hin]
    refine ⟨hk, fun hl _ => ⟨?_, hl⟩, fun hb => hb.2.elim⟩
    simp only [Nat.one_ne_zero, if_false]
    omega
  | rxdata =>
    obtain ⟨hk, -, ho, hin, hp⟩ := h.rxdata hpc i₁ i₂
    refine ⟨hk, fun hl _ => ?_, fun hb => hb.2.elim⟩
    rcases hp with ⟨hp, hpos⟩ | hp
    · rw [hp, hin, if_pos rfl]
      exact ⟨by simp only; omega, hpos⟩
    · rw [hp]
      exact ⟨by simp only; omega, trivial⟩
  | tmt =>
    obtain ⟨hk, hd⟩ := h.tmt hpc i₁ i₂
    rw [howed hd, hd]
    refine ⟨hk, fun _ _ => ?_, fun hb => hb.2.elim⟩
    cases l.args.merge <;> exact ⟨by simp, trivial⟩
  | release =>
    obtain ⟨hk, hd⟩ := h.release hpc i₁ i₂
    rw [howed hd, hd]
    exact ⟨hk, fun _ _ => ⟨by simp, trivial⟩, fun hb => hb.2.elim⟩
  | returned =>
    have ha : l.driver.access l.args = none := by
      unfold SpiDriver.access
      rw [hpc]
    obtain ⟨hinv, hacc⟩ := h.idle i₁
    refine ⟨?_, fun _ hne => absurd rfl hne, fun hb => hb.2.elim⟩
    unfold Kept
    rw [step_returned ha, observe_returned ha, hacc]
    exact ⟨hinv, rfl⟩

/-- **A cycle without an access** keeps the invariant, and the call where it is. -/
theorem Inv.stall (h : l.Inv) (i : SpiIn) : Kept (.stall i) l ∧
    (l.step (.stall i)).rank ≤ l.rank ∧ (l.Live → (l.step (.stall i)).Live) ∧
    (l.Barren → (l.step (.stall i)).Barren) := by
  obtain ⟨hinv, hacc⟩ := h.idle i
  obtain ⟨hafter, -, hticks, -⟩ := SpiCore.idle_flow h.quiet h.single i
  rw [step_stall]
  refine ⟨⟨hinv, ?_⟩, ?_, id, id⟩
  · change l.core.accepted (idlePins i) ++ _ = _
    rw [hacc]
    rfl
  · change 200 * l.owed + _ ≤ 200 * l.owed + _
    apply Nat.add_le_add_left
    cases l.driver.pc <;> simp only [hafter.inflight, hticks, le_refl]
    split_ifs <;> omega

theorem Inv.kept (h : l.Inv) (e : LinkEv) : Kept e l := by
  cases e with
  | stall i => exact (h.stall i).1
  | access i₁ i₂ => exact (h.access i₁ i₂).1

end Link

end Firmware

end BankVault
