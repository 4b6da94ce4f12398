import BankVault.Proof.SpiCommand

/-!
# The slave select of a call

A call writes its slave to `spi_slave_select_holding_reg` while nothing is sent, and the core
takes it over when it loads a byte, or when `SSO` is switched on. So every bit of the call goes
to its slave; and unless the line is to be toggled the slave stays selected between the bytes.

* `Released`: a call that has returned, unless it is to be merged with the next, has switched `SSO` off.
* `command_selects`: which slave is selected, over a whole call.
-/

namespace BankVault

open Clocked Wire SpiCtrl Firmware

namespace SpiCore

variable {i : SpiIn} {s : SpiCore} {m : BitVec 16}

/-- **The slave is chosen**: whatever is sent goes to it. -/
structure Selecting (m : BitVec 16) (s : SpiCore) : Prop where
  holding : s.slaveSelectHoldingReg = m
  sending : s.transmitting = true → s.slaveSelectReg = m

/-- **The slave is held**, between bytes as well. -/
structure Held (m : BitVec 16) (s : SpiCore) : Prop where
  sso : s.sso = true
  holding : s.slaveSelectHoldingReg = m
  select : s.slaveSelectReg = m

theorem Held.ssN (h : s.Held m) : s.ssN = ~~~m := by
  unfold SpiCore.ssN
  rw [h.sso, Bool.or_true, if_pos rfl, h.select]

theorem Selecting.posedge (h : s.Selecting m) (hs : s.slaveselectWrStrobe i = false) :
    (s.posedge i).Selecting m := by
  refine ⟨?_, fun htr => ?_⟩
  · change (if s.slaveselectWrStrobe i then _ else _) = m
    rw [hs]
    exact h.holding
  · change (if s.writeShiftReg || _ then s.slaveSelectHoldingReg else s.slaveSelectReg) = m
    rw [h.holding]
    split_ifs with hw
    · rfl
    · rw [Bool.or_eq_true, not_or, Bool.not_eq_true] at hw
      rw [posedge_transmitting, hw.1, Bool.false_or] at htr
      apply h.sending
      cases hp : s.transactionPrimed with
      | true =>
        rw [hp] at htr
        exact absurd htr Bool.false_ne_true
      | false =>
        rw [hp] at htr
        exact htr

theorem Held.posedge (h : s.Held m) (hc : s.controlWrStrobe i = false) (hs : s.slaveselectWrStrobe i = false) :
    (s.posedge i).Held m := by
  refine ⟨?_, ?_, ?_⟩
  · change (if s.controlWrStrobe i then _ else s.sso) = true
    rw [hc]
    exact h.sso
  · change (if s.slaveselectWrStrobe i then _ else _) = m
    rw [hs]
    exact h.holding
  · change (if s.writeShiftReg || _ then s.slaveSelectHoldingReg else s.slaveSelectReg) = m
    rw [h.holding, h.select, ite_self]

/-- A bit is clocked out only in a byte, with `SS_n` driven. -/
theorem Timed.ssN_of_rises (h : s.Timed) (hr : s.sclkRises i = true) :
    s.transmitting = true ∧ s.ssN = ~~~s.slaveSelectReg := by
  rcases h.cases (i := i) with ⟨after, ha, -⟩ | ⟨c, hc, hb, -⟩ | ⟨hb, -⟩
  · have hsclk : s.sclkReg = true := congrArg SpiCtrl.sclkReg ha
    rw [sclkRises_of_high hsclk] at hr
    exact absurd hr (by decide)
  · rw [(inByte_posedge hc hb).1] at hr
    have htr : s.transmitting = true := congrArg SpiCtrl.transmitting hb
    have hz : s.stateZero = false :=
      (congrArg SpiCtrl.stateZero hb).trans ((moves_inByte hc.le).2.2.2 hc hr)
    refine ⟨htr, ?_⟩
    unfold SpiCore.ssN enableSS
    rw [htr, hz]
    rfl
  · have hsclk : s.sclkReg = true := congrArg SpiCtrl.sclkReg hb
    rw [sclkRises_of_high hsclk] at hr
    exact absurd hr (by decide)

/-- **The bits go to the slave that is chosen.** -/
theorem Selecting.clockedTo (h : s.Selecting m) (ht : s.Timed) (i : SpiIn) :
    s.clockedTo i = (s.clockedOut i).map fun b => (~~~m, b) := by
  unfold SpiCore.clockedTo clockedOut
  cases hr : s.sclkRises i with
  | false => rfl
  | true =>
    obtain ⟨htr, hssN⟩ := ht.ssN_of_rises hr
    rw [hssN, h.sending htr]
    rfl

/-! ### Accesses -/

/-- In a cycle without an access before it nothing is strobed. -/
theorem Quiet.no_strobe (hq : s.Quiet) (i : SpiIn) :
    s.controlWrStrobe i = false ∧ s.slaveselectWrStrobe i = false := by
  unfold controlWrStrobe slaveselectWrStrobe
  rw [hq.wr]
  exact ⟨rfl, rfl⟩

/-- What the second cycle of an access does not strobe. -/
theorem second_strobe (a : SpiAccess) (i₁ i₂ : SpiIn) :
    ((∀ data, a ≠ .write controlReg data) → (s.posedge (a.pins i₁)).controlWrStrobe (a.pins i₂) = false) ∧
    ((∀ data, a ≠ .write slaveSelReg data) →
      (s.posedge (a.pins i₁)).slaveselectWrStrobe (a.pins i₂) = false) := by
  cases a with
  | read addr =>
    have hwr : (s.posedge ((SpiAccess.read addr).pins i₁)).wrStrobe = false := by
      change (!s.wrStrobe && true && !true) = false
      rw [Bool.not_true, Bool.and_false]
    unfold controlWrStrobe slaveselectWrStrobe
    rw [hwr]
    exact ⟨fun _ => rfl, fun _ => rfl⟩
  | write addr data =>
    refine ⟨fun h => ?_, fun h => ?_⟩
    · change (_ && addr == 3) = false
      have hne : addr ≠ 3 := fun heq => h data (by rw [heq])
      rw [beq_eq_false_iff_ne.2 hne, Bool.and_false]
    · change (_ && addr == 5) = false
      have hne : addr ≠ 5 := fun heq => h data (by rw [heq])
      rw [beq_eq_false_iff_ne.2 hne, Bool.and_false]

/-- The two strobes of a write. -/
theorem Quiet.write_strobe (hq : s.Quiet) (addr : BitVec 3) (data : BitVec 16) (i₁ i₂ : SpiIn) :
    (s.posedge ((SpiAccess.write addr data).pins i₁)).controlWrStrobe ((SpiAccess.write addr data).pins i₂) =
      (addr == controlReg) ∧
    (s.posedge ((SpiAccess.write addr data).pins i₁)).slaveselectWrStrobe
      ((SpiAccess.write addr data).pins i₂) = (addr == slaveSelReg) := by
  have hwr : (s.posedge ((SpiAccess.write addr data).pins i₁)).wrStrobe = true := by
    change (!s.wrStrobe && true && !false) = true
    rw [hq.wr]
    rfl
  unfold controlWrStrobe slaveselectWrStrobe
  rw [hwr]
  exact ⟨rfl, rfl⟩

end SpiCore

namespace Firmware

namespace Link

variable {l : Link} {e : LinkEv}

/-- The slave of a call. -/
abbrev slave (l : Link) : BitVec 16 := 1#16 <<< l.args.slave

/-- The call has chosen its slave. -/
def Chosen (l : Link) : Prop :=
  match l.driver.pc with
  | .slaveSel => True
  | _ => l.core.Selecting l.slave

/-- The call holds its slave from its first access of the loop on, until it releases it. -/
def Holds (l : Link) : Prop :=
  match l.driver.pc with
  | .slaveSel | .sso => l.core.sso = false
  | .returned => True
  | _ => l.core.Held l.slave

/-- A call that has returned without `merge` has switched `SSO` off. -/
def Released (l : Link) : Prop := l.driver.pc = .returned → l.args.merge = false → l.core.sso = false

/-- What a cycle without an access keeps. -/
theorem chosen_idle (h : l.Inv) (hc : l.Chosen) (i : SpiIn) :
    ({ l with core := l.core.posedge (idlePins i) } : Link).Chosen := by
  have hs := (h.quiet.no_strobe (idlePins i)).2
  unfold Chosen at hc ⊢
  cases hpc : l.driver.pc <;> simp only [hpc] at hc ⊢
  all_goals exact hc.posedge hs

theorem sso_idle (h : l.Inv) (i : SpiIn) : (l.core.posedge (idlePins i)).sso = l.core.sso := by
  change (if l.core.controlWrStrobe (idlePins i) then _ else l.core.sso) = _
  rw [(h.quiet.no_strobe (idlePins i)).1]
  rfl

theorem holds_idle (h : l.Inv) (hc : l.Holds) (i : SpiIn) :
    ({ l with core := l.core.posedge (idlePins i) } : Link).Holds := by
  obtain ⟨hctl, hsel⟩ := h.quiet.no_strobe (idlePins i)
  have hsso := sso_idle h i
  unfold Holds at hc ⊢
  cases hpc : l.driver.pc <;> simp only [hpc, hsso] at hc ⊢
  case slaveSel | sso => exact hc
  all_goals exact hc.posedge hctl hsel

/-- **An access keeps the slave chosen.** -/
theorem Inv.chosen (h : l.Inv) (hc : l.Chosen) (e : LinkEv) : (l.step e).Chosen := by
  cases e with
  | stall i => exact chosen_idle h hc i
  | access i₁ i₂ =>
    cases ha : l.driver.access l.args with
    | none =>
      rw [step_returned ha]
      exact chosen_idle h hc i₁
    | some a =>
      have hall : ((l.core.posedge (a.pins i₁)).posedge (a.pins i₂)).Selecting l.slave := by
        by_cases hpc : l.driver.pc = .slaveSel
        · have ha' : a = .write slaveSelReg l.slave := by
            unfold SpiDriver.access at ha
            rw [hpc] at ha
            exact (Option.some.inj ha).symm
          subst ha'
          refine ⟨?_, fun htr => ?_⟩
          · change (if _ then _ else _) = l.slave
            rw [(h.quiet.write_strobe slaveSelReg l.slave i₁ i₂).2]
            rfl
          · -- nothing is sent before the loop
            have hflow := h.flow
            unfold Flow at hflow
            rw [hpc] at hflow
            have hin := (SpiCore.write_flow h.quiet h.single slaveSelReg l.slave i₁ i₂ (by decide)
              (fun heq => absurd heq (by decide))).1.inflight
            rw [if_neg (by decide), hflow.2] at hin
            have htmt := (flags_of_none hin).2
            unfold SpiCore.tmt at htmt
            rw [htr] at htmt
            exact absurd htmt Bool.false_ne_true
        · have hsel : l.core.Selecting l.slave := by
            unfold Chosen at hc
            cases hp : l.driver.pc with
            | slaveSel => exact absurd hp hpc
            | _ => rw [hp] at hc; exact hc
          have hne : ∀ data, a ≠ .write slaveSelReg data := by
            rintro data rfl
            unfold SpiDriver.access at ha
            cases hp : l.driver.pc with
            | slaveSel => exact hpc hp
            | _ =>
              rw [hp] at ha
              simp at ha
          exact (hsel.posedge (h.quiet.no_strobe _).2).posedge ((SpiCore.second_strobe a i₁ i₂).2 hne)
      rw [step_access ha]
      unfold Chosen
      cases hp : (l.driver.next l.args (l.core.posedge (a.pins i₁)).dataToCpu).pc with
      | slaveSel => trivial
      | _ => exact hall

/-- An access that writes neither the slave nor `SSO` keeps the slave held. -/
theorem Inv.held (h : l.Inv) {m : BitVec 16} (hm : l.core.Held m) {a : SpiAccess}
    (hctl : ∀ data, a ≠ .write controlReg data) (hsel : ∀ data, a ≠ .write slaveSelReg data) (i₁ i₂ : SpiIn) :
    ((l.core.posedge (a.pins i₁)).posedge (a.pins i₂)).Held m := by
  obtain ⟨hc₁, hs₁⟩ := h.quiet.no_strobe (a.pins i₁)
  obtain ⟨hc₂, hs₂⟩ := SpiCore.second_strobe (s := l.core) a i₁ i₂
  exact (hm.posedge hc₁ hs₁).posedge (hc₂ hctl) (hs₂ hsel)

/-- **Switching `SSO` on** takes the slave over. -/
theorem Inv.sso_on (h : l.Inv) {m : BitVec 16} (hm : l.core.Selecting m) (hsso : l.core.sso = false)
    (i₁ i₂ : SpiIn) :
    ((l.core.posedge ((SpiAccess.write controlReg 0x400).pins i₁)).posedge
      ((SpiAccess.write controlReg 0x400).pins i₂)).Held m := by
  obtain ⟨hc₁, hs₁⟩ := h.quiet.no_strobe ((SpiAccess.write controlReg 0x400).pins i₁)
  obtain ⟨hc₂, hs₂⟩ := h.quiet.write_strobe controlReg 0x400 i₁ i₂
  have hm₁ := hm.posedge hs₁
  have hsso₁ : (l.core.posedge ((SpiAccess.write controlReg 0x400).pins i₁)).sso = false := by
    change (if l.core.controlWrStrobe _ then _ else l.core.sso) = false
    rw [hc₁]
    exact hsso
  have hbit : ((SpiAccess.write controlReg 0x400).pins i₂).dataFromCpu.getLsbD 10 = true := by
    change (0x400#16).getLsbD 10 = true
    decide
  refine ⟨?_, ?_, ?_⟩
  · change (if (l.core.posedge _).controlWrStrobe _ then _ else _) = true
    rw [hc₂, hbit]
    rfl
  · change (if (l.core.posedge _).slaveselectWrStrobe _ then _ else _) = m
    rw [hs₂]
    exact hm₁.holding
  · change (if _ || ((l.core.posedge _).controlWrStrobe _ && _ && !(l.core.posedge _).sso) then _ else _) = m
    rw [hc₂, hsso₁, hbit, if_pos (by simp)]
    exact hm₁.holding

/-- **An access keeps the slave held.** -/
theorem Inv.holds (h : l.Inv) (ht : l.args.toggleSsN = false) (hc : l.Chosen) (hh : l.Holds) (e : LinkEv) :
    (l.step e).Holds := by
  cases e with
  | stall i => exact holds_idle h hh i
  | access i₁ i₂ =>
    unfold Holds at hh
    unfold Chosen at hc
    -- an access of the loop, with what comes after it
    have hloop : ∀ {a : SpiAccess}, l.driver.access l.args = some a → l.core.Held l.slave →
        (∀ data, a ≠ .write controlReg data) → (∀ data, a ≠ .write slaveSelReg data) →
        (l.driver.next l.args (l.core.posedge (a.pins i₁)).dataToCpu).pc ≠ .slaveSel →
        (l.driver.next l.args (l.core.posedge (a.pins i₁)).dataToCpu).pc ≠ .sso →
        (l.step (.access i₁ i₂)).Holds := by
      intro a ha hm hctl hsel h₁ h₂
      have hheld := h.held hm hctl hsel i₁ i₂
      rw [step_access ha]
      unfold Holds
      cases hp : (l.driver.next l.args (l.core.posedge (a.pins i₁)).dataToCpu).pc with
      | slaveSel => exact absurd hp h₁
      | sso => exact absurd hp h₂
      | returned => trivial
      | _ => exact hheld
    cases hpc : l.driver.pc with
    | slaveSel =>
      rw [hpc] at hh
      obtain ⟨-, hd⟩ := h.slaveSel hpc i₁ i₂
      rw [ht] at hd
      have ha : l.driver.access l.args = some (.write slaveSelReg l.slave) := by
        unfold SpiDriver.access
        rw [hpc]
      unfold Holds
      rw [hd]
      rw [step_access ha]
      change (if (l.core.posedge _).controlWrStrobe _ then _ else (l.core.posedge _).sso) = false
      rw [(h.quiet.write_strobe slaveSelReg l.slave i₁ i₂).1]
      change (if l.core.controlWrStrobe _ then _ else l.core.sso) = false
      rw [(h.quiet.no_strobe _).1]
      exact hh
    | sso =>
      rw [hpc] at hh hc
      obtain ⟨-, hd⟩ := h.sso hpc i₁ i₂
      have ha : l.driver.access l.args = some (.write controlReg 0x400) := by
        unfold SpiDriver.access
        rw [hpc]
      unfold Holds
      rw [hd, step_access ha]
      exact h.sso_on hc hh i₁ i₂
    | discard =>
      rw [hpc] at hh
      have hn := fun w => (next_pc (a := l.args) (d := l.driver) w).1 hpc
      exact hloop (a := .read rxdataReg) (by unfold SpiDriver.access; rw [hpc]) hh (by simp) (by simp)
        (by simp [hn]) (by simp [hn])
    | status =>
      rw [hpc] at hh
      have hn := fun w => (next_pc (a := l.args) (d := l.driver) w).2.1 hpc
      refine hloop (a := .read statusReg) (by unfold SpiDriver.access; rw [hpc]) hh (by simp) (by simp)
        ?_ ?_
      all_goals
        rcases hn (l.core.posedge ((SpiAccess.read statusReg).pins i₁)).dataToCpu with hp | ⟨v, hp⟩ | hp <;>
          rw [hp] <;> simp
    | txdata v =>
      rw [hpc] at hh
      have hn := fun w => (next_pc (a := l.args) (d := l.driver) w).2.2.1 v hpc
      refine hloop (a := .write txdataReg (v.setWidth 16)) (by unfold SpiDriver.access; rw [hpc]) hh
        (by simp) (by simp) ?_ ?_
      all_goals
        rcases hn (l.core.posedge ((SpiAccess.write txdataReg (v.setWidth 16)).pins i₁)).dataToCpu with hp | hp <;>
          rw [hp] <;> simp
    | rxdata =>
      rw [hpc] at hh
      have hn := fun w => (next_pc (a := l.args) (d := l.driver) w).2.2.2 hpc
      refine hloop (a := .read rxdataReg) (by unfold SpiDriver.access; rw [hpc]) hh (by simp) (by simp)
        ?_ ?_
      all_goals
        rcases hn (l.core.posedge ((SpiAccess.read rxdataReg).pins i₁)).dataToCpu with hp | hp <;>
          rw [hp] <;> simp
    | tmt =>
      rw [hpc] at hh
      obtain ⟨-, hd⟩ := h.tmt hpc i₁ i₂
      have ha : l.driver.access l.args = some (.read statusReg) := by
        unfold SpiDriver.access
        rw [hpc]
      have hn : l.driver.next l.args (l.core.posedge ((SpiAccess.read statusReg).pins i₁)).dataToCpu =
          { l.driver with pc := if l.args.merge then .returned else .release } := by
        rw [← hd, step_access ha]
      refine hloop ha hh (by simp) (by simp) ?_ ?_
      all_goals
        rw [hn]
        cases l.args.merge <;> simp
    | release =>
      obtain ⟨-, hd⟩ := h.release hpc i₁ i₂
      unfold Holds
      rw [hd]
      trivial
    | returned =>
      have ha : l.driver.access l.args = none := by
        unfold SpiDriver.access
        rw [hpc]
      rw [step_returned ha]
      apply holds_idle h
      unfold Holds
      rw [hpc]
      trivial

theorem released_idle (h : l.Inv) (hr : l.Released) (i : SpiIn) :
    ({ l with core := l.core.posedge (idlePins i) } : Link).Released :=
  fun hpc hm => (sso_idle h i).trans (hr hpc hm)

/-- A call ends with its last poll or with the access that releases the slave. -/
theorem returned_from {a : SpiArgs} {d : SpiDriver} {w : BitVec 16} (h : (d.next a w).pc = .returned) :
    d.pc = .tmt ∨ d.pc = .release ∨ d.pc = .returned := by
  obtain ⟨hdiscard, hstatus, htxdata, hrxdata⟩ := next_pc (a := a) (d := d) w
  cases hpc : d.pc with
  | slaveSel =>
    simp only [SpiDriver.next, hpc] at h
    split_ifs at h
  | sso => simp [SpiDriver.next, hpc] at h
  | discard => simp [hdiscard hpc] at h
  | status => rcases hstatus hpc with hp | ⟨v, hp⟩ | hp <;> simp [hp] at h
  | txdata v => rcases htxdata v hpc with hp | hp <;> simp [hp] at h
  | rxdata => rcases hrxdata hpc with hp | hp <;> simp [hp] at h
  | tmt => exact Or.inl rfl
  | release => exact Or.inr (Or.inl rfl)
  | returned => exact Or.inr (Or.inr rfl)

/-- **Only the write of 0 to the control register ends a call** that is not to be merged. -/
theorem Inv.released (h : l.Inv) (hr : l.Released) (e : LinkEv) : (l.step e).Released := by
  cases e with
  | stall i => exact released_idle h hr i
  | access i₁ i₂ =>
    cases ha : l.driver.access l.args with
    | none =>
      rw [step_returned ha]
      exact released_idle h hr i₁
    | some a =>
      intro hend hmerge
      change l.args.merge = false at hmerge
      have hend' := hend
      rw [step_access ha] at hend'
      rcases returned_from hend' with hpc | hpc | hpc
      · rw [(h.tmt hpc i₁ i₂).2, hmerge] at hend
        exact absurd hend (by simp)
      · obtain rfl : a = .write controlReg 0 := by
          unfold SpiDriver.access at ha
          rw [hpc] at ha
          exact (Option.some.inj ha).symm
        rw [step_access ha]
        change (if (l.core.posedge _).controlWrStrobe _ then _ else _) = false
        have hbit : ((SpiAccess.write controlReg 0).pins i₂).dataFromCpu.getLsbD 10 = false := by
          change (0#16).getLsbD 10 = false
          decide
        rw [(h.quiet.write_strobe controlReg 0 i₁ i₂).1, hbit]
        rfl
      · unfold SpiDriver.access at ha
        rw [hpc] at ha
        exact absurd ha (by simp)

/-- **The bits of an event go to the slave of the call.** -/
theorem Inv.clockedTo (h : l.Inv) (hc : l.Chosen) (e : LinkEv) :
    l.observe SpiCore.clockedTo e = (l.observe SpiCore.clockedOut e).map fun b => (~~~l.slave, b) := by
  have hnone : l.driver.pc = .slaveSel → ∀ i, l.core.sclkRises i = false ∧
      ∀ i', (l.core.posedge i).sclkRises i' = false := by
    intro hpc i
    have hflow := h.flow
    unfold Flow at hflow
    rw [hpc] at hflow
    have htmt := (flags_of_none hflow.2).2
    unfold SpiCore.tmt at htmt
    rw [Bool.and_eq_true, Bool.not_eq_true', Bool.not_eq_true'] at htmt
    have htr : (l.core.posedge i).transmitting = false := by
      rw [SpiCore.posedge_transmitting, SpiCore.writeShiftReg, htmt.1, htmt.2]
      exact ite_self false
    have hno : ∀ {s : SpiCore} {i : SpiIn}, s.Timed → s.transmitting = false → s.sclkRises i = false := by
      intro s i ht hs
      cases hr : s.sclkRises i with
      | false => rfl
      | true =>
        rw [(ht.ssN_of_rises hr).1] at hs
        exact absurd hs (by decide)
    exact ⟨hno h.single.timed htmt.1, fun i' => hno h.single.timed.posedge htr⟩
  have hboth : ∀ i, (l.driver.pc = .slaveSel ∨ l.core.Selecting l.slave) →
      l.core.clockedTo i = (l.core.clockedOut i).map fun b => (~~~l.slave, b) := by
    rintro i (hpc | hs)
    · unfold SpiCore.clockedTo SpiCore.clockedOut
      rw [(hnone hpc i).1]
      rfl
    · exact hs.clockedTo h.single.timed i
  have hchosen : l.driver.pc = .slaveSel ∨ l.core.Selecting l.slave := by
    unfold Chosen at hc
    cases hpc : l.driver.pc with
    | slaveSel => exact Or.inl rfl
    | _ => rw [hpc] at hc; exact Or.inr hc
  cases e with
  | stall i => exact hboth _ hchosen
  | access i₁ i₂ =>
    cases ha : l.driver.access l.args with
    | none =>
      rw [observe_returned ha, observe_returned ha]
      exact hboth _ hchosen
    | some a =>
      rw [observe_access ha, observe_access ha, List.map_append, hboth _ hchosen]
      congr 1
      rcases hchosen with hpc | hs
      · unfold SpiCore.clockedTo SpiCore.clockedOut
        rw [(hnone hpc _).2]
        rfl
      · exact (hs.posedge (h.quiet.no_strobe _).2).clockedTo h.single.timed.posedge _

/-- The levels of `SS_n` over an event. -/
def selects (l : Link) (e : LinkEv) : List (BitVec 16) := l.observe (fun _ s => [s.ssN]) e

/-- While the slave is held it is selected in every cycle. -/
theorem Inv.selects_held (h : l.Inv) {m : BitVec 16} (hm : l.core.Held m) (e : LinkEv) :
    ∀ v ∈ l.selects e, v = ~~~m := by
  unfold selects
  intro v hv
  cases e with
  | stall i =>
    obtain rfl : v = l.core.ssN := List.mem_singleton.1 hv
    exact hm.ssN
  | access i₁ i₂ =>
    cases ha : l.driver.access l.args with
    | none =>
      rw [observe_returned ha] at hv
      obtain rfl := List.mem_singleton.1 hv
      exact hm.ssN
    | some a =>
      rw [observe_access ha] at hv
      have hm₁ := hm.posedge (h.quiet.no_strobe (a.pins i₁)).1 (h.quiet.no_strobe (a.pins i₁)).2
      rcases List.mem_pair.1 hv with rfl | rfl
      · exact hm.ssN
      · exact hm₁.ssN

end Link

/-! ### Runs -/

variable {a : SpiArgs} {s₀ : SpiCore} {es : ℕ → LinkEv}

theorem linkAt_chosen (hs : s₀.Ready) (n : ℕ) : (linkAt a s₀ es n).Chosen :=
  (inv_from (I := fun l => Link.Inv l ∧ Link.Chosen l)
    (fun e _ h => ⟨(h.1.kept e).1, h.1.chosen h.2 e⟩) (k := 0) ⟨start_inv hs, trivial⟩ n (Nat.zero_le n)).2

theorem linkAt_holds (hs : s₀.Ready) (ht : a.toggleSsN = false) (hsso : s₀.sso = false) (n : ℕ) :
    (linkAt a s₀ es n).Holds := by
  induction n with
  | zero => exact hsso
  | succ n ih =>
    exact (linkAt_inv hs n).holds (by rw [linkAt_args]; exact ht) (linkAt_chosen hs n) ih (es n)

theorem linkAt_released (hs : s₀.Ready) (n : ℕ) : (linkAt a s₀ es n).Released :=
  (inv_from (I := fun l => Link.Inv l ∧ Link.Released l)
    (fun e _ h => ⟨(h.1.kept e).1, h.1.released h.2 e⟩) (k := 0)
    ⟨start_inv hs, fun hpc => SpiPc.noConfusion hpc⟩ n (Nat.zero_le n)).2

/-- **A call selects its slave.** Every bit of the call is clocked out with the slave's line
low and all others high. A call that does not toggle the line, entered with `SSO` off, keeps it
low in every cycle from the end of its access to the control register until the access that
releases it. Once a call, whether it toggles the line or not and however `SSO` stood at its entry,
has returned without `merge`, no line is low. -/
theorem command_selects (a : SpiArgs) (s₀ : SpiCore) (hs : s₀.Ready) (es : ℕ → LinkEv) (n : ℕ) :
    linkLog a s₀ es SpiCore.clockedTo n =
      (linkLog a s₀ es SpiCore.clockedOut n).map (fun b => (~~~(1#16 <<< a.slave), b)) ∧
    (a.toggleSsN = false → s₀.sso = false →
      (linkAt a s₀ es n).driver.pc ∉ [SpiPc.slaveSel, .sso, .returned] →
        ∀ v ∈ (linkAt a s₀ es n).selects (es n), v = ~~~(1#16 <<< a.slave)) ∧
    ((linkAt a s₀ es n).driver.pc = .returned → a.merge = false →
      (linkAt a s₀ es n).core.ssN = BitVec.allOnes 16) := by
  have hargs : ∀ n, (linkAt a s₀ es n).slave = 1#16 <<< a.slave := fun n => by
    unfold Link.slave
    rw [linkAt_args]
  refine ⟨?_, fun ht hsso hpc => ?_, fun hpc hmerge => ?_⟩
  · induction n with
    | zero => rfl
    | succ n ih =>
      unfold linkLog at ih ⊢
      rw [log_snoc, log_snoc, List.map_append, ih]
      congr 1
      rw [← hargs n]
      exact (linkAt_inv hs n).clockedTo (linkAt_chosen hs n) (es n)
  · have hholds : (linkAt a s₀ es n).Holds := linkAt_holds hs ht hsso n
    unfold Link.Holds at hholds
    rw [← hargs n]
    apply (linkAt_inv hs n).selects_held
    cases hp : (linkAt a s₀ es n).driver.pc <;> rw [hp] at hholds hpc
    case slaveSel | sso | returned => simp at hpc
    all_goals exact hholds
  · have hreleased : (linkAt a s₀ es n).Released := linkAt_released hs n
    have hsso := hreleased hpc (by rw [linkAt_args]; exact hmerge)
    have htmt := (Link.flags_of_none ((linkAt_inv hs n).of_returned hpc).1.none).2
    unfold SpiCore.tmt at htmt
    rw [Bool.and_eq_true, Bool.not_eq_true', Bool.not_eq_true'] at htmt
    unfold SpiCore.ssN SpiCore.enableSS
    rw [hsso, htmt.1]
    rfl

theorem command_selects_oneByte :
    (linkAt oneByte SpiCore.reset busy 55).core.ssN = BitVec.allOnes 16 := by
  have hret : (linkAt oneByte SpiCore.reset busy 55).driver.pc = .returned := by decide +kernel
  exact (command_selects oneByte SpiCore.reset SpiCore.ready_reset busy 55).2.2 hret rfl

end Firmware

end BankVault
