import BankVault.Clocked.Progress
import BankVault.Proof.SpiDriver

/-!
# A call of the SPI driver

`alt_avalon_spi_command` from its entry to its return, on a core on which nothing is under way,
whatever time passes between its accesses.

* `command_transfers`: the bits on the line are those of the bytes to be written and a zero byte
  for every byte to be read back, and the bytes stored are those of the line.
* `command_returns_iff`: a call returns exactly if there is a byte to write or to read back.
* `command_selects`: the slave is selected for every bit of the call, and released after it.
-/

namespace BankVault

open Clocked Wire SpiCtrl

/-- **The core between two calls**: no access is under way, no byte is on its way or lost. -/
structure SpiCore.Ready (s : SpiCore) : Prop where
  quiet : s.Quiet
  single : s.Single
  none : s.inflight = 0

theorem SpiCore.ready_reset : SpiCore.reset.Ready :=
  ⟨⟨rfl, rfl, rfl, rfl⟩, ⟨SpiCore.timed_reset, by decide, rfl, rfl⟩, rfl⟩

/-- With nothing on its way the line is empty. -/
theorem SpiCore.line_of_none {s : SpiCore} (h : s.inflight = 0) : s.unsent = [] ∧ s.incoming = [] := by
  have htmt := (Firmware.Link.flags_of_none h).2
  refine ⟨unsent_of_tmt htmt, ?_⟩
  unfold SpiCore.tmt at htmt
  rw [Bool.and_eq_true, Bool.not_eq_true'] at htmt
  unfold SpiCore.incoming
  rw [htmt.1]
  rfl

namespace Firmware

namespace Link

variable {l : Link} {e : LinkEv}

/-! ### The cycles of an event -/

section Cycles

variable {α β : Type*}

/-- **What every cycle conserves, every event conserves.** -/
theorem observe_conserved {I : SpiCore → Prop} {H : SpiCore → List α} {F G : SpiIn → SpiCore → List α}
    (hI : ∀ i s, I s → I (s.posedge i))
    (h : ∀ i s, I s → H s ++ F i s = G i s ++ H (s.posedge i)) (h0 : I l.core) (e : LinkEv) :
    H l.core ++ l.observe F e = l.observe G e ++ H (l.step e).core := by
  have hone : ∀ i, l.inputs e = [i] →
      H l.core ++ l.observe F e = l.observe G e ++ H (l.step e).core := by
    intro i hi
    unfold observe step
    rw [hi]
    exact h i _ h0
  have htwo : ∀ i₁ i₂, l.inputs e = [i₁, i₂] →
      H l.core ++ l.observe F e = l.observe G e ++ H (l.step e).core := by
    intro i₁ i₂ hi
    unfold observe step
    rw [hi]
    change _ ++ (_ ++ _) = (_ ++ _) ++ H ((l.core.posedge i₁).posedge i₂)
    rw [← List.append_assoc, h i₁ _ h0, List.append_assoc, h i₂ _ (hI i₁ _ h0), List.append_assoc]
  cases e with
  | stall i => exact hone _ rfl
  | access i₁ i₂ =>
    cases ha : l.driver.access l.args with
    | none => exact hone (idlePins i₁) (by simp only [inputs, ha])
    | some a => exact htwo (a.pins i₁) (a.pins i₂) (by simp only [inputs, ha])

theorem observe_flatMap (f : SpiIn → SpiCore → List α) (g : α → List β) (e : LinkEv) :
    (l.observe f e).flatMap g = l.observe (fun i s => (f i s).flatMap g) e := by
  unfold observe
  rcases l.inputs e with _ | ⟨i₁, _ | ⟨i₂, is⟩⟩
  · rfl
  · rfl
  · exact List.flatMap_append

end Cycles

/-! ### The outgoing line -/

/-- The bits a call has still to send. -/
def toSend (l : Link) : List Bool := l.core.unsent ++ l.driver.remaining.flatMap msbFirst

/-- **An event of the outgoing line.** -/
theorem Inv.sends (h : l.Inv) (e : LinkEv) :
    l.toSend = l.observe SpiCore.clockedOut e ++ (l.step e).toSend := by
  obtain ⟨-, hrem⟩ := h.kept e
  have hline := observe_conserved (H := SpiCore.unsent) (F := fun i s => (s.accepted i).flatMap msbFirst)
    (fun _ _ h => SpiCore.Timed.posedge h) (fun _ _ h => SpiCore.Timed.sends h) h.single.timed e
  unfold toSend
  rw [← hrem, List.flatMap_append, ← List.append_assoc, observe_flatMap SpiCore.accepted, hline,
    List.append_assoc]

/-! ### The incoming line -/

/-- The bits that have come in and are not read back. -/
def arriving (l : Link) : List Bool := l.core.back.flatMap msbFirst ++ l.core.incoming

/-- The byte that an event reads back. -/
def got (e : LinkEv) (l : Link) : List Byte :=
  match e, l.driver.pc with
  | .access _ _, .rxdata => [l.core.rxHoldingReg]
  | _, _ => []

/-- A read of `rxdata` finds a byte there, or none on its way. -/
theorem Inv.rxdata_read (h : l.Inv) (ha : l.driver.access l.args = some (.read rxdataReg)) :
    l.core.rrdy = true ∨ l.core.inflight = 0 := by
  have hflow := h.flow
  unfold Flow at hflow
  unfold SpiDriver.access at ha
  cases hpc : l.driver.pc with
  | discard => rw [hpc] at hflow; exact Or.inr hflow.2
  | rxdata => rw [hpc] at hflow; exact Or.inl hflow.2
  | _ =>
    rw [hpc] at ha
    simp at ha

/-- No access writes `status`. -/
theorem access_not_status {addr : BitVec 3} {data : BitVec 16}
    (ha : l.driver.access l.args = some (.write addr data)) : addr ≠ statusReg := by
  unfold SpiDriver.access at ha
  cases hpc : l.driver.pc <;> rw [hpc] at ha <;> simp only [Option.some.injEq, SpiAccess.write.injEq,
    reduceCtorEq] at ha
  all_goals
    obtain ⟨rfl, -⟩ := ha
    decide

/-- What is read back was in `rxdata`. -/
theorem Inv.back_kept (h : l.Inv) (e : LinkEv) :
    l.core.back ++ l.observe SpiCore.completed e = got e l ++ (l.step e).core.back := by
  have hidle : ∀ i, l.core.back ++ l.core.completed (idlePins i) = (l.core.posedge (idlePins i)).back :=
    SpiCore.idle_back h.quiet h.single
  cases e with
  | stall i => exact hidle i
  | access i₁ i₂ =>
    cases ha : l.driver.access l.args with
    | none =>
      have hgot : got (.access i₁ i₂) l = [] := by
        unfold SpiDriver.access at ha
        unfold got
        cases hpc : l.driver.pc with
        | rxdata => rw [hpc] at ha; simp at ha
        | _ => rfl
      rw [step_returned ha, observe_returned ha, hgot]
      exact hidle i₁
    | some a =>
      rw [step_access ha, observe_access ha]
      cases a with
      | write addr data =>
        have hgot : got (.access i₁ i₂) l = [] := by
          unfold SpiDriver.access at ha
          unfold got
          cases hpc : l.driver.pc with
          | rxdata => rw [hpc] at ha; simp at ha
          | _ => rfl
        rw [SpiCore.write_back h.quiet h.single addr data i₁ i₂ (access_not_status ha), hgot]
        rfl
      | read addr =>
        have hread := SpiCore.read_back h.quiet h.single addr i₁ i₂
          fun heq => h.rxdata_read (heq ▸ ha)
        rw [hread]
        congr 1
        have hflow := h.flow
        unfold Flow at hflow
        unfold SpiDriver.access at ha
        unfold got
        cases hpc : l.driver.pc with
        | rxdata =>
          rw [hpc] at ha hflow
          simp only [Option.some.injEq, SpiAccess.read.injEq] at ha
          rw [if_pos ha.symm]
          unfold SpiCore.back
          rw [hflow.2]
          rfl
        | discard =>
          -- nothing is there to discard
          rw [hpc] at ha hflow
          simp only [Option.some.injEq, SpiAccess.read.injEq] at ha
          rw [if_pos ha.symm]
          exact SpiCore.back_of_none hflow.2
        | status | tmt =>
          rw [hpc] at ha
          simp only [Option.some.injEq, SpiAccess.read.injEq] at ha
          rw [if_neg (ha ▸ by decide)]
        | _ =>
          rw [hpc] at ha
          simp at ha

/-- **An event of the incoming line.** -/
theorem Inv.receives (h : l.Inv) (e : LinkEv) :
    l.arriving ++ l.observe SpiCore.clockedIn e = (got e l).flatMap msbFirst ++ (l.step e).arriving := by
  have hline := observe_conserved (H := SpiCore.incoming) (G := fun i s => (s.completed i).flatMap msbFirst)
    (fun _ _ h => SpiCore.Timed.posedge h) (fun _ _ h => SpiCore.Timed.receives h) h.single.timed e
  unfold arriving
  rw [List.append_assoc, hline, ← observe_flatMap SpiCore.completed, ← List.append_assoc,
    ← List.flatMap_append, h.back_kept e, List.flatMap_append, List.append_assoc]

/-- Only a byte that is read back counts. -/
theorem next_stored {a : SpiArgs} {d : SpiDriver} (w : BitVec 16) (hpc : d.pc ≠ .rxdata) :
    (d.next a w).readIgnore = d.readIgnore ∧ (d.next a w).readData = d.readData := by
  have hready : ∀ d : SpiDriver, d.readIfReady.readIgnore = d.readIgnore ∧
      d.readIfReady.readData = d.readData := by
    intro d
    unfold SpiDriver.readIfReady
    split_ifs <;> exact ⟨rfl, rfl⟩
  unfold SpiDriver.next
  cases hp : d.pc with
  | rxdata => exact absurd hp hpc
  | status =>
    simp only [SpiDriver.gotStatus]
    split_ifs
    · exact ⟨rfl, rfl⟩
    · cases d.writeData <;> exact ⟨rfl, rfl⟩
    · cases d.writeData with
      | cons v vs => exact ⟨rfl, rfl⟩
      | nil => exact hready _
    · exact hready _
  | txdata v => exact hready d
  | tmt =>
    simp only
    split_ifs <;> exact ⟨rfl, rfl⟩
  | _ => exact ⟨rfl, rfl⟩

/-- **What is stored**: of the bytes read back, those after the first `n`. -/
theorem Inv.stored (h : l.Inv) (e : LinkEv) {bs : List Byte} {n : ℕ} (hd : l.driver.readData = bs.drop n)
    (hi : l.driver.readIgnore = n - bs.length) :
    (l.step e).driver.readData = (bs ++ got e l).drop n ∧
      (l.step e).driver.readIgnore = n - (bs ++ got e l).length := by
  have hnone : got e l = [] → (l.step e).driver.readIgnore = l.driver.readIgnore →
      (l.step e).driver.readData = l.driver.readData →
      (l.step e).driver.readData = (bs ++ got e l).drop n ∧
        (l.step e).driver.readIgnore = n - (bs ++ got e l).length := by
    intro hgot hri hrd
    rw [hgot, List.append_nil, hri, hrd]
    exact ⟨hd, hi⟩
  cases e with
  | stall i => exact hnone rfl rfl rfl
  | access i₁ i₂ =>
    by_cases hpc : l.driver.pc = .rxdata
    · obtain ⟨-, hdriver, -⟩ := h.rxdata hpc i₁ i₂
      have hgot : got (.access i₁ i₂) l = [l.core.rxHoldingReg] := by
        unfold got
        rw [hpc]
      have hbyte : (l.core.rxHoldingReg.setWidth 16).setWidth 8 = l.core.rxHoldingReg := by
        rw [BitVec.setWidth_setWidth_of_le _ (by decide), BitVec.setWidth_eq]
      rw [hdriver, hgot, List.length_append, List.length_singleton]
      unfold SpiDriver.gotRxdata
      rw [hbyte]
      by_cases hri : l.driver.readIgnore > 0
      · simp only [if_pos hri]
        have hshort : bs.length + 1 ≤ n := by omega
        have hdrop : (bs ++ [l.core.rxHoldingReg]).drop n = bs.drop n := by
          rw [List.drop_eq_nil_of_le (by simpa using hshort), List.drop_eq_nil_of_le (by omega)]
        rw [hdrop]
        split_ifs <;> exact ⟨hd, by simp only; omega⟩
      · simp only [if_neg hri]
        have hlong : n ≤ bs.length := by omega
        rw [List.drop_append_of_le_length hlong, ← hd]
        split_ifs <;> exact ⟨rfl, by simp only; omega⟩
    · have hgot : got (.access i₁ i₂) l = [] := by
        unfold got
        cases hp : l.driver.pc with
        | rxdata => exact absurd hp hpc
        | _ => rfl
      cases ha : l.driver.access l.args with
      | none =>
        apply hnone hgot
        · rw [step_returned ha]
        · rw [step_returned ha]
      | some a =>
        obtain ⟨hri, hrd⟩ := next_stored (a := l.args) (l.core.posedge (a.pins i₁)).dataToCpu hpc
        apply hnone hgot
        · rw [step_access ha]
          exact hri
        · rw [step_access ha]
          exact hrd

end Link

/-! ### Runs -/

variable {a : SpiArgs} {s₀ : SpiCore} {es : ℕ → LinkEv} {n : ℕ}

/-- The bytes of a call on the wire. -/
def SpiArgs.transmitted (a : SpiArgs) : List Byte := a.writeData ++ List.replicate a.readLength 0

theorem linkAt_succ (n : ℕ) : linkAt a s₀ es (n + 1) = (linkAt a s₀ es n).step (es n) := rfl

theorem linkAt_args (n : ℕ) : (linkAt a s₀ es n).args = a := by
  induction n with
  | zero => rfl
  | succ n ih => exact ih

theorem start_inv (hs : s₀.Ready) : Link.Inv ⟨a, SpiDriver.start a, s₀⟩ where
  quiet := hs.quiet
  single := hs.single
  flow := ⟨rfl, hs.none⟩
  count := by
    rw [hs.none]
    simp [SpiDriver.remaining, SpiDriver.start, Link.owed, SpiDriver.owed]
  room := Nat.zero_le _

theorem linkAt_inv (hs : s₀.Ready) (n : ℕ) : (linkAt a s₀ es n).Inv :=
  inv_from (I := Link.Inv) (fun e _ h => (h.kept e).1) (k := 0) (start_inv hs) n (Nat.zero_le n)

/-- **The outgoing line of a call.** -/
theorem command_line_out (hs : s₀.Ready) (n : ℕ) : a.transmitted.flatMap msbFirst =
    linkLog a s₀ es SpiCore.clockedOut n ++ (linkAt a s₀ es n).toSend := by
  have h := log_conserved (H := Link.toSend) (F := fun _ _ => []) (G := Link.observe SpiCore.clockedOut)
    (fun e _ h => (Link.Inv.kept h e).1) (fun e _ h => (List.append_nil _).trans (Link.Inv.sends h e))
    (start_inv (a := a) hs) es n
  have hstart : Link.toSend ⟨a, SpiDriver.start a, s₀⟩ = a.transmitted.flatMap msbFirst := by
    unfold Link.toSend
    rw [(SpiCore.line_of_none hs.none).1]
    rfl
  have hno : log Link.step ⟨a, SpiDriver.start a, s₀⟩ es (fun _ _ => ([] : List Bool)) n = [] := by
    unfold log
    simp
  rw [hno, List.append_nil, hstart] at h
  exact h

/-- **The incoming line of a call.** -/
theorem command_line_in (hs : s₀.Ready) (n : ℕ) : linkLog a s₀ es SpiCore.clockedIn n =
    (log Link.step ⟨a, SpiDriver.start a, s₀⟩ es Link.got n).flatMap msbFirst ++
      (linkAt a s₀ es n).arriving := by
  have h := log_conserved (H := Link.arriving) (F := Link.observe SpiCore.clockedIn)
    (G := fun e l => (Link.got e l).flatMap msbFirst) (fun e _ h => (Link.Inv.kept h e).1)
    (fun e _ h => Link.Inv.receives h e) (start_inv (a := a) hs) es n
  have hstart : Link.arriving ⟨a, SpiDriver.start a, s₀⟩ = [] := by
    unfold Link.arriving
    rw [SpiCore.back_of_none hs.none, (SpiCore.line_of_none hs.none).2]
    rfl
  rw [hstart, List.nil_append] at h
  rw [log_flatMap]
  exact h

/-- What a call has stored. -/
theorem command_stored (hs : s₀.Ready) : ∀ n,
    (linkAt a s₀ es n).driver.readData =
      (log Link.step ⟨a, SpiDriver.start a, s₀⟩ es Link.got n).drop a.writeData.length ∧
    (linkAt a s₀ es n).driver.readIgnore =
      a.writeData.length - (log Link.step ⟨a, SpiDriver.start a, s₀⟩ es Link.got n).length := by
  intro n
  induction n with
  | zero => exact ⟨(List.drop_nil).symm, rfl⟩
  | succ n ih =>
    rw [linkAt_succ, log_snoc]
    exact (linkAt_inv hs n).stored (es n) ih.1 ih.2

/-- **A call that has returned** owes nothing, and the core is as it was found. -/
theorem Link.Inv.of_returned {l : Link} (h : l.Inv) (hpc : l.driver.pc = .returned) :
    l.core.Ready ∧ l.owed = 0 ∧ l.toSend = [] ∧ l.arriving = [] := by
  have hflow := h.flow
  unfold Link.Flow at hflow
  rw [hpc] at hflow
  obtain ⟨hin, howed⟩ := hflow
  have hrem : l.driver.remaining = [] := by
    have hcount := h.count
    rw [howed] at hcount
    exact List.eq_nil_of_length_eq_zero (by omega)
  obtain ⟨hout, hinc⟩ := SpiCore.line_of_none hin
  refine ⟨⟨h.quiet, h.single, hin⟩, howed, ?_, ?_⟩
  · unfold Link.toSend
    rw [hout, hrem]
    rfl
  · unfold Link.arriving
    rw [SpiCore.back_of_none hin, hinc]
    rfl

/-- **A call transfers its bytes.** Whatever time passes between its accesses: the bits on the
line are those of the bytes to be written and of a zero byte for every byte to be read back,
in order; nothing is overrun; and once the call has returned all of them have been sent, and
what is stored is what came in over the line after the written bytes. -/
theorem command_transfers (a : SpiArgs) (s₀ : SpiCore) (hs : s₀.Ready) (es : ℕ → LinkEv) (n : ℕ) :
    linkLog a s₀ es SpiCore.clockedOut n <+: a.transmitted.flatMap msbFirst ∧
    (linkAt a s₀ es n).core.toe = false ∧ (linkAt a s₀ es n).core.roe = false ∧
    ((linkAt a s₀ es n).driver.pc = .returned →
      assemble 8 (linkLog a s₀ es SpiCore.clockedOut n) = a.transmitted ∧
      (linkAt a s₀ es n).driver.readData =
        (assemble 8 (linkLog a s₀ es SpiCore.clockedIn n)).drop a.writeData.length ∧
      (linkAt a s₀ es n).driver.readData.length = a.readLength ∧ (linkAt a s₀ es n).core.Ready) := by
  have hinv : (linkAt a s₀ es n).Inv := linkAt_inv hs n
  have hout : a.transmitted.flatMap msbFirst =
      linkLog a s₀ es SpiCore.clockedOut n ++ (linkAt a s₀ es n).toSend := command_line_out hs n
  refine ⟨⟨_, hout.symm⟩, hinv.single.toe, hinv.single.roe, fun hpc => ?_⟩
  obtain ⟨hready, howed, hsent, harrived⟩ := hinv.of_returned hpc
  have hin : linkLog a s₀ es SpiCore.clockedIn n =
      (log Link.step ⟨a, SpiDriver.start a, s₀⟩ es Link.got n).flatMap msbFirst ++
        (linkAt a s₀ es n).arriving := command_line_in hs n
  rw [harrived] at hin
  rw [hsent, List.append_nil] at hout
  have hroom := hinv.room
  rw [linkAt_args] at hroom
  unfold Link.owed SpiDriver.owed at howed
  rw [linkAt_args] at howed
  refine ⟨?_, ?_, by omega, hready⟩
  · rw [← hout, ← List.append_nil (a.transmitted.flatMap msbFirst)]
    exact assemble_serial (by decide) _ _ (by decide)
  · rw [(command_stored hs n).1, hin]
    rw [assemble_serial (by decide) _ _ (by decide)]

/-- The byte `8'ha5` is written. -/
def oneByte : SpiArgs := ⟨0, [0xa5], 0, false, false⟩

/-- One access after the other, with `MISO` high. -/
def busy : ℕ → LinkEv :=
  fun _ => .access ⟨false, true, true, 0, 0, true⟩ ⟨false, true, true, 0, 0, true⟩

/-- Two bytes are written and two are read back. -/
def twoAndTwo : SpiArgs := ⟨0, [0xa5, 0x3c], 2, false, false⟩

/-- One access after the other, with `MISO` going up and down. -/
def wavering (n : ℕ) : LinkEv :=
  .access ⟨false, true, true, 0, 0, n % 32 < 12⟩ ⟨false, true, true, 0, 0, n % 32 < 12⟩

theorem command_transfers_twoAndTwo :
    assemble 8 (linkLog twoAndTwo SpiCore.reset wavering SpiCore.clockedOut 205) = [0xa5, 0x3c, 0, 0] ∧
    assemble 8 (linkLog twoAndTwo SpiCore.reset wavering SpiCore.clockedIn 205) = [0x0e, 0x61, 0x0c, 0xc3] ∧
    (linkAt twoAndTwo SpiCore.reset wavering 205).driver.readData = [0x0c, 0xc3] := by
  have hret : (linkAt twoAndTwo SpiCore.reset wavering 205).driver.pc = .returned := by decide +kernel
  have hin : assemble 8 (linkLog twoAndTwo SpiCore.reset wavering SpiCore.clockedIn 205) =
      [0x0e, 0x61, 0x0c, 0xc3] := by decide +kernel
  obtain ⟨-, -, -, h⟩ := command_transfers twoAndTwo SpiCore.reset SpiCore.ready_reset wavering 205
  obtain ⟨hout, hdata, -, -⟩ := h hret
  refine ⟨hout, hin, ?_⟩
  rw [hdata, hin]
  rfl

/-- From the loop a call goes on in the loop, or to its last poll. -/
theorem Link.next_pc {a : SpiArgs} {d : SpiDriver} (w : BitVec 16) :
    (d.pc = .discard → (d.next a w).pc = .status) ∧
    (d.pc = .status → (d.next a w).pc = .status ∨ (∃ v, (d.next a w).pc = .txdata v) ∨
      (d.next a w).pc = .rxdata) ∧
    (∀ v, d.pc = .txdata v → (d.next a w).pc = .status ∨ (d.next a w).pc = .rxdata) ∧
    (d.pc = .rxdata → (d.next a w).pc = .status ∨ (d.next a w).pc = .tmt) := by
  have hready : ∀ d : SpiDriver, d.readIfReady.pc = .status ∨ d.readIfReady.pc = .rxdata := by
    intro d
    unfold SpiDriver.readIfReady
    split_ifs
    · exact Or.inr rfl
    · exact Or.inl rfl
  have hready' : ∀ d : SpiDriver, d.readIfReady.pc = .status ∨ (∃ v, d.readIfReady.pc = .txdata v) ∨
      d.readIfReady.pc = .rxdata := fun d => (hready d).imp_right Or.inr
  unfold SpiDriver.next
  refine ⟨fun hpc => ?_, fun hpc => ?_, fun v hpc => ?_, fun hpc => ?_⟩ <;> rw [hpc]
  · simp only [SpiDriver.gotStatus]
    split_ifs
    · exact Or.inl hpc
    · cases d.writeData <;> exact Or.inr (Or.inl ⟨_, rfl⟩)
    · cases d.writeData with
      | cons v vs => exact Or.inr (Or.inl ⟨_, rfl⟩)
      | nil => exact hready' _
    · exact hready' _
  · exact hready d
  · simp only [SpiDriver.gotRxdata]
    split_ifs
    all_goals first | exact Or.inr rfl | exact Or.inl rfl

/-- A call with something to send stays one. -/
theorem Link.live_step {l : Link} (h : l.Inv) (hlive : l.Live) (e : LinkEv) : (l.step e).Live := by
  cases e with
  | stall i => exact (h.stall i).2.2.1 hlive
  | access i₁ i₂ =>
    by_cases hpc : l.driver.pc = .returned
    · have ha : l.driver.access l.args = none := by
        unfold SpiDriver.access
        rw [hpc]
      rw [step_returned ha]
      exact hlive
    · exact ((h.access i₁ i₂).2.1 hlive hpc).2

/-- How many accesses there are before the loop. -/
def Link.lead (l : Link) : ℕ :=
  match l.driver.pc with
  | .slaveSel => 3
  | .sso => 2
  | .discard => 1
  | _ => 0

/-- **A call without bytes comes to its loop and stays there.** -/
theorem Link.Inv.lead_step {l : Link} (h : l.Inv) (hb : l.Barren) (e : LinkEv) :
    (l.step e).lead ≤ l.lead ∧ (LinkEv.isAccess e → l.lead ≠ 0 → (l.step e).lead < l.lead) := by
  cases e with
  | stall i => exact ⟨le_rfl, False.elim⟩
  | access i₁ i₂ =>
    have hloop := hb.2
    cases hpc : l.driver.pc with
    | slaveSel =>
      unfold lead
      rw [(h.slaveSel hpc i₁ i₂).2, hpc]
      cases l.args.toggleSsN <;> simp
    | sso =>
      unfold lead
      rw [(h.sso hpc i₁ i₂).2, hpc]
      simp
    | discard =>
      have ha : l.driver.access l.args = some (.read rxdataReg) := by
        unfold SpiDriver.access
        rw [hpc]
      unfold lead
      rw [step_access ha, (next_pc _).1 hpc, hpc]
      simp
    | status =>
      have ha : l.driver.access l.args = some (.read statusReg) := by
        unfold SpiDriver.access
        rw [hpc]
      unfold lead
      rw [step_access ha, hpc]
      refine ⟨?_, fun _ h0 => absurd rfl h0⟩
      rcases (next_pc (a := l.args) (l.core.posedge ((SpiAccess.read statusReg).pins i₁)).dataToCpu).2.1 hpc
        with hp | ⟨v, hp⟩ | hp <;> rw [hp]
    | _ =>
      rw [hpc] at hloop
      exact hloop.elim

theorem Link.Barren.status {l : Link} (hb : l.Barren) (h0 : l.lead = 0) : l.driver.pc = .status := by
  have hloop := hb.2
  unfold lead at h0
  cases hpc : l.driver.pc <;> rw [hpc] at hloop h0
  all_goals first | exact hloop.elim | exact absurd h0 (by decide)

/-- A call without bytes stays one. -/
theorem linkAt_barren (hs : s₀.Ready) (h0 : a.writeData.length + a.readLength = 0) (n : ℕ) :
    (linkAt a s₀ es n).Barren := by
  refine (inv_from (I := fun l => Link.Inv l ∧ Link.Barren l) ?_ (k := 0) ⟨start_inv hs, ?_⟩ n
    (Nat.zero_le n)).2
  · intro e l ⟨hl, hb⟩
    refine ⟨(hl.kept e).1, ?_⟩
    cases e with
    | stall i => exact (hl.stall i).2.2.2 hb
    | access i₁ i₂ => exact (hl.access i₁ i₂).2.2 hb
  · refine ⟨?_, trivial⟩
    change a.writeData.length + (a.readLength - 0) = 0
    omega

/-- **Without bytes the status is polled forever.** -/
theorem polls_forever (hs : s₀.Ready) (hrec : Recurring LinkEv.isAccess es)
    (h0 : a.writeData.length + a.readLength = 0) : ∃ N, ∀ n, N ≤ n → (linkAt a s₀ es n).driver.pc = .status := by
  have hstart : Link.Inv (stAt Link.step ⟨a, SpiDriver.start a, s₀⟩ es 0) ∧
      Link.Barren (stAt Link.step ⟨a, SpiDriver.start a, s₀⟩ es 0) :=
    ⟨start_inv hs, linkAt_barren hs h0 0⟩
  obtain ⟨N, -, hN⟩ := eventually_of_rank (P := LinkEv.isAccess) (I := fun l => Link.Inv l ∧ Link.Barren l)
    (G := fun l => l.lead = 0) (r := Link.lead) (m := 0)
    (fun e l hl => ⟨(hl.1.kept e).1, by
      cases e with
      | stall i => exact (hl.1.stall i).2.2.2 hl.2
      | access i₁ i₂ => exact (hl.1.access i₁ i₂).2.2 hl.2⟩)
    (fun e l hl hne hacc => Or.inr ((hl.1.lead_step hl.2 e).2 hacc hne))
    (fun e l hl _ _ => Or.inr (hl.1.lead_step hl.2 e).1) hrec hstart
  refine ⟨N, fun n hn => (linkAt_barren hs h0 n).status ?_⟩
  induction n, hn using Nat.le_induction with
  | base => exact hN
  | succ n _ ih =>
    have hb : (linkAt a s₀ es n).Barren := linkAt_barren hs h0 n
    have hle := ((linkAt_inv hs n).lead_step hb (es n)).1
    exact Nat.le_zero.1 (hle.trans ih.le)

/-- **A call returns exactly if there is a byte to write or to read back**, as long as the
processor goes on making accesses; without one, from some event on its next access is always the
poll of the status. -/
theorem command_returns_iff (a : SpiArgs) (s₀ : SpiCore) (hs : s₀.Ready) (es : ℕ → LinkEv)
    (hrec : Recurring LinkEv.isAccess es) :
    ((∃ n, (linkAt a s₀ es n).driver.pc = .returned) ↔ 0 < a.writeData.length + a.readLength) ∧
    (a.writeData.length + a.readLength = 0 → ∃ N, ∀ n, N ≤ n → (linkAt a s₀ es n).driver.pc = .status) := by
  refine ⟨⟨?_, fun hpos => ?_⟩, polls_forever hs hrec⟩
  · rintro ⟨n, hn⟩
    by_contra h0
    have hbarren : (linkAt a s₀ es n).Barren := linkAt_barren hs (by omega) n
    have hloop := hbarren.2
    rw [hn] at hloop
    exact hloop
  · have hlive : Link.Live ⟨a, SpiDriver.start a, s₀⟩ := by
      change 0 < a.writeData.length + (a.readLength - 0)
      omega
    have hgoal := eventually_of_rank (P := LinkEv.isAccess)
      (I := fun l => Link.Inv l ∧ Link.Live l) (G := fun l => l.driver.pc = .returned) (r := Link.rank)
      (fun e l hl => ⟨(hl.1.kept e).1, Link.live_step hl.1 hl.2 e⟩) ?_ ?_ hrec (m := 0) ⟨start_inv hs, hlive⟩
    · obtain ⟨n, -, hn⟩ := hgoal
      exact ⟨n, hn⟩
    · intro e l hl hpc hacc
      cases e with
      | stall i => exact hacc.elim
      | access i₁ i₂ => exact Or.inr ((hl.1.access i₁ i₂).2.1 hl.2 hpc).1
    · intro e l hl _ hacc
      cases e with
      | stall i => exact Or.inr (hl.1.stall i).2.1
      | access i₁ i₂ => exact (hacc trivial).elim

/-- A call without bytes never returns. -/
theorem command_returns_empty :
    (¬ ∃ n, (linkAt ⟨0, [], 0, false, false⟩ SpiCore.reset busy n).driver.pc = .returned) ∧
    ∃ N, ∀ n, N ≤ n → (linkAt ⟨0, [], 0, false, false⟩ SpiCore.reset busy n).driver.pc = .status := by
  obtain ⟨hiff, hpolls⟩ := command_returns_iff ⟨0, [], 0, false, false⟩ SpiCore.reset SpiCore.ready_reset busy
    fun m => ⟨m, le_rfl, trivial⟩
  refine ⟨?_, hpolls rfl⟩
  rw [hiff]
  decide

end Firmware

end BankVault
