import BankVault.Firmware.Panel
import BankVault.Firmware.Processor
import BankVault.Proof.Frames
import BankVault.Proof.SpiSelect

/-!
# From the lock's word to the panel's pins

The whole way of a frame: `main` reads a word, draws it by calls of the SPI driver, and the SPI
core puts their bytes on the pins, where the panel takes them. Whatever the timing of the
accesses and of the word, the panel is sent what the iterations on the polled words transmit.

* `panel_shows`: between two frames the display is that of the polled words.
* `polls_recur`: and there is always a next frame.
-/

namespace BankVault

open Clocked Wire

namespace Firmware

namespace Processor

variable {p : Processor} {e : BusEv}

/-- The calls that have not begun. -/
def rest (p : Processor) : List SpiCommand :=
  match p.pc with
  | .call => p.todo.tail
  | _ => p.todo

/-- The bits of some commands. -/
def bits (cs : List SpiCommand) : List Bool := (cs.flatMap SpiCommand.transmitted).flatMap msbFirst

/-- The bits still to be sent for the words read so far. -/
def toSend (p : Processor) : List Bool := p.link.toSend ++ bits p.rest

/-- What holds between the events of the program. -/
structure Inv (p : Processor) : Prop where
  link : p.link.Inv
  chosen : p.link.Chosen
  live : p.link.Live
  slave : p.link.args.slave = 0
  todo : ∀ c ∈ p.todo, c.writeData ≠ []
  place : match p.pc with
    | .poll => p.todo = [] ∧ p.link.driver.pc = .returned
    | .dcnRead | .dcnWrite _ => p.todo ≠ [] ∧ p.link.driver.pc = .returned
    | .call => p.todo ≠ [] ∧ p.link.driver.pc ≠ .returned
  dcn : p.pio.outPort.getLsbD 0 = false
  mask : ∀ d, p.pc = .dcnWrite d → d.getLsbD 0 = false

/-- **Between two calls**: the link is at rest, and some calls are still to be made. -/
structure AtRest (p : Processor) : Prop where
  link : p.link.Inv
  chosen : p.link.Chosen
  slave : p.link.args.slave = 0
  todo : ∀ c ∈ p.todo, c.writeData ≠ []
  returned : p.link.driver.pc = .returned
  dcn : p.pio.outPort.getLsbD 0 = false

theorem Inv.atRest (h : p.Inv) (hpc : p.pc ≠ .call) : p.AtRest := by
  refine ⟨h.link, h.chosen, h.slave, h.todo, ?_, h.dcn⟩
  have hplace := h.place
  cases hp : p.pc with
  | call => exact absurd hp hpc
  | _ => rw [hp] at hplace; exact hplace.2

theorem live_returned {l : Link} (h : l.driver.pc = .returned) : l.Live := by
  unfold Link.Live
  rw [h]
  trivial

/-- Beginning the next call. -/
theorem AtRest.begin (h : p.AtRest) : p.begin.Inv ∧ p.begin.toSend = bits p.todo ∧
    p.begin.main = p.main := by
  obtain ⟨hready, -, hsent, -⟩ := h.link.of_returned h.returned
  have hline := (SpiCore.line_of_none hready.none).1
  obtain ⟨main, pc, todo, link, pio⟩ := p
  cases todo with
  | nil =>
    refine ⟨⟨h.link, h.chosen, live_returned h.returned, h.slave, h.todo, ⟨rfl, h.returned⟩, h.dcn,
      fun d hd => by cases hd⟩, ?_, rfl⟩
    change link.toSend ++ _ = _
    rw [hsent]
    rfl
  | cons c cs =>
    have hc := List.length_pos_iff.2 (h.todo c (List.mem_cons_self ..))
    refine ⟨⟨start_inv hready, trivial, ?_, rfl, h.todo, ⟨List.cons_ne_nil _ _, fun hd => by cases hd⟩,
      h.dcn, fun d hd => by cases hd⟩, ?_, rfl⟩
    · change 0 < c.writeData.length + (c.readLength - 0)
      omega
    · change (link.core.unsent ++ _) ++ bits cs = _
      rw [hline, bits, bits, List.flatMap_cons, List.flatMap_append]
      rfl

/-- Going on to the next access. -/
theorem AtRest.resume (h : p.AtRest) : p.resume.Inv ∧ p.resume.toSend = bits p.todo ∧
    p.resume.main = p.main := by
  unfold Processor.resume
  split
  · rename_i hl
    obtain ⟨-, -, hsent, -⟩ := h.link.of_returned h.returned
    refine ⟨⟨h.link, h.chosen, live_returned h.returned, h.slave, h.todo, ⟨?_, h.returned⟩, h.dcn,
      fun d hd => by cases hd⟩, ?_, rfl⟩
    · change p.todo ≠ []
      rw [hl]
      exact List.cons_ne_nil _ _
    · change p.link.toSend ++ _ = _
      rw [hsent]
      rfl
  · exact h.begin

/-! ### Events -/

/-- The word an iteration sends has no empty command. -/
theorem iteration_nonempty (w : BitVec 32) (m : Main) : ∀ c ∈ (m.iteration w).sent, c.writeData ≠ [] := by
  rcases m.iteration_cases w with ⟨s, f, -, -, ⟨-, hsent, -⟩ | ⟨-, hsent, -⟩⟩ | ⟨pos, -, hsent⟩ <;> rw [hsent]
  · intro c hc
    rw [List.mem_singleton.1 hc]
    exact List.cons_ne_nil _ _
  · intro c hc
    rcases picture_command _ _ s c hc with ⟨v, rl, rfl⟩ | ⟨pos, col, rl, -, -, rfl⟩
    · exact List.cons_ne_nil _ _
    · exact List.cons_ne_nil _ _
  · intro c hc
    rw [List.mem_singleton.1 hc]
    exact List.cons_ne_nil _ _

/-- A cycle without an access, between two calls. -/
theorem AtRest.idle (h : p.AtRest) (i : SpiIn) : (p.idleCycle i).AtRest ∧
    p.link.observe SpiCore.clockedOut (.stall i) = [] := by
  obtain ⟨-, -, hsent, -⟩ := h.link.of_returned h.returned
  have hsends := h.link.sends (.stall i)
  rw [hsent] at hsends
  exact ⟨⟨(h.link.kept (.stall i)).1, h.link.chosen h.chosen (.stall i), h.slave, h.todo, h.returned, h.dcn⟩,
    (List.append_eq_nil_iff.1 hsends.symm).1⟩

/-- The PIO core keeps its output over a cycle in which it is not written. -/
theorem AtRest.pio (h : p.AtRest) {pio : PioCore} (hp : pio.outPort.getLsbD 0 = false) :
    ({ p with pio := pio } : Processor).AtRest :=
  ⟨h.link, h.chosen, h.slave, h.todo, h.returned, hp⟩

/-- What an event draws. -/
def drawn (e : BusEv) (p : Processor) : List SpiCommand :=
  (p.polled e).flatMap fun w => (p.main.iteration w).sent

/-- What an event keeps: the invariant, and the bits to be sent, with those of a new frame. -/
structure Kept (e : BusEv) (p : Processor) : Prop where
  inv : (p.step e).Inv
  bits : p.toSend ++ bits (p.drawn e) = p.observe SpiCore.clockedOut e ++ (p.step e).toSend
  main : (p.step e).main = (p.polled e).foldl (fun m w => m.iteration w) p.main

theorem AtRest.toSend (h : p.AtRest) (hpc : p.pc ≠ .call) : p.toSend = Processor.bits p.todo := by
  obtain ⟨-, -, hsent, -⟩ := h.link.of_returned h.returned
  unfold Processor.toSend rest
  rw [hsent, List.nil_append]
  cases hp : p.pc with
  | call => exact absurd hp hpc
  | _ => rfl

theorem Inv.stall (h : p.Inv) (i : BusIn) : Kept (.stall i) p := by
  have hstep : p.step (.stall i) =
      { p with link := p.link.step (.stall i.spi), pio := p.pio.posedge (idlePio i.pio) } := rfl
  have hobs : p.observe SpiCore.clockedOut (.stall i) = p.link.observe SpiCore.clockedOut (.stall i.spi) := rfl
  have hdrawn : p.drawn (.stall i) = [] := rfl
  refine ⟨?_, ?_, rfl⟩
  · rw [hstep]
    exact ⟨(h.link.kept (.stall i.spi)).1, h.link.chosen h.chosen (.stall i.spi),
      Link.live_step h.link h.live (.stall i.spi), h.slave, h.todo, h.place, h.dcn, h.mask⟩
  · rw [hobs, hdrawn, hstep]
    unfold Processor.toSend rest
    rw [h.link.sends (.stall i.spi), List.append_assoc, List.append_assoc]
    exact congrArg _ (congrArg _ (List.append_nil _))

/-- **A word is read in the loop.** -/
theorem Inv.poll (h : p.Inv) (hpc : p.pc = .poll) (i₁ i₂ : BusIn) : Kept (.access i₁ i₂) p := by
  have hrest := h.atRest (by rw [hpc]; exact fun hc => by cases hc)
  obtain ⟨hrest₁, hout₁⟩ := hrest.idle i₁.spi
  obtain ⟨hrest₂, hout₂⟩ := hrest₁.idle i₂.spi
  have hplace := h.place
  rw [hpc] at hplace
  have hsend := hrest.toSend (by rw [hpc]; exact fun hc => by cases hc)
  rw [hplace.1] at hsend
  have hstep : p.step (.access i₁ i₂) = iterate { (p.idleCycle i₁.spi).idleCycle i₂.spi with
      pio := (p.pio.posedge (PioAccess.read.pins i₁.pio)).posedge (PioAccess.read.pins i₂.pio) }
      i₁.pio.inPort := by
    unfold step
    rw [hpc]
    rfl
  have hpolled : p.polled (.access i₁ i₂) = [i₁.pio.inPort] := by
    unfold polled
    rw [hpc]
  have hobs : p.observe SpiCore.clockedOut (.access i₁ i₂) = [] := by
    unfold observe linkEvents
    rw [hpc]
    change _ ++ _ = []
    rw [hout₁]
    exact hout₂
  have hdrawn : p.drawn (.access i₁ i₂) = (p.main.iteration i₁.pio.inPort).sent := by
    unfold drawn
    rw [hpolled, List.flatMap_singleton]
  have hnext : AtRest { (p.idleCycle i₁.spi).idleCycle i₂.spi with
      main := p.main.iteration i₁.pio.inPort
      todo := (p.main.iteration i₁.pio.inPort).sent
      pio := (p.pio.posedge (PioAccess.read.pins i₁.pio)).posedge (PioAccess.read.pins i₂.pio) } :=
    ⟨hrest₂.link, hrest₂.chosen, h.slave, iteration_nonempty _ _, hrest₂.returned, h.dcn⟩
  obtain ⟨hinv, hbits, hmain⟩ := hnext.resume
  refine ⟨?_, ?_, ?_⟩
  · rw [hstep]
    exact hinv
  · rw [hstep, hobs, hdrawn, hsend]
    exact hbits.symm
  · rw [hstep, hpolled]
    exact hmain

/-- **`CLEAR_DCN` reads the word.** -/
theorem Inv.dcnRead (h : p.Inv) (hpc : p.pc = .dcnRead) (i₁ i₂ : BusIn) : Kept (.access i₁ i₂) p := by
  have hrest := h.atRest (by rw [hpc]; exact fun hc => by cases hc)
  obtain ⟨hrest₁, hout₁⟩ := hrest.idle i₁.spi
  obtain ⟨hrest₂, hout₂⟩ := hrest₁.idle i₂.spi
  have hplace := h.place
  rw [hpc] at hplace
  have hpolled : p.polled (.access i₁ i₂) = [] := by
    unfold polled
    rw [hpc]
  have hstep : p.step (.access i₁ i₂) = { (p.idleCycle i₁.spi).idleCycle i₂.spi with
      pc := .dcnWrite (i₁.pio.inPort &&& ~~~dcnMask)
      pio := (p.pio.posedge (PioAccess.read.pins i₁.pio)).posedge (PioAccess.read.pins i₂.pio) } := by
    unfold step
    rw [hpc]
    rfl
  have hobs : p.observe SpiCore.clockedOut (.access i₁ i₂) = [] := by
    unfold observe linkEvents
    rw [hpc]
    change _ ++ _ = []
    rw [hout₁]
    exact hout₂
  have hnext : AtRest (p.step (.access i₁ i₂)) := by
    rw [hstep]
    exact ⟨hrest₂.link, hrest₂.chosen, h.slave, h.todo, hrest₂.returned, h.dcn⟩
  have hpc' : (p.step (.access i₁ i₂)).pc = .dcnWrite (i₁.pio.inPort &&& ~~~dcnMask) := by rw [hstep]
  refine ⟨⟨hnext.link, hnext.chosen, live_returned hnext.returned, hnext.slave, hnext.todo, ?_, hnext.dcn,
    ?_⟩, ?_, ?_⟩
  · rw [hpc']
    refine ⟨?_, hnext.returned⟩
    rw [hstep]
    exact hplace.1
  · intro d hd
    rw [hpc', CpuPc.dcnWrite.injEq] at hd
    rw [← hd, BitVec.getLsbD_and]
    exact Bool.and_false _
  · have hno : p.drawn (.access i₁ i₂) = [] := by
      unfold drawn
      rw [hpolled]
      rfl
    rw [hobs, hno, hrest.toSend (by rw [hpc]; exact fun hc => by cases hc),
      hnext.toSend (by rw [hpc']; exact fun hc => by cases hc), hstep]
    exact List.append_nil _
  · rw [hstep, hpolled]
    rfl

/-- **`CLEAR_DCN` writes it back** with the bit of `rgb_dc` cleared. -/
theorem Inv.dcnWrite (h : p.Inv) {data : BitVec 32} (hpc : p.pc = .dcnWrite data) (i₁ i₂ : BusIn) :
    Kept (.access i₁ i₂) p := by
  have hrest := h.atRest (by rw [hpc]; exact fun hc => by cases hc)
  obtain ⟨hrest₁, hout₁⟩ := hrest.idle i₁.spi
  have hstep : p.step (.access i₁ i₂) =
      begin { p.idleCycle i₁.spi with pio := p.pio.posedge ((PioAccess.write data).pins i₁.pio) } := by
    unfold step
    rw [hpc]
  have hpolled : p.polled (.access i₁ i₂) = [] := by
    unfold polled
    rw [hpc]
  have hobs : p.observe SpiCore.clockedOut (.access i₁ i₂) = [] := by
    unfold observe linkEvents
    rw [hpc]
    exact hout₁
  have hdata : (p.pio.posedge ((PioAccess.write data).pins i₁.pio)).outPort.getLsbD 0 = false := h.mask data hpc
  obtain ⟨hinv, hbits, hmain⟩ := (hrest₁.pio hdata).begin
  refine ⟨?_, ?_, ?_⟩
  · rw [hstep]
    exact hinv
  · have hno : p.drawn (.access i₁ i₂) = [] := by
      unfold drawn
      rw [hpolled]
      rfl
    rw [hstep, hobs, hno, hrest.toSend (by rw [hpc]; exact fun hc => by cases hc), hbits]
    exact List.append_nil _
  · rw [hstep, hpolled]
    exact hmain

/-- **An access of a call.** -/
theorem Inv.call (h : p.Inv) (hpc : p.pc = .call) (i₁ i₂ : BusIn) : Kept (.access i₁ i₂) p := by
  have hplace := h.place
  rw [hpc] at hplace
  have hsends := h.link.sends (.access i₁.spi i₂.spi)
  have hlink := (h.link.kept (.access i₁.spi i₂.spi)).1
  have hchosen := h.link.chosen h.chosen (.access i₁.spi i₂.spi)
  have hlive := Link.live_step h.link h.live (.access i₁.spi i₂.spi)
  have hstep : p.step (.access i₁ i₂) = finish { p with
      link := p.link.step (.access i₁.spi i₂.spi)
      pio := (p.pio.posedge (idlePio i₁.pio)).posedge (idlePio i₂.pio) } := by
    unfold step
    rw [hpc]
  have hpolled : p.polled (.access i₁ i₂) = [] := by
    unfold polled
    rw [hpc]
  have hdrawn : p.drawn (.access i₁ i₂) = [] := by
    unfold drawn
    rw [hpolled]
    rfl
  have hobs : p.observe SpiCore.clockedOut (.access i₁ i₂) =
      p.link.observe SpiCore.clockedOut (.access i₁.spi i₂.spi) := by
    unfold observe linkEvents
    rw [hpc]
  have hsend : p.toSend = p.link.toSend ++ Processor.bits p.todo.tail := by
    unfold Processor.toSend rest
    rw [hpc]
  have hbits : ∀ q : Processor, q.toSend = (p.link.step (.access i₁.spi i₂.spi)).toSend ++
      Processor.bits p.todo.tail →
      p.toSend ++ Processor.bits (p.drawn (.access i₁ i₂)) =
        p.observe SpiCore.clockedOut (.access i₁ i₂) ++ q.toSend := by
    intro q hq
    rw [hsend, hdrawn, hobs, hq, hsends, ← List.append_assoc]
    exact List.append_nil _
  by_cases hret : (p.link.step (.access i₁.spi i₂.spi)).driver.pc = .returned
  · have hnext : AtRest { p with
        link := p.link.step (.access i₁.spi i₂.spi)
        pio := (p.pio.posedge (idlePio i₁.pio)).posedge (idlePio i₂.pio)
        todo := p.todo.tail } :=
      ⟨hlink, hchosen, h.slave, fun c hc => h.todo c (List.mem_of_mem_tail hc), hret, h.dcn⟩
    have hfinish : p.step (.access i₁ i₂) = resume { p with
        link := p.link.step (.access i₁.spi i₂.spi)
        pio := (p.pio.posedge (idlePio i₁.pio)).posedge (idlePio i₂.pio)
        todo := p.todo.tail } := by
      rw [hstep]
      exact if_pos hret
    obtain ⟨hinv, hb, hmain⟩ := hnext.resume
    refine ⟨?_, hbits _ ?_, ?_⟩
    · rw [hfinish]
      exact hinv
    · rw [hfinish, hb, (hlink.of_returned hret).2.2.1]
      rfl
    · rw [hfinish, hpolled]
      exact hmain
  · have hgo : p.step (.access i₁ i₂) = { p with
        link := p.link.step (.access i₁.spi i₂.spi)
        pio := (p.pio.posedge (idlePio i₁.pio)).posedge (idlePio i₂.pio) } := by
      rw [hstep]
      exact if_neg hret
    refine ⟨?_, hbits _ ?_, ?_⟩
    · rw [hgo]
      refine ⟨hlink, hchosen, hlive, h.slave, h.todo, ?_, h.dcn, h.mask⟩
      change match p.pc with
        | .poll => _
        | .dcnRead | .dcnWrite _ => _
        | .call => _
      rw [hpc]
      exact ⟨hplace.1, hret⟩
    · rw [hgo]
      unfold Processor.toSend rest
      rw [hpc]
    · rw [hgo, hpolled]
      rfl

/-- **What every event keeps.** -/
theorem Inv.kept (h : p.Inv) (e : BusEv) : Kept e p := by
  cases e with
  | stall i => exact h.stall i
  | access i₁ i₂ =>
    cases hpc : p.pc with
    | poll => exact h.poll hpc i₁ i₂
    | dcnRead => exact h.dcnRead hpc i₁ i₂
    | dcnWrite data => exact h.dcnWrite hpc i₁ i₂
    | call => exact h.call hpc i₁ i₂

/-! ### The pins -/

/-- The panel takes the bits of a call. -/
theorem link_panelBit {l : Link} (h : l.Inv) (hc : l.Chosen) (hs : l.args.slave = 0) (e : LinkEv) :
    l.observe panelBit e = l.observe SpiCore.clockedOut e := by
  have hto := h.clockedTo hc e
  have hslave : (~~~l.slave).getLsbD 0 = false := by
    unfold Link.slave
    rw [hs]
    decide
  have hfilter : ∀ bs : List Bool,
      (bs.map fun b => (~~~l.slave, b)).flatMap (fun x => if x.1.getLsbD 0 then [] else [x.2]) = bs := by
    intro bs
    simp only [List.flatMap_map, hslave, Bool.false_eq_true, if_false, List.flatMap_singleton']
  have hmap := Link.observe_flatMap (l := l) SpiCore.clockedTo
    (fun x : BitVec 16 × Bool => if x.1.getLsbD 0 then [] else [x.2]) e
  rw [hto, hfilter] at hmap
  exact hmap.symm

/-- **The panel takes every bit.** -/
theorem Inv.panelBit (h : p.Inv) (e : BusEv) :
    p.observe Processor.panelBit e = p.observe SpiCore.clockedOut e := by
  have hone : ∀ a, p.linkEvents e = [a] → p.observe Processor.panelBit e = p.observe SpiCore.clockedOut e := by
    intro a ha
    unfold observe
    rw [ha]
    exact link_panelBit h.link h.chosen h.slave a
  have htwo : ∀ a b, p.linkEvents e = [a, b] →
      p.observe Processor.panelBit e = p.observe SpiCore.clockedOut e := by
    intro a b ha
    unfold observe
    rw [ha]
    change _ ++ _ = _ ++ _
    rw [link_panelBit h.link h.chosen h.slave a,
      link_panelBit (h.link.kept a).1 (h.link.chosen h.chosen a) h.slave b]
  cases e with
  | stall i => exact hone _ rfl
  | access i₁ i₂ =>
    cases hpc : p.pc with
    | poll => exact htwo (.stall i₁.spi) (.stall i₂.spi) (by unfold linkEvents; rw [hpc])
    | dcnRead => exact htwo (.stall i₁.spi) (.stall i₂.spi) (by unfold linkEvents; rw [hpc])
    | dcnWrite data => exact hone (.stall i₁.spi) (by unfold linkEvents; rw [hpc])
    | call => exact hone (.access i₁.spi i₂.spi) (by unfold linkEvents; rw [hpc])

end Processor

/-! ### Runs -/

variable {es : ℕ → BusEv} {words : ℕ → BitVec 32} {n k : ℕ}

theorem processorAt_succ (n : ℕ) : processorAt es (n + 1) = (processorAt es n).step (es n) := rfl

theorem bootSent : Main.boot.sent = [⟨.main, initdata, 0⟩, blackout] := Main.clearScreen_sent

theorem reset_inv : Processor.reset.Inv where
  link := ⟨⟨rfl, rfl, rfl, rfl⟩, ⟨SpiCore.timed_reset, by decide, rfl, rfl⟩, ⟨rfl, rfl⟩, rfl, Nat.zero_le _⟩
  chosen := ⟨rfl, fun h => absurd h Bool.false_ne_true⟩
  live := trivial
  slave := rfl
  todo := by
    change ∀ c ∈ Main.boot.sent, _
    rw [bootSent]
    intro c hc
    rcases List.mem_pair.1 hc with rfl | rfl
    · exact List.cons_ne_nil _ _
    · exact List.cons_ne_nil _ _
  place := by
    refine ⟨?_, rfl⟩
    change Main.boot.sent ≠ []
    rw [bootSent]
    exact List.cons_ne_nil _ _
  dcn := by
    change (3134983178#32).getLsbD 0 = false
    decide
  mask := fun d hd => by cases hd

theorem processorAt_inv (n : ℕ) : (processorAt es n).Inv :=
  inv_from (I := Processor.Inv) (fun e _ h => (h.kept e).inv) (k := 0) reset_inv n (Nat.zero_le n)

/-- The panel has taken the bits that were clocked out. -/
theorem panelBits_eq (n : ℕ) : panelBits es n = processorLog es SpiCore.clockedOut n := by
  induction n with
  | zero => rfl
  | succ n ih =>
    unfold panelBits processorLog at ih ⊢
    rw [log_snoc, log_snoc, ih]
    congr 1
    exact (processorAt_inv n).panelBit (es n)

/-- An event reads at most one word. -/
theorem polled_cases (e : BusEv) (p : Processor) : p.polled e = [] ∨ ∃ w, p.polled e = [w] := by
  cases e with
  | stall i => exact Or.inl rfl
  | access i₁ i₂ =>
    cases hpc : p.pc with
    | poll => exact Or.inr ⟨_, by unfold Processor.polled; rw [hpc]⟩
    | _ => exact Or.inl (by unfold Processor.polled; rw [hpc])

theorem polledWords_succ (n : ℕ) :
    polledWords es (n + 1) = polledWords es n ++ (processorAt es n).polled (es n) := log_snoc n

/-- The bits of the frames drawn so far. -/
theorem bits_transmitted_succ (k : ℕ) : (transmitted words (k + 1)).flatMap msbFirst =
    (transmitted words k).flatMap msbFirst ++ Processor.bits (mainAt words (k + 1)).sent := by
  unfold transmitted
  rw [List.range_succ, List.flatMap_append, List.flatMap_append, List.flatMap_singleton]
  rfl

/-- **`main` on the polled words**, and the bits of its frames on the line. -/
theorem processor_line : ∀ n k, polledWords es n = (List.range k).map words →
    (processorAt es n).main = mainAt words k ∧
    (transmitted words k).flatMap msbFirst =
      processorLog es SpiCore.clockedOut n ++ (processorAt es n).toSend := by
  intro n
  induction n with
  | zero =>
    intro k hk
    have hlen := congrArg List.length hk
    rw [List.length_map, List.length_range] at hlen
    obtain rfl : k = 0 := hlen.symm
    refine ⟨rfl, ?_⟩
    have hrest : Processor.reset.AtRest := reset_inv.atRest fun h => by cases h
    change (transmitted words 0).flatMap msbFirst = [] ++ Processor.reset.toSend
    rw [hrest.toSend fun h => by cases h]
    unfold transmitted
    rw [List.range_one, List.flatMap_singleton]
    rfl
  | succ n ih =>
    intro k hk
    have hkept : (processorAt es n).Kept (es n) := (processorAt_inv n).kept (es n)
    rw [polledWords_succ] at hk
    have hlog : processorLog es SpiCore.clockedOut (n + 1) = processorLog es SpiCore.clockedOut n ++
        (processorAt es n).observe SpiCore.clockedOut (es n) := log_snoc n
    have hbits := hkept.bits
    have hmain := hkept.main
    rw [processorAt_succ, hlog, List.append_assoc, ← hbits, hmain]
    unfold Processor.drawn
    rcases polled_cases (es n) (processorAt es n) with hp | ⟨w, hp⟩ <;> rw [hp] at hk ⊢
    · rw [List.append_nil] at hk
      obtain ⟨hm, hb⟩ := ih k hk
      refine ⟨hm, hb.trans ?_⟩
      exact congrArg _ (List.append_nil _).symm
    · -- a frame more
      obtain ⟨j, rfl⟩ : ∃ j, k = j + 1 := by
        refine ⟨k - 1, ?_⟩
        have hlen := congrArg List.length hk
        rw [List.length_append, List.length_map, List.length_range, List.length_singleton] at hlen
        omega
      rw [List.range_succ, List.map_append] at hk
      obtain ⟨hk', hw⟩ := List.append_inj' hk rfl
      obtain rfl : w = words j := by simpa using hw
      obtain ⟨hm, hb⟩ := ih j hk'
      rw [List.flatMap_singleton, List.foldl_cons, List.foldl_nil, hm, bits_transmitted_succ, hb,
        List.append_assoc]
      exact ⟨rfl, rfl⟩

/-- The words read before event `n`, as a stream. -/
def wordsRead (es : ℕ → BusEv) (n k : ℕ) : BitVec 32 := (polledWords es n).getD k 0

theorem polledWords_eq (es : ℕ → BusEv) (n : ℕ) :
    polledWords es n = (List.range (polledWords es n).length).map (wordsRead es n) := by
  apply List.ext_getElem
  · simp
  · intro i h₁ h₂
    rw [List.getElem_map, List.getElem_range, wordsRead, List.getD_eq_getElem?_getD, List.getElem?_eq_getElem h₁, Option.getD_some]

/-- The bits that the panel has taken are the first of those transmitted for the words read. -/
theorem panelBits_sent (es : ℕ → BusEv) (n : ℕ) :
    panelBits es n <+: (transmitted (wordsRead es n) (polledWords es n).length).flatMap msbFirst := by
  obtain ⟨-, hline⟩ := processor_line n _ (polledWords_eq es n)
  rw [← panelBits_eq] at hline
  exact ⟨_, hline.symm⟩

/-- At a read of the word they are all of them. -/
theorem panelBits_poll (hpc : (processorAt es n).pc = .poll) :
    panelBits es n = (transmitted (wordsRead es n) (polledWords es n).length).flatMap msbFirst := by
  have hno : (processorAt es n).pc ≠ .call := by
    rw [hpc]
    exact fun h => by cases h
  obtain ⟨-, hline⟩ := processor_line n _ (polledWords_eq es n)
  have hinv : (processorAt es n).Inv := processorAt_inv n
  have hplace := hinv.place
  rw [hpc] at hplace
  have hsend : (processorAt es n).toSend = [] := by
    rw [(hinv.atRest hno).toSend hno, hplace.1]
    rfl
  rw [hsend, List.append_nil, ← panelBits_eq] at hline
  exact hline.symm

/-- The bytes that the panel has taken at a read of the word. -/
theorem assemble_poll (hpc : (processorAt es n).pc = .poll) :
    assemble 8 (panelBits es n) = transmitted (wordsRead es n) (polledWords es n).length := by
  rw [panelBits_poll hpc, ← List.append_nil ((transmitted _ _).flatMap msbFirst),
    assemble_serial (by decide) _ _ (by decide)]

/-- **The panel shows the polled words.** In every run of the processor from a reset, whatever the
timing of its accesses, the lock's word and `MISO`: the bits the panel takes are at each moment
a part, from the beginning on, of what the iterations on the words read so far transmit, and
all of it whenever `main` is at its next read; then the display is that of these words. And
`rgb_dc` is low throughout, so every byte is taken as a command. -/
theorem panel_shows (es : ℕ → BusEv) (n : ℕ) :
    panelBits es n <+: (transmitted (wordsRead es n) (polledWords es n).length).flatMap msbFirst ∧
    ((processorAt es n).pc = .poll → ∀ p₀ : Panel,
      deliver ⟨[], p₀⟩ (assemble 8 (panelBits es n)) =
        displayAt p₀ (wordsRead es n) (polledWords es n).length) ∧
    (processorAt es n).pio.outPort.getLsbD 0 = false := by
  refine ⟨panelBits_sent es n, fun hpc p₀ => ?_, (processorAt_inv n).dcn⟩
  rw [assemble_poll hpc, displayAt]

/-! ### The next frame -/

/-- An access of the polling loop. -/
def Polls (es : ℕ → BusEv) (n : ℕ) : Prop := (processorAt es n).pc = .poll ∧ (es n).isAccess

namespace Processor

/-- At most so many accesses a call takes. -/
def cost (c : SpiCommand) : ℕ := 200 * (c.writeData.length + c.readLength) + 206

def costs (cs : List SpiCommand) : ℕ := (cs.map cost).sum

/-- How many accesses the program is from its next read of the word, at most. -/
def rank (p : Processor) : ℕ :=
  match p.pc with
  | .poll => 0
  | .dcnRead => costs p.todo + 2
  | .dcnWrite _ => costs p.todo + 1
  | .call => p.link.rank + 3 + costs p.todo.tail

variable {p : Processor} {e : BusEv}

theorem begin_rank (p : Processor) : p.begin.rank ≤ costs p.todo := by
  unfold begin
  obtain ⟨main, pc, todo, link, pio⟩ := p
  cases todo with
  | nil => exact Nat.zero_le _
  | cons c cs =>
    change 200 * (c.writeData.length + (c.readLength - 0)) + 203 + 3 + costs cs ≤ costs (c :: cs)
    unfold costs cost
    rw [List.map_cons, List.sum_cons]
    omega

theorem resume_rank (p : Processor) : p.resume.rank ≤ costs p.todo + 2 := by
  unfold resume
  split
  · exact le_rfl
  · exact (begin_rank p).trans (Nat.le_add_right _ 2)

/-- **An access brings the next read nearer.** -/
theorem Inv.rank_access (h : p.Inv) (hpc : p.pc ≠ .poll) (i₁ i₂ : BusIn) :
    (p.step (.access i₁ i₂)).rank < p.rank := by
  have hplace := h.place
  cases hp : p.pc with
  | poll => exact absurd hp hpc
  | dcnRead =>
    unfold step rank
    rw [hp]
    exact Nat.lt_succ_self _
  | dcnWrite data =>
    have hr : p.rank = costs p.todo + 1 := by
      unfold rank
      rw [hp]
    rw [hr]
    unfold step
    rw [hp]
    exact Nat.lt_succ_of_le (begin_rank _)
  | call =>
    rw [hp] at hplace
    have hlt := ((h.link.access i₁.spi i₂.spi).2.1 h.live hplace.2).1
    have hr : p.rank = p.link.rank + 3 + costs p.todo.tail := by
      unfold rank
      rw [hp]
    have hstep : p.step (.access i₁ i₂) = finish { p with
        link := p.link.step (.access i₁.spi i₂.spi)
        pio := (p.pio.posedge (idlePio i₁.pio)).posedge (idlePio i₂.pio) } := by
      unfold step
      rw [hp]
    rw [hr, hstep]
    by_cases hret : (p.link.step (.access i₁.spi i₂.spi)).driver.pc = .returned
    · have hle := resume_rank { p with
        link := p.link.step (.access i₁.spi i₂.spi)
        pio := (p.pio.posedge (idlePio i₁.pio)).posedge (idlePio i₂.pio)
        todo := p.todo.tail }
      unfold finish
      rw [if_pos hret]
      refine lt_of_le_of_lt hle ?_
      simp only
      omega
    · unfold finish
      rw [if_neg hret]
      unfold rank
      rw [hp]
      simp only
      omega

theorem Inv.rank_stall (h : p.Inv) (i : BusIn) : (p.step (.stall i)).rank ≤ p.rank := by
  have hle := (h.link.stall i.spi).2.1
  change rank { p.idleCycle i.spi with pio := p.pio.posedge (idlePio i.pio) } ≤ _
  unfold rank idleCycle
  cases p.pc with
  | call =>
    simp only
    omega
  | _ => exact le_rfl

end Processor

/-- The loop comes to its next read. -/
theorem next_poll (hrec : Recurring BusEv.isAccess es) (m : ℕ) : ∃ n, m ≤ n ∧ Polls es n := by
  obtain ⟨k, hk, hpoll⟩ := eventually_of_rank (P := BusEv.isAccess) (I := Processor.Inv)
    (G := fun p => p.pc = .poll) (r := Processor.rank)
    (fun e _ h => (h.kept e).inv)
    (fun e p h hno hacc => by
      cases e with
      | stall i => exact hacc.elim
      | access i₁ i₂ => exact Or.inr (h.rank_access hno i₁ i₂))
    (fun e p h _ hacc => by
      cases e with
      | stall i => exact Or.inr (h.rank_stall i)
      | access i₁ i₂ => exact (hacc trivial).elim)
    hrec (m := m) (processorAt_inv m)
  -- the loop waits for its access
  obtain ⟨j, ⟨hkj, hj⟩, hmin⟩ : ∃ j, (k ≤ j ∧ (es j).isAccess) ∧ ∀ i, i < j → ¬ (k ≤ i ∧ (es i).isAccess) :=
    ⟨Nat.find (hrec k), Nat.find_spec (hrec k), fun i => Nat.find_min (hrec k)⟩
  have hwait : ∀ i, k ≤ i → i ≤ j → (processorAt es i).pc = .poll := by
    intro i hi
    induction i, hi using Nat.le_induction with
    | base => exact fun _ => hpoll
    | succ i hki ih =>
      intro hij
      have hno : ¬ (es i).isAccess := fun hacc => hmin i (by omega) ⟨hki, hacc⟩
      rw [processorAt_succ]
      cases he : es i with
      | stall x => exact ih (by omega)
      | access x y =>
        rw [he] at hno
        exact (hno trivial).elim
  exact ⟨j, hk.trans hkj, hwait j hkj le_rfl, hj⟩

/-- **There is always a next frame**: as long as the processor goes on making accesses, `main`
reads the lock's word again and again. -/
theorem polls_recur (es : ℕ → BusEv) (hrec : Recurring BusEv.isAccess es) (m : ℕ) :
    ∃ n, m ≤ n ∧ Polls es n := next_poll hrec m

/-- One access after the other, with every pin low. -/
def busyBus : ℕ → BusEv :=
  let i : BusIn := ⟨⟨false, true, true, 0, 0, false⟩, ⟨0, false, true, 0, 0⟩⟩
  fun _ => .access i i

theorem polls_recur_busy : ∃ n, 5 ≤ n ∧ Polls busyBus n :=
  polls_recur busyBus (fun m => ⟨m, le_rfl, trivial⟩) 5

end Firmware

end BankVault
