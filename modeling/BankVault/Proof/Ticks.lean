import BankVault.Clocked.Progress
import BankVault.Firmware.Ticks

/-!
# The system clock keeps time

* `Running.posedge`: the timer times out every 50000 cycles.
* `ticks_conserved`: every timeout is counted, waits for the handler, or is lost.
* `clock_keeps_time`: no timeout is lost, if and only if each is acknowledged before the next.
-/

namespace BankVault

open Clocked

namespace Firmware

/-! ### The timer -/

/-- The timer before it is started. -/
structure Standing (t : Timer) : Prop where
  control : t.controlRegister = 0
  rests : t.counterIsRunning = false
  noReload : t.forceReload = false
  load : t.counterLoadValue = 49999
  counter : t.internalCounter = 49999
  undelayed : t.delayedCounterIsZero = false
  noTimeout : t.timeoutOccurred = false

/-- The timer once it is started. -/
structure Running (t : Timer) : Prop where
  control : t.controlRegister = 7
  runs : t.counterIsRunning = true
  noReload : t.forceReload = false
  load : t.counterLoadValue = 49999
  counter : t.internalCounter.toNat ≤ 49999
  delayed : t.delayedCounterIsZero = true → t.internalCounter.toNat = 49999

/-- The cycles since the counter was loaded. -/
def phase (t : Timer) : ℕ := 49999 - t.internalCounter.toNat

/-- No write of the period or of the control register. -/
structure Quiet (i : TimerIn) : Prop where
  control : Timer.controlWrStrobe i = false
  periodL : Timer.periodLWrStrobe i = false
  periodH : Timer.periodHWrStrobe i = false

variable {t : Timer} {i : TimerIn}

theorem Quiet.load (h : Quiet i) : (t.posedge i).counterLoadValue = t.counterLoadValue := by
  simp [Timer.counterLoadValue, Timer.posedge, h.periodL, h.periodH]

theorem Quiet.noReload (h : Quiet i) : (t.posedge i).forceReload = false := by
  simp [Timer.posedge, h.periodL, h.periodH]

theorem Standing.timeoutEvent (h : Standing t) : t.timeoutEvent = false := by
  simp [Timer.timeoutEvent, Timer.counterIsZero, h.counter]

theorem Standing.posedge (h : Standing t) (hq : Quiet i) : Standing (t.posedge i) where
  control := by simp [Timer.posedge, hq.control, h.control]
  rests := by
    simp [Timer.posedge, Timer.doStartCounter, Timer.startStrobe, hq.control, h.rests]
  noReload := hq.noReload
  load := hq.load.trans h.load
  counter := by simp [Timer.posedge, h.rests, h.noReload, h.counter]
  undelayed := by simp [Timer.posedge, Timer.counterIsZero, h.counter]
  noTimeout := by simp [Timer.posedge, h.timeoutEvent, h.noTimeout]

/-- The write of `ITO`, `CONT` and `START`. -/
def startIn : TimerIn := { address := 1, chipselect := true, writeN := false, writedata := 7 }

theorem Standing.start (h : Standing t) :
    Running (t.posedge startIn) ∧ phase (t.posedge startIn) = 0 := by
  have hcounter : (t.posedge startIn).internalCounter = 49999 := by
    simp [Timer.posedge, h.rests, h.noReload, h.counter]
  refine ⟨⟨rfl, rfl, rfl, ?_, ?_, ?_⟩, ?_⟩
  · exact h.load
  · rw [hcounter]
    rfl
  · intro _
    rw [hcounter]
    rfl
  · rw [phase, hcounter]
    rfl

/-- **The counter goes down by one**, and from 0 back to the period. -/
theorem Running.counter_next (h : Running t) (i : TimerIn) : (t.posedge i).internalCounter.toNat =
    if t.internalCounter.toNat = 0 then 49999 else t.internalCounter.toNat - 1 := by
  have hnext : (t.posedge i).internalCounter =
      if t.internalCounter = 0 then 49999 else t.internalCounter - 1 := by
    simp [Timer.posedge, Timer.counterIsZero, h.runs, h.noReload, h.load]
  rw [hnext]
  by_cases h0 : t.internalCounter = 0
  · rw [if_pos h0, h0]
    rfl
  · have hne : t.internalCounter.toNat ≠ 0 := fun hz => h0 (BitVec.eq_of_toNat_eq hz)
    rw [if_neg h0, if_neg hne]
    bv_omega

/-- A running timer times out when its counter is 0. -/
theorem Running.timeoutEvent (h : Running t) :
    t.timeoutEvent = true ↔ t.internalCounter.toNat = 0 := by
  unfold Timer.timeoutEvent Timer.counterIsZero
  rw [Bool.and_eq_true, beq_iff_eq]
  constructor
  · rintro ⟨h0, -⟩
    rw [h0]
    rfl
  · intro h0
    refine ⟨BitVec.eq_of_toNat_eq h0, ?_⟩
    have hd := h.delayed
    cases hdelay : t.delayedCounterIsZero with
    | false => rfl
    | true => have := hd hdelay; omega

/-- **One cycle of a running timer.** -/
theorem Running.posedge (h : Running t) (hq : Quiet i) : Running (t.posedge i) ∧
    phase t + 1 = 50000 * t.timeoutEvent.toNat + phase (t.posedge i) := by
  have hnext := h.counter_next i
  have hle := h.counter
  refine ⟨⟨?_, ?_, hq.noReload, hq.load.trans h.load, ?_, ?_⟩, ?_⟩
  · simp [Timer.posedge, hq.control, h.control]
  · simp [Timer.posedge, Timer.doStopCounter, Timer.stopStrobe, Timer.controlContinuous, hq.control,
      h.control, h.runs, h.noReload]
  · rw [hnext]
    split_ifs <;> omega
  · intro hd
    have h0 : t.internalCounter = 0 := by simpa [Timer.posedge, Timer.counterIsZero] using hd
    rw [hnext, h0]
    rfl
  · unfold phase
    rw [hnext]
    cases he : t.timeoutEvent with
    | true =>
      rw [if_pos (h.timeoutEvent.1 he), h.timeoutEvent.1 he]
      rfl
    | false =>
      have hne : t.internalCounter.toNat ≠ 0 := fun h0 => by
        rw [h.timeoutEvent.2 h0] at he
        exact absurd he (by decide)
      rw [if_neg hne]
      simp only [Bool.toNat_false, Nat.mul_zero, Nat.zero_add]
      omega

/-! ### The timer with the two programs -/

/-- What every reachable state satisfies. -/
inductive Sound (s : Ticking) : Prop
  | standing (init : s.main = .init) (out : s.irq = .out) (timer : Standing s.timer)
  | running (started : s.main ≠ .init) (timer : Running s.timer)
      (pending : s.irq = .clear → s.timer.timeoutOccurred = true)

/-- The handler has acknowledged the interrupt and not counted it yet. -/
def IrqPc.serving (pc : IrqPc) : Bool := pc == .dummyRead || pc == .tick

/-- Timeouts that are not counted yet: not acknowledged, or not counted by the handler. -/
def held (s : Ticking) : ℕ := s.timer.timeoutOccurred.toNat + s.irq.serving.toNat

variable {e : TickEv} {s : Ticking}

theorem timerIn_quiet (h : s.main ≠ .init) : Quiet (s.timerIn e) := by
  have hmain : (s.mainRuns e && s.main == .init) = false := by simp [h]
  unfold Ticking.timerIn
  rw [hmain, if_neg Bool.false_ne_true]
  split_ifs
  · exact ⟨rfl, rfl, rfl⟩
  · exact ⟨rfl, rfl, rfl⟩
  · exact ⟨rfl, rfl, rfl⟩

/-- The timer in front of the programs until `main` starts it. -/
theorem timerIn_init (hm : s.main = .init) (hi : s.irq = .out) :
    if s.mainRuns e then s.timerIn e = startIn else Quiet (s.timerIn e) := by
  have hclears : s.clears e = false := by simp [Ticking.clears, hi]
  have hdummy : (s.irq == IrqPc.dummyRead) = false := by simp [hi]
  unfold Ticking.timerIn
  rw [hclears, hdummy, Bool.and_false, hm]
  cases s.mainRuns e with
  | true => rfl
  | false => exact ⟨rfl, rfl, rfl⟩

theorem nextMain_ne (s : Ticking) : s.nextMain ≠ .init := by
  unfold Ticking.nextMain
  split
  · decide
  · exact DelayPc.noConfusion
  · split_ifs
    · exact DelayPc.noConfusion
    · decide

/-- The timer is started once. -/
theorem step_main_ne (h : s.main ≠ .init) : (s.step e).main ≠ .init := by
  change (if s.mainRuns e = true then s.nextMain else s.main) ≠ _
  split_ifs
  · exact nextMain_ne s
  · exact h

/-- The status register is written by the handler only. -/
theorem statusWrStrobe_timerIn : Timer.statusWrStrobe (s.timerIn e) = s.clears e := by
  unfold Ticking.timerIn
  cases s.clears e with
  | true => rfl
  | false => split_ifs <;> simp_all [Timer.statusWrStrobe, Timer.wrStrobe]

theorem step_timeoutOccurred : (s.step e).timer.timeoutOccurred =
    (!s.clears e && (s.timer.timeoutEvent || s.timer.timeoutOccurred)) := by
  change (if Timer.statusWrStrobe (s.timerIn e) then _ else _ : Bool) = _
  rw [statusWrStrobe_timerIn]
  cases s.clears e <;> cases s.timer.timeoutEvent <;> simp

theorem step_serving : (s.step e).irq.serving =
    if Ticking.handlerRuns e then s.irq == .clear || s.irq == .dummyRead else s.irq.serving := by
  change (if Ticking.handlerRuns e then s.nextIrq else s.irq).serving = _
  cases Ticking.handlerRuns e with
  | false => rfl
  | true =>
    rw [if_pos rfl, if_pos rfl]
    unfold Ticking.nextIrq
    cases s.irq with
    | out => cases s.timer.irq <;> rfl
    | clear => rfl
    | dummyRead => rfl
    | tick => rfl

theorem sound_reset : Sound Ticking.reset :=
  .standing rfl rfl ⟨rfl, rfl, rfl, rfl, rfl, rfl, rfl⟩

/-- Without an interrupt the handler stays out. -/
theorem standing_irq (hi : s.irq = .out) (ht : s.timer.timeoutOccurred = false) : (s.step e).irq = .out := by
  simp [Ticking.step, Ticking.nextIrq, hi, Timer.irq, ht]

/-- **The invariant.** -/
theorem Sound.step (h : Sound s) : Sound (s.step e) := by
  cases h with
  | standing hm hi ht =>
    have hirq := standing_irq (e := e) hi ht.noTimeout
    have hline := timerIn_init (e := e) hm hi
    cases hrun : s.mainRuns e with
    | true =>
      rw [hrun, if_pos rfl] at hline
      have hmain : (s.step e).main = s.nextMain := by simp [Ticking.step, hrun]
      have htimer : (s.step e).timer = s.timer.posedge startIn := by rw [← hline]; rfl
      refine .running (hmain ▸ nextMain_ne s) (htimer ▸ ht.start.1) fun hc => ?_
      rw [hirq] at hc
      exact absurd hc (by decide)
    | false =>
      rw [hrun] at hline
      have hmain : (s.step e).main = s.main := by simp [Ticking.step, hrun]
      exact .standing (hmain.trans hm) hirq (ht.posedge hline)
  | running hm ht hp =>
    refine .running (step_main_ne hm) (ht.posedge (timerIn_quiet hm)).1 fun hc => ?_
    rw [step_timeoutOccurred]
    -- the handler enters on an interrupt, and writes the status register on its next turn
    have hturn : s.irq = .clear ∧ Ticking.handlerRuns e = false ∨ s.timer.irq = true ∧ s.irq = .out := by
      simp only [Ticking.step, Ticking.nextIrq] at hc
      cases hr : Ticking.handlerRuns e <;> cases hi : s.irq <;> simp_all
    rcases hturn with ⟨hi, hr⟩ | ⟨hirq, hi⟩
    · simp [Ticking.clears, hr, hp hi]
    · have hocc : s.timer.timeoutOccurred = true := by
        simp only [Timer.irq, Bool.and_eq_true] at hirq
        exact hirq.1
      simp [Ticking.clears, hi, hocc]

/-- **One cycle conserves the timeouts.** -/
theorem held_step (h : Sound s) : held s + (Ticking.timesOut e s).toNat =
    ((s.ticks e).toNat + (Ticking.loses e s).toNat) + held (s.step e) := by
  have hclear : s.irq = .clear → s.timer.timeoutOccurred = true := by
    cases h with
    | standing hm hi ht => simp [hi]
    | running hm ht hp => exact hp
  unfold held
  rw [step_timeoutOccurred, step_serving]
  unfold Ticking.timesOut Ticking.loses Ticking.ticks Ticking.clears IrqPc.serving
  generalize s.irq = pc at hclear ⊢
  generalize s.timer.timeoutOccurred = occ at hclear ⊢
  cases pc <;> cases occ <;> cases Ticking.handlerRuns e <;> cases s.timer.timeoutEvent <;>
    first | rfl | exact absurd (hclear rfl) Bool.false_ne_true

/-! ### Runs -/

variable {es : ℕ → TickEv} {a n : ℕ}

theorem tAt_succ (es : ℕ → TickEv) (n : ℕ) : tAt es (n + 1) = (tAt es n).step (es n) := rfl

theorem sound_at (es : ℕ → TickEv) (n : ℕ) : Sound (tAt es n) :=
  inv_from (I := Sound) (fun _ _ h => h.step) (k := 0) sound_reset n (Nat.zero_le n)

/-- **No timeout disappears**: it is counted, waits for the handler, or is lost. -/
theorem ticks_conserved (es : ℕ → TickEv) (n : ℕ) : countOf Ticking.timesOut es n =
    countOf Ticking.ticks es n + countOf Ticking.loses es n + held (tAt es n) := by
  have hrule := tally_conserved (H := held) (fun _ _ h => Sound.step h)
    (fun e s h => held_step (e := e) h) sound_reset es n
  rw [tally_add] at hrule
  have hzero : held Ticking.reset = 0 := rfl
  rw [hzero, Nat.zero_add] at hrule
  exact hrule

/-- `_alt_nticks` is the number of ticks. -/
theorem nticks_eq (es : ℕ → TickEv) (n : ℕ) :
    (tAt es n).nticks = BitVec.ofNat 32 (countOf Ticking.ticks es n) := by
  induction n with
  | zero => rfl
  | succ n ih =>
    have hnext : (tAt es (n + 1)).nticks =
        if (tAt es n).ticks (es n) then (tAt es n).nticks + 1 else (tAt es n).nticks := rfl
    have hcount : countOf Ticking.ticks es (n + 1) =
        countOf Ticking.ticks es n + ((tAt es n).ticks (es n)).toNat := tally_succ n
    rw [hnext, hcount, ih]
    cases (tAt es n).ticks (es n) with
    | true => exact (BitVec.ofNat_add _ _).symm
    | false => rfl

theorem started_from {m : ℕ} (hm : (tAt es m).main ≠ .init) : ∀ n, m ≤ n → (tAt es n).main ≠ .init :=
  inv_from (I := fun s : Ticking => s.main ≠ .init) (fun _ _ h => step_main_ne h) hm

/-- A timer that was started runs. -/
theorem Started.running (h : Started es a) (n : ℕ) (hn : a < n) :
    (tAt es n).main ≠ .init ∧ Running (tAt es n).timer := by
  have hfirst : (tAt es (a + 1)).main ≠ .init := by
    rw [tAt_succ, Ticking.step, if_pos h.2]
    exact nextMain_ne _
  have hmain := started_from hfirst n hn
  refine ⟨hmain, ?_⟩
  cases sound_at es n with
  | standing hm _ _ => exact absurd hm hmain
  | running _ ht _ => exact ht

/-- Before the start it stands. -/
theorem Started.standing (h : Started es a) (n : ℕ) (hn : n ≤ a) :
    (tAt es n).main = .init ∧ Standing (tAt es n).timer := by
  have hmain : (tAt es n).main = .init := by
    by_contra hne
    exact started_from hne a hn h.1
  refine ⟨hmain, ?_⟩
  cases sound_at es n with
  | standing _ _ ht => exact ht
  | running hm _ _ => exact absurd hmain hm

/-- **The time of a running timer**: whole periods, and the phase. -/
theorem Started.time (h : Started es a) : ∀ n, a < n →
    50000 * countOf Ticking.timesOut es n + phase (tAt es n).timer = n - (a + 1) := by
  have hcount : ∀ n, countOf Ticking.timesOut es (n + 1) =
      countOf Ticking.timesOut es n + (tAt es n).timer.timeoutEvent.toNat := tally_succ
  have hnone : ∀ n, n ≤ a + 1 → countOf Ticking.timesOut es n = 0 := by
    intro n
    induction n with
    | zero => intro _; rfl
    | succ n ih =>
      intro hn
      rw [hcount, ih (by omega), (h.standing n (by omega)).2.timeoutEvent]
      rfl
  intro n hn
  induction n, hn using Nat.le_induction with
  | base =>
    have hstand := h.standing a le_rfl
    have hline := timerIn_init (e := es a) hstand.1
      (by have := h.2; simp only [Ticking.mainRuns, Bool.and_eq_true, beq_iff_eq] at this; exact this.2)
    rw [h.2, if_pos rfl] at hline
    have htimer : (tAt es (a + 1)).timer = (tAt es a).timer.posedge startIn := by rw [← hline]; rfl
    rw [Nat.succ_eq_add_one, hnone (a + 1) le_rfl, htimer, hstand.2.start.2]
    omega
  | succ n hn ih =>
    obtain ⟨hmain, hrun⟩ := h.running n hn
    have hnext := (hrun.posedge (timerIn_quiet (e := es n) hmain)).2
    have htimer : (tAt es (n + 1)).timer = (tAt es n).timer.posedge ((tAt es n).timerIn (es n)) := rfl
    rw [hcount, htimer]
    omega

theorem phase_lt (t : Timer) : phase t < 50000 := by
  unfold phase
  omega

/-- **The timeouts so far.** -/
theorem Started.timeouts (h : Started es a) (hn : a < n) :
    countOf Ticking.timesOut es n = (n - (a + 1)) / 50000 := by
  have htime := h.time n hn
  have hlt := phase_lt (tAt es n).timer
  omega

/-- **When the timer times out.** -/
theorem Started.timesOut_iff (h : Started es a) (n : ℕ) :
    (tAt es n).timer.timeoutEvent = true ↔ ∃ k, n = timeoutAt a k := by
  unfold timeoutAt
  rcases Nat.lt_or_ge a n with hn | hn
  · obtain ⟨-, hrun⟩ := h.running n hn
    have htime := h.time n hn
    have hle := hrun.counter
    rw [hrun.timeoutEvent]
    unfold phase at htime
    constructor
    · intro h0
      exact ⟨countOf Ticking.timesOut es n, by omega⟩
    · rintro ⟨k, hk⟩
      omega
  · rw [(h.standing n hn).2.timeoutEvent]
    constructor
    · intro hf
      exact absurd hf Bool.false_ne_true
    · rintro ⟨k, hk⟩
      omega

/-! ### The interrupt -/

/-- The interrupt is pending at cycle `n`. -/
def Pending (es : ℕ → TickEv) (n : ℕ) : Prop := (tAt es n).timer.timeoutOccurred = true

theorem pending_succ (n : ℕ) : Pending es (n + 1) ↔
    (tAt es n).clears (es n) = false ∧ ((tAt es n).timer.timeoutEvent = true ∨ Pending es n) := by
  unfold Pending
  rw [tAt_succ, step_timeoutOccurred]
  simp

/-- The handler acknowledges a pending interrupt only. -/
theorem pending_of_clears (h : (tAt es n).clears (es n) = true) : Pending es n := by
  simp only [Ticking.clears, Bool.and_eq_true, beq_iff_eq] at h
  cases sound_at es n with
  | standing _ hi _ =>
    rw [hi] at h
    exact absurd h.2 (by decide)
  | running _ _ hp => exact hp h.2

/-- An interrupt that is not acknowledged stays pending. -/
theorem pending_stays {i j : ℕ} (hij : i ≤ j) (hi : Pending es i)
    (hno : ∀ m, i ≤ m → m < j → (tAt es m).clears (es m) = false) : Pending es j := by
  induction j, hij using Nat.le_induction with
  | base => exact hi
  | succ j hij ih =>
    rw [pending_succ]
    exact ⟨hno j hij (Nat.lt_succ_self j), Or.inr (ih fun m h₁ h₂ => hno m h₁ (by omega))⟩

/-- Without a timeout no interrupt comes up. -/
theorem not_pending_stays {i j : ℕ} (hij : i ≤ j) (hi : ¬ Pending es i)
    (hno : ∀ m, i ≤ m → m < j → (tAt es m).timer.timeoutEvent = false) : ¬ Pending es j := by
  induction j, hij using Nat.le_induction with
  | base => exact hi
  | succ j hij ih =>
    rw [pending_succ, hno j hij (Nat.lt_succ_self j)]
    rintro ⟨-, hf | hp⟩
    · exact absurd hf Bool.false_ne_true
    · exact ih (fun m h₁ h₂ => hno m h₁ (by omega)) hp

theorem timeoutAt_lt (a k : ℕ) : timeoutAt a k < timeoutAt a (k + 1) := by
  unfold timeoutAt
  omega

/-- Between two timeouts there is none. -/
theorem Started.between (h : Started es a) {k m : ℕ} (h₁ : timeoutAt a k < m) (h₂ : m < timeoutAt a (k + 1)) :
    (tAt es m).timer.timeoutEvent = false := by
  rw [← Bool.not_eq_true, h.timesOut_iff]
  rintro ⟨j, rfl⟩
  unfold timeoutAt at h₁ h₂
  omega

/-- **Each timeout before `n` is acknowledged before the next one.** -/
def OnTime (es : ℕ → TickEv) (a n : ℕ) : Prop :=
  ∀ k, timeoutAt a (k + 1) < n →
    ∃ m, timeoutAt a k < m ∧ m < timeoutAt a (k + 1) ∧ (tAt es m).clears (es m) = true

/-- No interrupt is pending at the first timeout. -/
theorem Started.first (h : Started es a) : ¬ Pending es (timeoutAt a 0) := by
  refine not_pending_stays (i := a) (by unfold timeoutAt; omega) ?_ fun m h₁ h₂ => ?_
  · have hfalse := (h.standing a le_rfl).2.noTimeout
    unfold Pending
    rw [hfalse]
    exact Bool.false_ne_true
  · rw [← Bool.not_eq_true, h.timesOut_iff]
    rintro ⟨j, rfl⟩
    unfold timeoutAt at h₂
    omega

/-- An acknowledged timeout is not pending at the next one. -/
theorem Started.acknowledged (h : Started es a) {k m : ℕ} (h₁ : timeoutAt a k < m) (h₂ : m < timeoutAt a (k + 1))
    (hc : (tAt es m).clears (es m) = true) : ¬ Pending es (timeoutAt a (k + 1)) := by
  refine not_pending_stays (i := m + 1) h₂ ?_ fun j h₃ h₄ => h.between (by omega) h₄
  rw [pending_succ, hc]
  exact fun hf => absurd hf.1 (by decide)

/-- **Nothing is pending at any timeout**, if and only if each is acknowledged on time. -/
theorem Started.on_time_iff (h : Started es a) (n : ℕ) :
    OnTime es a n ↔ ∀ k, timeoutAt a k < n → ¬ Pending es (timeoutAt a k) := by
  constructor
  · intro hon k hk
    cases k with
    | zero => exact h.first
    | succ k =>
      obtain ⟨m, h₁, h₂, hc⟩ := hon k hk
      exact h.acknowledged h₁ h₂ hc
  · intro hno k hk
    by_contra hlate
    push Not at hlate
    have hfree := hno k ((timeoutAt_lt a k).trans hk)
    -- the timeout is not acknowledged in its own cycle, as nothing is pending there
    have hset : Pending es (timeoutAt a k + 1) := by
      rw [pending_succ]
      refine ⟨?_, Or.inl ((h.timesOut_iff _).2 ⟨k, rfl⟩)⟩
      rw [← Bool.not_eq_true]
      exact fun hc => hfree (pending_of_clears hc)
    refine hno (k + 1) hk (pending_stays (timeoutAt_lt a k) hset fun m h₁ h₂ => ?_)
    rw [← Bool.not_eq_true]
    exact hlate m h₁ h₂

/-- A count is zero where nothing is counted. -/
theorem countOf_eq_zero {p : TickEv → Ticking → Bool} :
    countOf p es n = 0 ↔ ∀ i, i < n → p (es i) (tAt es i) = false := by
  unfold countOf tally
  rw [Finset.sum_eq_zero_iff]
  simp only [Finset.mem_range, Bool.toNat_eq_zero]
  rfl

theorem Started.lost_iff (h : Started es a) (n : ℕ) : countOf Ticking.loses es n = 0 ↔ OnTime es a n := by
  rw [countOf_eq_zero, h.on_time_iff]
  constructor
  · intro hno k hk hp
    have hl := hno _ hk
    unfold Ticking.loses at hl
    rw [(h.timesOut_iff _).2 ⟨k, rfl⟩, Bool.true_and] at hl
    exact absurd (hl.symm.trans hp) Bool.false_ne_true
  · intro hno i hi
    cases he : (tAt es i).timer.timeoutEvent with
    | false => simp [Ticking.loses, he]
    | true =>
      obtain ⟨k, rfl⟩ := (h.timesOut_iff i).1 he
      have hp := hno k hi
      unfold Pending at hp
      simp [Ticking.loses, hp]

/-- **The system clock keeps time** under every interleaving of the timer, the handler and `main`:
`_alt_nticks` counts ticks, which never run ahead of the timer; and no period is lost, the tick count and
what the handler has still to count being the periods since the start, if and only if each timeout
was acknowledged before the next. -/
theorem clock_keeps_time (es : ℕ → TickEv) (a n : ℕ) (h : Started es a) (hn : a < n) :
    (tAt es n).nticks = BitVec.ofNat 32 (countOf Ticking.ticks es n) ∧
    countOf Ticking.ticks es n + held (tAt es n) ≤ (n - (a + 1)) / 50000 ∧
    (countOf Ticking.ticks es n + held (tAt es n) = (n - (a + 1)) / 50000 ↔ OnTime es a n) := by
  have hcons := ticks_conserved es n
  rw [h.timeouts hn] at hcons
  refine ⟨nticks_eq es n, by omega, ?_⟩
  rw [← h.lost_iff]
  omega

/-- `main` and the handler take turns. -/
def takeTurns (n : ℕ) : TickEv where
  turn := if n % 2 = 0 then .main else .handler
  lines := { address := 0, chipselect := false, writeN := true, writedata := 0 }

theorem clock_keeps_time_takeTurns :
    (tAt takeTurns 1000000).nticks = BitVec.ofNat 32 (countOf Ticking.ticks takeTurns 1000000) ∧
    countOf Ticking.ticks takeTurns 1000000 + held (tAt takeTurns 1000000) ≤ 19 ∧
    (countOf Ticking.ticks takeTurns 1000000 + held (tAt takeTurns 1000000) = 19 ↔
      OnTime takeTurns 0 1000000) :=
  clock_keeps_time takeTurns 0 1000000 ⟨rfl, rfl⟩ (by decide)

end Firmware

end BankVault
