import BankVault.Proof.Ticks

/-!
# How long `frame_delay` takes

`frame_delay` compares two readings of the tick count.

* `served`: where the handler gets its turns in time, it is done with each timeout well before the next.
* `returned_by`: then a call is back `5 * W` cycles after the next timeout.
* `frame_delay_one_tick`: there a call takes one tick, unless it starts at the last value of the count.
* `frame_delay_paces`: whoever gets the turns, and however late, the calls that return in a stretch of
  the run are at most the milliseconds in it and four more.
-/

namespace BankVault

open Clocked

namespace Firmware

/-- `main` waits in `frame_delay`. -/
def WaitsAt (es : ℕ → TickEv) (j : ℕ) : Prop := ∃ start, (tAt es j).main = .waiting start

/-- The programs get their turns within `W` cycles: the handler always, and `main` while it waits in
`frame_delay`. Outside it `main` may take its time, as it does where it draws. -/
structure Served (es : ℕ → TickEv) (W : ℕ) : Prop where
  handler : ∀ j, ∃ i, j ≤ i ∧ i < j + W ∧ (es i).turn = .handler
  main : ∀ j, WaitsAt es j → ∃ i, j ≤ i ∧ i < j + W ∧ (es i).turn = .main

/-! ### The handler in time -/

/-- The turns of the handler until no timeout is left to count. -/
def turnsLeft (s : Ticking) : ℕ :=
  match s.irq, s.timer.timeoutOccurred with
  | .out, false => 0
  | .tick, false => 1
  | .dummyRead, false => 2
  | .clear, _ => 3
  | .out, true => 4
  | .tick, true => 5
  | .dummyRead, true => 6

variable {e : TickEv} {s : Ticking} {es : ℕ → TickEv} {a n i W k : ℕ}

/-- Nothing is left to do: the handler is out and has counted everything. -/
theorem turnsLeft_eq_zero (h : turnsLeft s = 0) : s.irq = .out ∧ s.timer.timeoutOccurred = false := by
  unfold turnsLeft at h
  split at h <;> simp_all

theorem held_of_turnsLeft (h : turnsLeft s = 0) : held s = 0 := by
  obtain ⟨hi, ho⟩ := turnsLeft_eq_zero h
  rw [held, hi, ho]
  rfl

/-- **A turn of the handler**, in a cycle without a timeout. -/
theorem turnsLeft_handler (hrun : Running s.timer) (hno : s.timer.timeoutEvent = false)
    (he : e.turn = .handler) (hne : turnsLeft s ≠ 0) :
    turnsLeft (s.step e) + 1 = turnsLeft s := by
  have hh : Ticking.handlerRuns e = true := beq_iff_eq.2 he
  have hen : s.timer.controlInterruptEnable = true := by
    rw [Timer.controlInterruptEnable, hrun.control]
    rfl
  have hirq : (s.step e).irq = s.nextIrq := if_pos hh
  have hocc := step_timeoutOccurred (e := e) (s := s)
  rw [hno, Bool.false_or] at hocc
  unfold turnsLeft at hne ⊢
  rw [hirq, hocc, Ticking.nextIrq, Ticking.clears, hh, Timer.irq, hen]
  generalize s.irq = pc at hne ⊢
  generalize s.timer.timeoutOccurred = occ at hne ⊢
  cases pc <;> cases occ <;> first | rfl | exact absurd rfl hne

/-- Another turn leaves the handler where it is. -/
theorem turnsLeft_other (hno : s.timer.timeoutEvent = false) (he : e.turn ≠ .handler) :
    turnsLeft (s.step e) = turnsLeft s := by
  have hh : Ticking.handlerRuns e = false := beq_eq_false_iff_ne.2 he
  have hirq : (s.step e).irq = s.irq := if_neg (by rw [hh]; exact Bool.false_ne_true)
  have hocc := step_timeoutOccurred (e := e) (s := s)
  rw [hno, Ticking.clears, hh] at hocc
  unfold turnsLeft
  rw [hirq, hocc]
  rfl

/-- A timeout that finds nothing to do. -/
theorem turnsLeft_timeout (hev : s.timer.timeoutEvent = true) (h0 : turnsLeft s = 0) :
    turnsLeft (s.step e) = 4 := by
  obtain ⟨hi, ho⟩ := turnsLeft_eq_zero h0
  have hirq := standing_irq (e := e) hi ho
  have hocc := step_timeoutOccurred (e := e) (s := s)
  rw [hev, Ticking.clears, hi] at hocc
  unfold turnsLeft
  rw [hirq, hocc]
  cases Ticking.handlerRuns e <;> rfl

/-- A handler that is out, with no timeout to count, stays so over a cycle without one. -/
theorem out_next (hi : (tAt es n).irq = .out) (ho : (tAt es n).timer.timeoutOccurred = false)
    (hno : (tAt es n).timer.timeoutEvent = false) :
    (tAt es (n + 1)).irq = .out ∧ (tAt es (n + 1)).timer.timeoutOccurred = false := by
  refine ⟨standing_irq hi ho, ?_⟩
  rw [tAt_succ, step_timeoutOccurred, hno, ho]
  exact Bool.and_false _

/-- One cycle without a timeout. -/
theorem Started.turnsLeft_next (h : Started es a) (hn : a < n) (hno : (tAt es n).timer.timeoutEvent = false) :
    turnsLeft (tAt es (n + 1)) ≤ turnsLeft (tAt es n) ∧
      ((es n).turn = .handler → turnsLeft (tAt es n) ≠ 0 →
        turnsLeft (tAt es (n + 1)) < turnsLeft (tAt es n)) := by
  obtain ⟨-, hrun⟩ := h.running n hn
  have hdown : (es n).turn = .handler → turnsLeft (tAt es n) ≠ 0 →
      turnsLeft (tAt es (n + 1)) < turnsLeft (tAt es n) := by
    intro he hne
    have hstep : turnsLeft (tAt es (n + 1)) + 1 = turnsLeft (tAt es n) := turnsLeft_handler hrun hno he hne
    omega
  refine ⟨?_, hdown⟩
  by_cases he : (es n).turn = .handler
  · by_cases h0 : turnsLeft (tAt es n) = 0
    · obtain ⟨hi, ho⟩ := turnsLeft_eq_zero h0
      obtain ⟨hirq, hocc⟩ := out_next hi ho hno
      rw [turnsLeft, hirq, hocc]
      exact Nat.zero_le _
    · exact (hdown he h0).le
  · exact (show turnsLeft (tAt es (n + 1)) = turnsLeft (tAt es n) from turnsLeft_other hno he).le

/-- Once done, the handler is done until the next timeout. -/
theorem Started.done_stays (h : Started es a) {i j : ℕ} (hi : a < i) (hij : i ≤ j)
    (h0 : turnsLeft (tAt es i) = 0) (hno : ∀ m, i ≤ m → m < j → (tAt es m).timer.timeoutEvent = false) :
    turnsLeft (tAt es j) = 0 := by
  induction j, hij using Nat.le_induction with
  | base => exact h0
  | succ j hij ih =>
    have hlast := ih fun m h₁ h₂ => hno m h₁ (by omega)
    have hle := (h.turnsLeft_next (by omega) (hno j hij (Nat.lt_succ_self j))).1
    omega

/-- Up to the first timeout the handler is out. -/
theorem Started.out_first (h : Started es a) : ∀ i, i ≤ timeoutAt a 0 → (tAt es i).irq = .out := by
  intro i
  induction i with
  | zero => intro _; rfl
  | succ i ih =>
    intro hi
    refine standing_irq (ih (by omega)) ?_
    have hp : ¬ Pending es i := by
      refine not_pending_stays (i := 0) (Nat.zero_le i) Bool.false_ne_true fun m _ hm => ?_
      rw [← Bool.not_eq_true, h.timesOut_iff]
      rintro ⟨k, rfl⟩
      have hk : timeoutAt a 0 ≤ timeoutAt a k := by unfold timeoutAt; omega
      omega
    exact Bool.eq_false_of_not_eq_true hp

/-- Nothing is left to do at the first timeout. -/
theorem Started.done_first (h : Started es a) : turnsLeft (tAt es (timeoutAt a 0)) = 0 := by
  have hp := h.first
  rw [turnsLeft, h.out_first _ le_rfl, Bool.eq_false_of_not_eq_true hp]

/-- **One timeout**: `4 * W` cycles after it nothing is left to do, until the next one. -/
theorem Started.round (h : Started es a) (hs : Served es W) {t u : ℕ} (ht : a < t)
    (hev : (tAt es t).timer.timeoutEvent = true) (h0 : turnsLeft (tAt es t) = 0)
    (hquiet : ∀ m, t < m → m < u → (tAt es m).timer.timeoutEvent = false) :
    ∀ i, t + 1 + 4 * W ≤ i → i ≤ u → turnsLeft (tAt es i) = 0 := by
  intro i hi hiu
  have h4 : turnsLeft (tAt es (t + 1)) = 4 := turnsLeft_timeout hev h0
  have hnext : ∀ i, t + 1 ≤ i → i < t + 1 + W * turnsLeft (tAt es (t + 1)) →
      turnsLeft (tAt es (i + 1)) ≤ turnsLeft (tAt es i) ∧
        ((es i).turn = .handler → turnsLeft (tAt es i) ≠ 0 →
          turnsLeft (tAt es (i + 1)) < turnsLeft (tAt es i)) := by
    intro i h₁ h₂
    rw [h4] at h₂
    exact h.turnsLeft_next (by omega) (hquiet i (by omega) (by omega))
  obtain ⟨n, h₁, h₂, hn⟩ := within_of_rank (G := fun i => turnsLeft (tAt es i) = 0)
    (r := fun i => turnsLeft (tAt es i)) hs.handler
    (fun i h₁ h₂ hg he => Or.inr ((hnext i h₁ h₂).2 he hg))
    (fun i h₁ h₂ _ => Or.inr (hnext i h₁ h₂).1) (fun _ hi => hi)
  rw [h4] at h₂
  exact h.done_stays (by omega) (by omega) hn fun m h₃ h₄ => hquiet m (by omega) (by omega)

/-- **The handler in time**: at each timeout nothing is left to do, and `4 * W` cycles after it, until the
next one, nothing again. -/
theorem served (h : Started es a) (hs : Served es W) (hW : 4 * W < 50000) : ∀ k,
    turnsLeft (tAt es (timeoutAt a k)) = 0 ∧
    ∀ i, timeoutAt a k + 1 + 4 * W ≤ i → i ≤ timeoutAt a (k + 1) → turnsLeft (tAt es i) = 0 := by
  have hroom : ∀ k, timeoutAt a k + 1 + 4 * W ≤ timeoutAt a (k + 1) := by
    intro k
    unfold timeoutAt
    omega
  have hround : ∀ k, turnsLeft (tAt es (timeoutAt a k)) = 0 →
      ∀ i, timeoutAt a k + 1 + 4 * W ≤ i → i ≤ timeoutAt a (k + 1) → turnsLeft (tAt es i) = 0 :=
    fun k h0 => h.round hs (by unfold timeoutAt; omega) ((h.timesOut_iff _).2 ⟨k, rfl⟩) h0
      fun _ h₁ h₂ => h.between h₁ h₂
  have hdone : ∀ k, turnsLeft (tAt es (timeoutAt a k)) = 0 := by
    intro k
    induction k with
    | zero => exact h.done_first
    | succ k ih => exact hround k ih _ (hroom k) le_rfl
  exact fun k => ⟨hdone k, hround k (hdone k)⟩

/-- Then no timeout is lost. -/
theorem Served.on_time (h : Started es a) (hs : Served es W) (hW : 4 * W < 50000) (n : ℕ) : OnTime es a n := by
  rw [h.on_time_iff]
  intro k _ hp
  have h0 := (turnsLeft_eq_zero (served h hs hW k).1).2
  exact absurd (h0.symm.trans hp) Bool.false_ne_true

/-- **The tick count between two timeouts**, once the handler is done. -/
theorem ticks_settled (h : Started es a) (hs : Served es W) (hW : 4 * W < 50000) {i : ℕ}
    (hi : timeoutAt a k + 1 + 4 * W ≤ i) (hnext : i ≤ timeoutAt a (k + 1)) :
    countOf Ticking.ticks es i = k + 1 := by
  have hcons := ticks_conserved es i
  have hlost := (h.lost_iff i).2 (hs.on_time h hW i)
  have hheld := held_of_turnsLeft ((served h hs hW k).2 i hi hnext)
  rw [h.timeouts (by unfold timeoutAt at hi; omega)] at hcons
  unfold timeoutAt at hi hnext
  omega

/-! ### The count -/

/-- The ticks counted are at most the timeouts. -/
theorem ticks_le_timeouts (h : Started es a) (hn : a < n) : countOf Ticking.ticks es n ≤ (n - (a + 1)) / 50000 := by
  have hcons := ticks_conserved es n
  rw [h.timeouts hn] at hcons
  omega

/-- After fewer ticks the count is not at its last value. -/
theorem nticks_ne (h : countOf Ticking.ticks es n < 0xffffffff) : (tAt es n).nticks ≠ 0xffffffff := by
  rw [nticks_eq]
  intro heq
  have hnat := congrArg BitVec.toNat heq
  rw [BitVec.toNat_ofNat, Nat.mod_eq_of_lt (by omega)] at hnat
  exact absurd hnat h.ne

/-! ### One call -/

/-- `frame_delay` is called at cycle `i`. -/
def CallsAt (es : ℕ → TickEv) (i : ℕ) : Prop := (tAt es i).calls (es i) = true

/-- `frame_delay` returns at cycle `r`. -/
def ReturnsAt (es : ℕ → TickEv) (r : ℕ) : Prop := (tAt es r).returns (es r) = true

theorem countOf_mono (p : TickEv → Ticking → Bool) (es : ℕ → TickEv) {m n : ℕ} (h : m ≤ n) :
    countOf p es m ≤ countOf p es n :=
  tally_mono h

/-- A call keeps the tick count of its start. -/
theorem calls_waiting (hi : CallsAt es i) : (tAt es (i + 1)).main = .waiting (tAt es i).nticks := by
  simp only [CallsAt, Ticking.calls, Bool.and_eq_true, beq_iff_eq] at hi
  rw [tAt_succ, Ticking.step, if_pos hi.1, Ticking.nextMain, hi.2]

theorem waiting_stays {start : BitVec 32} (hw : (tAt es n).main = .waiting start) (hno : ¬ ReturnsAt es n) :
    (tAt es (n + 1)).main = .waiting start := by
  have hstay : (tAt es n).mainRuns (es n) = true → (tAt es n).tooEarly start = true := by
    simpa [ReturnsAt, Ticking.returns, hw] using hno
  rw [tAt_succ]
  change (if (tAt es n).mainRuns (es n) = true then (tAt es n).nextMain else (tAt es n).main) = _
  split_ifs with hrun
  · rw [Ticking.nextMain, hw]
    exact if_pos (hstay hrun)
  · exact hw

/-- `main` stays where it is in a turn of the handler. -/
theorem main_stays (h : (es n).turn = .handler) : (tAt es (n + 1)).main = (tAt es n).main := by
  have hno : ¬ (tAt es n).mainRuns (es n) = true := by simp [Ticking.mainRuns, h]
  rw [tAt_succ, Ticking.step, if_neg hno]

/-- Up to its return a call waits. -/
theorem waiting_until (hi : CallsAt es i) {r : ℕ} (hir : i < r) (hno : ∀ j, i < j → j < r → ¬ ReturnsAt es j) :
    (tAt es r).main = .waiting (tAt es i).nticks := by
  induction r, hir using Nat.le_induction with
  | base => exact calls_waiting hi
  | succ r hir ih =>
    exact waiting_stays (ih fun j h₁ h₂ => hno j h₁ (by omega)) (hno r hir (Nat.lt_succ_self r))

/-- The call was made by a timer that runs. -/
theorem Started.lt_of_calls (h : Started es a) (hi : CallsAt es i) : a < i := by
  by_contra hle
  simp only [CallsAt, Ticking.calls, Bool.and_eq_true, beq_iff_eq] at hi
  rw [(h.standing i (by omega)).1] at hi
  exact absurd hi.2 (by decide)

/-- Which period a call falls into. -/
theorem Started.call_period (h : Started es a) (hs : Served es W) (hW : 4 * W < 50000) (hi : a < i) :
    i < timeoutAt a (countOf Ticking.ticks es i) + 1 + 4 * W ∧
      timeoutAt a (countOf Ticking.ticks es i) < i + 50000 := by
  have hcons := ticks_conserved es i
  rw [h.timeouts hi] at hcons
  refine ⟨?_, by unfold timeoutAt; omega⟩
  by_contra hlate
  -- by then the handler has counted one more
  have hnext : timeoutAt a (countOf Ticking.ticks es i) + 1 + 4 * W ≤ timeoutAt a (countOf Ticking.ticks es i + 1) := by
    unfold timeoutAt
    omega
  have hmore := ticks_settled h hs hW le_rfl hnext
  have hmono := countOf_mono Ticking.ticks es (not_lt.1 hlate)
  omega

/-- The comparison of the loop, one tick after the start. -/
theorem next_not_early (k : ℕ) (h : BitVec.ofNat 32 k ≠ 0xffffffff) :
    BitVec.ofNat 32 k < BitVec.ofNat 32 k + 1 ∧ ¬ BitVec.ofNat 32 (k + 1) < BitVec.ofNat 32 k + 1 := by
  rw [BitVec.ofNat_add]
  refine ⟨?_, BitVec.lt_irrefl _⟩
  generalize BitVec.ofNat 32 k = w at h
  bv_omega

/-- The comparison that ends a call finds a tick more than its start. -/
theorem counted_of_returns (hi : CallsAt es i) (hlast : (tAt es i).nticks ≠ 0xffffffff) {r : ℕ} (hir : i < r)
    (hback : ReturnsAt es r) (hno : ∀ j, i < j → j < r → ¬ ReturnsAt es j) :
    countOf Ticking.ticks es i < countOf Ticking.ticks es r := by
  have hwait := waiting_until hi hir hno
  have hlow := countOf_mono Ticking.ticks es hir.le
  have hstart := nticks_eq es i
  rw [hstart] at hlast
  have hne : countOf Ticking.ticks es r ≠ countOf Ticking.ticks es i := by
    intro heq
    unfold ReturnsAt Ticking.returns at hback
    rw [hwait] at hback
    simp only [Ticking.tooEarly, Bool.and_eq_true, Bool.not_eq_true', decide_eq_false_iff_not] at hback
    rw [nticks_eq es r, hstart, heq] at hback
    exact hback.2 (next_not_early _ hlast).1
  omega

/-- **A call is back** `5 * W` cycles after the next timeout, before a second tick is counted. -/
theorem returned_by (h : Started es a) (hs : Served es W) (hW : 5 * W < 50000) (hi : CallsAt es i)
    (hlast : (tAt es i).nticks ≠ 0xffffffff) :
    ∃ r, i < r ∧ r ≤ timeoutAt a (countOf Ticking.ticks es i) + 5 * W ∧ ReturnsAt es r ∧
      ∀ j, i < j → j < r → ¬ ReturnsAt es j := by
  classical
  have hW4 : 4 * W < 50000 := by omega
  obtain ⟨hbefore, -⟩ := h.call_period hs hW4 (h.lt_of_calls hi)
  obtain ⟨w, hw⟩ : ∃ w, w = timeoutAt a (countOf Ticking.ticks es i) + 1 + 4 * W := ⟨_, rfl⟩
  have hret : ∃ r, i < r ∧ r ≤ timeoutAt a (countOf Ticking.ticks es i) + 5 * W ∧ ReturnsAt es r := by
    by_contra hno
    push Not at hno
    have hwaiting : ∀ r, i < r → r ≤ timeoutAt a (countOf Ticking.ticks es i) + 5 * W + 1 →
        (tAt es r).main = .waiting (tAt es i).nticks := fun r hir hr =>
      waiting_until hi hir fun j h₃ h₄ => hno j h₃ (by omega)
    -- a turn of `main` after the next tick, with the call still waiting
    have hpos : 0 < W := by
      obtain ⟨j, h₁, h₂, -⟩ := hs.handler 0
      omega
    obtain ⟨r', h₁, h₂, hturn⟩ := hs.main w ⟨_, hwaiting w (by omega) (by omega)⟩
    have hroom : r' ≤ timeoutAt a (countOf Ticking.ticks es i + 1) := by
      unfold timeoutAt at hw ⊢
      omega
    have hticks : countOf Ticking.ticks es r' = countOf Ticking.ticks es i + 1 :=
      ticks_settled h hs hW4 (by omega) hroom
    have hruns : (tAt es r').mainRuns (es r') = true := by
      have hout := (turnsLeft_eq_zero ((served h hs hW4 _).2 r' (by omega) hroom)).1
      simp [Ticking.mainRuns, hturn, hout]
    refine hno r' (by omega) (by omega) ?_
    unfold ReturnsAt Ticking.returns
    rw [hruns, hwaiting r' (by omega) (by omega)]
    simp only [Ticking.tooEarly, Bool.true_and, Bool.not_eq_true', decide_eq_false_iff_not]
    have hstart := nticks_eq es i
    rw [hstart] at hlast
    rw [nticks_eq es r', hstart, hticks]
    exact (next_not_early _ hlast).2
  -- the first return
  obtain ⟨r, ⟨hir, hr, hback⟩, hmin⟩ :
      ∃ r, (i < r ∧ r ≤ timeoutAt a (countOf Ticking.ticks es i) + 5 * W ∧ ReturnsAt es r) ∧
        ∀ j, j < r → ¬ (i < j ∧ j ≤ timeoutAt a (countOf Ticking.ticks es i) + 5 * W ∧ ReturnsAt es j) :=
    ⟨Nat.find hret, Nat.find_spec hret, fun j => Nat.find_min hret⟩
  exact ⟨r, hir, hr, hback, fun j h₃ h₄ h₅ => hmin j h₄ ⟨h₃, by omega, h₅⟩⟩

/-- **A call of `frame_delay` takes one tick.** Where the handler gets a turn in every `W` cycles, and
`main` while it waits in `frame_delay`, every call that does not start at the last value of the count
returns within `50000 + 5 * W` cycles, and exactly one tick is counted meanwhile. -/
theorem frame_delay_one_tick (es : ℕ → TickEv) (a W i : ℕ) (h : Started es a) (hs : Served es W)
    (hW : 5 * W < 50000) (hi : CallsAt es i) (hlast : (tAt es i).nticks ≠ 0xffffffff) :
    ∃ r, i < r ∧ r < i + 50000 + 5 * W ∧ ReturnsAt es r ∧ (∀ j, i < j → j < r → ¬ ReturnsAt es j) ∧
      countOf Ticking.ticks es r = countOf Ticking.ticks es i + 1 := by
  have hW4 : 4 * W < 50000 := by omega
  obtain ⟨-, hsoon⟩ := h.call_period hs hW4 (h.lt_of_calls hi)
  obtain ⟨r, hir, hr, hback, hfirst⟩ := returned_by h hs hW hi hlast
  refine ⟨r, hir, by omega, hback, hfirst, ?_⟩
  have hmore := counted_of_returns hi hlast hir hback hfirst
  -- up to the end of the period only one tick is counted
  have hend : r ≤ timeoutAt a (countOf Ticking.ticks es i + 1) := by
    unfold timeoutAt at hr ⊢
    omega
  have hroom : timeoutAt a (countOf Ticking.ticks es i) + 1 + 4 * W ≤ timeoutAt a (countOf Ticking.ticks es i + 1) := by
    unfold timeoutAt
    omega
  have hmono := countOf_mono Ticking.ticks es hend
  rw [ticks_settled h hs hW4 hroom le_rfl] at hmono
  omega

/-- `main` starts the timer, draws for the time that thirteen commands of eleven bytes take, and then takes
turns with the handler. -/
def drawsFirst (n : ℕ) : TickEv where
  turn := if n % 2 = 0 ∧ (n = 0 ∨ 14430 ≤ n) then .main else .handler
  lines := { address := 0, chipselect := false, writeN := true, writedata := 0 }

theorem drawsFirst_work (hn : 1 ≤ n) : n ≤ 14430 → (tAt drawsFirst n).main = .work := by
  induction n, hn using Nat.le_induction with
  | base => intro _; rfl
  | succ n hn ih =>
    intro hle
    exact (main_stays (if_neg (by omega))).trans (ih (by omega))

theorem served_drawsFirst : Served drawsFirst 2 where
  handler j := by
    rcases Nat.mod_two_eq_zero_or_one j with h | h
    · exact ⟨j + 1, by omega, by omega, if_neg (by omega)⟩
    · exact ⟨j, le_rfl, by omega, if_neg (by omega)⟩
  main j hwait := by
    obtain ⟨start, hstart⟩ := hwait
    -- while it draws `main` does not wait
    have hj : 14430 < j := by
      by_contra hle
      rcases Nat.eq_zero_or_pos j with rfl | hpos
      · exact DelayPc.noConfusion hstart
      · rw [drawsFirst_work hpos (by omega)] at hstart
        exact DelayPc.noConfusion hstart
    rcases Nat.mod_two_eq_zero_or_one j with h | h
    · exact ⟨j, le_rfl, by omega, if_pos ⟨h, by omega⟩⟩
    · exact ⟨j + 1, by omega, by omega, if_pos ⟨by omega, by omega⟩⟩

/-- The call of `drawsFirst` after its drawing. -/
theorem frame_delay_one_tick_drawsFirst : ∃ r, 14430 < r ∧ r < 64440 ∧ ReturnsAt drawsFirst r ∧
    (∀ j, 14430 < j → j < r → ¬ ReturnsAt drawsFirst j) ∧
    countOf Ticking.ticks drawsFirst r = countOf Ticking.ticks drawsFirst 14430 + 1 := by
  have hstart : Started drawsFirst 0 := ⟨rfl, rfl⟩
  have hmain : (drawsFirst 14430).turn = .main := by decide
  have hout : (tAt drawsFirst 14430).irq = .out := hstart.out_first 14430 (by decide)
  have hcall : CallsAt drawsFirst 14430 := by
    simp [CallsAt, Ticking.calls, Ticking.mainRuns, hmain, hout, drawsFirst_work (n := 14430) (by decide) le_rfl]
  have hnone := ticks_le_timeouts hstart (show 0 < 14430 by decide)
  exact frame_delay_one_tick drawsFirst 0 2 14430 hstart served_drawsFirst (by decide) hcall
    (nticks_ne (by omega))

/-! ### Many calls -/

theorem countOf_succ (p : TickEv → Ticking → Bool) (es : ℕ → TickEv) (n : ℕ) :
    countOf p es (n + 1) = countOf p es n + (p (es n) (tAt es n)).toNat := tally_succ n

/-- A waiting `main` has waited before, or has just called. -/
theorem waiting_cases {start : BitVec 32} (hw : (tAt es (n + 1)).main = .waiting start) :
    ((tAt es n).main = .waiting start ∧ (tAt es n).returns (es n) = false) ∨
      (start = (tAt es n).nticks ∧ (tAt es n).returns (es n) = false) := by
  rw [tAt_succ] at hw
  change (if (tAt es n).mainRuns (es n) = true then (tAt es n).nextMain else (tAt es n).main) = _ at hw
  unfold Ticking.returns
  cases hrun : (tAt es n).mainRuns (es n) with
  | false =>
    rw [hrun, if_neg Bool.false_ne_true] at hw
    exact Or.inl ⟨hw, rfl⟩
  | true =>
    rw [hrun, if_pos rfl, Ticking.nextMain] at hw
    cases hmain : (tAt es n).main with
    | init => rw [hmain] at hw; exact DelayPc.noConfusion hw
    | work =>
      rw [hmain] at hw
      exact Or.inr ⟨(DelayPc.waiting.inj hw).symm, rfl⟩
    | waiting startTime =>
      rw [hmain] at hw
      cases hearly : (tAt es n).tooEarly startTime with
      | true =>
        simp only [hearly, if_true] at hw
        exact Or.inl ⟨hw, by simp [hearly]⟩
      | false =>
        simp only [hearly] at hw
        exact DelayPc.noConfusion hw

/-- What holds at cycle `j` of a stretch from `m`, while the count does not wrap: the calls that have
returned are at most the ticks and one, and a waiting call that was made in the stretch is not
counted yet. -/
structure Paced (es : ℕ → TickEv) (m j : ℕ) : Prop where
  count : (tAt es j).nticks.toNat + countOf Ticking.ticks es m =
    (tAt es m).nticks.toNat + countOf Ticking.ticks es j
  mono : countOf Ticking.ticks es m ≤ countOf Ticking.ticks es j
  returned : countOf Ticking.returns es j + (tAt es m).nticks.toNat ≤
    countOf Ticking.returns es m + 1 + (tAt es j).nticks.toNat
  waiting : ∀ start, (tAt es j).main = .waiting start →
    countOf Ticking.returns es j ≤ countOf Ticking.returns es m ∨
      (start ≠ 0xffffffff ∧ countOf Ticking.returns es j + (tAt es m).nticks.toNat ≤
        countOf Ticking.returns es m + 1 + start.toNat)

/-- The tick count moves with the ticks. -/
theorem nticks_next (hne : (tAt es n).nticks ≠ 0xffffffff) : (tAt es (n + 1)).nticks.toNat =
    (tAt es n).nticks.toNat + ((tAt es n).ticks (es n)).toNat := by
  have hnext : (tAt es (n + 1)).nticks =
      if (tAt es n).ticks (es n) then (tAt es n).nticks + 1 else (tAt es n).nticks := rfl
  rw [hnext]
  cases (tAt es n).ticks (es n) with
  | true =>
    rw [if_pos rfl, Bool.toNat_true]
    bv_omega
  | false => rfl

/-- A call that returns has waited, past its start. -/
theorem returns_waiting (h : (tAt es n).returns (es n) = true) :
    ∃ start, (tAt es n).main = .waiting start ∧ ¬ (tAt es n).nticks < start + 1 := by
  unfold Ticking.returns at h
  cases hmain : (tAt es n).main with
  | init => simp [hmain] at h
  | work => simp [hmain] at h
  | waiting start =>
    rw [hmain] at h
    simp only [Ticking.tooEarly, Bool.and_eq_true, Bool.not_eq_true', decide_eq_false_iff_not] at h
    exact ⟨start, rfl, h.2⟩

/-- Where a call returns, `main` has its turn, the handler is out, and `main` goes on to its work. -/
theorem return_parts (h : ReturnsAt es n) : (es n).turn = .main ∧ (tAt es n).irq = .out ∧
    (tAt es (n + 1)).main = .work := by
  obtain ⟨start, hmain, hpast⟩ := returns_waiting h
  have hruns : (tAt es n).mainRuns (es n) = true := by
    unfold ReturnsAt Ticking.returns at h
    exact (Bool.and_eq_true _ _ ▸ h : _ ∧ _).1
  obtain ⟨hturn, hout⟩ : (es n).turn = .main ∧ (tAt es n).irq = .out := by
    simpa [Ticking.mainRuns] using hruns
  refine ⟨hturn, hout, ?_⟩
  rw [tAt_succ, Ticking.step, if_pos hruns, Ticking.nextMain, hmain]
  exact if_neg (by rw [Ticking.tooEarly, decide_eq_true_eq]; exact hpast)

/-- **One cycle of the stretch.** -/
theorem Paced.next {m j : ℕ} (h : Paced es m j) (hne : (tAt es j).nticks ≠ 0xffffffff) : Paced es m (j + 1) := by
  have hticks := countOf_succ Ticking.ticks es j
  have hreturns := countOf_succ Ticking.returns es j
  have hcount := h.count
  have hreturned := h.returned
  have hnext := nticks_next hne
  refine ⟨by omega, h.mono.trans (by omega), ?_, fun start hw => ?_⟩
  · cases hret : (tAt es j).returns (es j) with
    | false =>
      rw [hret, Bool.toNat_false] at hreturns
      omega
    | true =>
      rw [hret, Bool.toNat_true] at hreturns
      obtain ⟨start, hw, hpast⟩ := returns_waiting hret
      rcases h.waiting start hw with hold | ⟨hmax, hnew⟩
      · have := h.mono
        omega
      · have hlt : start.toNat < (tAt es j).nticks.toNat := by bv_omega
        omega
  · rcases waiting_cases hw with ⟨hbefore, hret⟩ | ⟨hstart, hret⟩
    · rw [hret, Bool.toNat_false, Nat.add_zero] at hreturns
      rw [hreturns]
      exact h.waiting start hbefore
    · rw [hret, Bool.toNat_false, Nat.add_zero] at hreturns
      rw [hreturns, hstart]
      exact Or.inr ⟨hne, hreturned⟩

theorem paced {m : ℕ} (hlast : ∀ i, m ≤ i → i < n → (tAt es i).nticks ≠ 0xffffffff) :
    ∀ j, m ≤ j → j ≤ n → Paced es m j := by
  intro j hj
  induction j, hj using Nat.le_induction with
  | base => intro _; exact ⟨rfl, le_rfl, by omega, fun _ _ => Or.inl le_rfl⟩
  | succ j hj ih => intro hjn; exact (ih (by omega)).next (hlast j hj hjn)

theorem held_le (s : Ticking) : held s ≤ 2 := by
  have h₁ := Bool.toNat_le s.timer.timeoutOccurred
  have h₂ := Bool.toNat_le s.irq.serving
  unfold held
  omega

/-- **`frame_delay` paces `main`**, under every interleaving and however late the handler comes: in a stretch
of the run in which the tick count is not at its last value, the calls that return are at most the
ticks and one more, and so at most the milliseconds of the stretch and four more. -/
theorem frame_delay_paces (es : ℕ → TickEv) (a m n : ℕ) (h : Started es a) (hm : a < m) (hmn : m ≤ n)
    (hlast : ∀ i, m ≤ i → i < n → (tAt es i).nticks ≠ 0xffffffff) :
    countOf Ticking.returns es n ≤
      countOf Ticking.returns es m + 1 + (countOf Ticking.ticks es n - countOf Ticking.ticks es m) ∧
    countOf Ticking.returns es n ≤ countOf Ticking.returns es m + (n - m) / 50000 + 4 := by
  have hend := paced hlast n hmn le_rfl
  have hcount := hend.count
  have hmono := hend.mono
  have hreturned := hend.returned
  have hpace : countOf Ticking.returns es n ≤
      countOf Ticking.returns es m + 1 + (countOf Ticking.ticks es n - countOf Ticking.ticks es m) := by
    omega
  refine ⟨hpace, ?_⟩
  -- the ticks of the stretch are timeouts of it, but for those held at its start
  have hfrom := ticks_conserved es m
  have hto := ticks_conserved es n
  have hlost := countOf_mono Ticking.loses es hmn
  have hheld := held_le (tAt es m)
  rw [h.timeouts hm] at hfrom
  rw [h.timeouts (by omega)] at hto
  omega

/-- `takeTurns` serves both programs, and `main` everywhere. -/
theorem served_takeTurns : Served takeTurns 2 where
  handler j := by
    rcases Nat.mod_two_eq_zero_or_one j with h | h
    · exact ⟨j + 1, by omega, by omega, if_neg (by omega)⟩
    · exact ⟨j, le_rfl, by omega, if_neg (by omega)⟩
  main j _ := by
    rcases Nat.mod_two_eq_zero_or_one j with h | h
    · exact ⟨j, le_rfl, by omega, if_pos h⟩
    · exact ⟨j + 1, by omega, by omega, if_pos (by omega)⟩

/-- **After a call in `takeTurns` there is another one**, a tick later. -/
theorem next_call_takeTurns {c : ℕ} (hi : CallsAt takeTurns i) (hc : countOf Ticking.ticks takeTurns i = c)
    (hlast : c < 0xffffffff) : ∃ i', i < i' ∧ i' ≤ timeoutAt 0 c + 12 ∧ CallsAt takeTurns i' ∧
      countOf Ticking.ticks takeTurns i' = c + 1 ∧
      countOf Ticking.returns takeTurns i + 1 ≤ countOf Ticking.returns takeTurns i' := by
  have hstart : Started takeTurns 0 := ⟨rfl, rfl⟩
  have hne : (tAt takeTurns i).nticks ≠ 0xffffffff := nticks_ne (by rw [hc]; exact hlast)
  obtain ⟨r, hir, hr, hback, hfirst⟩ := returned_by hstart served_takeTurns (by decide) hi hne
  have hmore := counted_of_returns hi hne hir hback hfirst
  rw [hc] at hr hmore
  -- with the tick of the timeout counted nothing is left to do
  have hcons := ticks_conserved takeTurns r
  rw [hstart.timeouts (by omega)] at hcons
  unfold timeoutAt at hr ⊢
  have hheld : held (tAt takeTurns r) = 0 := by omega
  have hquiet : ∀ m, r ≤ m → m ≤ r + 1 → (tAt takeTurns m).timer.timeoutEvent = false := by
    intro m h₁ h₂
    rw [← Bool.not_eq_true, hstart.timesOut_iff]
    rintro ⟨k, hk⟩
    unfold timeoutAt at hk
    omega
  obtain ⟨hturn, hout, hwork⟩ := return_parts hback
  have heven : r % 2 = 0 := by
    by_contra hodd
    have hhandler : (takeTurns r).turn = .handler := if_neg hodd
    rw [hhandler] at hturn
    exact absurd hturn (by decide)
  have hocc : (tAt takeTurns r).timer.timeoutOccurred = false := by
    unfold held at hheld
    cases ho : (tAt takeTurns r).timer.timeoutOccurred with
    | false => rfl
    | true => rw [ho, Bool.toNat_true] at hheld; omega
  -- the handler gets the next turn, with nothing to do, and `main` the one after it
  obtain ⟨hout₁, hocc₁⟩ := out_next hout hocc (hquiet r le_rfl (by omega))
  obtain ⟨hout₂, -⟩ := out_next hout₁ hocc₁ (hquiet (r + 1) (by omega) le_rfl)
  have hwork₂ : (tAt takeTurns (r + 2)).main = .work := (main_stays (if_neg (by omega))).trans hwork
  have hmain₂ : (takeTurns (r + 2)).turn = .main := if_pos (by omega)
  refine ⟨r + 2, by omega, by omega, ?_, ?_, ?_⟩
  · simp [CallsAt, Ticking.calls, Ticking.mainRuns, hmain₂, hout₂, hwork₂]
  · have hmono := countOf_mono Ticking.ticks takeTurns (show r ≤ r + 2 by omega)
    have hle := ticks_le_timeouts hstart (show 0 < r + 2 by omega)
    omega
  · have hnext := countOf_succ Ticking.returns takeTurns r
    have hback' : (tAt takeTurns r).returns (takeTurns r) = true := hback
    rw [hback', Bool.toNat_true] at hnext
    have hbefore := countOf_mono Ticking.returns takeTurns hir.le
    have hafter := countOf_mono Ticking.returns takeTurns (show r + 1 ≤ r + 2 by omega)
    omega

/-- One call returns at each tick. -/
theorem calls_takeTurns : ∀ c, c < 0xffffffff → ∃ i, i ≤ 50000 * c + 12 ∧ CallsAt takeTurns i ∧
    countOf Ticking.ticks takeTurns i = c ∧ c ≤ countOf Ticking.returns takeTurns i := by
  intro c
  induction c with
  | zero => exact fun _ => ⟨2, by decide, rfl, rfl, Nat.zero_le _⟩
  | succ c ih =>
    intro hlast
    have hc : c < 0xffffffff := by omega
    obtain ⟨i, -, hcall, hticks, hreturns⟩ := ih hc
    obtain ⟨i', -, hi', hcall', hticks', hreturns'⟩ := next_call_takeTurns hcall hticks hc
    rw [timeoutAt, Nat.zero_add] at hi'
    exact ⟨i', hi', hcall', hticks', (Nat.succ_le_succ hreturns).trans hreturns'⟩

/-- Five milliseconds of `takeTurns`, in which calls return. -/
theorem frame_delay_paces_takeTurns : 4 ≤ countOf Ticking.returns takeTurns 250000 ∧
    countOf Ticking.returns takeTurns 250000 ≤ countOf Ticking.returns takeTurns 2 + 1 +
      (countOf Ticking.ticks takeTurns 250000 - countOf Ticking.ticks takeTurns 2) ∧
    countOf Ticking.returns takeTurns 250000 ≤ countOf Ticking.returns takeTurns 2 + 8 := by
  have hstart : Started takeTurns 0 := ⟨rfl, rfl⟩
  obtain ⟨i, hi, -, -, hreturns⟩ := calls_takeTurns 4 (by decide)
  have hmono := countOf_mono Ticking.returns takeTurns (show i ≤ 250000 by omega)
  refine ⟨hreturns.trans hmono, frame_delay_paces takeTurns 0 2 250000 hstart (by decide) (by decide) ?_⟩
  intro j h₁ h₂
  have hle := ticks_le_timeouts hstart (show 0 < j by omega)
  exact nticks_ne (by omega)

end Firmware

end BankVault
