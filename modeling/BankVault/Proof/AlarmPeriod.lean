import BankVault.Proof.Alarms

/-!
# Alarms have a period

An alarm whose callback asks for its next call the same number of ticks later each time, as the one of
`altera_avalon_jtag_uart_init` does.

* `Periodic.step`: one operation of the schedule.
* `alarm_period`: the ticks at which the code calls the callback.
-/

namespace BankVault

open Linked

namespace Firmware

variable {α κ : Type*} [DecidableEq α] {e : Entry α κ} {a : α}

def AlarmOp.isTick : AlarmOp α κ → Bool
  | .tick _ => true
  | _ => false

/-- How many of the operations are ticks. -/
def ticksOf (ops : List (AlarmOp α κ)) : ℕ := ops.countP AlarmOp.isTick

omit [DecidableEq α] in
theorem ticksOf_cons (op : AlarmOp α κ) (ops : List (AlarmOp α κ)) :
    ticksOf (op :: ops) = ticksOf [op] + ticksOf ops := by
  unfold ticksOf
  rw [← List.countP_append, List.singleton_append]

namespace Schedule

/-- The schedule after some operations. -/
def reach (q : Schedule α κ) (ops : List (AlarmOp α κ)) : Schedule α κ :=
  ops.foldl (fun q op => (q.step op).1) q

theorem run_append {xs ys : List (AlarmOp α κ)} : ∀ {q : Schedule α κ},
    q.run (xs ++ ys) = q.run xs ++ (q.reach xs).run ys := by
  induction xs with
  | nil => exact rfl
  | cons op xs ih =>
    intro q
    simp only [List.cons_append, run, ih]
    rfl

theorem proper_append {xs ys : List (AlarmOp α κ)} : ∀ {q : Schedule α κ},
    q.Proper (xs ++ ys) → (q.reach xs).Proper ys := by
  induction xs with
  | nil => exact id
  | cons op xs ih => exact fun h => ih h.2

theorem length_run {ops : List (AlarmOp α κ)} : ∀ {q : Schedule α κ}, (q.run ops).length = ops.length := by
  induction ops with
  | nil => exact rfl
  | cons op ops ih => exact congrArg (· + 1) ih

theorem ticks_step (q : Schedule α κ) (op : AlarmOp α κ) :
    (q.step op).1.ticks = q.ticks + ticksOf [op] := by
  cases op with
  | start alarm n c =>
    cases alarm with
    | none => rfl
    | some a =>
      simp only [step]
      split_ifs <;> rfl
  | _ => rfl

theorem clock_step {q : Schedule α κ} (op : AlarmOp α κ) (h : q.clock = true) :
    (q.step op).1.clock = true := by
  cases op with
  | sysclkInit r => simp [step, h]
  | stop a => exact h
  | tick answer => exact h
  | start alarm n c =>
    cases alarm with
    | none => exact h
    | some a =>
      simp only [step, if_pos h]
      exact h

/-- The clock is on once it has been given a frequency. -/
theorem clock_reach {ops : List (AlarmOp α κ)} : ∀ {q : Schedule α κ},
    (q.clock = true ∨ ∃ r, r ≠ 0 ∧ AlarmOp.sysclkInit r ∈ ops) → (q.reach ops).clock = true := by
  induction ops with
  | nil =>
    rintro q (h | ⟨r, -, hr⟩)
    · exact h
    · exact absurd hr List.not_mem_nil
  | cons op ops ih =>
    rintro q (h | ⟨r, hr, hmem⟩)
    · exact ih (Or.inl (clock_step op h))
    · rcases List.mem_cons.1 hmem with rfl | hmem
      · exact ih (Or.inl (by simp only [step, Bool.or_eq_true, bne_iff_ne]; exact Or.inr hr))
      · exact ih (Or.inr ⟨r, hr, hmem⟩)

end Schedule

/-- **The next call** of alarm `a` is the next of the ticks `first`, `first + p`, `first + 2 * p`, .. -/
structure Periodic (q : Schedule α κ) (a : α) (c : κ) (first p : ℕ) (e : Entry α κ) : Prop where
  mem : e ∈ q.entries
  only : ∀ e' ∈ q.entries, e'.alarm = a → e' = e
  alarm : e.alarm = a
  callback : e.callback = c
  multiple : ∃ k, e.due = first + k * p
  late : q.ticks < e.due
  least : ∀ k, q.ticks < first + k * p → e.due ≤ first + k * p

namespace Periodic

variable {q : Schedule α κ} {c : κ} {first p : ℕ}

omit [DecidableEq α] in
/-- The calls of the next tick. -/
theorem mem_calls (h : Periodic q a c first p e) (c' : κ) :
    (a, c') ∈ callsOf (q.ticks + 1) q.entries ↔ c' = c ∧ ∃ k, q.ticks + 1 = first + k * p := by
  unfold callsOf
  rw [List.mem_map]
  constructor
  · rintro ⟨e', he', heq⟩
    obtain ⟨hmem, hdue⟩ := List.mem_filter.1 he'
    obtain rfl := h.only e' hmem (congrArg Prod.fst heq)
    obtain ⟨k, hk⟩ := h.multiple
    exact ⟨(congrArg Prod.snd heq).symm.trans h.callback, k, (of_decide_eq_true hdue).symm.trans hk⟩
  · rintro ⟨rfl, k, hk⟩
    have hle := h.least k (by omega)
    have hlate := h.late
    refine ⟨e, List.mem_filter.2 ⟨h.mem, decide_eq_true (by omega)⟩, ?_⟩
    rw [h.alarm, h.callback]

/-- **One operation**, which does not stop the alarm, and a tick at which its callback asks for the
next call `p` ticks later. -/
theorem step (h : Periodic q a c first p e) {op : AlarmOp α κ} (hop : q.Allowed op)
    (hstop : op ≠ .stop a) (hanswer : ∀ answer, op = .tick answer → (answer a).toNat = p) (hp : p ≠ 0) :
    ∃ e', Periodic (q.step op).1 a c first p e' := by
  cases op with
  | sysclkInit r => exact ⟨e, h.mem, h.only, h.alarm, h.callback, h.multiple, h.late, h.least⟩
  | stop b =>
    have hab : a ≠ b := fun hab => hstop (hab ▸ rfl)
    refine ⟨e, ?_, fun e' he' => h.only e' (List.mem_of_mem_filter he'), h.alarm, h.callback, h.multiple,
      h.late, h.least⟩
    exact List.mem_filter.2 ⟨h.mem, decide_eq_true (by rw [h.alarm]; exact hab)⟩
  | start alarm n c' =>
    cases alarm with
    | none => exact ⟨e, h⟩
    | some b =>
      by_cases hon : q.clock = true
      · have hba : b ≠ a := fun hba => (hop hon).1 (by
          rw [hba, ← h.alarm]
          exact List.mem_map_of_mem h.mem)
        simp only [Schedule.step, if_pos hon]
        refine ⟨e, List.mem_cons_of_mem _ h.mem, fun e' he' ha => ?_, h.alarm, h.callback, h.multiple,
          h.late, h.least⟩
        rcases List.mem_cons.1 he' with rfl | he'
        · exact absurd ha hba
        · exact h.only e' he' ha
      · simp only [Schedule.step, if_neg hon]
        exact ⟨e, h⟩
  | tick answer =>
    have hans := hanswer answer rfl
    have hlate := h.late
    -- the entry after the tick, and the least multiple that it is due at
    obtain ⟨e', hrenew, halarm, hcall, hmultiple, hlate', hleast⟩ : ∃ e', e.renew (q.ticks + 1) answer = some e' ∧
        e'.alarm = a ∧ e'.callback = c ∧ (∃ k, e'.due = first + k * p) ∧ q.ticks + 1 < e'.due ∧
        ∀ k, q.ticks + 1 < first + k * p → e'.due ≤ first + k * p := by
      obtain ⟨k, hk⟩ := h.multiple
      unfold Entry.renew
      by_cases hd : e.due = q.ticks + 1
      · have hne : answer e.alarm ≠ 0 := fun h0 => hp (by rw [← hans, ← h.alarm, h0]; rfl)
        rw [if_pos hd, if_neg hne]
        refine ⟨_, rfl, h.alarm, h.callback, ⟨k + 1, ?_⟩, ?_, fun k' hk' => ?_⟩
        · dsimp only
          rw [h.alarm, hans, ← hd, hk, Nat.succ_mul, Nat.add_assoc]
        · dsimp only
          rw [h.alarm, hans]
          omega
        · have hlt : k < k' := by
            by_contra hge
            have := Nat.mul_le_mul_right p (Nat.le_of_not_lt hge)
            omega
          have hmul := Nat.mul_le_mul_right p (Nat.succ_le_of_lt hlt)
          rw [Nat.succ_mul] at hmul
          dsimp only
          rw [h.alarm, hans]
          omega
      · rw [if_neg hd]
        exact ⟨e, rfl, h.alarm, h.callback, ⟨k, hk⟩, by omega, fun k' hk' => h.least k' (by omega)⟩
    refine ⟨e', List.mem_filterMap.2 ⟨e, h.mem, hrenew⟩, fun d hd ha => ?_, halarm, hcall, hmultiple,
      hlate', hleast⟩
    obtain ⟨d', hmem, hd'⟩ := List.mem_filterMap.1 hd
    have hsame : d.alarm = d'.alarm := renew_alarm hd'
    obtain rfl := h.only d' hmem (hsame.symm.trans ha)
    exact Option.some.inj (hd'.symm.trans hrenew)

/-- **A run** from any point of it. -/
theorem run : ∀ {ops : List (AlarmOp α κ)} {q : Schedule α κ} {e : Entry α κ},
    Periodic q a c first p e → q.Proper ops → AlarmOp.stop a ∉ ops →
    (∀ answer, AlarmOp.tick answer ∈ ops → (answer a).toNat = p) → p ≠ 0 →
    ∀ j answer, ops[j]? = some (AlarmOp.tick answer) → ∃ calls, (q.run ops)[j]? = some calls ∧
      ∀ c', (a, c') ∈ calls ↔ c' = c ∧ ∃ k, q.ticks + ticksOf (ops.take (j + 1)) = first + k * p := by
  intro ops
  induction ops with
  | nil => exact fun _ _ _ _ _ j answer hj => absurd hj (by simp)
  | cons op ops ih =>
    intro q e h hproper hstop hanswer hp j answer hj
    cases j with
    | zero =>
      obtain rfl : op = .tick answer := by simpa using hj
      exact ⟨_, rfl, h.mem_calls⟩
    | succ j =>
      obtain ⟨e', h'⟩ := h.step hproper.1 (fun heq => hstop (heq ▸ List.mem_cons_self))
        (fun answer heq => hanswer answer (heq ▸ List.mem_cons_self)) hp
      obtain ⟨calls, hcalls, hmem⟩ := ih h' hproper.2 (fun hs => hstop (List.mem_cons_of_mem op hs))
        (fun answer ha => hanswer answer (List.mem_cons_of_mem op ha)) hp j answer (by simpa using hj)
      refine ⟨calls, hcalls, fun c' => ?_⟩
      rw [hmem, Schedule.ticks_step, List.take_succ_cons, Nat.add_assoc, ← ticksOf_cons]

end Periodic

/-- A new alarm. -/
theorem periodic_start {q : Schedule α κ} (hon : q.clock = true) (a : α) (n : BitVec 32) (c : κ) {p : ℕ}
    (hnew : a ∉ q.entries.map Entry.alarm) :
    Periodic (q.step (.start (some a) n c)).1 a c (q.ticks + (n.toNat + 1)) p
      ⟨a, q.ticks + n.toNat + 1, c⟩ := by
  simp only [Schedule.step, if_pos hon]
  refine ⟨List.mem_cons_self, fun e' he' ha => ?_, rfl, rfl, ⟨0, ?_⟩, ?_, fun k _ => ?_⟩
  · rcases List.mem_cons.1 he' with rfl | he'
    · rfl
    · exact absurd (ha ▸ List.mem_map_of_mem he') hnew
  · dsimp only
    omega
  · dsimp only
    omega
  · dsimp only
    rw [Nat.add_assoc]
    exact Nat.le_add_right _ _

/-- **Alarms have a period.** An alarm that is started with interval `n`, is not stopped, and whose callback
answers `p` at each tick, is called at tick `n + 1` after its start, at every `p`-th tick from then on, and
at no other, whichever other alarms are started and stopped between the ticks and whatever their callbacks
return; as everywhere here, no callback starts or stops an alarm. -/
theorem alarm_period (links : Links (Option α)) (time : α → BitVec 32) (callback : α → κ)
    (rollover : α → Bool) (before after : List (AlarmOp α κ)) (a : α) (n p : BitVec 32) (c : κ)
    (hproper : (Schedule.init : Schedule α κ).Proper (before ++ .start (some a) n c :: after))
    (hclock : ∃ r, r ≠ 0 ∧ AlarmOp.sysclkInit r ∈ before) (hstop : AlarmOp.stop a ∉ after)
    (hanswer : ∀ answer, AlarmOp.tick answer ∈ after → answer a = p) (hp : p ≠ 0) :
    ∃ s calls, (Alarms.boot links time callback rollover).run (before ++ .start (some a) n c :: after).length
        (before ++ .start (some a) n c :: after) = some (s, calls) ∧
      ∀ j answer, after[j]? = some (.tick answer) →
        ∃ called, calls[before.length + 1 + j]? = some called ∧
          ∀ c', (a, c') ∈ called ↔
            c' = c ∧ ∃ k, ticksOf (after.take (j + 1)) = n.toNat + 1 + k * p.toNat := by
  obtain ⟨s, hrun⟩ := (boot_follows links time callback rollover).run hproper (Nat.zero_add _).le
  refine ⟨s, _, hrun, fun j answer hj => ?_⟩
  have hon := Schedule.clock_reach (q := (Schedule.init : Schedule α κ)) (Or.inr hclock)
  have hrest := Schedule.proper_append hproper
  have hpos : p.toNat ≠ 0 := fun h0 => hp (BitVec.eq_of_toNat_eq h0)
  obtain ⟨called, hcalled, hmem⟩ := (periodic_start hon a n c (hrest.1 hon).1).run hrest.2 hstop
    (fun answer ha => congrArg BitVec.toNat (hanswer answer ha)) hpos j answer hj
  refine ⟨called, ?_, fun c' => ?_⟩
  · rw [Schedule.run_append, List.getElem?_append_right (by rw [Schedule.length_run]; omega),
      Schedule.length_run, show before.length + 1 + j - before.length = j + 1 by omega]
    exact hcalled
  · rw [hmem, Schedule.ticks_step]
    have hzero : ticksOf [(AlarmOp.start (some a) n c : AlarmOp α κ)] = 0 := rfl
    rw [hzero]
    constructor
    · rintro ⟨hc, k, hk⟩
      exact ⟨hc, k, by omega⟩
    · rintro ⟨hc, k, hk⟩
      exact ⟨hc, k, by omega⟩

/-- Another alarm, called at every second tick, is started and stopped between the ticks. -/
def withAnother : List (AlarmOp Bool ℕ) :=
  let tick : AlarmOp Bool ℕ := .tick fun b => if b then 3 else 2
  [tick, .start (some false) 0 9, tick, tick, tick, .stop false, tick, tick, tick]

/-- An alarm with interval 1 that asks for every third tick: called at the ticks 2 and 5 of seven. -/
theorem alarm_period_each : ∃ s calls,
    (Alarms.boot ⟨id, id⟩ (fun _ => 5) (fun _ => 0) fun _ => true).run 11
        ([.sysclkInit 1000] ++ .start (some true) 1 7 :: withAnother) = some (s, calls) ∧
    ∀ j answer, withAnother[j]? = some (.tick answer) →
      ∃ called, calls[2 + j]? = some called ∧ ∀ c', (true, c') ∈ called ↔ c' = 7 ∧
        ∃ k, ticksOf (withAnother.take (j + 1)) = 2 + k * 3 := by
  refine alarm_period ⟨id, id⟩ (fun _ => 5) (fun _ => 0) (fun _ => true) [.sysclkInit 1000]
    withAnother true 1 3 7 ?_ ⟨1000, by decide, List.mem_cons_self⟩ ?_ ?_ (by decide)
  · exact ⟨trivial, fun _ => ⟨by decide, by decide⟩, trivial, fun _ => ⟨by decide, by decide⟩, trivial,
      trivial, trivial, List.mem_cons_self, trivial, trivial, trivial, trivial⟩
  · intro hs
    simp [withAnother] at hs
  · intro answer ha
    obtain rfl : answer = fun b => if b then 3 else 2 := by simpa [withAnother] using ha
    rfl

end Firmware

end BankVault
