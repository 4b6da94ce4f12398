import BankVault.Firmware.Alarms
import Mathlib.Algebra.Ring.Nat

/-!
# Alarms are on time

`Schedule` says what the alarms are for: it counts the ticks without bound and keeps, for each registered
alarm, the tick it is due at. The code keeps both modulo 2^32, with a flag for the alarms that are due
after the next roll-over, in a circular list that changes while `alt_tick` goes through it.

* `Walked.visit`: one pass of the loop of `alt_tick`.
* `alarms_on_time`: every run of the code calls what the schedule calls.
-/

namespace BankVault

open Linked

namespace Firmware

variable {α κ : Type*}

/-! ### The schedule -/

/-- A registered alarm. -/
structure Entry (α κ : Type*) where
  alarm : α
  due : ℕ
  callback : κ
  deriving DecidableEq

/-- The ticks so far, whether there is a system clock, the registered alarms, the latest first, and
the alarms that have ever been started. -/
structure Schedule (α κ : Type*) where
  ticks : ℕ
  clock : Bool
  entries : List (Entry α κ)
  started : List α

/-- An alarm at tick `t`: the next call, if its callback has been called and has asked for one. -/
def Entry.renew (t : ℕ) (answer : α → BitVec 32) (e : Entry α κ) : Option (Entry α κ) :=
  if e.due = t then
    if answer e.alarm = 0 then none else some { e with due := t + (answer e.alarm).toNat }
  else some e

/-- The calls of tick `t`. -/
def callsOf (t : ℕ) (es : List (Entry α κ)) : List (α × κ) :=
  (es.filter fun e => e.due = t).map fun e => (e.alarm, e.callback)

namespace Schedule

/-- No clock, no alarms. -/
def init : Schedule α κ := ⟨0, false, [], []⟩

variable [DecidableEq α]

/-- What is to happen, and the callbacks to be called. -/
def step (q : Schedule α κ) : AlarmOp α κ → Schedule α κ × List (α × κ)
  | .sysclkInit nticks => ({ q with clock := q.clock || nticks != 0 }, [])
  | .start (some a) nticks callback =>
    if q.clock then
      ({ q with
          entries := ⟨a, q.ticks + nticks.toNat + 1, callback⟩ :: q.entries
          started := a :: q.started }, [])
    else (q, [])
  | .start none _ _ => (q, [])
  | .stop a => ({ q with entries := q.entries.filter fun e => e.alarm ≠ a }, [])
  | .tick answer =>
    ({ q with
        ticks := q.ticks + 1
        entries := q.entries.filterMap (Entry.renew (q.ticks + 1) answer) },
      callsOf (q.ticks + 1) q.entries)

/-- The callbacks to be called, operation by operation. -/
def run (q : Schedule α κ) : List (AlarmOp α κ) → List (List (α × κ))
  | [] => []
  | op :: ops => (q.step op).2 :: run (q.step op).1 ops

/-- An alarm may be started if it is not registered, with any interval but the longest, and stopped once
it has been started. -/
def Allowed (q : Schedule α κ) : AlarmOp α κ → Prop
  | .start (some a) nticks _ =>
    q.clock = true → a ∉ q.entries.map Entry.alarm ∧ nticks ≠ BitVec.allOnes 32
  | .stop a => a ∈ q.started
  | _ => True

/-- Each operation is allowed. -/
def Proper (q : Schedule α κ) : List (AlarmOp α κ) → Prop
  | [] => True
  | op :: ops => q.Allowed op ∧ Proper (q.step op).1 ops

end Schedule

/-! ### The list -/

section AltLlist

variable {ν : Type*} [DecidableEq ν] {l : Links ν} {h e x : ν} {xs ys zs : List ν}

/-- **A new first node.** -/
theorem rings_insert (hr : Rings l h xs) (he : e ∉ h :: xs) :
    Rings (altLlistInsert l h e) h (e :: xs) := by
  have hhe : h ≠ e := fun hhe => he (hhe ▸ List.mem_cons_self)
  have hfirst : l.next h ≠ e := fun hn => he (hn ▸ hr.next_head_mem)
  refine hr.link he ⟨?_, ?_⟩ ⟨?_, ?_⟩ ?_ ?_
  · simp [altLlistInsert]
  · simp [altLlistInsert, hhe.symm]
  · simp [altLlistInsert, hhe, hfirst.symm]
  · simp [altLlistInsert, hhe]
  · intro a hah hae
    simp [altLlistInsert, hah, hae]
  · intro b hbe hbn
    simp [altLlistInsert, hhe, hbe, hbn]

/-- **A node less.** -/
theorem rings_remove (hr : Rings l h (ys ++ e :: zs)) : Rings (altLlistRemove l e) h (ys ++ zs) := by
  obtain ⟨hn, hp⟩ := hr.links_ne
  refine hr.unlink ?_ ?_ ?_ ?_
  · simp [altLlistRemove, hp, hn.symm]
  · simp [altLlistRemove, hn]
  · intro a hae hap
    simp [altLlistRemove, hn.symm, hae, hap]
  · intro b hbe hbn
    simp [altLlistRemove, hbe, hbn]

/-- A node that has been removed is alone. -/
theorem alone_remove : Alone (altLlistRemove l e) e := by
  constructor <;> simp [altLlistRemove]

/-- Removing it again is harmless. -/
theorem remove_alone (ha : Alone l e) : altLlistRemove l e = l := by
  obtain ⟨next, previous⟩ := l
  have hn : next e = e := ha.next
  have hp : previous e = e := ha.previous
  simp [altLlistRemove, Links.setNext, Links.setPrevious, hn, hp]

/-- A node that is alone stays so when another is inserted. -/
theorem alone_insert (ha : Alone l x) (hr : Rings l h xs) (he : e ∉ h :: xs) (hx : x ∉ h :: xs)
    (hxe : x ≠ e) : Alone (altLlistInsert l h e) x := by
  have hhe : h ≠ e := fun hhe => he (hhe ▸ List.mem_cons_self)
  have hxh : x ≠ h := fun hxh => hx (hxh ▸ List.mem_cons_self)
  have hfirst : x ≠ l.next h := fun hn => hx (hn ▸ hr.next_head_mem)
  constructor
  · simp [altLlistInsert, hxe, hxh, ha.next]
  · simp [altLlistInsert, hxe, hfirst, hhe, ha.previous]

/-- Or removed. -/
theorem alone_remove_other (ha : Alone l x) (hr : Rings l h (ys ++ e :: zs))
    (hx : x ∉ h :: (ys ++ e :: zs)) : Alone (altLlistRemove l e) x := by
  obtain ⟨hnext, hprev⟩ := hr.links_mem
  have hxe : x ≠ e := fun hxe => hx (by simp [hxe])
  have hn : x ≠ l.next e := fun hn => hx (by
    rw [← hn] at hnext
    simp only [List.mem_cons, List.mem_append] at hnext ⊢
    tauto)
  have hp : x ≠ l.previous e := fun hp => hx (by
    rw [← hp] at hprev
    simp only [List.mem_cons, List.mem_append] at hprev ⊢
    tauto)
  constructor
  · simp [altLlistRemove, hxe, hp, hr.links_ne.1.symm, ha.next]
  · simp [altLlistRemove, hxe, hn, ha.previous]

end AltLlist

/-! ### One alarm -/

variable [DecidableEq α] {s s' : Alarms α κ} {t : ℕ} {e e' : Entry α κ} {a : α}
  {answer : α → BitVec 32}

/-- **An alarm as memory holds it** after `t` ticks: the tick it is due at modulo 2^32, with the flag if
the count rolls over before. -/
structure Stored (s : Alarms α κ) (t : ℕ) (e : Entry α κ) : Prop where
  callback : s.callback e.alarm = e.callback
  time : (s.time e.alarm).toNat = e.due % 2 ^ 32
  late : t < e.due
  soon : e.due < t + 2 ^ 32
  rollover : s.rollover e.alarm = decide (e.due / 2 ^ 32 ≠ t / 2 ^ 32)

/-- Nothing but alarm `a` and the list changes. -/
structure Apart (a : α) (s s' : Alarms α κ) : Prop where
  callback : ∀ b, b ≠ a → s'.callback b = s.callback b
  time : ∀ b, b ≠ a → s'.time b = s.time b
  rollover : ∀ b, b ≠ a → s'.rollover b = s.rollover b
  nticks : s'.nticks = s.nticks
  tickRate : s'.tickRate = s.tickRate

omit [DecidableEq α] in
theorem Stored.frame (he : Stored s t e) (ha : Apart a s s') (hne : e.alarm ≠ a) : Stored s' t e where
  callback := (ha.callback _ hne).trans he.callback
  time := by rw [ha.time _ hne, he.time]
  late := he.late
  soon := he.soon
  rollover := (ha.rollover _ hne).trans he.rollover

omit [DecidableEq α] in
/-- The list, the count and the clock do not matter. -/
theorem Stored.congr (he : Stored s t e) (hcallback : s'.callback = s.callback) (htime : s'.time = s.time)
    (hrollover : s'.rollover = s.rollover) : Stored s' t e where
  callback := by rw [hcallback, he.callback]
  time := by rw [htime, he.time]
  late := he.late
  soon := he.soon
  rollover := by rw [hrollover, he.rollover]

theorem clearRollover_apart (s : Alarms α κ) (a : α) : Apart a s (s.clearRollover a) := by
  unfold Alarms.clearRollover
  split_ifs
  · exact ⟨fun _ _ => rfl, fun _ _ => rfl, fun _ hb => Function.update_of_ne hb _ _, rfl, rfl⟩
  · exact ⟨fun _ _ => rfl, fun _ _ => rfl, fun _ _ => rfl, rfl, rfl⟩

theorem rearm_apart (s : Alarms α κ) (a : α) (nextCallback : BitVec 32) :
    Apart a s (s.rearm a nextCallback) := by
  unfold Alarms.rearm Alarms.altAlarmStop
  split_ifs
  · exact ⟨fun _ _ => rfl, fun _ _ => rfl, fun _ _ => rfl, rfl, rfl⟩
  · refine ⟨fun _ _ => rfl, fun _ hb => Function.update_of_ne hb _ _, fun b hb => ?_, rfl, rfl⟩
    dsimp only
    split_ifs
    · exact Function.update_of_ne hb _ _
    · rfl

omit [DecidableEq α] in
theorem Apart.trans {s'' : Alarms α κ} (h : Apart a s s') (h' : Apart a s' s'') : Apart a s s'' where
  callback b hb := (h'.callback b hb).trans (h.callback b hb)
  time b hb := (h'.time b hb).trans (h.time b hb)
  rollover b hb := (h'.rollover b hb).trans (h.rollover b hb)
  nticks := h'.nticks.trans h.nticks
  tickRate := h'.tickRate.trans h.tickRate

theorem visit_apart (s : Alarms α κ) (answer : α → BitVec 32) (a : α) :
    Apart a s (s.visit answer a).1 := by
  unfold Alarms.visit
  dsimp only
  split_ifs
  · exact (clearRollover_apart s a).trans (rearm_apart _ a _)
  · exact clearRollover_apart s a

/-- The flag once the count has gone on to `t + 1`. -/
theorem clearRollover_eq (hn : s.nticks.toNat = (t + 1) % 2 ^ 32) (he : Stored s t e) :
    (s.clearRollover e.alarm).rollover e.alarm = decide (e.due / 2 ^ 32 ≠ (t + 1) / 2 ^ 32) := by
  have hroll := he.rollover
  have hlate := he.late
  have hsoon := he.soon
  have hzero : (s.nticks == 0) = decide ((t + 1) % 2 ^ 32 = 0) := by
    rw [← hn]
    apply Bool.eq_iff_iff.2
    simp [BitVec.toNat_eq]
  unfold Alarms.clearRollover
  rw [hroll, hzero]
  split_ifs with hc
  · simp only [ne_eq, decide_not, Bool.and_eq_true, Bool.not_eq_eq_eq_not, Bool.not_true,
      decide_eq_false_iff_not, decide_eq_true_eq] at hc
    simp only [Function.update_self]
    symm
    rw [decide_eq_false_iff_not]
    omega
  · rw [hroll]
    simp only [ne_eq, decide_not, Bool.and_eq_true, Bool.not_eq_eq_eq_not, Bool.not_true,
      decide_eq_false_iff_not, decide_eq_true_eq] at hc
    apply decide_eq_decide.2
    omega

/-- **The period has expired exactly when the alarm is due**, whatever has rolled over. -/
theorem expired_iff (hn : s.nticks.toNat = (t + 1) % 2 ^ 32) (he : Stored s t e) :
    (s.clearRollover e.alarm).expired e.alarm = true ↔ e.due = t + 1 := by
  have hlate := he.late
  unfold Alarms.expired
  rw [clearRollover_eq hn he, Bool.and_eq_true, decide_eq_true_eq, BitVec.le_def,
    Alarms.clearRollover_time, Alarms.clearRollover_nticks, he.time, hn]
  simp only [ne_eq, decide_not, Bool.not_not, decide_eq_true_eq]
  omega

theorem visit_due (hn : s.nticks.toNat = (t + 1) % 2 ^ 32) (he : Stored s t e) (hd : e.due = t + 1) :
    s.visit answer e.alarm =
      ((s.clearRollover e.alarm).rearm e.alarm (answer e.alarm), [(e.alarm, e.callback)]) := by
  simp only [Alarms.visit, (expired_iff hn he).2 hd, if_true, Alarms.clearRollover_callback, he.callback]

theorem visit_not_due (hn : s.nticks.toNat = (t + 1) % 2 ^ 32) (he : Stored s t e)
    (hd : e.due ≠ t + 1) : s.visit answer e.alarm = (s.clearRollover e.alarm, []) :=
  if_neg fun hx => hd ((expired_iff hn he).1 hx)

theorem clearRollover_stored (hn : s.nticks.toNat = (t + 1) % 2 ^ 32) (he : Stored s t e)
    (hd : e.due ≠ t + 1) : Stored (s.clearRollover e.alarm) (t + 1) e where
  callback := by rw [Alarms.clearRollover_callback, he.callback]
  time := by rw [Alarms.clearRollover_time, he.time]
  late := by have := he.late; omega
  soon := by have := he.soon; omega
  rollover := clearRollover_eq hn he

theorem rearm_links {c : BitVec 32} (hc : c ≠ 0) : (s.rearm a c).links = s.links := by
  simp only [Alarms.rearm, if_neg hc]

/-- **The next call** is due as many ticks later as the callback has said. -/
theorem rearm_stored {c : BitVec 32} (hn : s.nticks.toNat = t % 2 ^ 32) (hcall : s.callback a = e.callback)
    (htime : (s.time a).toNat = t % 2 ^ 32) (hroll : s.rollover a = false) (hc : c ≠ 0)
    (ha : e.alarm = a) : Stored (s.rearm a c) t { e with due := t + c.toNat } := by
  have hpos : 0 < c.toNat := Nat.pos_of_ne_zero fun h0 => hc (BitVec.eq_of_toNat_eq h0)
  have hlt := c.isLt
  have hnew : (s.time a + c).toNat = (t + c.toNat) % 2 ^ 32 := by
    rw [BitVec.toNat_add, htime, Nat.mod_add_mod]
  subst ha
  simp only [Alarms.rearm, if_neg hc]
  refine ⟨hcall, ?_, ?_, ?_, ?_⟩
  · simp only [Function.update_self, hnew]
  · dsimp only
    omega
  · dsimp only
    omega
  · by_cases hwrap : s.time e.alarm + c < s.nticks
    · simp only [if_pos hwrap, Function.update_self]
      rw [BitVec.lt_def, hnew, hn] at hwrap
      symm
      rw [decide_eq_true_eq]
      omega
    · simp only [if_neg hwrap, hroll]
      rw [BitVec.lt_def, hnew, hn] at hwrap
      symm
      rw [decide_eq_false_iff_not]
      omega

/-- **One alarm in `alt_tick`.** -/
theorem visit_stored (answer : α → BitVec 32) (hn : s.nticks.toNat = (t + 1) % 2 ^ 32)
    (he : Stored s t e) :
    (∀ e' ∈ e.renew (t + 1) answer, e'.alarm = e.alarm ∧ Stored (s.visit answer e.alarm).1 (t + 1) e' ∧
      (s.visit answer e.alarm).1.links = s.links) ∧
    (e.renew (t + 1) answer = none →
      (s.visit answer e.alarm).1.links = altLlistRemove s.links (some e.alarm)) ∧
    (s.visit answer e.alarm).2 = callsOf (t + 1) [e] := by
  unfold Entry.renew callsOf
  by_cases hd : e.due = t + 1
  · rw [visit_due hn he hd]
    by_cases hc : answer e.alarm = 0
    · simp [hd, hc, Alarms.rearm, Alarms.altAlarmStop]
    · refine ⟨?_, ?_, ?_⟩
      · intro e' he'
        rw [if_pos hd, if_neg hc, Option.mem_some_iff] at he'
        subst he'
        refine ⟨rfl, ?_, ?_⟩
        · refine rearm_stored ?_ ?_ ?_ ?_ hc rfl
          · rw [Alarms.clearRollover_nticks, hn]
          · rw [Alarms.clearRollover_callback, he.callback]
          · rw [Alarms.clearRollover_time, he.time, hd]
          · rw [clearRollover_eq hn he, hd]
            exact decide_eq_false fun hne => hne rfl
        · rw [rearm_links hc, Alarms.clearRollover_links]
      · intro hnone
        rw [if_pos hd, if_neg hc] at hnone
        exact absurd hnone (Option.some_ne_none _)
      · simp [hd]
  · rw [visit_not_due hn he hd]
    simp [hd, clearRollover_stored hn he hd]

/-! ### The loop -/

/-- The nodes of the registered alarms. -/
def nodes (es : List (Entry α κ)) : List (Option α) := es.map fun e => some e.alarm

section

variable {ys zs : List (Entry α κ)}

omit [DecidableEq α]

@[simp] theorem nodes_nil : nodes ([] : List (Entry α κ)) = [] := rfl

@[simp] theorem nodes_cons : nodes (e :: zs) = some e.alarm :: nodes zs := rfl

@[simp] theorem nodes_append : nodes (ys ++ zs) = nodes ys ++ nodes zs := List.map_append

theorem renew_alarm (h : e.renew t answer = some e') : e'.alarm = e.alarm := by
  unfold Entry.renew at h
  split_ifs at h
  · exact Option.some.inj h ▸ rfl
  · exact Option.some.inj h ▸ rfl

theorem callsOf_cons : callsOf t (e :: zs) = callsOf t [e] ++ callsOf t zs := by
  unfold callsOf
  rw [← List.map_append, ← List.filter_append, List.singleton_append]

theorem mem_nodes : some a ∈ nodes zs ↔ ∃ e ∈ zs, e.alarm = a := by
  unfold nodes
  rw [List.mem_map]
  simp only [Option.some.injEq]

end

/-- Without a node of the list, each alarm that has been started is in the list or alone. -/
theorem alone_remove_all {started : List α} {l : Links (Option α)} {ns₁ ns₂ : List (Option α)}
    (hr : Rings l none (ns₁ ++ some a :: ns₂))
    (ha : ∀ b ∈ started, some b ∉ ns₁ ++ some a :: ns₂ → Alone l (some b)) :
    ∀ b ∈ started, some b ∉ ns₁ ++ ns₂ → Alone (altLlistRemove l (some a)) (some b) := by
  intro b hb hout
  rw [List.mem_append, not_or] at hout
  by_cases hba : b = a
  · exact hba ▸ alone_remove
  · have hmid : some b ∉ ns₁ ++ some a :: ns₂ := by simp [hout, hba]
    exact alone_remove_other (ha b hb hmid) hr (by simp [hout, hba])

/-- **The loop of `alt_tick`** in tick `t + 1`: the alarms `ys` are done, the alarms `zs` are left. -/
structure Walked (started : List α) (t : ℕ) (s : Alarms α κ) (ys zs : List (Entry α κ)) : Prop where
  ring : Rings s.links none (nodes (ys ++ zs))
  alone : ∀ a ∈ started, some a ∉ nodes (ys ++ zs) → Alone s.links (some a)
  done : ∀ e ∈ ys, Stored s (t + 1) e
  left : ∀ e ∈ zs, Stored s t e
  nticks : s.nticks.toNat = (t + 1) % 2 ^ 32

namespace Walked

variable {started : List α} {ys zs : List (Entry α κ)}

omit [DecidableEq α] in
/-- No other registered alarm is at the same address. -/
theorem ne_of_mem (h : Walked started t s ys (e :: zs)) (he : e' ∈ ys ++ zs) : e'.alarm ≠ e.alarm := by
  have hnd := (List.nodup_cons.1 h.ring.nodup).2
  rw [nodes_append, nodes_cons] at hnd
  intro heq
  refine (List.nodup_cons.1 (List.nodup_middle.1 hnd)).1 ?_
  rw [← nodes_append]
  exact mem_nodes.2 ⟨e', he, heq⟩

/-- **One pass of the loop.** -/
theorem visit (h : Walked started t s ys (e :: zs)) (answer : α → BitVec 32) :
    Walked started t (s.visit answer e.alarm).1 (ys ++ (e.renew (t + 1) answer).toList) zs := by
  have hap := visit_apart s answer e.alarm
  obtain ⟨hkept, hgone, -⟩ := visit_stored answer h.nticks (h.left e List.mem_cons_self)
  have hring := h.ring
  have halone := h.alone
  rw [nodes_append, nodes_cons] at hring halone
  refine ⟨?_, ?_, ?_, ?_, ?_⟩
  · rw [nodes_append, nodes_append]
    cases hr : e.renew (t + 1) answer with
    | none =>
      rw [hgone hr, Option.toList_none, nodes_nil, List.append_nil]
      exact rings_remove hring
    | some e' =>
      obtain ⟨ha, -, hl⟩ := hkept e' hr
      rw [hl, Option.toList_some, nodes_cons, ha, nodes_nil, List.append_assoc]
      exact hring
  · intro a ha hout
    rw [nodes_append, nodes_append] at hout
    cases hr : e.renew (t + 1) answer with
    | none =>
      rw [hr, Option.toList_none, nodes_nil, List.append_nil] at hout
      rw [hgone hr]
      exact alone_remove_all hring halone a ha hout
    | some e' =>
      obtain ⟨hsame, -, hl⟩ := hkept e' hr
      rw [hr, Option.toList_some, nodes_cons, hsame, nodes_nil, List.append_assoc] at hout
      rw [hl]
      exact halone a ha hout
  · intro e' he'
    rcases List.mem_append.1 he' with hy | hr
    · exact (h.done e' hy).frame hap (h.ne_of_mem (List.mem_append_left zs hy))
    · exact (hkept e' (by simpa using hr)).2.1
  · intro e' he'
    exact (h.left e' (List.mem_cons_of_mem e he')).frame hap (h.ne_of_mem (List.mem_append_right ys he'))
  · rw [hap.nticks, h.nticks]

/-- **The whole loop.** -/
theorem loop (answer : α → BitVec 32) : ∀ {zs ys : List (Entry α κ)} {s : Alarms α κ} {fuel : ℕ},
    Walked started t s ys zs → zs.length ≤ fuel →
    ∃ s', Alarms.loop answer fuel s ((nodes zs ++ [none]).head (by simp)) =
        some (s', callsOf (t + 1) zs) ∧
      Walked started t s' (ys ++ zs.filterMap (Entry.renew (t + 1) answer)) [] ∧
      s'.tickRate = s.tickRate := by
  intro zs
  induction zs with
  | nil =>
    intro ys s fuel h _
    refine ⟨s, ?_, ?_, rfl⟩
    · cases fuel <;> rfl
    · simpa using h
  | cons e zs ih =>
    intro ys s fuel h hfuel
    obtain ⟨fuel, rfl⟩ : ∃ f, fuel = f + 1 := ⟨fuel - 1, by simp only [List.length_cons] at hfuel; omega⟩
    obtain ⟨s', hloop, hwalk, hrate⟩ := ih (h.visit answer) (Nat.le_of_succ_le_succ hfuel)
    have hring := h.ring
    rw [nodes_append, nodes_cons] at hring
    refine ⟨s', ?_, ?_, hrate.trans (visit_apart s answer e.alarm).tickRate⟩
    · simp only [nodes_cons, List.cons_append, List.head_cons, Alarms.loop]
      rw [hring.next_eq, hloop, Option.map_some,
        (visit_stored answer h.nticks (h.left e List.mem_cons_self)).2.2, ← callsOf_cons]
    · rw [List.filterMap_cons]
      cases hr : e.renew (t + 1) answer with
      | none => simpa [hr] using hwalk
      | some e' => simpa [hr] using hwalk

end Walked

/-! ### A run -/

omit [DecidableEq α] in
/-- A registered alarm is at one place of the list. -/
theorem exists_registered {l : Links (Option α)} {es : List (Entry α κ)} (hr : Rings l none (nodes es))
    (ha : some a ∈ nodes es) : ∃ ys e zs, es = ys ++ e :: zs ∧ e.alarm = a ∧
      (∀ y ∈ ys, y.alarm ≠ a) ∧ ∀ z ∈ zs, z.alarm ≠ a := by
  obtain ⟨e, he, rfl⟩ := mem_nodes.1 ha
  obtain ⟨ys, zs, rfl⟩ := List.append_of_mem he
  have hnd := (List.nodup_cons.1 hr.nodup).2
  rw [nodes_append, nodes_cons] at hnd
  have hne := (List.nodup_cons.1 (List.nodup_middle.1 hnd)).1
  rw [List.mem_append, not_or] at hne
  exact ⟨ys, e, zs, rfl, rfl, fun y hy hya => hne.1 (mem_nodes.2 ⟨y, hy, hya⟩),
    fun z hz hza => hne.2 (mem_nodes.2 ⟨z, hz, hza⟩)⟩

/-- **The memory holds the schedule.** -/
structure Follows (s : Alarms α κ) (q : Schedule α κ) : Prop where
  ring : Rings s.links none (nodes q.entries)
  alone : ∀ a ∈ q.started, some a ∉ nodes q.entries → Alone s.links (some a)
  stored : ∀ e ∈ q.entries, Stored s q.ticks e
  nticks : s.nticks.toNat = q.ticks % 2 ^ 32
  clock : q.clock = decide (s.tickRate ≠ 0)

namespace Follows

variable {q : Schedule α κ} {fuel : ℕ}

omit [DecidableEq α] in
/-- `alt_sysclk_init`. -/
theorem sysclkInit (h : Follows s q) (r : BitVec 32) :
    Follows (s.altSysclkInit r) { q with clock := q.clock || r != 0 } := by
  unfold Alarms.altSysclkInit
  split_ifs with hz
  · refine ⟨h.ring, h.alone, fun e he => (h.stored e he).congr rfl rfl rfl, h.nticks, ?_⟩
    rw [h.clock]
    apply Bool.eq_iff_iff.2
    simp [hz]
  · refine ⟨h.ring, h.alone, h.stored, h.nticks, ?_⟩
    rw [h.clock, decide_eq_true hz, Bool.true_or]

/-- The alarm that `alt_alarm_start` writes. -/
theorem start_stored (h : Follows s q) {n : BitVec 32} {c : κ} (hrate : s.tickRate ≠ 0)
    (hn : n ≠ BitVec.allOnes 32) :
    Stored (s.altAlarmStart (some a) n c).1 q.ticks ⟨a, q.ticks + n.toNat + 1, c⟩ := by
  have hlong : n.toNat + 1 < 2 ^ 32 := by
    have hne : n.toNat ≠ 2 ^ 32 - 1 := fun heq => hn (BitVec.eq_of_toNat_eq (by
      rw [heq, BitVec.toNat_allOnes]))
    have := n.isLt
    omega
  have htime : (n + s.nticks + 1).toNat = (q.ticks + n.toNat + 1) % 2 ^ 32 := by
    rw [BitVec.toNat_add, BitVec.toNat_add, h.nticks]
    simp only [BitVec.ofNat_eq_ofNat, BitVec.toNat_ofNat]
    omega
  simp only [Alarms.altAlarmStart, if_pos hrate]
  refine ⟨?_, ?_, ?_, ?_, ?_⟩
  · exact Function.update_self a c s.callback
  · simp only [Function.update_self, htime]
  · dsimp only
    omega
  · dsimp only
    omega
  · simp only [Function.update_self]
    apply decide_eq_decide.2
    rw [BitVec.lt_def, htime, h.nticks]
    omega

theorem start_apart (s : Alarms α κ) (hrate : s.tickRate ≠ 0) (n : BitVec 32) (c : κ) :
    Apart a s (s.altAlarmStart (some a) n c).1 := by
  simp only [Alarms.altAlarmStart, if_pos hrate]
  exact ⟨fun _ hb => Function.update_of_ne hb _ _, fun _ hb => Function.update_of_ne hb _ _,
    fun _ hb => Function.update_of_ne hb _ _, rfl, rfl⟩

/-- `alt_alarm_start`. -/
theorem start (h : Follows s q) {n : BitVec 32} {c : κ} (hclock : q.clock = true)
    (hout : a ∉ q.entries.map Entry.alarm) (hn : n ≠ BitVec.allOnes 32) :
    Follows (s.altAlarmStart (some a) n c).1
      { q with entries := ⟨a, q.ticks + n.toNat + 1, c⟩ :: q.entries, started := a :: q.started } := by
  have hrate : s.tickRate ≠ 0 := by
    rw [h.clock] at hclock
    exact of_decide_eq_true hclock
  have hnew : some a ∉ none :: nodes q.entries := by
    rw [List.mem_cons, not_or]
    refine ⟨Option.some_ne_none a, fun hmem => hout ?_⟩
    obtain ⟨e, he, rfl⟩ := mem_nodes.1 hmem
    exact List.mem_map_of_mem he
  have hap := start_apart (a := a) s hrate n c
  have hlinks : (s.altAlarmStart (some a) n c).1.links = altLlistInsert s.links none (some a) := by
    simp only [Alarms.altAlarmStart, if_pos hrate]
  refine ⟨?_, ?_, ?_, ?_, ?_⟩
  · rw [hlinks]
    exact rings_insert h.ring hnew
  · intro b hb hout'
    rw [hlinks]
    dsimp only at hb hout'
    rw [nodes_cons, List.mem_cons, not_or] at hout'
    rcases List.mem_cons.1 hb with rfl | hb
    · exact absurd rfl hout'.1
    · exact alone_insert (h.alone b hb hout'.2) h.ring hnew (by simp [hout'.2]) hout'.1
  · intro e he
    rcases List.mem_cons.1 he with rfl | he
    · exact h.start_stored hrate hn
    · exact (h.stored e he).frame hap fun hea => hout (hea ▸ List.mem_map_of_mem he)
  · rw [hap.nticks, h.nticks]
  · rw [hap.tickRate]
    exact h.clock

/-- `alt_alarm_stop`. -/
theorem stop (h : Follows s q) (ha : a ∈ q.started) :
    Follows (s.altAlarmStop a) { q with entries := q.entries.filter fun e => e.alarm ≠ a } := by
  suffices hlist : Rings (altLlistRemove s.links (some a)) none
        (nodes (q.entries.filter fun e => e.alarm ≠ a)) ∧
      ∀ b ∈ q.started, some b ∉ nodes (q.entries.filter fun e => e.alarm ≠ a) →
        Alone (altLlistRemove s.links (some a)) (some b) from
    ⟨hlist.1, hlist.2, fun e he => (h.stored e (List.mem_of_mem_filter he)).congr rfl rfl rfl,
      h.nticks, h.clock⟩
  by_cases hreg : some a ∈ nodes q.entries
  · obtain ⟨ys, e, zs, hes, rfl, hys, hzs⟩ := exists_registered h.ring hreg
    have hfilter : (q.entries.filter fun e' => e'.alarm ≠ e.alarm) = ys ++ zs := by
      rw [hes, List.filter_append, List.filter_cons_of_neg (by simp),
        List.filter_eq_self.2 fun y hy => decide_eq_true (hys y hy),
        List.filter_eq_self.2 fun z hz => decide_eq_true (hzs z hz)]
    have hring := h.ring
    have halone := h.alone
    rw [hes, nodes_append, nodes_cons] at hring halone
    rw [hfilter, nodes_append]
    exact ⟨rings_remove hring, alone_remove_all hring halone⟩
  · have hfilter : (q.entries.filter fun e => e.alarm ≠ a) = q.entries :=
      List.filter_eq_self.2 fun e he => decide_eq_true fun hea => hreg (mem_nodes.2 ⟨e, he, hea⟩)
    rw [hfilter, remove_alone (h.alone a ha hreg)]
    exact ⟨h.ring, h.alone⟩

/-- `alt_tick` returns. -/
theorem tick (h : Follows s q) (answer : α → BitVec 32) (hfuel : q.entries.length ≤ fuel) :
    ∃ s', s.altTick fuel answer = some (s', callsOf (q.ticks + 1) q.entries) ∧
      Follows s' (q.step (.tick answer)).1 := by
  have hstart : Walked q.started q.ticks { s with nticks := s.nticks + 1 } [] q.entries := by
    refine ⟨h.ring, h.alone, fun e he => absurd he List.not_mem_nil,
      fun e he => (h.stored e he).congr rfl rfl rfl, ?_⟩
    have hn := h.nticks
    rw [BitVec.toNat_add, hn, Nat.mod_add_mod]
    rfl
  obtain ⟨s', hloop, hwalk, hrate⟩ := hstart.loop answer hfuel
  refine ⟨s', ?_, ?_⟩
  · unfold Alarms.altTick
    dsimp only
    rw [h.ring.next_head]
    exact hloop
  · rw [List.nil_append] at hwalk
    have hring := hwalk.ring
    have halone := hwalk.alone
    rw [List.append_nil] at hring halone
    refine ⟨hring, halone, hwalk.done, hwalk.nticks, ?_⟩
    rw [hrate]
    exact h.clock

/-- **One operation.** -/
theorem step (h : Follows s q) {op : AlarmOp α κ} (hop : q.Allowed op) (hfuel : q.entries.length ≤ fuel) :
    ∃ s', s.step fuel op = some (s', (q.step op).2) ∧ Follows s' (q.step op).1 := by
  cases op with
  | sysclkInit r => exact ⟨_, rfl, h.sysclkInit r⟩
  | stop a => exact ⟨_, rfl, h.stop hop⟩
  | tick answer => exact h.tick answer hfuel
  | start alarm n c =>
    cases alarm with
    | none =>
      have hsame : (s.altAlarmStart none n c).1 = s := by
        unfold Alarms.altAlarmStart
        split_ifs <;> rfl
      exact ⟨s, by rw [Alarms.step, hsame]; rfl, h⟩
    | some a =>
      by_cases hon : q.clock = true
      · simp only [Schedule.step, if_pos hon]
        exact ⟨_, rfl, h.start hon (hop hon).1 (hop hon).2⟩
      · have hrate : ¬ s.tickRate ≠ 0 := fun hne => hon (h.clock.trans (decide_eq_true hne))
        simp only [Schedule.step, if_neg hon, Alarms.step, Alarms.altAlarmStart, if_neg hrate]
        exact ⟨s, rfl, h⟩

end Follows

/-- An operation registers one alarm at most. -/
theorem length_step_le (q : Schedule α κ) (op : AlarmOp α κ) :
    (q.step op).1.entries.length ≤ q.entries.length + 1 := by
  cases op with
  | sysclkInit r => exact Nat.le_succ _
  | stop a => exact (List.length_filter_le _ _).trans (Nat.le_succ _)
  | tick answer => exact (List.length_filterMap_le _ _).trans (Nat.le_succ _)
  | start alarm n c =>
    cases alarm with
    | none => exact Nat.le_succ _
    | some a =>
      unfold Schedule.step
      dsimp only
      split_ifs
      · exact le_rfl
      · exact Nat.le_succ _

/-- **A run** from any point of it. -/
theorem Follows.run : ∀ {ops : List (AlarmOp α κ)} {s : Alarms α κ} {q : Schedule α κ} {fuel : ℕ},
    Follows s q → q.Proper ops → q.entries.length + ops.length ≤ fuel →
    ∃ s', s.run fuel ops = some (s', q.run ops) := by
  intro ops
  induction ops with
  | nil => exact fun {s} _ _ _ _ _ => ⟨s, rfl⟩
  | cons op ops ih =>
    intro s q fuel h hproper hfuel
    rw [List.length_cons] at hfuel
    obtain ⟨s₁, hstep, h₁⟩ := h.step hproper.1 (show q.entries.length ≤ fuel by omega)
    have hlength := length_step_le q op
    obtain ⟨s₂, hrun⟩ := ih h₁ hproper.2 (show (q.step op).1.entries.length + ops.length ≤ fuel by omega)
    refine ⟨s₂, ?_⟩
    rw [Alarms.run, hstep, Option.bind_some, hrun]
    rfl

theorem boot_follows (links : Links (Option α)) (time : α → BitVec 32) (callback : α → κ)
    (rollover : α → Bool) : Follows (Alarms.boot links time callback rollover) Schedule.init where
  ring := Rings.nil_iff.2 ⟨by simp [Alarms.boot], by simp [Alarms.boot]⟩
  alone a ha := absurd ha List.not_mem_nil
  stored e he := absurd he List.not_mem_nil
  nticks := rfl
  clock := rfl

/-- **Alarms are on time.** Whatever the alarms hold at first, for every sequence of calls in which no
alarm is started that is registered, or with the longest interval, and none is stopped that was never started,
and with callbacks that make no such calls themselves: every call returns, and each `alt_tick` calls exactly the callbacks of the alarms that are due at it, the latest
registered first, however often the count has rolled over. -/
theorem alarms_on_time (links : Links (Option α)) (time : α → BitVec 32) (callback : α → κ)
    (rollover : α → Bool) (ops : List (AlarmOp α κ))
    (hproper : (Schedule.init : Schedule α κ).Proper ops) :
    ∃ s, (Alarms.boot links time callback rollover).run ops.length ops =
      some (s, (Schedule.init : Schedule α κ).run ops) :=
  -- the longest loop goes through all alarms that have been started
  (boot_follows links time callback rollover).run hproper (Nat.zero_add ops.length).le

/-- Two alarms, one of them stopped after its first call. -/
def twoAlarms : List (AlarmOp Bool ℕ) :=
  [.sysclkInit 1000, .start (some true) 0 7, .start (some false) 1 8, .tick fun _ => 2,
    .tick fun _ => 2, .stop false, .tick fun _ => 2]

theorem twoAlarms_proper : (Schedule.init : Schedule Bool ℕ).Proper twoAlarms :=
  ⟨trivial, fun _ => ⟨by decide, by decide⟩, fun _ => ⟨by decide, by decide⟩, trivial, trivial,
    List.mem_cons_self, trivial, trivial⟩

theorem alarms_on_time_two : ∃ s,
    (Alarms.boot ⟨id, id⟩ (fun _ => 5) (fun _ => 0) fun _ => true).run 7 twoAlarms =
      some (s, [[], [], [], [(true, 7)], [(false, 8)], [], [(true, 7)]]) :=
  alarms_on_time ⟨id, id⟩ (fun _ => 5) (fun _ => 0) (fun _ => true) twoAlarms twoAlarms_proper

end Firmware

end BankVault
