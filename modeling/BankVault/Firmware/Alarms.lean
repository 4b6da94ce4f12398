import BankVault.Seqs.Linked

/-!
# Alarms: `alt_alarm_start.c`, `alt_tick.c` and `alt_llist.h`

A program registers an alarm with `alt_alarm_start`; `alt_tick`, which the handler of the system clock
calls, counts the ticks in `_alt_nticks` and calls the callback of each alarm whose time has come. What
the callback returns is the number of ticks to the next call, 0 for none. `alt_alarm_start` and
`alt_alarm_stop` disable the interrupts, and `alt_tick` runs in the handler: each is one step here.

`α` stands for the addresses of the alarms and `κ` for the callbacks, each with its context. A callback
may return anything, but the callbacks here start and stop no alarm themselves: `alt_tick` has read the
next alarm before it calls one, and if the callback stopped that alarm, which then points to itself,
the walk would not come back to the list.
-/

namespace BankVault

open Linked

namespace Firmware

section AltLlist

variable {ν : Type*} [DecidableEq ν] (l : Links ν)

/-- `alt_llist_insert`. -/
def altLlistInsert (list entry : ν) : Links ν :=
  let l := l.setPrevious entry list
  let l := l.setNext entry (l.next list)
  let l := l.setPrevious (l.next list) entry
  l.setNext list entry

/-- `alt_llist_remove`. -/
def altLlistRemove (entry : ν) : Links ν :=
  let l := l.setPrevious (l.next entry) (l.previous entry)
  let l := l.setNext (l.previous entry) (l.next entry)
  -- the entry points to itself, so that it can be removed again
  let l := l.setPrevious entry entry
  l.setNext entry entry

end AltLlist

variable {α κ : Type*}

/-- The alarms in memory, `_alt_nticks` and `_alt_tick_rate`. -/
structure Alarms (α κ : Type*) where
  /-- The `llist` of each alarm, and `alt_alarm_list`, which is `none`. -/
  links : Links (Option α)
  time : α → BitVec 32
  callback : α → κ
  rollover : α → Bool
  nticks : BitVec 32
  tickRate : BitVec 32

/-- The errors of `alt_alarm_start`. -/
inductive AlarmError
  | einval
  | enotsup
  deriving DecidableEq, Repr

namespace Alarms

/-- The memory before `alt_sys_init`: the list is empty, and the alarms hold anything. -/
def boot (links : Links (Option α)) (time : α → BitVec 32) (callback : α → κ) (rollover : α → Bool)
    [DecidableEq α] : Alarms α κ where
  links := (links.setNext none none).setPrevious none none
  time := time
  callback := callback
  rollover := rollover
  nticks := 0
  tickRate := 0

variable [DecidableEq α] (s : Alarms α κ)

/-- `alt_sysclk_init`. -/
def altSysclkInit (nticks : BitVec 32) : Alarms α κ :=
  if s.tickRate = 0 then { s with tickRate := nticks } else s

/-- `alt_alarm_start`. -/
def altAlarmStart (alarm : Option α) (nticks : BitVec 32) (callback : κ) :
    Alarms α κ × Except AlarmError Unit :=
  if s.tickRate ≠ 0 then
    match alarm with
    | some a =>
      let time := nticks + s.nticks + 1
      ({ s with
          callback := Function.update s.callback a callback
          time := Function.update s.time a time
          rollover := Function.update s.rollover a (decide (time < s.nticks))
          links := altLlistInsert s.links none (some a) }, .ok ())
    | none => (s, .error .einval)
  else (s, .error .enotsup)

/-- `alt_alarm_stop`. -/
def altAlarmStop (a : α) : Alarms α κ := { s with links := altLlistRemove s.links (some a) }

/-- The roll-over flag is cleared when the count rolls over. -/
def clearRollover (a : α) : Alarms α κ :=
  if s.rollover a && s.nticks == 0 then { s with rollover := Function.update s.rollover a false } else s

@[simp] theorem clearRollover_links (a : α) : (s.clearRollover a).links = s.links := by
  unfold clearRollover
  split_ifs <;> rfl

@[simp] theorem clearRollover_time (a : α) : (s.clearRollover a).time = s.time := by
  unfold clearRollover
  split_ifs <;> rfl

@[simp] theorem clearRollover_callback (a : α) : (s.clearRollover a).callback = s.callback := by
  unfold clearRollover
  split_ifs <;> rfl

@[simp] theorem clearRollover_nticks (a : α) : (s.clearRollover a).nticks = s.nticks := by
  unfold clearRollover
  split_ifs <;> rfl

/-- The period of the alarm has expired. -/
def expired (a : α) : Bool := decide (s.time a ≤ s.nticks) && !s.rollover a

/-- What becomes of an alarm whose callback has returned `nextCallback`. -/
def rearm (a : α) (nextCallback : BitVec 32) : Alarms α κ :=
  if nextCallback = 0 then s.altAlarmStop a
  else
    let time := s.time a + nextCallback
    { s with
        time := Function.update s.time a time
        rollover := if time < s.nticks then Function.update s.rollover a true else s.rollover }

/-- One pass of the loop of `alt_tick`, and the call it makes, if any. -/
def visit (answer : α → BitVec 32) (a : α) : Alarms α κ × List (α × κ) :=
  let s := s.clearRollover a
  if s.expired a then (s.rearm a (answer a), [(a, s.callback a)]) else (s, [])

/-- The loop of `alt_tick` from `alarm` on; it gives up after `fuel` passes. -/
def loop (answer : α → BitVec 32) : ℕ → Alarms α κ → Option α → Option (Alarms α κ × List (α × κ))
  | _, s, none => some (s, [])
  | 0, _, some _ => none
  | fuel + 1, s, some a =>
    let next := s.links.next (some a)
    let v := s.visit answer a
    (loop answer fuel v.1 next).map fun r => (r.1, v.2 ++ r.2)

/-- `alt_tick`: the callbacks are called in order, and the one of `a` returns `answer a`. -/
def altTick (fuel : ℕ) (answer : α → BitVec 32) : Option (Alarms α κ × List (α × κ)) :=
  let s := { s with nticks := s.nticks + 1 }
  loop answer fuel s (s.links.next none)

end Alarms

/-- What is done with the alarms outside the callbacks; a tick comes with what each callback would
return at it. -/
inductive AlarmOp (α κ : Type*)
  | sysclkInit (nticks : BitVec 32)
  | start (alarm : Option α) (nticks : BitVec 32) (callback : κ)
  | stop (a : α)
  | tick (answer : α → BitVec 32)

namespace Alarms

variable [DecidableEq α]

/-- One call, with the callbacks it calls; `none` if a loop of it takes more than `fuel` passes. -/
def step (fuel : ℕ) (s : Alarms α κ) : AlarmOp α κ → Option (Alarms α κ × List (α × κ))
  | .sysclkInit nticks => some (s.altSysclkInit nticks, [])
  | .start alarm nticks callback => some ((s.altAlarmStart alarm nticks callback).1, [])
  | .stop a => some (s.altAlarmStop a, [])
  | .tick answer => s.altTick fuel answer

/-- One call after the other, with what each of them calls. -/
def run (fuel : ℕ) (s : Alarms α κ) : List (AlarmOp α κ) → Option (Alarms α κ × List (List (α × κ)))
  | [] => some (s, [])
  | op :: ops => (s.step fuel op).bind fun r => (run fuel r.1 ops).map fun q => (q.1, r.2 :: q.2)

end Alarms

end Firmware

end BankVault
