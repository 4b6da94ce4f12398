import Mathlib.Data.List.Basic
import Mathlib.Data.List.Induction

/-!
# Command streams

A device that is sent commands over a byte link: the first byte of a command fixes how many
argument bytes follow it.

* `whole_append_iff`: whole commands at the front of a stream can be taken off.
* `Stray.not_whole`, `Stray.append`: a stray byte where a command is expected is never made
  good by what follows.
* `feed_flatten`: the receiver, one byte at a time, executes the commands of a whole stream
  and nothing else.
* `feed_brokenOff`: a stream that breaks off has executed the commands that were complete.
-/

namespace Wire

variable {β σ : Type*} {args : β → Option ℕ} {b : β} {c d xs ys : List β}

/-- `c` is one command: a command byte and as many arguments as it takes. -/
def IsCommand (args : β → Option ℕ) (c : List β) : Prop :=
  ∃ b xs, c = b :: xs ∧ args b = some xs.length

/-- **A whole stream**: commands, with no byte left over. -/
def Whole (args : β → Option ℕ) (bs : List β) : Prop :=
  ∃ cs : List (List β), (∀ c ∈ cs, IsCommand args c) ∧ bs = cs.flatten

theorem whole_nil : Whole args [] := ⟨[], by simp, rfl⟩

theorem IsCommand.whole (hc : IsCommand args c) : Whole args c :=
  ⟨[c], by simpa using hc, by simp⟩

theorem Whole.append (hx : Whole args xs) (hy : Whole args ys) : Whole args (xs ++ ys) := by
  obtain ⟨cs, hcs, rfl⟩ := hx
  obtain ⟨ds, hds, rfl⟩ := hy
  refine ⟨cs ++ ds, fun c hc => ?_, List.flatten_append.symm⟩
  rcases List.mem_append.1 hc with h | h
  · exact hcs c h
  · exact hds c h

theorem whole_flatten {cs : List (List β)} (h : ∀ c ∈ cs, Whole args c) : Whole args cs.flatten := by
  induction cs with
  | nil => exact whole_nil
  | cons c cs ih =>
    rw [List.flatten_cons]
    exact (h c (List.mem_cons_self ..)).append (ih fun d hd => h d (List.mem_cons_of_mem c hd))

/-- No command is the start of another: the first byte fixes the length. -/
theorem IsCommand.append_inj (hc : IsCommand args c) (hd : IsCommand args d)
    (h : c ++ xs = d ++ ys) : c = d ∧ xs = ys := by
  obtain ⟨b, cs, rfl, hcs⟩ := hc
  obtain ⟨b', ds, rfl, hds⟩ := hd
  have hb : b = b' := by simpa using congrArg List.head? h
  subst hb
  have hlen : cs.length = ds.length := by simpa [hcs] using hds
  exact List.append_inj h (by simp [hlen])

/-- A command at the front can be taken off. -/
theorem IsCommand.whole_append_iff (hc : IsCommand args c) :
    Whole args (c ++ ys) ↔ Whole args ys := by
  refine ⟨fun h => ?_, fun h => hc.whole.append h⟩
  obtain ⟨cs, hcs, heq⟩ := h
  cases cs with
  | nil =>
    obtain ⟨b, xs, rfl, -⟩ := hc
    simp at heq
  | cons d ds =>
    rw [List.flatten_cons] at heq
    obtain ⟨-, rfl⟩ := hc.append_inj (hcs d (List.mem_cons_self ..)) heq
    exact ⟨ds, fun e he => hcs e (List.mem_cons_of_mem d he), rfl⟩

/-- **Whole commands at the front can be taken off.** -/
theorem whole_append_iff (hx : Whole args xs) : Whole args (xs ++ ys) ↔ Whole args ys := by
  obtain ⟨cs, hcs, rfl⟩ := hx
  induction cs with
  | nil => exact Iff.rfl
  | cons c cs ih =>
    rw [List.flatten_cons, List.append_assoc,
      (hcs c (List.mem_cons_self ..)).whole_append_iff]
    exact ih fun d hd => hcs d (List.mem_cons_of_mem c hd)

/-- A byte that is no command cannot start a whole stream. -/
theorem not_whole_cons (hb : args b = none) : ¬ Whole args (b :: ys) := by
  rintro ⟨cs, hcs, heq⟩
  cases cs with
  | nil => exact absurd heq (by simp)
  | cons d ds =>
    obtain ⟨b', xs, rfl, hb'⟩ := hcs d (List.mem_cons_self ..)
    have hbb : b = b' := by simpa using congrArg List.head? heq
    rw [← hbb, hb] at hb'
    exact absurd hb' (by simp)

/-- A byte that is no command, where one is expected. -/
def Stray (args : β → Option ℕ) (bs : List β) : Prop :=
  ∃ xs b ys, bs = xs ++ b :: ys ∧ Whole args xs ∧ args b = none

theorem Stray.append (h : Stray args xs) (ys : List β) : Stray args (xs ++ ys) := by
  obtain ⟨good, b, bad, rfl, hgood, hb⟩ := h
  exact ⟨good, b, bad ++ ys, by rw [List.append_assoc]; rfl, hgood, hb⟩

theorem Whole.stray (hx : Whole args xs) (hy : Stray args ys) : Stray args (xs ++ ys) := by
  obtain ⟨good, b, bad, rfl, hgood, hb⟩ := hy
  exact ⟨xs ++ good, b, bad, (List.append_assoc ..).symm, hx.append hgood, hb⟩

/-- **No whole stream has a stray byte.** -/
theorem Stray.not_whole (h : Stray args xs) : ¬ Whole args xs := by
  obtain ⟨good, b, bad, rfl, hgood, hb⟩ := h
  rw [whole_append_iff hgood]
  exact not_whole_cons hb

/-! ### The receiver -/

/-- A receiver: the bytes of the command it is in, and the device it drives. -/
structure Receiver (β σ : Type*) where
  pending : List β
  device : σ

/-- One byte: it completes the pending command, or is kept, or is skipped where no command
starts with it. -/
def receive (args : β → Option ℕ) (exec : List β → σ → σ) (r : Receiver β σ) (b : β) :
    Receiver β σ :=
  let bytes := r.pending ++ [b]
  match bytes.head?.bind args with
  | none => ⟨[], r.device⟩
  | some n => if bytes.length = n + 1 then ⟨[], exec bytes r.device⟩ else ⟨bytes, r.device⟩

/-- The receiver after a stream. -/
def feed (args : β → Option ℕ) (exec : List β → σ → σ) (r : Receiver β σ) (bs : List β) :
    Receiver β σ := bs.foldl (receive args exec) r

variable {exec : List β → σ → σ} {s : σ}

theorem feed_append (r : Receiver β σ) (xs ys : List β) :
    feed args exec r (xs ++ ys) = feed args exec (feed args exec r xs) ys := List.foldl_append

/-- The arguments of a command are collected until it is complete. -/
theorem feed_args (b : β) (n : ℕ) (hb : args b = some n) (q : List β) :
    ∀ p, p.length + q.length = n → q ≠ [] →
      feed args exec ⟨b :: p, s⟩ q = ⟨[], exec (b :: (p ++ q)) s⟩ := by
  induction q with
  | nil => intro p _ h; exact absurd rfl h
  | cons x q ih =>
    intro p hlen _
    have hlen' : p.length + (q.length + 1) = n := hlen
    show feed args exec (receive args exec ⟨b :: p, s⟩ x) q = _
    have hhead : ((b :: p) ++ [x]).head?.bind args = some n := by simp [hb]
    by_cases hq : q = []
    · subst hq
      have hfull : ((b :: p) ++ [x]).length = n + 1 := by simp at hlen' ⊢; omega
      simp only [receive, hhead, hfull, if_true]
      rfl
    · have hpos : 0 < q.length := List.length_pos_iff.2 hq
      have hshort : ((b :: p) ++ [x]).length ≠ n + 1 := by simp; omega
      simp only [receive, hhead, hshort, if_false]
      have := ih (p ++ [x]) (by simp; omega) hq
      rw [List.append_assoc] at this
      exact this

/-- A whole command is executed, and leaves nothing pending. -/
theorem feed_command (hc : IsCommand args c) : feed args exec ⟨[], s⟩ c = ⟨[], exec c s⟩ := by
  obtain ⟨b, xs, rfl, hb⟩ := hc
  show feed args exec (receive args exec ⟨[], s⟩ b) xs = _
  cases xs with
  | nil => simp [receive, hb, feed]
  | cons x xs =>
    have hfirst : receive args exec ⟨[], s⟩ b = ⟨[b], s⟩ := by simp [receive, hb]
    rw [hfirst]
    exact feed_args b _ hb (x :: xs) [] (by simp) (by simp)

/-- **The receiver executes the commands of a whole stream**, in order, and ends between
commands. -/
theorem feed_flatten {cs : List (List β)} (hcs : ∀ c ∈ cs, IsCommand args c) :
    feed args exec ⟨[], s⟩ cs.flatten = ⟨[], cs.foldl (fun s c => exec c s) s⟩ := by
  induction cs generalizing s with
  | nil => rfl
  | cons c cs ih =>
    rw [List.flatten_cons, feed_append, feed_command (hcs c (List.mem_cons_self ..))]
    exact ih fun d hd => hcs d (List.mem_cons_of_mem c hd)

/-- Less than a command is kept. -/
theorem feed_short (hc : IsCommand args c) (hx : xs <+: c) (hne : xs ≠ c) :
    feed args exec ⟨[], s⟩ xs = ⟨xs, s⟩ := by
  obtain ⟨b, as, rfl, hb⟩ := hc
  induction xs using List.reverseRecOn with
  | nil => rfl
  | append_singleton xs x ih =>
    have hpre : xs <+: b :: as := (List.prefix_append xs [x]).trans hx
    have hlen : (xs ++ [x]).length ≠ as.length + 1 := fun hlen => hne (hx.eq_of_length hlen)
    have hxs : xs ≠ b :: as := by
      rintro rfl
      exact absurd hx.length_le (by simp)
    have hhead : (xs ++ [x]).head? = some b := by
      obtain ⟨ys, hys⟩ := hx
      cases xs with
      | nil => exact congrArg some (List.cons.inj hys).1
      | cons y xs => exact congrArg some (List.cons.inj hys).1
    have hbind : (xs ++ [x]).head?.bind args = some as.length := by rw [hhead]; exact hb
    rw [feed_append, ih hpre hxs]
    change receive args exec ⟨xs, s⟩ x = _
    simp only [receive, hbind, hlen, if_false]

/-- **A stream that breaks off** has executed the commands that were complete. -/
theorem feed_brokenOff {cs : List (List β)} (hcs : ∀ c ∈ cs, IsCommand args c) (hx : xs <+: cs.flatten) :
    ∃ ds p, ds <+: cs ∧ feed args exec ⟨[], s⟩ xs = ⟨p, ds.foldl (fun s c => exec c s) s⟩ := by
  induction cs generalizing s xs with
  | nil =>
    obtain rfl : xs = [] := List.prefix_nil.1 hx
    exact ⟨[], [], List.nil_prefix, rfl⟩
  | cons c cs ih =>
    have hc := hcs c (List.mem_cons_self ..)
    by_cases hwhole : c <+: xs
    · obtain ⟨ys, rfl⟩ := hwhole
      rw [List.flatten_cons, List.prefix_append_right_inj] at hx
      obtain ⟨ds, p, hds, hfeed⟩ := ih (s := exec c s) (fun d hd => hcs d (List.mem_cons_of_mem c hd)) hx
      refine ⟨c :: ds, p, (List.prefix_cons_inj c).2 hds, ?_⟩
      rw [feed_append, feed_command hc]
      exact hfeed
    · -- it breaks off inside the first command
      have hpre : xs <+: c := by
        rw [List.flatten_cons] at hx
        exact (List.prefix_or_prefix_of_prefix hx (List.prefix_append c _)).resolve_right hwhole
      refine ⟨[], xs, List.nil_prefix, feed_short hc hpre ?_⟩
      rintro rfl
      exact hwhole List.prefix_rfl

end Wire
