import Mathlib.Data.BitVec
import Mathlib.Data.List.OfFn

/-!
# Words on a serial line

A word of `w` bits goes over the line most significant bit first. At the other end a shift
register takes in one bit at a time and delivers a word when it has taken `w` of them.

* `foldl_msbFirst`: a shift register that takes in the bits of a word holds that word.
* `assemble_serial`: the words of a line are delivered, in order, and nothing of a word that
  is not complete.
* `assemble_brokenOff`: so a line that breaks off has delivered its first words.
-/

namespace Wire

variable {w : ℕ} {x y : BitVec w} {b : Bool}

/-- The bits of a word, the most significant first. -/
def msbFirst (x : BitVec w) : List Bool := List.ofFn fun i : Fin w => x.getMsbD i

@[simp] theorem length_msbFirst (x : BitVec w) : (msbFirst x).length = w := List.length_ofFn

theorem msbFirst_getElem (x : BitVec w) {i : ℕ} (hi : i < (msbFirst x).length) :
    (msbFirst x)[i] = x.getMsbD i := List.getElem_ofFn _

theorem msbFirst_injective : Function.Injective (msbFirst (w := w)) := by
  intro x y h
  apply BitVec.eq_of_getMsbD_eq
  intro i hi
  have hx := msbFirst_getElem x (i := i) (by simpa using hi)
  have hy := msbFirst_getElem y (i := i) (by simpa using hi)
  rw [← hx, ← hy]
  simp only [h]

/-- The first bit on the line is the most significant one. -/
theorem msbFirst_eq_cons (hw : 0 < w) (x : BitVec w) : msbFirst x = x.msb :: (msbFirst x).tail := by
  have hne : msbFirst x ≠ [] := List.ne_nil_of_length_pos (by simpa using hw)
  have hhead : (msbFirst x).head hne = x.msb := by
    rw [List.head_eq_getElem, msbFirst_getElem]
    rfl
  rw [← hhead, List.cons_head_tail]

/-- **A shift**: the first bit is gone, and the new one is the last. -/
theorem msbFirst_shiftConcat (hw : 0 < w) (x : BitVec w) (b : Bool) :
    msbFirst (x.shiftConcat b) = (msbFirst x).tail ++ [b] := by
  apply List.ext_getElem
  · simp; omega
  · intro i h1 h2
    have hi : i < w := by simpa using h1
    rw [msbFirst_getElem, BitVec.getMsbD_eq_getLsbD, BitVec.getLsbD_shiftConcat]
    by_cases hlast : i = w - 1
    · subst hlast
      rw [List.getElem_append_right (by simp)]
      simp [hi, hw]
    · rw [List.getElem_append_left (by simp; omega), List.getElem_tail, msbFirst_getElem,
        BitVec.getMsbD_eq_getLsbD, if_neg (by omega)]
      simp [show i + 1 < w by omega, hi, show w - 1 - i < w by omega,
        show w - 1 - i - 1 = w - 1 - (i + 1) by omega]

/-- The bits that stand in a shift register after it has taken some in. -/
theorem msbFirst_foldl (hw : 0 < w) (y : BitVec w) (bs : List Bool) :
    msbFirst (bs.foldl BitVec.shiftConcat y) = (msbFirst y ++ bs).drop bs.length := by
  induction bs generalizing y with
  | nil => simp
  | cons b bs ih =>
    have hne : msbFirst y ≠ [] := List.ne_nil_of_length_pos (by simpa using hw)
    rw [List.foldl_cons, ih, msbFirst_shiftConcat hw, List.append_assoc, List.length_cons,
      Nat.add_comm bs.length 1, ← List.drop_drop, List.drop_one, List.tail_append_of_ne_nil hne]
    rfl

/-- **A register that takes in the bits of a word holds it**, whatever it held before. -/
theorem foldl_msbFirst (hw : 0 < w) (x y : BitVec w) :
    (msbFirst x).foldl BitVec.shiftConcat y = x := by
  apply msbFirst_injective
  rw [msbFirst_foldl hw]
  simp

/-! ### The receiver of a line -/

/-- A shift register, how many bits it has taken since the last whole word, and the words it
has delivered. -/
structure Deserializer (w : ℕ) where
  shift : BitVec w
  count : ℕ
  words : List (BitVec w)

/-- One bit off the line. -/
def Deserializer.take (d : Deserializer w) (b : Bool) : Deserializer w :=
  let shift := d.shift.shiftConcat b
  if d.count + 1 = w then ⟨shift, 0, d.words ++ [shift]⟩ else ⟨shift, d.count + 1, d.words⟩

/-- The words of a line. -/
def assemble (w : ℕ) (bs : List Bool) : List (BitVec w) :=
  (bs.foldl Deserializer.take ⟨0, 0, []⟩).words

/-- Less than a word is kept in the register. -/
theorem foldl_take_short (bs : List Bool) : ∀ d : Deserializer w, d.count + bs.length < w →
    bs.foldl Deserializer.take d =
      ⟨bs.foldl BitVec.shiftConcat d.shift, d.count + bs.length, d.words⟩ := by
  induction bs with
  | nil => intro d _; rfl
  | cons b bs ih =>
    intro d h
    rw [List.length_cons] at h ⊢
    have hone : d.take b = ⟨d.shift.shiftConcat b, d.count + 1, d.words⟩ := if_neg (by omega)
    have hcount : d.count + 1 + bs.length = d.count + (bs.length + 1) := by omega
    rw [List.foldl_cons, hone, ih _ (by rw [hcount]; exact h), List.foldl_cons, hcount]

/-- A whole word is delivered. -/
theorem foldl_take_word (hw : 0 < w) (x y : BitVec w) (ws : List (BitVec w)) :
    (msbFirst x).foldl Deserializer.take ⟨y, 0, ws⟩ = ⟨x, 0, ws ++ [x]⟩ := by
  have hne : msbFirst x ≠ [] := List.ne_nil_of_length_pos (by simpa using hw)
  have hlen : (msbFirst x).dropLast.length = w - 1 := by simp
  -- all but the last bit stay in the register, and the last one delivers it
  have hinit := foldl_take_short (msbFirst x).dropLast ⟨y, 0, ws⟩ (by simp only [hlen]; omega)
  rw [← List.dropLast_append_getLast hne, List.foldl_append, hinit, hlen]
  have hshift : ((msbFirst x).dropLast.foldl BitVec.shiftConcat y).shiftConcat ((msbFirst x).getLast hne) = x := by
    have h := foldl_msbFirst hw x y
    rw [← List.dropLast_append_getLast hne, List.foldl_append] at h
    exact h
  change Deserializer.take _ _ = _
  unfold Deserializer.take
  simp only [hshift]
  rw [if_pos (by omega)]

/-- **A line delivers its words**, and nothing of a last one that is not complete. -/
theorem assemble_serial (hw : 0 < w) (xs : List (BitVec w)) (bs : List Bool) (hbs : bs.length < w) :
    assemble w (xs.flatMap msbFirst ++ bs) = xs := by
  have key : ∀ (y : BitVec w) (ws : List (BitVec w)),
      ((xs.flatMap msbFirst ++ bs).foldl Deserializer.take ⟨y, 0, ws⟩).words = ws ++ xs := by
    induction xs with
    | nil =>
      intro y ws
      rw [List.flatMap_nil, List.nil_append, foldl_take_short _ _ (by simpa using hbs), List.append_nil]
    | cons x xs ih =>
      intro y ws
      rw [List.flatMap_cons, List.append_assoc, List.foldl_append, foldl_take_word hw, ih,
        List.append_assoc, List.singleton_append]
  exact key 0 []

/-- A line that breaks off: some words, and less than a word. -/
theorem prefix_serial {xs : List (BitVec w)} {bs : List Bool} (h : bs <+: xs.flatMap msbFirst) :
    ∃ ys rest, ys <+: xs ∧ (w = 0 ∨ rest.length < w) ∧ bs = ys.flatMap msbFirst ++ rest := by
  induction xs generalizing bs with
  | nil =>
    obtain rfl : bs = [] := List.prefix_nil.1 h
    exact ⟨[], [], List.nil_prefix, w.eq_zero_or_pos, rfl⟩
  | cons x xs ih =>
    rw [List.flatMap_cons] at h
    by_cases hwhole : msbFirst x <+: bs
    · obtain ⟨cs, rfl⟩ := hwhole
      rw [List.prefix_append_right_inj] at h
      obtain ⟨ys, rest, hys, hrest, rfl⟩ := ih h
      refine ⟨x :: ys, rest, (List.prefix_cons_inj x).2 hys, hrest, ?_⟩
      rw [List.flatMap_cons, List.append_assoc]
    · have hpre : bs <+: msbFirst x :=
        (List.prefix_or_prefix_of_prefix h (List.prefix_append _ _)).resolve_right hwhole
      refine ⟨[], bs, List.nil_prefix, Or.inr ?_, rfl⟩
      have hle := hpre.length_le
      rw [length_msbFirst] at hle
      refine lt_of_le_of_ne hle fun hlen => hwhole ?_
      rw [hpre.eq_of_length (by rw [hlen, length_msbFirst])]

/-- **A line that breaks off has delivered its first words.** -/
theorem assemble_brokenOff (hw : 0 < w) {xs : List (BitVec w)} {bs : List Bool}
    (h : bs <+: xs.flatMap msbFirst) : assemble w bs <+: xs := by
  obtain ⟨ys, rest, hys, hrest, rfl⟩ := prefix_serial h
  rw [assemble_serial hw ys rest (hrest.resolve_left hw.ne')]
  exact hys

/-- What has been delivered stays so. -/
theorem assemble_mono {bs cs : List Bool} (h : bs <+: cs) : assemble w bs <+: assemble w cs := by
  obtain ⟨rest, rfl⟩ := h
  have key : ∀ d : Deserializer w, d.words <+: (rest.foldl Deserializer.take d).words := by
    induction rest with
    | nil => exact fun d => List.prefix_rfl
    | cons b rest ih =>
      intro d
      refine List.IsPrefix.trans ?_ (ih (d.take b))
      unfold Deserializer.take
      split_ifs
      · exact List.prefix_append _ _
      · exact List.prefix_rfl
  unfold assemble
  rw [List.foldl_append]
  exact key _

end Wire
