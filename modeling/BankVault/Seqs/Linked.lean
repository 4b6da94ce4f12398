import Mathlib.Data.List.Chain
import Mathlib.Data.List.Nodup
import Mathlib.Logic.Function.Basic

/-!
# Circular doubly linked lists

Nodes with two links each. `Rings l h xs`: the circle from the head `h` through `l` consists of the nodes
`xs`, in the order of `next`.

* `Rings.link`: the links of a new first node.
* `Rings.unlink`: the links without a node.
* `Rings.next_eq`: the node after a node.
-/

namespace Linked

/-- The two links of every node. -/
structure Links (ν : Type*) where
  next : ν → ν
  previous : ν → ν

variable {ν : Type*}

namespace Links

variable [DecidableEq ν] (l : Links ν) (a b x : ν)

/-- `a->next = b`. -/
def setNext : Links ν := { l with next := Function.update l.next a b }

/-- `a->previous = b`. -/
def setPrevious : Links ν := { l with previous := Function.update l.previous a b }

@[simp] theorem setNext_next : (l.setNext a b).next x = if x = a then b else l.next x := by
  simp [setNext, Function.update_apply]

@[simp] theorem setNext_previous : (l.setNext a b).previous x = l.previous x := rfl

@[simp] theorem setPrevious_previous :
    (l.setPrevious a b).previous x = if x = a then b else l.previous x := by
  simp [setPrevious, Function.update_apply]

@[simp] theorem setPrevious_next : (l.setPrevious a b).next x = l.next x := rfl

end Links

/-- Each node of the list is linked with the one after it, both ways. -/
def Chained (l : Links ν) (xs : List ν) : Prop :=
  xs.IsChain fun a b => l.next a = b ∧ l.previous b = a

/-- **The circle** from `h` consists of `xs`. -/
structure Rings (l : Links ν) (h : ν) (xs : List ν) : Prop where
  nodup : (h :: xs).Nodup
  chained : Chained l (h :: (xs ++ [h]))

/-- A node that is in no circle but its own. -/
structure Alone (l : Links ν) (a : ν) : Prop where
  next : l.next a = a
  previous : l.previous a = a

variable {l l' : Links ν} {h e : ν} {xs ys zs : List ν}

/-- A chain depends on the links from one node of it to the next only. -/
theorem Chained.frame (hc : Chained l xs) (hn : ∀ a ∈ xs.dropLast, l'.next a = l.next a)
    (hp : ∀ b ∈ xs.tail, l'.previous b = l.previous b) : Chained l' xs := by
  induction xs with
  | nil => exact List.IsChain.nil
  | cons a xs ih =>
    cases xs with
    | nil => exact List.IsChain.singleton a
    | cons b xs =>
      obtain ⟨⟨hnext, hprev⟩, hrest⟩ := List.isChain_cons_cons.1 hc
      refine List.isChain_cons_cons.2 ⟨⟨?_, ?_⟩, ih hrest ?_ ?_⟩
      · rw [hn a (by simp), hnext]
      · rw [hp b (by simp), hprev]
      · intro c hmem
        exact hn c (by simp [List.dropLast, hmem])
      · intro c hmem
        exact hp c (by simp only [List.tail_cons] at hmem ⊢; exact List.mem_cons_of_mem b hmem)

namespace Rings

/-- The empty circle. -/
theorem nil_iff : Rings l h [] ↔ Alone l h := by
  constructor
  · rintro ⟨-, hc⟩
    obtain ⟨⟨hnext, hprev⟩, -⟩ := List.isChain_cons_cons.1 hc
    exact ⟨hnext, hprev⟩
  · rintro ⟨hnext, hprev⟩
    exact ⟨List.nodup_singleton h, List.isChain_pair.2 ⟨hnext, hprev⟩⟩

/-- The circle, cut at one of its nodes. -/
theorem split (hr : Rings l h (ys ++ e :: zs)) :
    Chained l (h :: (ys ++ [e])) ∧ Chained l (e :: (zs ++ [h])) := by
  have hc := hr.chained
  rw [List.append_assoc, List.cons_append] at hc
  exact List.isChain_cons_split.1 hc

/-- **The node after a node** of the circle. -/
theorem next_eq (hr : Rings l h (ys ++ e :: zs)) : l.next e = (zs ++ [h]).head (by simp) := by
  cases zs with
  | nil => exact (List.isChain_cons_cons.1 hr.split.2).1.1
  | cons z zs => exact (List.isChain_cons_cons.1 hr.split.2).1.1

/-- The first node. -/
theorem next_head (hr : Rings l h xs) : l.next h = (xs ++ [h]).head (by simp) := by
  cases xs with
  | nil => exact (List.isChain_cons_cons.1 hr.chained).1.1
  | cons x xs => exact (List.isChain_cons_cons.1 hr.chained).1.1

/-- The links of a node lead to the head or to other nodes of the circle. -/
theorem links_mem (hr : Rings l h (ys ++ e :: zs)) :
    l.next e ∈ h :: zs ∧ l.previous e ∈ h :: ys := by
  constructor
  · rw [hr.next_eq]
    cases zs <;> simp
  · obtain ⟨p, x, hp⟩ : ∃ p x, h :: ys = p ++ [x] :=
      ⟨_, _, (List.dropLast_append_getLast (List.cons_ne_nil h ys)).symm⟩
    have hc := hr.split.1
    rw [← List.cons_append, hp, List.append_assoc] at hc
    have hx : l.previous e = x := (List.isChain_append_cons_cons.1 hc).2.1.2
    rw [hx, hp]
    exact List.mem_append_right p (List.mem_singleton_self x)

/-- No node of a circle with a head is linked with itself. -/
theorem links_ne (hr : Rings l h (ys ++ e :: zs)) : l.next e ≠ e ∧ l.previous e ≠ e := by
  have hnd : ((h :: ys) ++ e :: zs).Nodup := hr.nodup
  have hne := (List.nodup_cons.1 (List.nodup_middle.1 hnd)).1
  obtain ⟨hnext, hprev⟩ := hr.links_mem
  constructor
  · intro he
    rw [he] at hnext
    refine hne ?_
    simp only [List.mem_cons, List.mem_append, List.cons_append] at hnext ⊢
    tauto
  · intro he
    rw [he] at hprev
    exact hne (List.mem_append_left zs hprev)

/-- The first node belongs to the circle, or is the head. -/
theorem next_head_mem (hr : Rings l h xs) : l.next h ∈ h :: xs := by
  rw [hr.next_head]
  cases xs <;> simp

/-- **A new first node**: it and its two neighbours are linked anew. -/
theorem link (hr : Rings l h xs) (he : e ∉ h :: xs) (hfirst : l'.next h = e ∧ l'.next e = l.next h)
    (hback : l'.previous e = h ∧ l'.previous (l.next h) = e)
    (hn : ∀ a, a ≠ h → a ≠ e → l'.next a = l.next a)
    (hp : ∀ b, b ≠ e → b ≠ l.next h → l'.previous b = l.previous b) : Rings l' h (e :: xs) := by
  have hnd : (h :: e :: xs).Nodup := by
    have hxs := hr.nodup
    simp only [List.nodup_cons, List.mem_cons, not_or] at hxs he ⊢
    exact ⟨⟨Ne.symm he.1, hxs.1⟩, he.2, hxs.2⟩
  refine ⟨hnd, ?_⟩
  obtain ⟨x, q, hq⟩ : ∃ x q, xs ++ [h] = x :: q := List.exists_cons_of_ne_nil (by simp)
  have hc := hr.chained
  have hndq : (x :: q).Nodup := by
    rw [← hq]
    exact (List.perm_append_singleton h xs).nodup_iff.2 hr.nodup
  have hexq : e ∉ x :: q := by
    rw [← hq]
    simpa [or_comm] using he
  unfold Chained at hc ⊢
  rw [hq] at hc
  rw [List.cons_append, hq]
  obtain ⟨⟨hnext, -⟩, hrest⟩ := List.isChain_cons_cons.1 hc
  refine List.isChain_cons_cons.2 ⟨⟨hfirst.1, hback.1⟩, List.isChain_cons_cons.2 ⟨⟨?_, ?_⟩, ?_⟩⟩
  · rw [hfirst.2, hnext]
  · rw [← hnext, hback.2]
  · refine Chained.frame hrest (fun a ha => ?_) fun b hb => ?_
    · have hdrop : (x :: q).dropLast = xs := by rw [← hq, List.dropLast_concat]
      rw [hdrop] at ha
      exact hn a (fun hah => (List.nodup_cons.1 hr.nodup).1 (hah ▸ ha))
        fun hae => he (List.mem_cons_of_mem h (hae ▸ ha))
    · rw [List.tail_cons] at hb
      refine hp b (fun hbe => hexq (hbe ▸ List.mem_cons_of_mem x hb)) fun hbn => ?_
      rw [hnext] at hbn
      exact (List.nodup_cons.1 hndq).1 (hbn ▸ hb)

/-- **A node less**: its two neighbours are linked with each other. -/
theorem unlink (hr : Rings l h (ys ++ e :: zs)) (hnext : l'.next (l.previous e) = l.next e)
    (hprev : l'.previous (l.next e) = l.previous e)
    (hn : ∀ a, a ≠ e → a ≠ l.previous e → l'.next a = l.next a)
    (hp : ∀ b, b ≠ e → b ≠ l.next e → l'.previous b = l.previous b) : Rings l' h (ys ++ zs) := by
  have hnd : ((h :: ys) ++ e :: zs).Nodup := hr.nodup
  obtain ⟨hne, hnd'⟩ := List.nodup_middle.1 hnd |> List.nodup_cons.1
  refine ⟨hnd', ?_⟩
  obtain ⟨p, x, hpx⟩ : ∃ p x, h :: ys = p ++ [x] :=
    ⟨_, _, (List.dropLast_append_getLast (List.cons_ne_nil h ys)).symm⟩
  obtain ⟨z, q, hzq⟩ : ∃ z q, zs ++ [h] = z :: q := List.exists_cons_of_ne_nil (by simp)
  have hz : l.next e = z := by
    rw [hr.next_eq]
    simp only [hzq, List.head_cons]
  obtain ⟨hleft, hright⟩ := hr.split
  unfold Chained at hleft hright ⊢
  rw [← List.cons_append, hpx, List.append_assoc] at hleft
  obtain ⟨hpre, ⟨-, hx⟩, -⟩ := List.isChain_append_cons_cons.1 hleft
  rw [hzq] at hright
  have hpost := (List.isChain_cons_cons.1 hright).2
  rw [hz] at hnext hprev hp
  rw [hx] at hnext hprev hn
  rw [List.append_assoc, ← List.cons_append, hpx, hzq, List.append_assoc]
  -- the nodes of the two halves are not each other's
  have hsplit : (p ++ x :: zs).Nodup ∧ e ∉ p ++ x :: zs := by
    rw [show p ++ x :: zs = (h :: ys) ++ zs by rw [hpx, List.append_assoc]; rfl]
    exact ⟨hnd', hne⟩
  have hback : (ys ++ z :: q).Nodup ∧ e ∉ ys ++ z :: q := by
    rw [← hzq, ← List.append_assoc]
    have hperm := List.perm_append_singleton h (ys ++ zs)
    exact ⟨hperm.nodup_iff.2 hnd', fun hmem => hne (hperm.mem_iff.1 hmem)⟩
  refine List.isChain_append_cons_cons.2 ⟨?_, ⟨hnext, hprev⟩, ?_⟩
  · refine Chained.frame hpre (fun a ha => ?_) fun b hb => ?_
    · rw [List.dropLast_concat] at ha
      refine hn a (fun hae => hsplit.2 (hae ▸ List.mem_append_left _ ha)) fun hax => ?_
      exact List.disjoint_of_nodup_append hsplit.1 ha (hax ▸ List.mem_cons_self)
    · rw [← hpx, List.tail_cons] at hb
      refine hp b (fun hbe => hback.2 (hbe ▸ List.mem_append_left _ hb)) fun hbz => ?_
      exact List.disjoint_of_nodup_append hback.1 hb (hbz ▸ List.mem_cons_self)
  · refine Chained.frame hpost (fun a ha => ?_) fun b hb => ?_
    · have hdrop : (z :: q).dropLast = zs := by rw [← hzq, List.dropLast_concat]
      rw [hdrop] at ha
      have hmem : a ∈ x :: zs := List.mem_cons_of_mem x ha
      refine hn a (fun hae => hsplit.2 (hae ▸ List.mem_append_right p hmem)) fun hax => ?_
      exact (List.nodup_cons.1 hsplit.1.of_append_right).1 (hax ▸ ha)
    · rw [List.tail_cons] at hb
      have hmem : b ∈ z :: q := List.mem_cons_of_mem z hb
      refine hp b (fun hbe => hback.2 (hbe ▸ List.mem_append_right ys hmem)) fun hbz => ?_
      exact (List.nodup_cons.1 hback.1.of_append_right).1 (hbz ▸ hb)

end Rings

end Linked
