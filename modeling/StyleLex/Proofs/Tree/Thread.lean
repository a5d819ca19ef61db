/-
# The thread as a list

`tree.Chained none none ids` says that the thread runs through `ids`, from the first to the last,
and that the links of these nodes say so in both directions.  Putting a node on the thread after
`anchor` inserts it after `anchor` in the list (`Chained.linkAfter`), and `production` is the
list (`Chained.production_eq`).  Of the links that were there, a stretch that is put in moves two
(`Chained.next?_inserted`, `Chained.previous?_inserted`).

A stretch is said with what stands before and behind it, so that stretches can be cut and joined
(`chained_append`); the whole thread is the stretch with nothing on either side.  That nothing
stands behind its last node is what makes the walk stop there, and not only because the walk has a
bound.

The walk itself counts down from the number of nodes, so it would stop on a ring as well.  Nothing
here relies on that: whoever claims that a walk visits all nodes shows that the thread is a list of
them that ends.
-/
import Mathlib.Data.List.Nodup
import StyleLex.Proofs.Tree.Nodes

namespace StyleLex
namespace Tree

/-! ## 1. Stretches of the thread -/

/-- The thread runs through `ids`; `before` is the node before them and `after` the one behind. -/
def Chained (tree : Tree) (before after : Option NodeId) : List NodeId → Prop
  | [] => True
  | id :: rest =>
    tree.previous? id = before ∧ tree.next? id = rest.head?.or after ∧
      Chained tree (some id) after rest

variable {tree tree' : Tree} {before after : Option NodeId}

/-- **Stretches are cut and joined**: the first part is followed by what the second one begins with,
and the second one preceded by what the first one ends with. -/
theorem chained_append {a b : List NodeId} :
    tree.Chained before after (a ++ b) ↔
      tree.Chained before (b.head?.or after) a ∧ tree.Chained (a.getLast?.or before) after b := by
  induction a generalizing before with
  | nil => simp [Chained]
  | cons id rest ih =>
    have hlast : (id :: rest).getLast?.or before = rest.getLast?.or (some id) := by
      cases h : rest.getLast? <;> simp [List.getLast?_cons, h]
    have hhead : (rest ++ b).head?.or after = rest.head?.or (b.head?.or after) := by
      cases rest <;> simp
    rw [List.cons_append, Chained, Chained, ih, hlast, hhead]
    tauto

/-- A stretch depends on the links of its own nodes only. -/
theorem Chained.congr {ids : List NodeId} (h : tree.Chained before after ids)
    (hprevious : ∀ id ∈ ids, tree'.previous? id = tree.previous? id)
    (hnext : ∀ id ∈ ids, tree'.next? id = tree.next? id) : tree'.Chained before after ids := by
  induction ids generalizing before with
  | nil => trivial
  | cons id rest ih =>
    obtain ⟨h₁, h₂, h₃⟩ := h
    refine ⟨?_, ?_, ih h₃ ?_ ?_⟩
    · rw [hprevious id List.mem_cons_self, h₁]
    · rw [hnext id List.mem_cons_self, h₂]
    · intro j hj
      exact hprevious j (List.mem_cons_of_mem id hj)
    · intro j hj
      exact hnext j (List.mem_cons_of_mem id hj)

/-- What stands after a node on the thread is what its links say. -/
theorem Chained.next?_eq {a b : List NodeId} {id : NodeId}
    (h : tree.Chained before after (a ++ id :: b)) : tree.next? id = b.head?.or after :=
  (chained_append.mp h).2.2.1

/-- And what stands before it. -/
theorem Chained.previous?_eq {a b : List NodeId} {id : NodeId}
    (h : tree.Chained before after (a ++ id :: b)) :
    tree.previous? id = a.getLast?.or before :=
  (chained_append.mp h).2.1

/-- Behind the last node of a stretch stands what is behind the stretch. -/
theorem Chained.next?_last {ids : List NodeId} {last : NodeId} (h : tree.Chained before after ids)
    (hlast : ids.getLast? = some last) : tree.next? last = after := by
  obtain ⟨front, rfl⟩ := List.getLast?_eq_some_iff.mp hlast
  rw [h.next?_eq, List.head?_nil, Option.none_or]

/-- The links of a node on the thread lead to nodes on the thread. -/
theorem Chained.mem_of_next? {ids : List NodeId} (h : tree.Chained none none ids) {a b : NodeId}
    (ha : a ∈ ids) (hnext : tree.next? a = some b) : b ∈ ids := by
  obtain ⟨front, back, rfl⟩ := List.append_of_mem ha
  rw [h.next?_eq, Option.or_none] at hnext
  exact List.mem_append_right _ (List.mem_cons_of_mem _ (List.mem_of_head? hnext))

/-- The same for links backward. -/
theorem Chained.mem_of_previous? {ids : List NodeId} (h : tree.Chained none none ids)
    {a b : NodeId} (hb : b ∈ ids) (hprevious : tree.previous? b = some a) : a ∈ ids := by
  obtain ⟨front, back, rfl⟩ := List.append_of_mem hb
  rw [h.previous?_eq, Option.or_none] at hprevious
  exact List.mem_append_left _ (List.mem_of_getLast? hprevious)

/-! ## 2. Insertion

The three places that can change are the anchor, the new node and the node behind the anchor; all
others are before the anchor or behind that node, and keep their links because no id stands on the
thread twice. -/

/-- **A node put after `anchor` stands after `anchor` in the list.** -/
theorem Chained.linkAfter {a b : List NodeId} {anchor id : NodeId}
    (h : tree.Chained none none (a ++ anchor :: b)) (hnodup : (a ++ anchor :: b).Nodup)
    (hsize : ∀ j ∈ a ++ anchor :: b, j < tree.size) (hid : id < tree.size)
    (hnew : id ∉ a ++ anchor :: b) :
    (tree.linkAfter anchor id).Chained none none (a ++ anchor :: id :: b) := by
  obtain ⟨-, hab, hdisjoint⟩ := List.nodup_append'.mp hnodup
  obtain ⟨hanchorb, hb⟩ := List.nodup_cons.mp hab
  have hnexta : tree.next? anchor = b.head? := by
    rw [h.next?_eq, Option.or_none]
  have hne : id ≠ anchor := by
    rintro rfl
    exact hnew (by simp)
  have hsizeanchor : anchor < tree.size := hsize anchor (by simp)
  have hnext := fun j => next?_linkAfter hne hid hsizeanchor j
  have hnextid : tree.next? anchor ≠ some id := by
    rw [hnexta]
    intro he
    exact hnew (by simp [List.mem_of_mem_head? he])
  have hfurther : ∀ further, tree.next? anchor = some further → further < tree.size := by
    intro further he
    rw [hnexta] at he
    exact hsize further (by simp [List.mem_of_mem_head? he])
  have hprevious := previous?_linkAfter hid hnextid hfurther
  obtain ⟨hA, hprev, -, hB⟩ := chained_append.mp h
  -- the list in its parts: what is before the anchor, the anchor, the new node, and what was behind
  refine chained_append.mpr ⟨?_, ?_, ?_, ?_, ?_, ?_⟩
  · -- before the anchor no link moves
    refine hA.congr ?_ ?_
    · intro j hj
      have hjid : j ≠ id := fun he => hnew (by simp [← he, hj])
      have hjb : b.head? ≠ some j := fun he =>
        hdisjoint hj (List.mem_cons_of_mem anchor (List.mem_of_mem_head? he))
      rw [hprevious, if_neg hjid, hnexta, if_neg hjb]
    · intro j hj
      have hjid : j ≠ id := fun he => hnew (by simp [← he, hj])
      have hja : j ≠ anchor := fun he => hdisjoint hj (by simp [he])
      rw [hnext, if_neg hja, if_neg hjid]
  · have hhead : b.head? ≠ some anchor := fun he => hanchorb (List.mem_of_mem_head? he)
    rw [hprevious, if_neg (Ne.symm hne), hnexta, if_neg hhead, hprev]
  · rw [hnext, if_pos rfl]
    rfl
  · rw [hprevious, if_pos rfl]
  · rw [hnext, if_neg hne, if_pos rfl, hnexta, Option.or_none]
  · -- behind it, only the first node has a new predecessor
    cases b with
    | nil => trivial
    | cons first rest =>
      obtain ⟨-, hB₂, hB₃⟩ := hB
      have hfirst : first ∉ rest := (List.nodup_cons.mp hb).1
      have hothers : ∀ j ∈ first :: rest, j ≠ id ∧ j ≠ anchor := by
        intro j hj
        refine ⟨?_, ?_⟩
        · rintro rfl
          exact hnew (by simp [List.mem_cons.mp hj])
        · rintro rfl
          exact hanchorb hj
      refine ⟨?_, ?_, hB₃.congr ?_ ?_⟩
      · rw [hprevious, if_neg (hothers first List.mem_cons_self).1, hnexta, List.head?_cons,
          if_pos rfl]
      · obtain ⟨h₁, h₂⟩ := hothers first List.mem_cons_self
        rw [hnext, if_neg h₂, if_neg h₁, hB₂]
      · intro j hj
        have hjfirst : first ≠ j := fun he => hfirst (he ▸ hj)
        rw [hprevious, if_neg (hothers j (List.mem_cons_of_mem first hj)).1, hnexta,
          List.head?_cons, if_neg (by simpa using hjfirst)]
      · intro j hj
        obtain ⟨h₁, h₂⟩ := hothers j (List.mem_cons_of_mem first hj)
        rw [hnext, if_neg h₂, if_neg h₁]

/-! ## 3. Walking it

The walk and the list go in step: with as many steps left as there are ids left, the walk has seen
exactly what the list has before that place. -/

/-- The walk from the first id of a stretch sees the stretch, in order, if it may take that many
steps and nothing stands behind. -/
theorem followThread_eq : ∀ (n : Nat) (ids : List NodeId) (before : Option NodeId)
    (seen : Array NodeId), tree.Chained before none ids → ids.length ≤ n →
    (tree.followThread n seen ids.head?).toList = seen.toList ++ ids
  | 0, [], _, _, _, _ => by simp [followThread]
  | n + 1, [], _, _, _, _ => by simp [followThread]
  | 0, _ :: _, _, _, _, hlength => by simp at hlength
  | n + 1, id :: rest, _, seen, h, hlength => by
    obtain ⟨-, hnext, hrest⟩ := h
    rw [List.head?_cons, followThread, hnext, Option.or_none,
      followThread_eq n rest (some id) (seen.push id) hrest (by simpa using hlength)]
    simp

/-- **The walk along the thread meets the nodes of the list, in order.** -/
theorem Chained.production_eq {rest : List NodeId}
    (h : tree.Chained none none (root :: rest)) (hlength : rest.length < tree.size) :
    tree.production.toList = root :: rest := by
  have := followThread_eq tree.size (root :: rest) none #[] h hlength
  simpa [production] using this

/-- Along the thread, the two links of every node agree. -/
theorem Chained.next?_iff_previous? {ids : List NodeId} (h : tree.Chained none none ids)
    (hnodup : ids.Nodup) {a b : NodeId} (ha : a ∈ ids) (hb : b ∈ ids) :
    tree.next? a = some b ↔ tree.previous? b = some a := by
  -- each id has one place in the list, so its neighbours there are its links; what remains is that
  -- one splitting of the list at `a` and one at `b` are the same splitting
  obtain ⟨front, back, rfl⟩ := List.append_of_mem ha
  obtain ⟨front', back', heq⟩ := List.append_of_mem hb
  have hnext : tree.next? a = back.head? := by
    rw [h.next?_eq, Option.or_none]
  have hprevious : tree.previous? b = front'.getLast? := by
    rw [heq] at h
    rw [h.previous?_eq, Option.or_none]
  rw [hnext, hprevious]
  constructor
  · intro hhead
    obtain ⟨further, rfl⟩ : ∃ further, back = b :: further := by
      cases back with
      | nil => simp at hhead
      | cons first further => exact ⟨further, by simpa using hhead⟩
    have hsplit : (front ++ [a]) ++ b :: further = front' ++ b :: back' := by
      rw [← heq]
      simp
    have hnd : ((front ++ [a]) ++ b :: further).Nodup := by
      rw [hsplit, ← heq]
      exact hnodup
    obtain ⟨hfront, hfurther⟩ := not_or.mp
      (fun h => (List.nodup_middle.mp hnd).notMem (List.mem_append.mpr h))
    obtain ⟨rfl, -, -⟩ := (List.append_cons_inj_of_notMem hfront hfurther).mp hsplit
    simp
  · intro hlast
    obtain ⟨further, rfl⟩ := List.getLast?_eq_some_iff.mp hlast
    have hsplit : front ++ a :: back = further ++ a :: b :: back' := by
      rw [heq]
      simp
    obtain ⟨hfront, hback⟩ := not_or.mp
      (fun h => (List.nodup_middle.mp hnodup).notMem (List.mem_append.mpr h))
    obtain ⟨-, -, rfl⟩ := (List.append_cons_inj_of_notMem hfront hback).mp hsplit
    simp

/-! ## 4. A stretch put in -/

section Insertion

variable {front fresh back : List NodeId} {id : NodeId}

/-- **Putting a stretch on the thread moves one link forwards**, that of the node in front of the
stretch. -/
theorem Chained.next?_inserted (h : tree.Chained none none (front ++ back))
    (h' : tree'.Chained none none (front ++ fresh ++ back)) (hnodup : (front ++ back).Nodup)
    (hid : id ∈ front ++ back) : tree'.next? id =
      if front.getLast? = some id then (fresh ++ back).head? else tree.next? id := by
  obtain ⟨hfront, -, hdisjoint⟩ := List.nodup_append'.mp hnodup
  rcases List.mem_append.mp hid with hid | hid
  · obtain ⟨a, b, rfl⟩ := List.append_of_mem hid
    simp only [List.append_assoc, List.cons_append] at h h'
    rw [h.next?_eq, h'.next?_eq, Option.or_none, Option.or_none]
    cases b with
    | nil => simp
    | cons next b =>
      have hlast : (a ++ id :: next :: b).getLast? ≠ some id := by
        intro hlast
        have hin : id ∈ next :: b :=
          List.mem_of_getLast? (by simpa [List.getLast?_cons] using hlast)
        exact (List.nodup_cons.mp (List.nodup_append'.mp hfront).2.1).1 hin
      rw [if_neg hlast]
      simp
  · have hlast : front.getLast? ≠ some id := fun hlast =>
      hdisjoint (List.mem_of_getLast? hlast) hid
    obtain ⟨a, b, rfl⟩ := List.append_of_mem hid
    simp only [← List.append_assoc] at h h'
    rw [h.next?_eq, h'.next?_eq, if_neg hlast]

/-- And one backwards, that of the node behind it. -/
theorem Chained.previous?_inserted (h : tree.Chained none none (front ++ back))
    (h' : tree'.Chained none none (front ++ fresh ++ back)) (hnodup : (front ++ back).Nodup)
    (hid : id ∈ front ++ back) : tree'.previous? id =
      if back.head? = some id then (front ++ fresh).getLast? else tree.previous? id := by
  obtain ⟨-, hback, hdisjoint⟩ := List.nodup_append'.mp hnodup
  rcases List.mem_append.mp hid with hid | hid
  · have hhead : back.head? ≠ some id := fun hhead => hdisjoint hid (List.mem_of_head? hhead)
    obtain ⟨a, b, rfl⟩ := List.append_of_mem hid
    simp only [List.append_assoc, List.cons_append] at h h'
    rw [h.previous?_eq, h'.previous?_eq, if_neg hhead]
  · obtain ⟨a, b, rfl⟩ := List.append_of_mem hid
    simp only [← List.append_assoc] at h h'
    rw [h.previous?_eq, h'.previous?_eq, Option.or_none, Option.or_none]
    cases a with
    | nil => simp
    | cons first a =>
      have hhead : (first :: a ++ id :: b).head? ≠ some id := by
        intro hhead
        obtain rfl : first = id := by simpa using hhead
        exact (List.nodup_cons.mp hback).1 (by simp)
      rw [if_neg hhead]
      simp [List.getLast?_cons]

end Insertion

end Tree
end StyleLex
