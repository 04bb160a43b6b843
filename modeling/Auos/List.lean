import Auos.Lib.Ring

/-!
# Intrusive lists

The kernel's `list.c`. A list node is an address; the fields of all nodes are one `Links` record, and
an operation is the pointer writes it makes, in the order it makes them. `listRemove` leaves the
fields of the removed node as they were.

The main results restate the operations on families of rings: inserting before a head appends,
inserting after it prepends, removing erases, and no other list of the family changes.
`listOperations_refine` has this for any node in place of the head.
-/

namespace Auos

open Links

variable {α ι : Type*} [DecidableEq α]

/-- `list_init_head`. -/
def listInitHead (L : Links α) (head : α) : Links α where
  next := Function.update L.next head head
  prev := Function.update L.prev head head

/-- `list_insert_between`: four writes, in the order of the source. -/
def listInsertBetween (L : Links α) (prev next node : α) : Links α where
  next := Function.update (Function.update L.next prev node) node next
  prev := Function.update (Function.update L.prev next node) node prev

/-- `list_insert_after`. -/
def listInsertAfter (L : Links α) (pos next : α) : Links α :=
  listInsertBetween L pos (L.next pos) next

/-- `list_insert_before`. -/
def listInsertBefore (L : Links α) (pos prev : α) : Links α :=
  listInsertBetween L (L.prev pos) pos prev

/-- `list_remove_between`. -/
def listRemoveBetween (L : Links α) (prev next : α) : Links α where
  next := Function.update L.next prev next
  prev := Function.update L.prev next prev

/-- `list_remove`. -/
def listRemove (L : Links α) (node : α) : Links α :=
  listRemoveBetween L (L.prev node) (L.next node)

/-- `list_empty`. -/
def listEmpty (L : Links α) (head : α) : Bool := decide (L.next head = head)

theorem isRing_listInitHead (L : Links α) (head : α) : (listInitHead L head).IsRing head [] :=
  ⟨by simp [listInitHead], by simp⟩

theorem listInitHead_next_of_ne {L : Links α} {head x : α} (h : x ≠ head) :
    (listInitHead L head).next x = L.next x := Function.update_of_ne h _ _

theorem listInitHead_prev_of_ne {L : Links α} {head x : α} (h : x ≠ head) :
    (listInitHead L head).prev x = L.prev x := Function.update_of_ne h _ _

/-- The source writes `next->prev` before `node->prev`; the order matters only if they alias. -/
theorem listInsertBetween_eq_splice (L : Links α) (prev : α) {next node : α} (h : next ≠ node) :
    listInsertBetween L prev next node = L.splice prev next node := by
  simp only [listInsertBetween, splice, link]
  rw [Function.update_comm h]

/-! ### One list -/

/-- `list_insert_before` at the head appends. -/
theorem Links.IsRing.listInsertBefore {L : Links α} {h n : α} {xs : List α} (hr : L.IsRing h xs)
    (hn : n ∉ h :: xs) : (listInsertBefore L h n).IsRing h (xs ++ [n]) := by
  have hne : h ≠ n := fun e => hn (by simp [e])
  have hlast : L.prev h = xs.getLastD h := by
    simpa using (Path.gap xs [] (by simpa using hr.1)).2
  rw [Auos.listInsertBefore, listInsertBetween_eq_splice _ _ hne, hlast]
  have hgap : L.IsRing h (xs ++ []) := by simpa using hr
  exact hgap.splice (by simpa using hn)

/-- `list_remove` of the first element. -/
theorem Links.IsRing.listRemove {L : Links α} {h n : α} {xs : List α} (hr : L.IsRing h (n :: xs)) :
    (listRemove L n).IsRing h xs :=
  IsRing.unlink (show L.IsRing h ([] ++ n :: xs) from hr)

/-! ### Families of lists -/

section Rings

variable {L : Links α} {I : Set ι} {head : ι → α} {nodes : ι → List α} {i : ι}

theorem listEmpty_iff (h : L.Rings I head nodes) (hi : i ∈ I) :
    listEmpty L (head i) = true ↔ nodes i = [] := by
  rw [listEmpty, decide_eq_true_iff, h.next_head_eq_iff hi]

/-- Initialising a node that is in no list leaves every list alone. -/
theorem Links.Rings.listInitHead_of_notMem (h : L.Rings I head nodes) {n : α}
    (hn : ∀ j ∈ I, n ∉ head j :: nodes j) : (listInitHead L n).Rings I head nodes := by
  refine h.congr (fun j hj x hx => listInitHead_next_of_ne ?_) fun j hj x hx =>
    listInitHead_prev_of_ne ?_
  · rintro rfl; exact hn j hj hx
  · rintro rfl; exact hn j hj hx

/-- Initialising a head that is in no list adds an empty list. -/
theorem Links.Rings.listInitHead (h : L.Rings I head nodes) (hnil : nodes i = [])
    (hnew : ∀ j ∈ I, head i ∉ head j :: nodes j) :
    (listInitHead L (head i)).Rings (insert i I) head nodes :=
  (h.listInitHead_of_notMem hnew).insert_nil (isRing_listInitHead L (head i)) hnil hnew

variable [DecidableEq ι] {n : α}

/-- `list_insert_before` at a head appends. -/
theorem Links.Rings.listInsertBefore (h : L.Rings I head nodes) (hi : i ∈ I)
    (hn : ∀ j ∈ I, n ∉ head j :: nodes j) :
    (listInsertBefore L (head i) n).Rings I head (Function.update nodes i (nodes i ++ [n])) := by
  have hne : head i ≠ n := fun e => hn i hi (by simp [e])
  rw [Auos.listInsertBefore, listInsertBetween_eq_splice _ _ hne]
  exact h.insertLast hi hn

/-- `list_insert_after` at a head prepends. -/
theorem Links.Rings.listInsertAfter (h : L.Rings I head nodes) (hi : i ∈ I)
    (hn : ∀ j ∈ I, n ∉ head j :: nodes j) :
    (listInsertAfter L (head i) n).Rings I head (Function.update nodes i (n :: nodes i)) := by
  have hne : L.next (head i) ≠ n := by
    rintro rfl
    have hmem : L.next (head i) ∈ head i :: nodes i := by
      cases hnodes : nodes i with
      | nil => simp [(h.next_head_eq_iff hi).mpr hnodes]
      | cons x xs => simp [h.next_head hi hnodes]
    exact hn i hi hmem
  rw [Auos.listInsertAfter, listInsertBetween_eq_splice _ _ hne]
  exact h.insertFirst hi hn

/-- `list_remove` erases. -/
theorem Links.Rings.listRemove (h : L.Rings I head nodes) (hi : i ∈ I) (hn : n ∈ nodes i) :
    (listRemove L n).Rings I head (Function.update nodes i ((nodes i).erase n)) :=
  h.unlink hi hn

/-! ### Nodes outside a list -/

/-- `list_insert_before` at a head writes to the nodes of the list and to the new node only. -/
theorem Links.IsRing.listInsertBefore_of_notMem {h x : α} {xs : List α} (hr : L.IsRing h xs)
    (hn : n ∉ h :: xs) (hx : x ∉ h :: xs) (hxn : x ≠ n) :
    (Auos.listInsertBefore L h n).next x = L.next x ∧ (Auos.listInsertBefore L h n).prev x = L.prev x := by
  have hhead : h ∈ h :: xs := List.mem_cons_self
  have hlast := hr.prev_mem hhead
  have hne : h ≠ n := fun e => hn (e ▸ hhead)
  rw [Auos.listInsertBefore, listInsertBetween_eq_splice _ _ hne]
  refine ⟨splice_next_of_ne ?_ hxn, splice_prev_of_ne ?_ hxn⟩
  · rintro rfl; exact hx hlast
  · rintro rfl; exact hx hhead

/-- `list_remove` writes to the nodes of the list only. -/
theorem Links.IsRing.listRemove_of_notMem {h x : α} {xs : List α} (hr : L.IsRing h xs)
    (hn : n ∈ xs) (hx : x ∉ h :: xs) :
    (Auos.listRemove L n).next x = L.next x ∧ (Auos.listRemove L n).prev x = L.prev x := by
  have hmem : n ∈ h :: xs := List.mem_cons_of_mem h hn
  refine ⟨Function.update_of_ne ?_ _ _, Function.update_of_ne ?_ _ _⟩
  · rintro rfl; exact hx (hr.prev_mem hmem)
  · rintro rfl; exact hx (hr.next_mem hmem)

/-! ### Operations on sequences -/

/-- What an operation on the list `i` of a family comes to: its contents are now `xs`, all lists of the
family are well formed, and the fields of the nodes of the others are as they were. -/
structure Links.Changes (L L' : Links α) (I : Set ι) (head : ι → α) (nodes : ι → List α) (i : ι)
    (xs : List α) : Prop where
  /-- The family with the new contents. -/
  rings : L'.Rings I head (Function.update nodes i xs)
  /-- The two fields are inverse to each other. -/
  inverse : ∀ j ∈ I, ∀ x ∈ head j :: Function.update nodes i xs j,
    L'.prev (L'.next x) = x ∧ L'.next (L'.prev x) = x
  /-- The other lists. -/
  frame : ∀ j ∈ I, j ≠ i → ∀ x ∈ head j :: nodes j, L'.next x = L.next x ∧ L'.prev x = L.prev x

omit [DecidableEq α] in
/-- An operation that writes to the nodes of one list, and to nodes of no list, only. -/
theorem Links.Rings.changes {L' : Links α} {xs : List α} (h : L.Rings I head nodes)
    (hrings : L'.Rings I head (Function.update nodes i xs))
    (hframe : ∀ x, x ∉ head i :: nodes i → (∃ j ∈ I, x ∈ head j :: nodes j) →
      L'.next x = L.next x ∧ L'.prev x = L.prev x) (hi : i ∈ I) :
    L.Changes L' I head nodes i xs where
  rings := hrings
  inverse j hj _ hx := (hrings.ring j hj).inverse hx
  frame j hj hji x hx := hframe x (h.notMem_of_mem hj hi hji hx) ⟨j, hj, hx⟩

/-- Putting a node of no list between two nodes of one. -/
theorem Links.Rings.changes_splice {p q : α} {xs : List α} (h : L.Rings I head nodes) (hi : i ∈ I)
    (hp : p ∈ head i :: nodes i) (hq : q ∈ head i :: nodes i) (hn : ∀ j ∈ I, n ∉ head j :: nodes j)
    (hrings : (L.splice p q n).Rings I head (Function.update nodes i xs)) :
    L.Changes (listInsertBetween L p q n) I head nodes i xs := by
  have hne : q ≠ n := by
    rintro rfl
    exact hn i hi hq
  rw [listInsertBetween_eq_splice _ _ hne]
  refine h.changes hrings (fun x hx ⟨j, hj, hmem⟩ => ?_) hi
  have hxn : x ≠ n := by
    rintro rfl
    exact hn j hj hmem
  refine ⟨splice_next_of_ne ?_ hxn, splice_prev_of_ne ?_ hxn⟩
  · rintro rfl; exact hx hp
  · rintro rfl; exact hx hq

/-- **The list operations are those on sequences**: in any family of disjoint lists, a node of no list
is inserted just before or just after any node or head of one, where a head is the end and the start of
its list, an element is erased, and no other list changes. `list_empty` tells whether the sequence is
empty. -/
theorem listOperations_refine (h : L.Rings I head nodes) (hi : i ∈ I) :
    (∀ pos ∈ head i :: nodes i, ∀ n, (∀ j ∈ I, n ∉ head j :: nodes j) →
      L.Changes (listInsertBefore L pos n) I head nodes i
          ((nodes i).insertIdx ((nodes i).idxOf pos) n) ∧
        L.Changes (listInsertAfter L pos n) I head nodes i
          ((nodes i).insertIdx ((head i :: nodes i).idxOf pos) n)) ∧
      (∀ n ∈ nodes i, L.Changes (listRemove L n) I head nodes i ((nodes i).erase n)) ∧
      (listEmpty L (head i) = true ↔ nodes i = []) := by
  have hring := h.ring i hi
  refine ⟨fun pos hpos n hn => ⟨?_, ?_⟩, fun n hmem => ?_, listEmpty_iff h hi⟩
  · exact h.changes_splice hi (hring.prev_mem hpos) hpos hn (h.insertBefore hi hpos hn)
  · exact h.changes_splice hi hpos (hring.next_mem hpos) hn (h.insertAfter hi hpos hn)
  · refine h.changes (h.listRemove hi hmem) (fun x hx _ => ?_) hi
    exact Links.IsRing.listRemove_of_notMem hring hmem hx

/-- A heap of two lists: the list of the head `0` holds `1`, the list of the head `2` is empty. -/
def twoLists : Links ℕ := ⟨fun x => if x = 0 then 1 else if x = 1 then 0 else x,
  fun x => if x = 0 then 1 else if x = 1 then 0 else x⟩

/-- The heads of the two lists. -/
def twoHeads (b : Bool) : ℕ := if b then 2 else 0

/-- The elements of the two lists. -/
def twoNodes (b : Bool) : List ℕ := if b then [] else [1]

theorem rings_twoLists : twoLists.Rings Set.univ twoHeads twoNodes where
  ring := by
    rintro (_ | _) -
    · exact ⟨⟨⟨rfl, rfl⟩, rfl, rfl⟩, by decide⟩
    · exact ⟨⟨rfl, rfl⟩, by decide⟩
  disjoint := by
    rintro (_ | _) - (_ | _) - hne
    · exact absurd rfl hne
    · simp [twoHeads, twoNodes]
    · simp [twoHeads, twoNodes]
    · exact absurd rfl hne

theorem listOperations_twoLists :
    twoLists.Changes (listInsertBefore twoLists 1 3) Set.univ twoHeads twoNodes false [3, 1] ∧
      twoLists.Changes (listInsertAfter twoLists 1 3) Set.univ twoHeads twoNodes false [1, 3] ∧
      twoLists.Changes (listRemove twoLists 1) Set.univ twoHeads twoNodes false [] := by
  have hnew : ∀ j ∈ (Set.univ : Set Bool), 3 ∉ twoHeads j :: twoNodes j := by
    rintro (_ | _) -
    · decide
    · decide
  obtain ⟨hinsert, hremove, -⟩ := listOperations_refine rings_twoLists (Set.mem_univ false)
  obtain ⟨hbefore, hafter⟩ := hinsert 1 (by decide) 3 hnew
  exact ⟨hbefore, hafter, hremove 1 (by decide)⟩

end Rings

end Auos
