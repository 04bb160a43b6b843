import Mathlib.Data.List.Nodup
import Mathlib.Data.Set.Basic
import Mathlib.Logic.Function.Basic

/-!
# Circular doubly linked rings in a heap of nodes

An intrusive list lives in a heap: every node carries a `next` and a `prev` field, and a list is a
cycle through a *head* node which carries no element. Nothing stops two lists from being tangled, so
a heap is described by the family of rings it contains and by their being pairwise disjoint.

The description is by *paths*. `L.Path a xs b` walks from `a` through `xs` to `b` along `next` with
every `prev` pointing back, and a ring with head `h` is a path from `h` to `h`. The fields around any
gap are known (`Path.gap`), and a path depends only on the fields it walks over (`Path.congr`), which
is all that inserting and removing need.

## Main definitions

* `Links` — the two pointer fields of all nodes of a heap
* `Links.Path`, `Links.IsRing` — a walk, and a walk that closes up at a head
* `Links.Rings` — a family of pairwise disjoint rings

## Main results

* `Rings.insertBefore`, `Rings.insertAfter`, `Rings.unlink` — what the pointer writes do to the family
* `IsRing.inverse` — the two fields undo each other
* `IsRing.mem_iff_exists_iterate` — the nodes of a ring are those reached from its head
* `Rings.next_head_eq_iff` — a head points to itself exactly when its ring is empty
-/

namespace Auos

/-- The `next` and `prev` fields of every node of a heap. -/
structure Links (α : Type*) where
  /-- The node after this one. -/
  next : α → α
  /-- The node before this one. -/
  prev : α → α

namespace Links

variable {α ι : Type*}

/-! ### Paths -/

/-- From `a` through `xs` to `b` along `next`, with every `prev` pointing back. -/
def Path (L : Links α) : α → List α → α → Prop
  | a, [], b => L.next a = b ∧ L.prev b = a
  | a, x :: xs, b => (L.next a = x ∧ L.prev x = a) ∧ Path L x xs b

@[simp] theorem path_nil (L : Links α) (a b : α) :
    L.Path a [] b ↔ L.next a = b ∧ L.prev b = a := Iff.rfl

@[simp] theorem path_cons (L : Links α) (a x b : α) (xs : List α) :
    L.Path a (x :: xs) b ↔ (L.next a = x ∧ L.prev x = a) ∧ L.Path x xs b := Iff.rfl

/-- A path reads `next` at its start and its inner nodes, `prev` at its inner nodes and its end. -/
theorem Path.congr {L L' : Links α} {a b : α} {xs : List α} (h : L.Path a xs b)
    (hn : ∀ x ∈ a :: xs, L'.next x = L.next x) (hp : ∀ x ∈ xs ++ [b], L'.prev x = L.prev x) :
    L'.Path a xs b := by
  induction xs generalizing a with
  | nil => exact ⟨(hn a (by simp)).trans h.1, (hp b (by simp)).trans h.2⟩
  | cons x xs ih =>
    refine ⟨⟨(hn a (by simp)).trans h.1.1, (hp x (by simp)).trans h.1.2⟩, ih h.2 ?_ ?_⟩
    · exact fun y hy => hn y (List.mem_cons_of_mem _ hy)
    · exact fun y hy => hp y (List.mem_cons_of_mem _ hy)

/-- The two nodes around a cut point of a path are neighbours. -/
theorem Path.gap {L : Links α} {a b : α} (xs ys : List α) (h : L.Path a (xs ++ ys) b) :
    L.next (xs.getLastD a) = ys.headD b ∧ L.prev (ys.headD b) = xs.getLastD a := by
  induction xs generalizing a with
  | nil => cases ys with
    | nil => exact h
    | cons y ys => exact h.1
  | cons x xs ih => rw [List.getLastD_cons]; exact ih h.2

theorem ne_getLastD {a x : α} {xs : List α} (h : a ∉ x :: xs) : a ≠ xs.getLastD x :=
  fun e => h (e.symm ▸ List.getLastD_mem_cons)

theorem ne_headD {a b : α} {ys : List α} (h : a ∉ ys) (hb : a ≠ b) : a ≠ ys.headD b := by
  cases ys with
  | nil => exact hb
  | cons y ys => rintro rfl; exact h (by simp)

/-- The ends of a gap further on differ from the first nodes of a path. -/
theorem ends_ne {a b x : α} {xs ys zs : List α} (hnd : (a :: (x :: xs ++ zs)).Nodup) (hys : ys ⊆ zs)
    (hb : b ≠ x) : a ≠ xs.getLastD x ∧ x ≠ ys.headD b := by
  simp only [List.cons_append, List.nodup_cons, List.mem_cons, List.mem_append, not_or] at hnd
  obtain ⟨⟨hax, haxs, -⟩, ⟨-, hxzs⟩, -⟩ := hnd
  constructor
  · exact ne_getLastD fun e => (List.mem_cons.mp e).elim hax haxs
  · exact ne_headD (fun e => hxzs (hys e)) hb.symm

/-- The node before a cut point, or the start. -/
theorem getLastD_mem (a : α) (xs ys : List α) : xs.getLastD a ∈ a :: (xs ++ ys) :=
  List.cons_subset_cons a (List.subset_append_left xs ys) List.getLastD_mem_cons

/-- The node after a cut point, or the end. -/
theorem headD_mem (a : α) (xs ys : List α) : ys.headD a ∈ a :: (xs ++ ys) := by
  cases ys <;> simp

/-! ### Cutting a list at a node -/

theorem insertIdx_length_append (xs ys : List α) (n : α) :
    (xs ++ ys).insertIdx xs.length n = xs ++ n :: ys := by
  induction xs with
  | nil => rfl
  | cons x xs ih => rw [List.cons_append, List.length_cons, List.insertIdx_succ_cons, ih]; rfl

section Cut

variable [DecidableEq α] {h pos : α} {xs : List α}

/-- The cut just before a node, which is the end of the list for a head. -/
theorem exists_cut_before (hpos : pos ∈ h :: xs) (hh : h ∉ xs) :
    ∃ as bs, xs = as ++ bs ∧ bs.headD h = pos ∧ as.length = xs.idxOf pos := by
  rcases List.mem_cons.mp hpos with rfl | hmem
  · exact ⟨xs, [], (List.append_nil xs).symm, rfl, (List.idxOf_eq_length hh).symm⟩
  · obtain ⟨as, bs, rfl, hnew⟩ := List.eq_append_cons_of_mem hmem
    refine ⟨as, pos :: bs, rfl, rfl, ?_⟩
    rw [List.idxOf_append_of_notMem hnew, List.idxOf_cons_self]
    rfl

/-- The cut just after a node, which is the start of the list for a head. -/
theorem exists_cut_after (hpos : pos ∈ h :: xs) :
    ∃ as bs, xs = as ++ bs ∧ as.getLastD h = pos ∧ as.length = (h :: xs).idxOf pos := by
  by_cases hhead : h = pos
  · subst hhead
    exact ⟨[], xs, rfl, rfl, List.idxOf_cons_self.symm⟩
  · have hmem : pos ∈ xs := (List.mem_cons.mp hpos).resolve_left fun e => hhead e.symm
    obtain ⟨as, bs, rfl, hnew⟩ := List.eq_append_cons_of_mem hmem
    refine ⟨as ++ [pos], bs, by simp, by simp, ?_⟩
    rw [List.idxOf_cons_ne _ hhead, List.idxOf_append_of_notMem hnew, List.idxOf_cons_self,
      List.length_append, List.length_singleton]

end Cut

/-! ### Rings -/

/-- The ring with head `h` and elements `xs`: the walk from `h` through `xs` closes up at `h`, and
no node is met twice. -/
def IsRing (L : Links α) (h : α) (xs : List α) : Prop := L.Path h xs h ∧ (h :: xs).Nodup

theorem IsRing.congr {L L' : Links α} {h : α} {xs : List α} (hr : L.IsRing h xs)
    (hn : ∀ x ∈ h :: xs, L'.next x = L.next x) (hp : ∀ x ∈ h :: xs, L'.prev x = L.prev x) :
    L'.IsRing h xs :=
  ⟨hr.1.congr hn fun x hx => hp x (by simpa [or_comm] using hx), hr.2⟩

/-- A head points to itself exactly when its ring is empty. -/
theorem IsRing.next_eq_iff {L : Links α} {h : α} {xs : List α} (hr : L.IsRing h xs) :
    L.next h = h ↔ xs = [] := by
  cases xs with
  | nil => simpa using hr.1.1
  | cons x xs =>
    have hx : x ≠ h := fun e => by simpa [e] using hr.2
    simp [hr.1.1.1, hx]

/-- Every node of a path is reached by following `next` from its start. -/
theorem Path.exists_iterate {L : Links α} {a b x : α} {xs : List α} (h : L.Path a xs b)
    (hx : x ∈ a :: xs) : ∃ n, L.next^[n] a = x := by
  induction xs generalizing a with
  | nil => exact ⟨0, (List.mem_singleton.mp hx).symm⟩
  | cons y ys ih =>
    rcases List.mem_cons.mp hx with rfl | hx
    · exact ⟨0, rfl⟩
    · obtain ⟨n, hn⟩ := ih h.2 hx
      exact ⟨n + 1, by rw [Function.iterate_succ_apply, h.1.1, hn]⟩

theorem Path.next_mem {L : Links α} {a b x : α} {xs : List α} (h : L.Path a xs b)
    (hx : x ∈ a :: xs) : L.next x ∈ xs ++ [b] := by
  induction xs generalizing a with
  | nil => rw [List.mem_singleton.mp hx, h.1]; simp
  | cons y ys ih =>
    rcases List.mem_cons.mp hx with rfl | hx
    · rw [h.1.1]; simp
    · exact List.mem_cons_of_mem _ (ih h.2 hx)

theorem Path.prev_mem {L : Links α} {a b x : α} {xs : List α} (h : L.Path a xs b)
    (hx : x ∈ xs ++ [b]) : L.prev x ∈ a :: xs := by
  induction xs generalizing a with
  | nil => rw [List.mem_singleton.mp hx, h.2]; simp
  | cons y ys ih =>
    rcases List.mem_cons.mp hx with rfl | hx
    · rw [h.1.2]; simp
    · exact List.mem_cons_of_mem _ (ih h.2 hx)

/-- Every node of a path but its end is where the `prev` of its successor points. -/
theorem Path.prev_next {L : Links α} {a b x : α} {xs : List α} (h : L.Path a xs b)
    (hx : x ∈ a :: xs) : L.prev (L.next x) = x := by
  induction xs generalizing a with
  | nil => rw [List.mem_singleton.mp hx, h.1, h.2]
  | cons y ys ih =>
    rcases List.mem_cons.mp hx with rfl | hx
    · rw [h.1.1, h.1.2]
    · exact ih h.2 hx

/-- Every node of a path but its start is where the `next` of its predecessor points. -/
theorem Path.next_prev {L : Links α} {a b x : α} {xs : List α} (h : L.Path a xs b)
    (hx : x ∈ xs ++ [b]) : L.next (L.prev x) = x := by
  induction xs generalizing a with
  | nil => rw [List.mem_singleton.mp hx, h.2, h.1]
  | cons y ys ih =>
    rcases List.mem_cons.mp hx with rfl | hx
    · rw [h.1.2, h.1.1]
    · exact ih h.2 hx

theorem IsRing.next_mem {L : Links α} {h x : α} {xs : List α} (hr : L.IsRing h xs)
    (hx : x ∈ h :: xs) : L.next x ∈ h :: xs := by
  simpa [or_comm] using hr.1.next_mem hx

theorem IsRing.prev_mem {L : Links α} {h x : α} {xs : List α} (hr : L.IsRing h xs)
    (hx : x ∈ h :: xs) : L.prev x ∈ h :: xs :=
  hr.1.prev_mem (by simpa [or_comm] using hx)

/-- On a ring `next` and `prev` are inverse to each other. -/
theorem IsRing.inverse {L : Links α} {h x : α} {xs : List α} (hr : L.IsRing h xs)
    (hx : x ∈ h :: xs) : L.prev (L.next x) = x ∧ L.next (L.prev x) = x :=
  ⟨hr.1.prev_next hx, hr.1.next_prev (by simpa [or_comm] using hx)⟩

/-- The nodes of a ring are what following `next` from its head reaches. -/
theorem IsRing.mem_iff_exists_iterate {L : Links α} {h x : α} {xs : List α} (hr : L.IsRing h xs) :
    x ∈ h :: xs ↔ ∃ n, L.next^[n] h = x := by
  refine ⟨hr.1.exists_iterate, ?_⟩
  rintro ⟨n, rfl⟩
  induction n with
  | zero => simp
  | succ n ih =>
    rw [Function.iterate_succ_apply']
    simpa [or_comm] using hr.1.next_mem ih

theorem IsRing.next_head {L : Links α} {h x : α} {xs : List α} (hr : L.IsRing h (x :: xs)) :
    L.next h = x := hr.1.1.1

/-! ### Pointer writes

`splice p s n` puts `n` between `p` and `s`, and `unlink n` joins the neighbours of `n`. -/

section Writes

variable [DecidableEq α]

/-- Join `p` to `s` in both directions. -/
def link (L : Links α) (p s : α) : Links α :=
  ⟨Function.update L.next p s, Function.update L.prev s p⟩

/-- Put `n` between `p` and `s`. -/
def splice (L : Links α) (p s n : α) : Links α := (L.link p n).link n s

/-- Join the two neighbours of `n`; the fields of `n` itself are left as they are. -/
def unlink (L : Links α) (n : α) : Links α := L.link (L.prev n) (L.next n)

theorem link_next_of_ne {L : Links α} {p s x : α} (h : x ≠ p) : (L.link p s).next x = L.next x :=
  Function.update_of_ne h _ _

theorem link_prev_of_ne {L : Links α} {p s x : α} (h : x ≠ s) : (L.link p s).prev x = L.prev x :=
  Function.update_of_ne h _ _

@[simp] theorem link_next_self (L : Links α) (p s : α) : (L.link p s).next p = s :=
  Function.update_self ..

@[simp] theorem link_prev_self (L : Links α) (p s : α) : (L.link p s).prev s = p :=
  Function.update_self ..

theorem splice_next_of_ne {L : Links α} {p s n x : α} (hp : x ≠ p) (hn : x ≠ n) :
    (L.splice p s n).next x = L.next x := by
  rw [splice, link_next_of_ne hn, link_next_of_ne hp]

theorem splice_prev_of_ne {L : Links α} {p s n x : α} (hs : x ≠ s) (hn : x ≠ n) :
    (L.splice p s n).prev x = L.prev x := by
  rw [splice, link_prev_of_ne hs, link_prev_of_ne hn]

/-- Splicing a fresh node into the gap between `xs` and `ys`. The two ends of the path may be one
node, so the induction keeps the start of the path apart from its end. -/
theorem Path.splice {L : Links α} {a b n : α} {xs ys : List α} (h : L.Path a (xs ++ ys) b)
    (hnd : (a :: (xs ++ ys)).Nodup) (hb : b ∉ xs ++ ys) (hn : n ∉ a :: (xs ++ ys)) (hnb : n ≠ b) :
    (L.splice (xs.getLastD a) (ys.headD b) n).Path a (xs ++ n :: ys) b := by
  induction xs generalizing a with
  | nil =>
    have hna : n ≠ a := fun e => hn (by simp [e])
    cases ys with
    | nil => simp [Links.splice, link_next_of_ne hna.symm, link_prev_of_ne hnb]
    | cons y ys =>
      have hny : n ≠ y := fun e => hn (by simp [e])
      simp only [List.nil_append, List.nodup_cons, List.mem_cons, not_or] at hnd hb hn
      refine ⟨⟨by simp [Links.splice, link_next_of_ne hna.symm],
        by simp [Links.splice, link_prev_of_ne hny]⟩, ⟨by simp [Links.splice],
        by simp [Links.splice]⟩, h.2.congr (fun x hx => splice_next_of_ne ?_ ?_)
        fun x hx => splice_prev_of_ne ?_ ?_⟩
      · rintro rfl; exact (List.mem_cons.mp hx).elim hnd.1.1 hnd.1.2
      · rintro rfl; exact (List.mem_cons.mp hx).elim hny hn.2.2
      · rintro rfl; simp only [List.mem_append, List.mem_singleton] at hx
        exact hx.elim hnd.2.1 fun e => hb.1 e.symm
      · rintro rfl; simp only [List.mem_append, List.mem_singleton] at hx
        exact hx.elim hn.2.2 hnb
  | cons x xs ih =>
    simp only [List.cons_append, List.mem_cons, not_or] at hb hn
    obtain ⟨hax, hxs⟩ := ends_ne hnd (List.Subset.refl ys) hb.1
    simp only [List.cons_append, List.nodup_cons, List.mem_cons, not_or] at hnd
    rw [List.getLastD_cons]
    refine ⟨⟨?_, ?_⟩, ih h.2 (by simpa using hnd.2) hb.2 (by simpa using hn.2)⟩
    · rw [splice_next_of_ne hax fun e => hn.1 e.symm]; exact h.1.1
    · rw [splice_prev_of_ne hxs fun e => hn.2.1 e.symm]; exact h.1.2

/-- Unlinking a node from the middle of a path. -/
theorem Path.unlink {L : Links α} {a b n : α} {xs ys : List α} (h : L.Path a (xs ++ n :: ys) b)
    (hnd : (a :: (xs ++ n :: ys)).Nodup) (hb : b ∉ xs ++ ys) :
    (L.link (xs.getLastD a) (ys.headD b)).Path a (xs ++ ys) b := by
  induction xs generalizing a with
  | nil => cases ys with
    | nil => simp
    | cons y ys =>
      simp only [List.nil_append, List.nodup_cons, List.mem_cons, not_or] at hnd hb
      refine ⟨by simp, h.2.2.congr (fun x hx => link_next_of_ne ?_) fun x hx =>
        link_prev_of_ne ?_⟩
      · rintro rfl; exact (List.mem_cons.mp hx).elim hnd.1.2.1 hnd.1.2.2
      · rintro rfl; simp only [List.mem_append, List.mem_singleton] at hx
        exact hx.elim hnd.2.2.1 fun e => hb.1 e.symm
  | cons x xs ih =>
    simp only [List.cons_append, List.mem_cons, not_or] at hb
    obtain ⟨hax, hxs⟩ := ends_ne hnd (List.subset_cons_self n ys) hb.1
    simp only [List.cons_append, List.nodup_cons, List.mem_cons, not_or] at hnd
    rw [List.getLastD_cons]
    refine ⟨⟨?_, ?_⟩, ih h.2 (by simpa using hnd.2) hb.2⟩
    · rw [link_next_of_ne hax]; exact h.1.1
    · rw [link_prev_of_ne hxs]; exact h.1.2

/-! ### What the writes do to a ring -/

theorem IsRing.splice {L : Links α} {h n : α} {xs ys : List α} (hr : L.IsRing h (xs ++ ys))
    (hn : n ∉ h :: (xs ++ ys)) :
    (L.splice (xs.getLastD h) (ys.headD h) n).IsRing h (xs ++ n :: ys) := by
  refine ⟨hr.1.splice hr.2 (List.nodup_cons.mp hr.2).1 hn fun e => hn (by simp [e]), ?_⟩
  have hnd := hr.2
  simp only [List.nodup_cons, List.mem_cons, List.mem_append, not_or] at hnd hn ⊢
  exact ⟨⟨hnd.1.1, fun e => hn.1 e.symm, hnd.1.2⟩,
    List.nodup_middle.mpr (List.nodup_cons.mpr ⟨by simpa using hn.2, hnd.2⟩)⟩

theorem IsRing.unlink {L : Links α} {h n : α} {xs ys : List α} (hr : L.IsRing h (xs ++ n :: ys)) :
    (L.unlink n).IsRing h (xs ++ ys) := by
  have hnd := List.nodup_cons.mp hr.2
  have hpre : L.prev n = xs.getLastD h := (Path.gap xs (n :: ys) hr.1).2
  have hsuc : L.next n = ys.headD h := by
    have := (Path.gap (xs ++ [n]) ys (by simpa using hr.1)).1
    simpa using this
  have hsub : List.Sublist (xs ++ ys) (xs ++ n :: ys) :=
    (List.Sublist.refl xs).append (List.sublist_cons_self n ys)
  rw [Links.unlink, hpre, hsuc]
  exact ⟨hr.1.unlink hr.2 fun e => hnd.1 (hsub.subset e),
    List.nodup_cons.mpr ⟨fun e => hnd.1 (hsub.subset e), hnd.2.sublist hsub⟩⟩

end Writes

/-! ### Families of rings -/

/-- The rings with heads `head i` and elements `nodes i`, for `i` in `I`, all live in one heap
without sharing a node. -/
structure Rings (L : Links α) (I : Set ι) (head : ι → α) (nodes : ι → List α) : Prop where
  /-- Each member of the family is a ring. -/
  ring : ∀ i ∈ I, L.IsRing (head i) (nodes i)
  /-- Different members share no node. -/
  disjoint : ∀ i ∈ I, ∀ j ∈ I, i ≠ j → List.Disjoint (head i :: nodes i) (head j :: nodes j)

namespace Rings

variable {L : Links α} {I : Set ι} {head : ι → α} {nodes : ι → List α}

theorem next_head_eq_iff (h : L.Rings I head nodes) {i : ι} (hi : i ∈ I) :
    L.next (head i) = head i ↔ nodes i = [] := (h.ring i hi).next_eq_iff

theorem next_head (h : L.Rings I head nodes) {i : ι} (hi : i ∈ I) {x : α} {xs : List α}
    (hx : nodes i = x :: xs) : L.next (head i) = x :=
  (hx ▸ h.ring i hi : L.IsRing (head i) (x :: xs)).next_head

theorem notMem_of_mem (h : L.Rings I head nodes) {i j : ι} (hi : i ∈ I) (hj : j ∈ I)
    (hij : i ≠ j) {x : α} (hx : x ∈ head i :: nodes i) : x ∉ head j :: nodes j :=
  h.disjoint i hi j hj hij hx

/-- A family of rings depends only on the fields of its own nodes. -/
theorem congr {L' : Links α} (h : L.Rings I head nodes)
    (hn : ∀ i ∈ I, ∀ x ∈ head i :: nodes i, L'.next x = L.next x)
    (hp : ∀ i ∈ I, ∀ x ∈ head i :: nodes i, L'.prev x = L.prev x) : L'.Rings I head nodes :=
  ⟨fun i hi => (h.ring i hi).congr (hn i hi) (hp i hi), h.disjoint⟩

/-- A family grows by an empty ring whose head is in no other ring. -/
theorem insert_nil (h : L.Rings I head nodes) {i : ι} (hr : L.IsRing (head i) []) (hnil : nodes i = [])
    (hnew : ∀ j ∈ I, head i ∉ head j :: nodes j) : L.Rings (insert i I) head nodes := by
  constructor
  · rintro j (rfl | hj)
    · exact hnil ▸ hr
    · exact h.ring j hj
  · rintro j (rfl | hj) k (rfl | hk) hjk
    · exact absurd rfl hjk
    · rw [hnil]
      exact List.singleton_disjoint.mpr (hnew k hk)
    · rw [hnil]
      exact List.disjoint_symm (List.singleton_disjoint.mpr (hnew j hj))
    · exact h.disjoint j hj k hk hjk

variable [DecidableEq ι]

/-- Replacing the elements of one ring by others that were in no other ring. -/
theorem update {L' : Links α} (h : L.Rings I head nodes) {i : ι} {xs : List α}
    (hr : L'.IsRing (head i) xs)
    (hframe : ∀ j ∈ I, j ≠ i → L'.IsRing (head j) (nodes j))
    (hnew : ∀ j ∈ I, j ≠ i → List.Disjoint xs (head j :: nodes j)) (hi : i ∈ I) :
    L'.Rings I head (Function.update nodes i xs) := by
  have hdisj : ∀ j ∈ I, j ≠ i → List.Disjoint (head i :: xs) (head j :: nodes j) := by
    intro j hj hji x hx
    rcases List.mem_cons.mp hx with rfl | hx
    · exact h.notMem_of_mem hi hj hji.symm List.mem_cons_self
    · exact hnew j hj hji hx
  constructor
  · intro j hj
    rcases eq_or_ne j i with rfl | hji
    · simpa using hr
    · simpa [Function.update_of_ne hji] using hframe j hj hji
  · intro j hj k hk hjk
    rcases eq_or_ne j i with rfl | hji
    · simpa [Function.update_of_ne hjk.symm] using hdisj k hk hjk.symm
    · rcases eq_or_ne k i with rfl | hki
      · simpa [Function.update_of_ne hji] using List.disjoint_symm (hdisj j hj hji)
      · simpa [Function.update_of_ne hji, Function.update_of_ne hki] using h.disjoint j hj k hk hjk

variable [DecidableEq α]

/-- Inserting a node that is in no ring at a gap of one ring leaves the others alone. -/
theorem splice (h : L.Rings I head nodes) {i : ι} (hi : i ∈ I) {n : α}
    (hn : ∀ j ∈ I, n ∉ head j :: nodes j) (xs ys : List α) (hxy : nodes i = xs ++ ys) :
    (L.splice (xs.getLastD (head i)) (ys.headD (head i)) n).Rings I head
      (Function.update nodes i (xs ++ n :: ys)) := by
  have hlast : xs.getLastD (head i) ∈ head i :: nodes i := hxy ▸ getLastD_mem (head i) xs ys
  have hhead : ys.headD (head i) ∈ head i :: nodes i := hxy ▸ headD_mem (head i) xs ys
  refine h.update ((hxy ▸ h.ring i hi).splice (hxy ▸ hn i hi)) ?_ ?_ hi
  · intro j hj hji
    refine (h.ring j hj).congr (fun x hx => splice_next_of_ne ?_ ?_) fun x hx =>
      splice_prev_of_ne ?_ ?_
    · rintro rfl; exact h.notMem_of_mem hi hj hji.symm hlast hx
    · rintro rfl; exact hn j hj hx
    · rintro rfl; exact h.notMem_of_mem hi hj hji.symm hhead hx
    · rintro rfl; exact hn j hj hx
  · intro j hj hji x hx
    rw [List.mem_append, List.mem_cons, or_left_comm, ← List.mem_append, ← hxy] at hx
    rcases hx with rfl | hx'
    · exact hn j hj
    · exact h.notMem_of_mem hi hj hji.symm (List.mem_cons_of_mem _ hx')

/-- Inserting just before a node of a ring, where the head counts as the end. -/
theorem insertBefore (h : L.Rings I head nodes) {i : ι} (hi : i ∈ I) {pos n : α}
    (hpos : pos ∈ head i :: nodes i) (hn : ∀ j ∈ I, n ∉ head j :: nodes j) :
    (L.splice (L.prev pos) pos n).Rings I head
      (Function.update nodes i ((nodes i).insertIdx ((nodes i).idxOf pos) n)) := by
  have hring := h.ring i hi
  obtain ⟨xs, ys, hxy, rfl, hlen⟩ := exists_cut_before hpos (List.nodup_cons.mp hring.2).1
  rw [(Path.gap xs ys (hxy ▸ hring.1)).2, ← hlen, hxy, insertIdx_length_append]
  exact h.splice hi hn xs ys hxy

/-- Inserting just after a node of a ring, where the head counts as the start. -/
theorem insertAfter (h : L.Rings I head nodes) {i : ι} (hi : i ∈ I) {pos n : α}
    (hpos : pos ∈ head i :: nodes i) (hn : ∀ j ∈ I, n ∉ head j :: nodes j) :
    (L.splice pos (L.next pos) n).Rings I head
      (Function.update nodes i ((nodes i).insertIdx ((head i :: nodes i).idxOf pos) n)) := by
  have hring := h.ring i hi
  obtain ⟨xs, ys, hxy, rfl, hlen⟩ := exists_cut_after hpos
  rw [(Path.gap xs ys (hxy ▸ hring.1)).1, ← hlen, hxy, insertIdx_length_append]
  exact h.splice hi hn xs ys hxy

/-- Inserting just before the head appends. -/
theorem insertLast (h : L.Rings I head nodes) {i : ι} (hi : i ∈ I) {n : α}
    (hn : ∀ j ∈ I, n ∉ head j :: nodes j) :
    (L.splice (L.prev (head i)) (head i) n).Rings I head
      (Function.update nodes i (nodes i ++ [n])) := by
  have hhead : head i ∉ nodes i := (List.nodup_cons.mp (h.ring i hi).2).1
  have hlast := h.insertBefore hi List.mem_cons_self hn
  rwa [List.idxOf_eq_length hhead, List.insertIdx_length_self] at hlast

/-- Inserting just after the head prepends. -/
theorem insertFirst (h : L.Rings I head nodes) {i : ι} (hi : i ∈ I) {n : α}
    (hn : ∀ j ∈ I, n ∉ head j :: nodes j) :
    (L.splice (head i) (L.next (head i)) n).Rings I head
      (Function.update nodes i (n :: nodes i)) := by
  have hfirst := h.insertAfter hi List.mem_cons_self hn
  rwa [List.idxOf_cons_self, List.insertIdx_zero] at hfirst

/-- Removing an element of one ring leaves the others alone. -/
theorem unlink (h : L.Rings I head nodes) {i : ι} (hi : i ∈ I) {n : α} (hn : n ∈ nodes i) :
    (L.unlink n).Rings I head (Function.update nodes i ((nodes i).erase n)) := by
  obtain ⟨xs, ys, hxy⟩ := List.append_of_mem hn
  have hr := hxy ▸ h.ring i hi
  have hnd := (List.nodup_cons.mp hr.2).2
  have hxs : n ∉ xs := fun hmem =>
    (List.nodup_append.mp hnd).2.2 n hmem n List.mem_cons_self rfl
  have herase : (nodes i).erase n = xs ++ ys := by
    rw [hxy, List.erase_append_right _ hxs, List.erase_cons_head]
  rw [herase]
  have hmem : n ∈ head i :: nodes i := List.mem_cons_of_mem _ hn
  have hpre : L.prev n ∈ head i :: nodes i := (h.ring i hi).prev_mem hmem
  have hsuc : L.next n ∈ head i :: nodes i := (h.ring i hi).next_mem hmem
  refine h.update hr.unlink ?_ ?_ hi
  · intro j hj hji
    refine (h.ring j hj).congr (fun x hx => link_next_of_ne ?_) fun x hx => link_prev_of_ne ?_
    · rintro rfl; exact h.notMem_of_mem hi hj hji.symm hpre hx
    · rintro rfl; exact h.notMem_of_mem hi hj hji.symm hsuc hx
  · intro j hj hji x hx
    refine h.notMem_of_mem hi hj hji.symm (List.mem_cons_of_mem _ ?_)
    rw [hxy, List.mem_append, List.mem_cons, or_left_comm, ← List.mem_append]
    exact Or.inr hx

end Rings

end Links

end Auos
