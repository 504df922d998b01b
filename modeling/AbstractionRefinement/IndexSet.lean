/-!
# Finite sets of indices

A finite set of natural numbers kept as a strictly ascending list. The order is part of the type,
so listing a set, printing it and comparing two sets need no further convention: two sets with the
same members are equal (`IndexSet.ext`), and membership after each operation is given by one lemma
beside it.

An ascending list is not the fastest set, but it is the plainest one on which everything that a
listing shows is determined. Descriptions of precisions, the order in which vertices are expanded
and the order in which variables are enumerated all depend on it.

Sets are made from the empty one by insertion (`IndexSet.ofList`), from the numbers below a bound
(`IndexSet.below`), by union and by filtering. The simplification lemmas turn membership in any of
these into a statement about numbers, so that a proof about sets hardly ever opens a definition.
-/

namespace AbstractionRefinement

/-! ### Ascending insertion -/

/-- Put `x` at its place in an ascending list, unless it is there already. -/
def insertAscending (x : Nat) : List Nat → List Nat
  | [] => [x]
  | y :: ys => if x < y then x :: y :: ys else if x = y then y :: ys else y :: insertAscending x ys

/-- What is inserted is there, and so is what was there before. -/
theorem mem_insertAscending {x y : Nat} {l : List Nat} :
    y ∈ insertAscending x l ↔ y = x ∨ y ∈ l := by
  induction l with
  | nil => simp [insertAscending]
  | cons z zs ih =>
    unfold insertAscending
    split
    · simp
    · split
      · simp_all
      · simp only [List.mem_cons, ih]
        grind

/-- Insertion keeps the elements in ascending order. -/
theorem pairwise_insertAscending {x : Nat} {l : List Nat} (h : l.Pairwise (· < ·)) :
    (insertAscending x l).Pairwise (· < ·) := by
  induction l with
  | nil => simp [insertAscending]
  | cons z zs ih =>
    unfold insertAscending
    rw [List.pairwise_cons] at h
    split
    · rename_i hx
      refine List.pairwise_cons.2 ⟨fun y hy ↦ ?_, List.pairwise_cons.2 h⟩
      rcases List.mem_cons.1 hy with rfl | hy
      · exact hx
      · exact Nat.lt_trans hx (h.1 y hy)
    · split
      · exact List.pairwise_cons.2 h
      · refine List.pairwise_cons.2 ⟨fun y hy ↦ ?_, ih h.2⟩
        rcases mem_insertAscending.1 hy with rfl | hy
        · omega
        · exact h.1 y hy

/-! ### The type -/

/-- A finite set of indices, listed in ascending order without repetition. -/
structure IndexSet where
  /-- The members, smallest first. -/
  toList : List Nat
  /-- The listing is strictly ascending. -/
  ascending : toList.Pairwise (· < ·) := by simp
  deriving DecidableEq

namespace IndexSet

/-- The set without members. -/
def empty : IndexSet := ⟨[], .nil⟩

instance : EmptyCollection IndexSet := ⟨empty⟩

instance : Inhabited IndexSet := ⟨empty⟩

instance : Membership Nat IndexSet := ⟨fun s x ↦ x ∈ s.toList⟩

instance (x : Nat) (s : IndexSet) : Decidable (x ∈ s) := inferInstanceAs (Decidable (x ∈ s.toList))

theorem mem_toList {x : Nat} {s : IndexSet} : x ∈ s.toList ↔ x ∈ s := Iff.rfl

/-- Add one member. -/
def insert (s : IndexSet) (x : Nat) : IndexSet :=
  ⟨insertAscending x s.toList, pairwise_insertAscending s.ascending⟩

@[simp] theorem mem_insert {s : IndexSet} {x y : Nat} : y ∈ s.insert x ↔ y = x ∨ y ∈ s :=
  mem_insertAscending

/-- The indices below a bound. -/
def below (n : Nat) : IndexSet := ⟨List.range n, List.pairwise_lt_range⟩

@[simp] theorem mem_below {n x : Nat} : x ∈ below n ↔ x < n := List.mem_range

/-- Keep the members that satisfy a test. -/
def filter (s : IndexSet) (p : Nat → Bool) : IndexSet :=
  ⟨s.toList.filter p, s.ascending.filter p⟩

@[simp] theorem mem_filter {s : IndexSet} {p : Nat → Bool} {x : Nat} :
    x ∈ s.filter p ↔ x ∈ s ∧ p x = true :=
  List.mem_filter

/-- Remove one member. -/
def erase (s : IndexSet) (x : Nat) : IndexSet := s.filter (· != x)

/-- Erasing an element leaves all others. -/
@[simp] theorem mem_erase {s : IndexSet} {x y : Nat} : y ∈ s.erase x ↔ y ∈ s ∧ y ≠ x := by
  simp [erase]

/-- Add every member of a list. -/
def insertAll (s : IndexSet) (xs : List Nat) : IndexSet := xs.foldl insert s

/-- Inserting several elements adds these and no others. -/
@[simp] theorem mem_insertAll {s : IndexSet} {xs : List Nat} {y : Nat} :
    y ∈ s.insertAll xs ↔ y ∈ s ∨ y ∈ xs := by
  induction xs generalizing s with
  | nil => simp [insertAll]
  | cons x xs ih =>
    have h : s.insertAll (x :: xs) = (s.insert x).insertAll xs := rfl
    rw [h, ih]
    simp only [mem_insert, List.mem_cons]
    grind

/-- The members of a list, in any order and with any repetition. -/
def ofList (xs : List Nat) : IndexSet := empty.insertAll xs

@[simp] theorem mem_ofList {xs : List Nat} {y : Nat} : y ∈ ofList xs ↔ y ∈ xs := by
  simp only [ofList, mem_insertAll]
  exact ⟨fun h ↦ h.elim (fun h ↦ nomatch h) id, Or.inr⟩

/-- The members of either set. -/
def union (s t : IndexSet) : IndexSet := s.insertAll t.toList

@[simp] theorem mem_union {s t : IndexSet} {y : Nat} : y ∈ s.union t ↔ y ∈ s ∨ y ∈ t :=
  mem_insertAll

/-- What holds of all elements of a union holds of all elements of both sets. -/
theorem forall_mem_union {s t : IndexSet} {P : Nat → Prop} :
    (∀ x ∈ s.union t, P x) ↔ (∀ x ∈ s, P x) ∧ ∀ x ∈ t, P x :=
  ⟨fun h ↦ ⟨fun x hx ↦ h x (mem_union.2 (.inl hx)), fun x hx ↦ h x (mem_union.2 (.inr hx))⟩,
    fun h x hx ↦ (mem_union.1 hx).elim (h.1 x) (h.2 x)⟩

/-- Whether every member of `s` is a member of `t`. -/
def isSubset (s t : IndexSet) : Bool := s.toList.all (· ∈ t)

/-- The test for being a subset decides it. -/
theorem isSubset_iff {s t : IndexSet} : s.isSubset t = true ↔ ∀ x ∈ s, x ∈ t := by
  simp only [isSubset, List.all_eq_true, decide_eq_true_eq]
  exact Iff.rfl

/-- Whether the set has no member. -/
def isEmpty (s : IndexSet) : Bool := s.toList.isEmpty

theorem isEmpty_iff {s : IndexSet} : s.isEmpty = true ↔ s = empty := by
  rw [isEmpty, List.isEmpty_iff]
  constructor
  · obtain ⟨l, hl⟩ := s
    rintro rfl
    rfl
  · rintro rfl
    rfl

/-- Sets with the same members are equal. -/
@[ext] theorem ext {s t : IndexSet} (h : ∀ x, x ∈ s ↔ x ∈ t) : s = t := by
  obtain ⟨l, hl⟩ := s
  obtain ⟨m, hm⟩ := t
  have hperm : l.Perm m :=
    (List.perm_ext_iff_of_nodup (hl.imp Nat.ne_of_lt) (hm.imp Nat.ne_of_lt)).2 h
  obtain rfl : l = m := hperm.eq_of_pairwise (fun _ _ _ _ hxy hyx ↦
    absurd hxy (Nat.lt_asymm hyx)) hl hm
  rfl

end IndexSet

end AbstractionRefinement
