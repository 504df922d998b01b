/-!
# Finite maps from indices

A finite map keyed by natural numbers, kept as a list of bindings with strictly ascending keys.
A map is determined by its lookups (`IndexMap.ext`), and each operation has one lemma that says
what it does to `find?`.

The keys are in strictly ascending order by construction: a map is a list of bindings together with
a proof that it is ascending, so there is no map in which a key is bound twice or the order depends
on the history. Two maps that agree on all lookups are therefore equal, and equality of maps can be
decided by comparing the lists.

The maps serve as valuations of variables, as the successors of vertices and as the partitions of a
graph. In each of these the order of the keys shows, in a description or in the order in which a
search goes on, which is why maps are not functions here.

An insertion replaces what is bound under the key. Erasing is filtering.
-/

namespace AbstractionRefinement

/-- A finite map from indices, its bindings listed by ascending index. -/
structure IndexMap (α : Type) where
  /-- The bindings, smallest index first. -/
  toList : List (Nat × α)
  /-- Each index is bound once, and the listing ascends. -/
  ascending : toList.Pairwise (·.1 < ·.1) := by simp
  deriving DecidableEq

namespace IndexMap

variable {α : Type}

/-- The map without bindings. -/
def empty : IndexMap α := ⟨[], .nil⟩

instance : EmptyCollection (IndexMap α) := ⟨empty⟩

instance : Inhabited (IndexMap α) := ⟨empty⟩

/-! ### Lookup -/

/-- The value bound to the first occurrence of a key. -/
def lookupIn (k : Nat) : List (Nat × α) → Option α
  | [] => none
  | (i, a) :: rest => if i = k then some a else lookupIn k rest

/-- The value bound to `k`, if any. -/
def find? (m : IndexMap α) (k : Nat) : Option α := lookupIn k m.toList

/-- Whether `k` is bound. -/
def contains (m : IndexMap α) (k : Nat) : Bool := (m.find? k).isSome

@[simp] theorem find?_empty (k : Nat) : (empty : IndexMap α).find? k = none := rfl

/-- What is found under a key is an entry of the list. -/
theorem mem_of_lookupIn {k : Nat} {a : α} {l : List (Nat × α)} (h : lookupIn k l = some a) :
    (k, a) ∈ l := by
  induction l with
  | nil => simp [lookupIn] at h
  | cons p rest ih =>
    simp only [lookupIn] at h
    split at h
    · rename_i hk
      obtain ⟨i, b⟩ := p
      simp_all
    · exact List.mem_cons_of_mem _ (ih h)

/-- Every entry of an ascending list is found under its key. -/
theorem lookupIn_of_mem {k : Nat} {a : α} {l : List (Nat × α)}
    (hl : l.Pairwise (·.1 < ·.1)) (h : (k, a) ∈ l) : lookupIn k l = some a := by
  induction l with
  | nil => simp at h
  | cons p rest ih =>
    rw [List.pairwise_cons] at hl
    simp only [lookupIn]
    rcases List.mem_cons.1 h with rfl | h
    · simp
    · have := hl.1 _ h
      rw [if_neg (by simp only at this; omega)]
      exact ih hl.2 h

/-- What is found under a key is what is entered under it. -/
theorem find?_eq_some_iff {m : IndexMap α} {k : Nat} {a : α} :
    m.find? k = some a ↔ (k, a) ∈ m.toList :=
  ⟨mem_of_lookupIn, lookupIn_of_mem m.ascending⟩

/-! ### Insertion and removal -/

/-- Bind `k` at its place in an ascending list of bindings, replacing an older binding. -/
def insertIn (k : Nat) (a : α) : List (Nat × α) → List (Nat × α)
  | [] => [(k, a)]
  | (i, b) :: rest =>
    if k < i then (k, a) :: (i, b) :: rest
    else if k = i then (k, a) :: rest
    else (i, b) :: insertIn k a rest

theorem fst_mem_insertIn {k : Nat} {a : α} {l : List (Nat × α)} {p : Nat × α}
    (h : p ∈ insertIn k a l) : p.1 = k ∨ p ∈ l := by
  induction l with
  | nil => simp_all [insertIn]
  | cons q rest ih =>
    simp only [insertIn] at h
    split at h
    · rcases List.mem_cons.1 h with rfl | h
      · exact .inl rfl
      · exact .inr h
    · split at h
      · rcases List.mem_cons.1 h with rfl | h
        · exact .inl rfl
        · exact .inr (List.mem_cons_of_mem _ h)
      · rcases List.mem_cons.1 h with rfl | h
        · exact .inr (by simp)
        · exact (ih h).imp_right (List.mem_cons_of_mem _)

/-- Insertion keeps the keys in ascending order. -/
theorem pairwise_insertIn {k : Nat} {a : α} {l : List (Nat × α)}
    (hl : l.Pairwise (·.1 < ·.1)) : (insertIn k a l).Pairwise (·.1 < ·.1) := by
  induction l with
  | nil => simp [insertIn]
  | cons q rest ih =>
    have hq := List.pairwise_cons.1 hl
    simp only [insertIn]
    split
    · rename_i hk
      refine List.pairwise_cons.2 ⟨fun p hp ↦ ?_, hl⟩
      rcases List.mem_cons.1 hp with rfl | hp
      · exact hk
      · exact Nat.lt_trans hk (hq.1 p hp)
    · split
      · rename_i hk
        exact List.pairwise_cons.2 ⟨fun p hp ↦ hk ▸ hq.1 p hp, hq.2⟩
      · refine List.pairwise_cons.2 ⟨fun p hp ↦ ?_, ih hq.2⟩
        rcases fst_mem_insertIn hp with hp | hp
        · rw [hp]; omega
        · exact hq.1 p hp

/-- Bind `k` to `a`, replacing an older binding. -/
def insert (m : IndexMap α) (k : Nat) (a : α) : IndexMap α :=
  ⟨insertIn k a m.toList, pairwise_insertIn m.ascending⟩

/-- What is inserted is found, and what was found under other keys still is. -/
theorem lookupIn_insertIn {k j : Nat} {a : α} {l : List (Nat × α)}
    (hl : l.Pairwise (·.1 < ·.1)) :
    lookupIn j (insertIn k a l) = if j = k then some a else lookupIn j l := by
  induction l with
  | nil => simp [insertIn, lookupIn, eq_comm]
  | cons q rest ih =>
    have hq := List.pairwise_cons.1 hl
    simp only [insertIn]
    split
    · simp [lookupIn, eq_comm]
    · split
      · simp only [lookupIn]
        grind
      · simp only [lookupIn, ih hq.2]
        grind

@[simp] theorem find?_insert {m : IndexMap α} {k j : Nat} {a : α} :
    (m.insert k a).find? j = if j = k then some a else m.find? j :=
  lookupIn_insertIn m.ascending

/-- Keep the bindings that satisfy a test. -/
def filter (m : IndexMap α) (p : Nat → α → Bool) : IndexMap α :=
  ⟨m.toList.filter fun b ↦ p b.1 b.2, m.ascending.filter _⟩

theorem find?_filter_eq_some_iff {m : IndexMap α} {p : Nat → α → Bool} {k : Nat} {a : α} :
    (m.filter p).find? k = some a ↔ m.find? k = some a ∧ p k a = true := by
  rw [find?_eq_some_iff, find?_eq_some_iff]
  exact List.mem_filter

/-- Unbind `k`. -/
def erase (m : IndexMap α) (k : Nat) : IndexMap α := m.filter fun i _ ↦ i != k

@[simp] theorem find?_erase {m : IndexMap α} {k j : Nat} :
    (m.erase k).find? j = if j = k then none else m.find? j := by
  refine Option.ext fun a ↦ ?_
  rw [erase, find?_filter_eq_some_iff]
  grind

/-- Replace every value by its image. -/
def mapValues {β : Type} (m : IndexMap α) (f : α → β) : IndexMap β :=
  ⟨m.toList.map fun b ↦ (b.1, f b.2), List.pairwise_map.2 m.ascending⟩

@[simp] theorem find?_mapValues {β : Type} {m : IndexMap α} {f : α → β} {k : Nat} :
    (m.mapValues f).find? k = (m.find? k).map f := by
  obtain ⟨l, hl⟩ := m
  simp only [find?, mapValues]
  clear hl
  induction l with
  | nil => rfl
  | cons p rest ih =>
    simp only [List.map_cons, lookupIn]
    split
    · rfl
    · exact ih

/-- Bindings in the order given; a later binding of an index replaces an earlier one. -/
def ofList (bs : List (Nat × α)) : IndexMap α := bs.foldl (fun m b ↦ m.insert b.1 b.2) empty

/-- Whether every binding of `n` is a binding of `m`. -/
def isExtensionOf [DecidableEq α] (m n : IndexMap α) : Bool :=
  n.toList.all fun b ↦ m.find? b.1 = some b.2

/-- The test for being an extension decides it. -/
theorem isExtensionOf_iff [DecidableEq α] {m n : IndexMap α} :
    m.isExtensionOf n = true ↔ ∀ k a, n.find? k = some a → m.find? k = some a := by
  simp only [isExtensionOf, List.all_eq_true, decide_eq_true_eq, find?_eq_some_iff, Prod.forall]

/-! ### Extensionality -/

/-- Maps with the same lookups are equal. -/
@[ext] theorem ext {m n : IndexMap α} (h : ∀ k, m.find? k = n.find? k) : m = n := by
  have hmem : ∀ p, p ∈ m.toList ↔ p ∈ n.toList := fun p ↦ by
    rw [← find?_eq_some_iff (k := p.1), ← find?_eq_some_iff (k := p.1), h]
  obtain ⟨l, hl⟩ := m
  obtain ⟨l', hl'⟩ := n
  have hne : ∀ {p q : Nat × α}, p.1 < q.1 → p ≠ q := fun hpq heq ↦
    Nat.ne_of_lt hpq (congrArg Prod.fst heq)
  have hperm : l.Perm l' := (List.perm_ext_iff_of_nodup (hl.imp hne) (hl'.imp hne)).2 hmem
  obtain rfl : l = l' := hperm.eq_of_pairwise (fun _ _ _ _ hpq hqp ↦
    absurd hpq (Nat.lt_asymm hqp)) hl hl'
  rfl

end IndexMap

end AbstractionRefinement
