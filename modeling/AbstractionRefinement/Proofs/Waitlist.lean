import Mathlib.Data.List.MinMax
import Mathlib.Data.Prod.Lex
import AbstractionRefinement.Proofs.Frontier

/-!
# A queue, a heap and a counter

A frontier holds its entries in the order of leaving, whatever that order is. Kept for speed, they
are held in one of two places (`Waitlist`). Breadth first and depth first share a queue, to the back
of which nodes are added, and from the front or the back of which they are taken. By lowest key they
are in a heap, each with its key and the number of entries that were put into the heap before it;
the number decides between equal keys.

The heap is not ours to define. `HeapLaws` says what is relied on: what it holds, as a multiset, and
that no entry held has a place before that of the entry which is taken. How a heap keeps its entries
in order is left out. A list from which an entry of least place is taken obeys these laws
(`HeapLaws.list`).

A waitlist `StandsFor` a frontier if it holds the same nodes in the place that goes with its order.
Each request is answered alike and keeps it so (`StandsFor.serve`). Whatever is asked of a waitlist,
then, it answers as a frontier does (`Waitlist.serveAll_eq`). The numbers are natural numbers here:
a counter of 64 bits would run out after as many entries as no search can add.
-/

namespace AbstractionRefinement

/-! ### Heaps -/

/-- The place of an entry in a heap: by key, then by number, then by node. -/
def Arrival.place (a : Arrival) : ℕ ×ₗ ℕ ×ₗ ℕ := toLex (a.key, toLex (a.number, a.node))

/-- Operations on heaps of entries, and what is relied on about them. -/
structure HeapLaws (H : Type) where
  /-- The heap that holds nothing. -/
  empty : H
  /-- Put an entry in. -/
  push : H → Arrival → H
  /-- Take an entry, if there is one. -/
  pop? : H → Option (Arrival × H)
  /-- The number of entries. -/
  size : H → Nat
  /-- What is held. -/
  entries : H → Multiset Arrival
  /-- The empty heap holds nothing. -/
  entries_empty : entries empty = 0
  /-- What is put in is held. -/
  entries_push : ∀ h a, entries (push h a) = a ::ₘ entries h
  /-- Nothing is taken only if nothing is held. -/
  pop?_eq_none : ∀ {h}, pop? h = none → entries h = 0
  /-- What is taken was held, and nothing held has a place before its own. -/
  pop?_eq_some : ∀ {h a h'}, pop? h = some (a, h') →
    entries h = a ::ₘ entries h' ∧ ∀ b ∈ entries h, a.place ≤ b.place
  /-- The entries are counted. -/
  size_eq : ∀ h, size h = (entries h).card

/-- Nothing is taken if nothing is held. -/
theorem HeapLaws.pop?_eq_none_of {H : Type} (laws : HeapLaws H) {heap : H}
    (h : laws.entries heap = 0) : laws.pop? heap = none := by
  cases hpop : laws.pop? heap with
  | none => rfl
  | some answer =>
    have hheld := (laws.pop?_eq_some hpop).1
    rw [h] at hheld
    exact absurd hheld.symm Multiset.cons_ne_zero

/-! ### Waitlists -/

/-- Nodes waiting for expansion, in a queue or in a heap. -/
structure Waitlist (H : Type) where
  /-- The discipline of the waitlist. -/
  order : SearchOrder
  /-- The nodes held, oldest first, if keys do not matter. -/
  queue : List NodeId := []
  /-- The nodes held, with their keys and numbers, if keys matter. -/
  heap : H
  /-- How many entries were put into the heap. -/
  numbered : Nat := 0

namespace Waitlist

variable {H : Type} (laws : HeapLaws H)

/-- Add a node. -/
def push (w : Waitlist H) (node : NodeId) (key : Nat) : Waitlist H :=
  match w.order with
  | .breadthFirst | .depthFirst => { w with queue := w.queue ++ [node] }
  | .lowestKey =>
    { w with
      heap := laws.push w.heap ⟨⟨node, key⟩, w.numbered⟩
      numbered := w.numbered + 1 }

/-- Take the next node, if one is held. -/
def pop (w : Waitlist H) : Option NodeId × Waitlist H :=
  match w.order with
  | .breadthFirst => (w.queue.head?, { w with queue := w.queue.tail })
  | .depthFirst => (w.queue.getLast?, { w with queue := w.queue.dropLast })
  | .lowestKey =>
    match laws.pop? w.heap with
    | some (a, heap) => (some a.node, { w with heap })
    | none => (none, w)

/-- The number of nodes held. -/
def size (w : Waitlist H) : Nat := w.queue.length + laws.size w.heap

/-- Serve one request. -/
def serve (w : Waitlist H) : FrontierRequest → FrontierEvent × Waitlist H
  | .push node key => (.pushed node key, w.push laws node key)
  | .pop => (.popped (w.pop laws).1, (w.pop laws).2)

/-- Serve requests in turn. -/
def serveAll (w : Waitlist H) : List FrontierRequest → List FrontierEvent × Waitlist H
  | [] => ([], w)
  | q :: rest =>
    ((w.serve laws q).1 :: ((w.serve laws q).2.serveAll rest).1,
      ((w.serve laws q).2.serveAll rest).2)

/-! ### Waitlists and frontiers -/

/-- The waitlist holds what the frontier holds, in the place that goes with its order. -/
def StandsFor (w : Waitlist H) (f : Frontier) : Prop :=
  w.order = f.order ∧
    match f.order with
    | .breadthFirst => w.queue = f.held.map Waiting.node ∧ laws.entries w.heap = 0
    | .depthFirst => w.queue = (f.held.map Waiting.node).reverse ∧ laws.entries w.heap = 0
    | .lowestKey => w.queue = [] ∧ ∃ l arrivals, f.Numbers l arrivals ∧
        laws.entries w.heap = l.held ∧ w.numbered = l.arrived

variable {laws} {w : Waitlist H} {f : Frontier}

/-- Adding a node to both keeps them alike. -/
theorem StandsFor.push (h : w.StandsFor laws f) (node : NodeId) (key : Nat) :
    (w.push laws node key).StandsFor laws (f.push node key) := by
  obtain ⟨order, queue, heap, numbered⟩ := w
  obtain ⟨order', held⟩ := f
  obtain ⟨rfl, h⟩ : order = order' ∧ _ := h
  cases order with
  | breadthFirst =>
    obtain ⟨rfl, hheap⟩ := h
    exact ⟨rfl, by simp [Waitlist.push, Frontier.push], hheap⟩
  | depthFirst =>
    obtain ⟨rfl, hheap⟩ := h
    exact ⟨rfl, by simp [Waitlist.push, Frontier.push], hheap⟩
  | lowestKey =>
    obtain ⟨hqueue, l, arrivals, hnumbers, hheap, rfl⟩ := h
    obtain ⟨arrivals', hnumbers'⟩ := hnumbers.push ⟨node, key⟩
    refine ⟨rfl, hqueue, l.enter ⟨node, key⟩, arrivals', hnumbers', ?_, rfl⟩
    rw [Waitlist.push, laws.entries_push, hheap]
    rfl

/-- **The heap gives what the frontier gives**: of the numbered entries, the one that comes before
all others. -/
theorem pop?_eq {heap : H} {l : Ledger} {a : Arrival} {arrivals : List Arrival}
    (h : f.Numbers l (a :: arrivals)) (horder : f.order = .lowestKey)
    (hheap : laws.entries heap = l.held) :
    ∃ heap', laws.pop? heap = some (a, heap') ∧
      laws.entries heap' = (arrivals : Multiset Arrival) := by
  have hall : laws.entries heap = a ::ₘ (arrivals : Multiset Arrival) := by
    rw [hheap, h.held, Multiset.cons_coe]
  cases hpop : laws.pop? heap with
  | none =>
    rw [laws.pop?_eq_none hpop] at hall
    exact absurd hall.symm (Multiset.cons_ne_zero)
  | some answer =>
    obtain ⟨b, heap'⟩ := answer
    obtain ⟨hrest, hleast⟩ := laws.pop?_eq_some hpop
    obtain rfl : b = a := by
      by_contra hne
      have hb : b ∈ a ::ₘ (arrivals : Multiset Arrival) := by
        rw [← hall, hrest]
        exact Multiset.mem_cons_self b _
      have hafter := (List.pairwise_cons.1 h.sorted).1 b
        (Multiset.mem_coe.1 ((Multiset.mem_cons.1 hb).resolve_left hne))
      have hplace : b.place ≤ a.place :=
        hleast a (by rw [hall]; exact Multiset.mem_cons_self a _)
      rw [horder] at hafter
      simp only [Arrival.place, Prod.Lex.toLex_le_toLex, SearchOrder.Before] at hplace hafter
      omega
    exact ⟨heap', rfl, (Multiset.cons_inj_right b).1 (hrest.symm.trans hall)⟩

/-- **One request** is answered alike. -/
theorem StandsFor.serve (h : w.StandsFor laws f) (q : FrontierRequest) :
    (w.serve laws q).1 = (f.serve q).1 ∧ (w.serve laws q).2.StandsFor laws (f.serve q).2 := by
  cases q with
  | push node key => exact ⟨rfl, h.push node key⟩
  | pop =>
    obtain ⟨order, queue, heap, numbered⟩ := w
    obtain ⟨order', held⟩ := f
    obtain ⟨rfl, h⟩ : order = order' ∧ _ := h
    cases order with
    | breadthFirst =>
      obtain ⟨rfl, hheap⟩ := h
      cases held with
      | nil => exact ⟨rfl, rfl, rfl, hheap⟩
      | cons v held => exact ⟨rfl, rfl, rfl, hheap⟩
    | depthFirst =>
      obtain ⟨rfl, hheap⟩ := h
      cases held with
      | nil => exact ⟨rfl, rfl, rfl, hheap⟩
      | cons v held =>
        refine ⟨?_, rfl, ?_, hheap⟩
        · simp [Waitlist.serve, Waitlist.pop, Frontier.serve, Frontier.pop?]
        · simp [Waitlist.serve, Waitlist.pop, Frontier.serve, Frontier.pop?]
    | lowestKey =>
      obtain ⟨hqueue, l, arrivals, hnumbers, hheap, hcount⟩ := h
      cases arrivals with
      | nil =>
        obtain rfl : held = [] := hnumbers.entries
        have hnone : laws.pop? heap = none :=
          laws.pop?_eq_none_of (hheap.trans hnumbers.held)
        have hserve : serve laws ⟨.lowestKey, queue, heap, numbered⟩ .pop =
            (.popped none, ⟨.lowestKey, queue, heap, numbered⟩) := by
          simp [Waitlist.serve, Waitlist.pop, hnone]
        rw [hserve]
        exact ⟨rfl, rfl, hqueue, l, [], hnumbers, hheap, hcount⟩
      | cons a arrivals =>
        obtain ⟨heap', hpop, hrest⟩ := pop?_eq hnumbers rfl hheap
        obtain rfl : held = (a :: arrivals).map Arrival.toWaiting := hnumbers.entries
        have hserve : serve laws ⟨.lowestKey, queue, heap, numbered⟩ .pop =
            (.popped (some a.node), ⟨.lowestKey, queue, heap', numbered⟩) := by
          simp [Waitlist.serve, Waitlist.pop, hpop]
        rw [hserve]
        refine ⟨rfl, rfl, hqueue, { l with held := arrivals }, arrivals, ⟨rfl, rfl, ?_, ?_⟩, hrest,
          hcount⟩
        · exact (List.pairwise_cons.1 hnumbers.sorted).2
        · exact fun b hb ↦ hnumbers.arrived b (List.mem_cons_of_mem a hb)

/-- **Requests in turn** are answered alike. -/
theorem StandsFor.serveAll (h : w.StandsFor laws f) (requests : List FrontierRequest) :
    (w.serveAll laws requests).1 = (f.serveAll requests).1 ∧
      (w.serveAll laws requests).2.StandsFor laws (f.serveAll requests).2 := by
  induction requests generalizing w f with
  | nil => exact ⟨rfl, h⟩
  | cons q requests ih =>
    obtain ⟨hevent, hserved⟩ := h.serve q
    obtain ⟨hevents, hend⟩ := ih hserved
    exact ⟨congrArg₂ List.cons hevent hevents, hend⟩

/-- A waitlist holds as many nodes as the frontier it stands for. -/
theorem StandsFor.size_eq (h : w.StandsFor laws f) : w.size laws = f.size := by
  obtain ⟨order, queue, heap, numbered⟩ := w
  obtain ⟨order', held⟩ := f
  obtain ⟨rfl, h⟩ : order = order' ∧ _ := h
  rw [Waitlist.size, laws.size_eq]
  cases order with
  | breadthFirst | depthFirst =>
    obtain ⟨rfl, hheap⟩ := h
    simp only at hheap
    simp [hheap, Frontier.size]
  | lowestKey =>
    obtain ⟨hqueue, l, arrivals, hnumbers, hheap, -⟩ := h
    simp only at hqueue hheap
    rw [hqueue, hheap, hnumbers.size_eq, List.length_nil, Nat.zero_add]

/-- **A waitlist answers as a frontier does**, whatever nodes are added and taken, in whatever
order, and holds as many nodes. -/
theorem serveAll_eq (laws : HeapLaws H) (order : SearchOrder) (requests : List FrontierRequest) :
    (({ order, heap := laws.empty } : Waitlist H).serveAll laws requests).1 =
        (Frontier.served order requests).1 ∧
      (({ order, heap := laws.empty } : Waitlist H).serveAll laws requests).2.size laws =
        (Frontier.served order requests).2.size := by
  have hstart : ({ order, heap := laws.empty } : Waitlist H).StandsFor laws { order } := by
    refine ⟨rfl, ?_⟩
    cases order with
    | breadthFirst | depthFirst => exact ⟨rfl, laws.entries_empty⟩
    | lowestKey =>
      exact ⟨rfl, {}, [], ⟨rfl, rfl, .nil, List.forall_mem_nil _⟩, laws.entries_empty, rfl⟩
  obtain ⟨hevents, hend⟩ := hstart.serveAll requests
  exact ⟨hevents, hend.size_eq⟩

end Waitlist

/-! ### A heap that obeys the laws -/

/-- A list from which the first entry of least place is taken. -/
def HeapLaws.list : HeapLaws (List Arrival) where
  empty := []
  push h a := a :: h
  pop? h := (h.argmin Arrival.place).map fun a ↦ (a, h.erase a)
  size := List.length
  entries h := h
  entries_empty := rfl
  entries_push h a := (Multiset.cons_coe a h).symm
  pop?_eq_none hpop :=
    congrArg Multiset.ofList (List.argmin_eq_none.1 (Option.map_eq_none_iff.1 hpop))
  pop?_eq_some hpop := by
    obtain ⟨a, hleast, heq⟩ := Option.map_eq_some_iff.1 hpop
    obtain ⟨rfl, rfl⟩ := Prod.mk.inj heq
    refine ⟨?_, fun b hb ↦ List.le_of_mem_argmin (Multiset.mem_coe.1 hb) hleast⟩
    rw [Multiset.cons_coe]
    exact Multiset.coe_eq_coe.2 (List.perm_cons_erase (List.argmin_mem hleast))
  size_eq _ := rfl

end AbstractionRefinement
