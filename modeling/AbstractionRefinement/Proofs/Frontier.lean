import AbstractionRefinement.Frontier
import Mathlib.Data.Multiset.AddSub
import Mathlib.Data.Multiset.MapFold

/-!
# The order in which nodes leave a frontier

A frontier keeps its entries in the order of leaving and no record of when they came, so "earliest"
and "latest" are told by a second account. A `Ledger` numbers the arrivals and holds them in no
particular order. Of what it holds, the entry that may leave is the one that comes before all others
in an order on keys and numbers (`SearchOrder.Before`). Which node it is does not matter, and a node
that arrives several times has several numbers.

`Ledger.Records` says which events are in keeping with the ledger. Whatever is asked of a frontier,
and in whatever order, what comes of it is so recorded (`Frontier.Numbers.serveAll`). What carries
the argument is that the entries of the frontier, numbered, are what the ledger holds, one before
the other (`Frontier.Numbers`). Other names for the nodes change the answers by these names only
(`Frontier.serveAll_rename`).
-/

namespace AbstractionRefinement

/-! ### Requests and events -/

/-- What may be asked of a frontier. -/
inductive FrontierRequest where
  /-- Add a node. -/
  | push (node : NodeId) (key : Nat)
  /-- Take the next node. -/
  | pop
  deriving DecidableEq

/-- What comes of a request. -/
inductive FrontierEvent where
  /-- A node was added. -/
  | pushed (node : NodeId) (key : Nat)
  /-- A node was taken, or there was none. -/
  | popped (answer : Option NodeId)
  deriving DecidableEq

/-- The node that an event adds. -/
def FrontierEvent.added? : FrontierEvent → Option NodeId
  | .pushed node _ => some node
  | .popped _ => none

/-- The node that an event takes. -/
def FrontierEvent.taken? : FrontierEvent → Option NodeId
  | .pushed _ _ => none
  | .popped answer => answer

namespace Frontier

/-- Serve one request. -/
def serve (f : Frontier) : FrontierRequest → FrontierEvent × Frontier
  | .push node key => (.pushed node key, f.push node key)
  | .pop =>
    match f.pop? with
    | some (node, rest) => (.popped (some node), rest)
    | none => (.popped none, f)

/-- Serve requests in turn. -/
def serveAll (f : Frontier) : List FrontierRequest → List FrontierEvent × Frontier
  | [] => ([], f)
  | q :: rest => ((f.serve q).1 :: ((f.serve q).2.serveAll rest).1, ((f.serve q).2.serveAll rest).2)

end Frontier

/-! ### Ledgers -/

/-- An entry with the number of its arrival. -/
structure Arrival extends Waiting where
  /-- How many came before it. -/
  number : Nat
  deriving DecidableEq

/-- The first arrival leaves before the second if both are held. -/
def SearchOrder.Before : SearchOrder → Arrival → Arrival → Prop
  | .breadthFirst, a, b => a.number < b.number
  | .depthFirst, a, b => b.number < a.number
  | .lowestKey, a, b => a.key < b.key ∨ a.key = b.key ∧ a.number < b.number

/-- An account of arrivals. -/
structure Ledger where
  /-- How many have come. -/
  arrived : Nat := 0
  /-- Those that have not left, in no particular order. -/
  held : Multiset Arrival := 0

/-- The ledger after an arrival. -/
def Ledger.enter (l : Ledger) (w : Waiting) : Ledger :=
  ⟨l.arrived + 1, ⟨w, l.arrived⟩ ::ₘ l.held⟩

/-- The events are in keeping with the order of leaving, and lead to the ledger. -/
inductive Ledger.Records (order : SearchOrder) : List FrontierEvent → Ledger → Prop
  /-- Nothing has happened. -/
  | start : Records order [] {}
  /-- An arrival gets the next number. -/
  | push {events : List FrontierEvent} {l : Ledger} {node : NodeId} {key : Nat}
      (h : Records order events l) :
    Records order (events ++ [.pushed node key]) (l.enter ⟨node, key⟩)
  /-- The arrival that leaves comes before all others that are held. -/
  | pop {events : List FrontierEvent} {l : Ledger} {a : Arrival} (h : Records order events l)
      (ha : a ∈ l.held) (hfirst : ∀ b ∈ l.held, b = a ∨ order.Before a b) :
    Records order (events ++ [.popped (some a.node)]) { l with held := l.held.erase a }
  /-- None leaves if none is held. -/
  | none {events : List FrontierEvent} {l : Ledger} (h : Records order events l)
      (hnone : l.held = 0) : Records order (events ++ [.popped none]) l

/-- The nodes that events add or take, with one event more. -/
theorem coe_filterMap_snoc {α β : Type} {f : α → Option β} {l : List α} {a : α} :
    (((l ++ [a]).filterMap f : List β) : Multiset β) =
      ((f a).toList : Multiset β) + (l.filterMap f : Multiset β) := by
  rw [List.filterMap_append, ← Multiset.coe_add, Multiset.add_comm, List.filterMap_cons]
  cases f a <;> rfl

/-- **Nothing is lost, and nothing is added**: what has come is what has left and what is held. -/
theorem Ledger.Records.balance {order : SearchOrder} {events : List FrontierEvent} {l : Ledger}
    (h : Records order events l) : (events.filterMap FrontierEvent.added? : Multiset NodeId) =
      (events.filterMap FrontierEvent.taken? : Multiset NodeId) + l.held.map (·.node) := by
  induction h with
  | start => rfl
  | @push events l node key _ ih =>
    rw [coe_filterMap_snoc, coe_filterMap_snoc, ih]
    simp [FrontierEvent.added?, FrontierEvent.taken?, enter]
  | @pop events l a _ ha _ ih =>
    have hheld : l.held.map (·.node) = a.node ::ₘ (l.held.erase a).map (·.node) := by
      rw [← Multiset.map_cons (fun b : Arrival ↦ b.node), Multiset.cons_erase ha]
    rw [coe_filterMap_snoc, coe_filterMap_snoc, ih, hheld, Multiset.add_assoc]
    simp [FrontierEvent.added?, FrontierEvent.taken?]
  | none _ _ ih =>
    rw [coe_filterMap_snoc, coe_filterMap_snoc, ih]
    simp [FrontierEvent.added?, FrontierEvent.taken?]

/-! ### Frontiers and ledgers -/

namespace Frontier

variable {f : Frontier} {l : Ledger} {arrivals : List Arrival}

/-- The entries of the frontier, numbered, are what the ledger holds, each before the next. -/
structure Numbers (f : Frontier) (l : Ledger) (arrivals : List Arrival) : Prop where
  /-- They are the entries of the frontier. -/
  entries : f.held = arrivals.map Arrival.toWaiting
  /-- They are what the ledger holds. -/
  held : l.held = (arrivals : Multiset Arrival)
  /-- They are in the order of leaving. -/
  sorted : arrivals.Pairwise f.order.Before
  /-- They have come. -/
  arrived : ∀ a ∈ arrivals, a.number < l.arrived

/-- By keys, an entry is placed behind those whose key is not larger and before the others. -/
theorem insertByKey_eq {w : Waiting} {held : List Waiting}
    (hsorted : held.Pairwise fun u v ↦ u.key ≤ v.key) : ∃ front back, held = front ++ back ∧
      insertByKey w held = front ++ w :: back ∧ (∀ v ∈ front, v.key ≤ w.key) ∧
      ∀ v ∈ back, w.key < v.key := by
  induction held with
  | nil => exact ⟨[], [], rfl, rfl, List.forall_mem_nil _, List.forall_mem_nil _⟩
  | cons v held ih =>
    obtain ⟨hv, hsorted⟩ := List.pairwise_cons.1 hsorted
    rw [insertByKey]
    split
    · rename_i hlt
      refine ⟨[], v :: held, rfl, rfl, List.forall_mem_nil _, ?_⟩
      exact List.forall_mem_cons.2 ⟨hlt, fun u hu ↦ Nat.lt_of_lt_of_le hlt (hv u hu)⟩
    · rename_i hle
      obtain ⟨front, back, rfl, hinsert, hfront, hback⟩ := ih hsorted
      refine ⟨v :: front, back, rfl, congrArg (v :: ·) hinsert, ?_, hback⟩
      exact List.forall_mem_cons.2 ⟨Nat.not_lt.1 hle, hfront⟩

/-- **Where a new entry is placed**: behind everything that leaves before it, and before everything
else. -/
theorem Numbers.exists_place (h : f.Numbers l arrivals) (w : Waiting) : ∃ front back,
    arrivals = front ++ back ∧
      (f.push w.node w.key).held = (front ++ ⟨w, l.arrived⟩ :: back).map Arrival.toWaiting ∧
      (∀ b ∈ front, f.order.Before b ⟨w, l.arrived⟩) ∧
      ∀ b ∈ back, f.order.Before ⟨w, l.arrived⟩ b := by
  have harrived := h.arrived
  have hsorted := h.sorted
  obtain ⟨order, held⟩ := f
  have hentries : held = arrivals.map Arrival.toWaiting := h.entries
  cases order with
  | breadthFirst =>
    refine ⟨arrivals, [], (List.append_nil _).symm, ?_, harrived, List.forall_mem_nil _⟩
    rw [List.map_append, ← hentries]
    rfl
  | depthFirst =>
    refine ⟨[], arrivals, rfl, ?_, List.forall_mem_nil _, harrived⟩
    rw [List.nil_append, List.map_cons, ← hentries]
    rfl
  | lowestKey =>
    have hkeys : held.Pairwise fun u v ↦ u.key ≤ v.key := by
      rw [hentries, List.pairwise_map]
      exact hsorted.imp fun hab ↦ hab.elim Nat.le_of_lt fun heq ↦ Nat.le_of_eq heq.1
    obtain ⟨front, back, heq, hinsert, hfront, hback⟩ := insertByKey_eq (w := w) hkeys
    obtain ⟨front, back, rfl, rfl, rfl⟩ := List.map_eq_append_iff.1 (hentries.symm.trans heq)
    refine ⟨front, back, rfl, hinsert.trans (by simp), fun b hb ↦ ?_, fun b hb ↦ .inl ?_⟩
    · -- an older entry with the same key comes first
      rcases Nat.lt_or_eq_of_le (hfront b.toWaiting (List.mem_map_of_mem hb)) with hlt | hkey
      · exact .inl hlt
      · exact .inr ⟨hkey, harrived b (List.mem_append_left _ hb)⟩
    · exact hback b.toWaiting (List.mem_map_of_mem hb)

theorem order_push {node : NodeId} {key : Nat} : (f.push node key).order = f.order := by
  rw [Frontier.push]
  cases f.order <;> rfl

theorem Numbers.push (h : f.Numbers l arrivals) (w : Waiting) :
    ∃ arrivals', (f.push w.node w.key).Numbers (l.enter w) arrivals' := by
  obtain ⟨front, back, rfl, hentries, hfront, hback⟩ := h.exists_place w
  obtain ⟨hsfront, hsback, hcross⟩ := List.pairwise_append.1 h.sorted
  refine ⟨front ++ ⟨w, l.arrived⟩ :: back, hentries, ?_, ?_, fun b hb ↦ ?_⟩
  · rw [Ledger.enter, h.held]
    exact (Multiset.coe_eq_coe.2 List.perm_middle).symm
  · rw [order_push]
    refine List.pairwise_append.2 ⟨hsfront, List.pairwise_cons.2 ⟨hback, hsback⟩, ?_⟩
    exact fun b hb ↦ List.forall_mem_cons.2 ⟨hfront b hb, hcross b hb⟩
  · rcases List.mem_cons.1 (List.perm_middle.mem_iff.1 hb) with rfl | hb
    · exact Nat.lt_succ_self _
    · exact Nat.lt_succ_of_lt (h.arrived b hb)

/-- The frontier holds what the ledger holds. -/
theorem Numbers.size_eq (h : f.Numbers l arrivals) : f.size = l.held.card := by
  rw [size, h.entries, h.held, List.length_map, Multiset.coe_card]

/-- **One request** is recorded. -/
theorem Numbers.serve {events : List FrontierEvent} (h : f.Numbers l arrivals)
    (hl : l.Records f.order events) (q : FrontierRequest) : ∃ l' arrivals',
      l'.Records f.order (events ++ [(f.serve q).1]) ∧ (f.serve q).2.order = f.order ∧
        (f.serve q).2.Numbers l' arrivals' := by
  cases q with
  | push node key =>
    obtain ⟨arrivals', h'⟩ := h.push ⟨node, key⟩
    exact ⟨_, arrivals', hl.push, order_push, h'⟩
  | pop =>
    have hentries := h.entries
    obtain ⟨order, held⟩ := f
    cases arrivals with
    | nil =>
      obtain rfl : held = [] := hentries
      exact ⟨l, [], hl.none h.held, rfl, h⟩
    | cons a arrivals =>
      obtain rfl : held = (a :: arrivals).map Arrival.toWaiting := hentries
      obtain ⟨hfirst, hsorted⟩ := List.pairwise_cons.1 h.sorted
      have hmem : ∀ b, b ∈ l.held ↔ b ∈ a :: arrivals := fun b ↦ by rw [h.held, Multiset.mem_coe]
      refine ⟨{ l with held := l.held.erase a }, arrivals,
        hl.pop ((hmem a).2 List.mem_cons_self) (fun b hb ↦ ?_), rfl, rfl, ?_, hsorted, ?_⟩
      · exact (List.mem_cons.1 ((hmem b).1 hb)).imp_right (hfirst b)
      · show l.held.erase a = _
        rw [h.held, Multiset.coe_erase, List.erase_cons_head]
      · exact fun b hb ↦ h.arrived b (List.mem_cons_of_mem a hb)

/-- **Requests in turn** are recorded. -/
theorem Numbers.serveAll {events : List FrontierEvent} (h : f.Numbers l arrivals)
    (hl : l.Records f.order events) (requests : List FrontierRequest) : ∃ l' arrivals',
      l'.Records f.order (events ++ (f.serveAll requests).1) ∧
        (f.serveAll requests).2.Numbers l' arrivals' := by
  induction requests generalizing f l arrivals events with
  | nil => exact ⟨l, arrivals, (List.append_nil events).symm ▸ hl, h⟩
  | cons q requests ih =>
    obtain ⟨l', arrivals', hl', horder, h'⟩ := h.serve hl q
    obtain ⟨l'', arrivals'', hl'', h''⟩ := ih h' (horder ▸ hl')
    refine ⟨l'', arrivals'', ?_, h''⟩
    rwa [horder, List.append_assoc] at hl''

end Frontier

/-! ### Other names for the nodes -/

/-- The request with another name for its node. -/
def FrontierRequest.rename (ρ : NodeId → NodeId) : FrontierRequest → FrontierRequest
  | .push node key => .push (ρ node) key
  | .pop => .pop

/-- The event with another name for its node. -/
def FrontierEvent.rename (ρ : NodeId → NodeId) : FrontierEvent → FrontierEvent
  | .pushed node key => .pushed (ρ node) key
  | .popped answer => .popped (answer.map ρ)

namespace Frontier

variable {ρ : NodeId → NodeId} {f : Frontier}

/-- The frontier with other names for its nodes. -/
def rename (ρ : NodeId → NodeId) (f : Frontier) : Frontier :=
  { f with held := f.held.map fun w ↦ ⟨ρ w.node, w.key⟩ }

theorem insertByKey_map {w : Waiting} {held : List Waiting} :
    insertByKey ⟨ρ w.node, w.key⟩ (held.map fun v ↦ ⟨ρ v.node, v.key⟩) =
      (insertByKey w held).map fun v ↦ ⟨ρ v.node, v.key⟩ := by
  induction held with
  | nil => rfl
  | cons v held ih =>
    rw [List.map_cons, insertByKey, insertByKey]
    split
    · rfl
    · rw [ih, List.map_cons]

theorem push_rename {node : NodeId} {key : Nat} :
    (f.rename ρ).push (ρ node) key = (f.push node key).rename ρ := by
  obtain ⟨order, held⟩ := f
  cases order with
  | breadthFirst => simp [push, rename]
  | depthFirst => simp [push, rename]
  | lowestKey => exact congrArg _ (insertByKey_map (w := ⟨node, key⟩))

theorem serve_rename {q : FrontierRequest} : (f.rename ρ).serve (q.rename ρ) =
    ((f.serve q).1.rename ρ, (f.serve q).2.rename ρ) := by
  cases q with
  | push node key => exact Prod.ext rfl push_rename
  | pop =>
    obtain ⟨order, held⟩ := f
    cases held with
    | nil => rfl
    | cons w held => rfl

/-- **Only the keys and the order of the requests matter**, not which nodes they are about. -/
theorem serveAll_rename {requests : List FrontierRequest} :
    (f.rename ρ).serveAll (requests.map (FrontierRequest.rename ρ)) =
      ((f.serveAll requests).1.map (FrontierEvent.rename ρ), (f.serveAll requests).2.rename ρ) := by
  induction requests generalizing f with
  | nil => rfl
  | cons q requests ih =>
    rw [List.map_cons, serveAll, serve_rename, ih]
    rfl

/-! ### The discipline -/

/-- What comes of requests to a frontier that begins empty, and the frontier afterwards. -/
def served (order : SearchOrder) (requests : List FrontierRequest) :
    List FrontierEvent × Frontier :=
  ({ order } : Frontier).serveAll requests

/-- **The discipline of frontiers.** Whatever nodes are added and taken, in whatever order, what
comes of it is in keeping with a ledger of arrivals: breadth first the earliest arrival leaves,
depth first the latest, and by keys the earliest of those with the lowest key. The nodes added are
those taken and those held, the size is the number held, none is taken if and only if none is held,
and other names for the nodes change nothing but the names. -/
theorem records_served (order : SearchOrder) (requests : List FrontierRequest) :
    (∃ l : Ledger, l.Records order (served order requests).1 ∧
      l.held.map Arrival.toWaiting = ((served order requests).2.held : Multiset Waiting) ∧
      (served order requests).2.size = l.held.card) ∧
    ((served order requests).1.filterMap FrontierEvent.added? : Multiset NodeId) =
      ((served order requests).1.filterMap FrontierEvent.taken? : Multiset NodeId) +
        ((served order requests).2.held.map Waiting.node : Multiset NodeId) ∧
    ((served order requests).2.pop? = none ↔ (served order requests).2.size = 0) ∧
    ∀ ρ : NodeId → NodeId, (served order (requests.map (FrontierRequest.rename ρ))).1 =
      (served order requests).1.map (FrontierEvent.rename ρ) := by
  have hstart : ({ order } : Frontier).Numbers {} [] :=
    ⟨rfl, rfl, .nil, List.forall_mem_nil _⟩
  obtain ⟨l, arrivals, hl, h⟩ := hstart.serveAll .start requests
  have hheld : l.held.map Arrival.toWaiting =
      ((served order requests).2.held : Multiset Waiting) := by
    rw [h.held, Multiset.map_coe, ← h.entries]
    rfl
  refine ⟨⟨l, hl, hheld, h.size_eq⟩, ?_, ?_, fun ρ ↦ ?_⟩
  · have hnodes : l.held.map (·.node) =
        ((served order requests).2.held.map Waiting.node : Multiset NodeId) := by
      rw [← Multiset.map_coe, ← hheld, Multiset.map_map]
      rfl
    rw [← hnodes]
    exact hl.balance
  · rw [pop?, size]
    cases (served order requests).2.held <;> simp
  · exact congrArg Prod.fst (serveAll_rename (f := { order }))

/-- A node that waits under three keys is taken three times, and a lower key that comes late is
taken before higher ones that came early. -/
example : (served .lowestKey [.push 0 5, .push 1 1, .push 0 1, .pop, .push 2 0, .push 0 5, .pop,
    .pop, .pop, .pop, .pop]).1.filterMap FrontierEvent.taken? = [1, 2, 0, 0, 0] := by
  decide

end Frontier

end AbstractionRefinement
