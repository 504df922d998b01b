import AbstractionRefinement.Proofs.Exploration.Settled
import AbstractionRefinement.Proofs.Exploration.Termination

/-!
# Room for nodes

A limit of nodes is looked at in two places, each time just before a node is made. So an exploration
in a room for `k` nodes does what it does without the limit, up to the moment when the room is full
and one more node is to be made; it never does anything else. The judgement `Explorer.Confines`
compares a computation in both settings, and follows the functions of the exploration one by one.

Since nothing is removed, as many nodes are live in addition as have been created
(`Explorer.live_add_of_grows`). So whether there is room for a whole exploration is seen from the
graph that it leaves without the limit: no node is made, or at most `k` are live at the end. If
there is not, the exploration stops with `k` live nodes, or as many as there were if there were more
(`Explorer.room_of_explore`).
-/

namespace AbstractionRefinement

open Work Session

variable {S A P α β : Type}

namespace Explorer

/-- The explorer in a room for so many nodes, with another meter. -/
def withRoom (x : Explorer S A P) (k : Nat) (meter : Meter) : Explorer S A P :=
  { x with options := { x.options with maxNodes := k }, meter }

variable {x : Explorer S A P} {prec : P} {k : Nat} {meter : Meter} {s t : Session S A}
  {id : NodeId} {n : Node S A} {a : A} {st : S} {succ : List (A × List S)} {p : Pursuit}

/-! ### What does not depend on the room -/

/-- Without limits on time and memory, the budgets of a turn do not depend on the room for nodes. -/
theorem checkBudgets_withRoom (ho : x.options.Unlimited) {turn : Nat} :
    (x.withRoom k meter).checkBudgets none turn = x.checkBudgets none turn := by
  -- the number of nodes is not looked at
  have hopen : (x.withRoom 0 meter).options.Unlimited := ⟨rfl, ho.timeLimit, ho.memoryLimit⟩
  exact (checkBudgets_of_unlimited hopen turn).trans (checkBudgets_of_unlimited ho turn).symm

/-- Successors that are there are there in the room, whatever failure would be noticed there. -/
theorem successorsOf_withRoom (h : x.successorsOf st prec = .ok succ) :
    (x.withRoom k meter).successorsOf st prec = .ok succ := by
  rw [successorsOf_eq_ok] at h ⊢
  exact h

/-- Nodes are settled alike, however much room there is. -/
theorem settle_withRoom {ids : List NodeId} :
    (x.withRoom k meter).settle (A := A) p ids = x.settle p ids := by
  induction ids generalizing p with
  | nil => rfl
  | cons id ids ih =>
    rw [settle, settle]
    simp only [ih]
    rfl

section Siblings

variable [DecidableEq S] [Described S]

/-- States are absorbed alike, however much room there is. -/
theorem absorb_withRoom {kept : List S} :
    (x.withRoom k meter).absorb kept st = x.absorb kept st := by
  induction kept with
  | nil => rfl
  | cons q kept ih =>
    rw [absorb, absorb, ih]
    rfl

/-- The same for several states in turn. -/
theorem absorbAll_withRoom {kept states : List S} :
    (x.withRoom k meter).absorbAll kept states = x.absorbAll kept states := by
  induction states generalizing kept with
  | nil => rfl
  | cons st states ih =>
    rw [absorbAll, absorbAll]
    simp only [absorb_withRoom, ih]
    rfl

end Siblings

variable [DecidableEq S] [DecidableEq A] [Described S]

/-! ### Live nodes -/

/-- A step makes nodes and removes none: there are as many more live nodes as created ones. -/
theorem Grows.live_add (h : x.Grows prec s t) :
    t.graph.live + s.graph.created = s.graph.live + t.graph.created := by
  cases h with
  | root =>
    show s.graph.live + 1 + _ = _
    rw [Graph.created_addRoot]
    omega
  | ready => rfl
  | child _ _ _ _ _ hadd =>
    have hcreated := Graph.created_addChild hadd
    obtain ⟨_, -, rfl⟩ := Graph.eq_of_addChild hadd
    show s.graph.live + 1 + _ = _
    rw [hcreated]
    omega
  | expanded _ _ _ _ hset =>
    rw [Graph.eq_update_of_setExpanded hset, Graph.created_update]
    rfl
  | cover hn _ _ hcov =>
    obtain ⟨hrw, -⟩ := Graph.rewrites_cover hn hcov
    rw [hrw.created, hrw.live]

/-- **As many nodes are live in addition as have been created.** -/
theorem live_add_of_grows (h : Relation.ReflTransGen (x.Grows prec) s t) :
    t.graph.live + s.graph.created = s.graph.live + t.graph.created := by
  induction h with
  | refl => rfl
  | tail _ hstep ih =>
    have := hstep.live_add
    omega

/-! ### Computations in a room -/

/-- How a computation ends under a limit of `k` nodes, with at most `room` of them live, if without
the limit it gives `a` and leaves `t`. -/
inductive Trims (x : Explorer S A P) (prec : P) (k room : Nat) (a : α) (t : Session S A) :
    Except Abort α × Session S A → Prop
  /-- In the same way. -/
  | fits (h : t.graph.live ≤ room) : Trims x prec k room a t (.ok a, t)
  /-- Early, when the room is full. Without the limit, more nodes are made after that. -/
  | full {u : Session S A} (hlive : u.graph.live = room)
      (hmore : u.graph.created < t.graph.created)
      (hrest : Relation.ReflTransGen (x.Grows prec) u t) :
    Trims x prec k room a t (.error (.failure (.exhausted (.nodes k))), u)

/-- The second computation is the first in a room for `k` nodes: whenever the first gives a value,
it only grows the graph, and the second does the same until the room is full. If more nodes are live
from the beginning, they stay, and none can be made. -/
def Confines (x : Explorer S A P) (prec : P) (k : Nat) (m m' : Work (Session S A) α)
    (s : Session S A) : Prop :=
  ∀ a t, m s = (.ok a, t) → Relation.ReflTransGen (x.Grows prec) s t ∧
    x.Trims prec k (max s.graph.live k) a t (m' s)

namespace Confines

variable {m m' n n' : Work (Session S A) α} {f f' : α → Work (Session S A) β}

theorem pure {a : α} : x.Confines prec k (Pure.pure a) (Pure.pure a) s := by
  intro b t h
  obtain ⟨heq, rfl⟩ := Prod.mk.inj h
  obtain rfl := Except.ok.inj heq
  exact ⟨.refl, .fits (Nat.le_max_left _ _)⟩

/-- **Sequencing.** -/
theorem bind (hm : x.Confines prec k m m' s)
    (hf : ∀ a t, m s = (.ok a, t) → x.Confines prec k (f a) (f' a) t) :
    x.Confines prec k (m >>= f) (m' >>= f') s := by
  intro b t h
  obtain ⟨a, u, hu, hrest⟩ := exists_of_bind h
  obtain ⟨hsu, hfirst⟩ := hm a u hu
  obtain ⟨hut, hsecond⟩ := hf a u hu b t hrest
  refine ⟨hsu.trans hut, ?_⟩
  generalize hout : m' s = out at hfirst
  cases hfirst with
  | fits hroom =>
    -- what has been made so far has its room
    have hle : s.graph.live ≤ u.graph.live := by
      have := live_add_of_grows hsu
      have := (extends_of_grows hsu).created
      omega
    have hmax : max u.graph.live k = max s.graph.live k := by omega
    rw [bind_of_ok (congrArg Prod.fst hout), hout, ← hmax]
    exact hsecond
  | full hlive hmore hrest =>
    rw [bind_of_error (congrArg Prod.fst hout), hout]
    exact .full hlive (Nat.lt_of_lt_of_le hmore (extends_of_grows hut).created) (hrest.trans hut)

/-- Sequencing, where the second part needs to know what the first does. -/
theorem bind_does {Q : α → Session S A → Prop} (hm : x.Confines prec k m m' s)
    (hdoes : Does (x.Grows prec) (x.Stops prec none) m s Q)
    (hf : ∀ a t, Relation.ReflTransGen (x.Grows prec) s t → Q a t →
      x.Confines prec k (f a) (f' a) t) : x.Confines prec k (m >>= f) (m' >>= f') s :=
  hm.bind fun a t h ↦ hf a t (hdoes.change_of_eq h) (hdoes.value_of_eq h)

/-- A choice is confined if both of its branches are. -/
theorem ite {c : Prop} [Decidable c] (hm : c → x.Confines prec k m m' s)
    (hn : ¬c → x.Confines prec k n n' s) :
    x.Confines prec k (if c then m else n) (if c then m' else n') s := by
  by_cases h : c
  · rw [if_pos h, if_pos h]
    exact hm h
  · rw [if_neg h, if_neg h]
    exact hn h

/-- What is demanded in the room only has to be there if it is there without the limit. -/
theorem demand_bind {e e' : Except Abort α} (he : ∀ a, e = .ok a → e' = .ok a)
    (h : ∀ a, e = .ok a → x.Confines prec k (f a) (f' a) s) :
    x.Confines prec k (demand e >>= f) (demand e' >>= f') s := by
  cases e with
  | ok a =>
    rw [he a rfl]
    exact h a rfl
  | error e =>
    intro b t hb
    cases hb

/-- What comes after a demand is confined if the demands agree. -/
theorem demand_bind_eq {e e' : Except Abort α} (he : e' = e)
    (h : ∀ a, e = .ok a → x.Confines prec k (f a) (f' a) s) :
    x.Confines prec k (demand e >>= f) (demand e' >>= f') s :=
  .demand_bind (fun _ ha ↦ he.trans ha) h

theorem currentGraph_bind {f f' : Graph S A → Work (Session S A) β}
    (h : x.Confines prec k (f s.graph) (f' s.graph) s) :
    x.Confines prec k (currentGraph >>= f) (currentGraph >>= f') s := h

/-- A computation that makes no node does not need any room. -/
theorem of_does {Q : α → Session S A → Prop} (hm : Does (x.Grows prec) (x.Stops prec none) m s Q)
    (hquiet : ∀ {a t}, Q a t → t.graph.created = s.graph.created) :
    x.Confines prec k m m s := by
  intro a t h
  have hst := hm.change_of_eq h
  have hcreated := hquiet (hm.value_of_eq h)
  have hlive := live_add_of_grows hst
  rw [h]
  exact ⟨hst, .fits (by omega)⟩

/-- **Making a node.** The room is looked at first, and if it is full the node is not made. -/
theorem checkRoom_bind {f : Unit → Work (Session S A) α} (ho : x.options.Unlimited) (hk : 0 < k)
    (hmake : ∀ a t, f () s = (.ok a, t) →
      x.Grows prec s t ∧ t.graph.created = s.graph.created + 1) :
    x.Confines prec k (demand (x.checkRoom s.graph) >>= f)
      (demand ((x.withRoom k meter).checkRoom s.graph) >>= f) s := by
  intro a t h
  have hopen : x.checkRoom s.graph = .ok () := by simp [checkRoom, ho.maxNodes]
  rw [Session.demand_bind hopen] at h
  obtain ⟨hstep, hcreated⟩ := hmake a t h
  have hlive := hstep.live_add
  refine ⟨.single hstep, ?_⟩
  rcases Nat.lt_or_ge s.graph.live k with hlt | hge
  · have hroom : (x.withRoom k meter).checkRoom s.graph = .ok () := by
      simp [checkRoom, withRoom, Nat.not_le.2 hlt]
    rw [Session.demand_bind hroom, h]
    exact .fits (by omega)
  · have hfull : (x.withRoom k meter).checkRoom s.graph =
        .error (.failure (.exhausted (.nodes k))) := by
      simp [checkRoom, withRoom, hk, hge]
    rw [hfull]
    exact .full (Nat.max_eq_left hge).symm (by omega) (.single hstep)

/-- **Bounded loops.** What every turn keeps without the limit is known in both settings. -/
theorem iterate {τ ρ : Type} {turn turn' : τ → Work (Session S A) (Turn τ ρ)}
    {I : τ → Session S A → Prop}
    (hturn : ∀ p t, I p t → x.Confines prec k (turn p) (turn' p) t)
    (hdoes : ∀ p t, I p t → Does (x.Grows prec) (x.Stops prec none) (turn p) t fun r u ↦
      ∀ p', r = .again p' → I p' u) {turns : Nat} {p : τ} (hp : I p s) :
    x.Confines prec k (AbstractionRefinement.iterate turn turns p)
      (AbstractionRefinement.iterate turn' turns p) s := by
  induction turns generalizing p s with
  | zero => exact .pure
  | succ turns ih =>
    refine (hturn p s hp).bind_does (hdoes p s hp) fun r t _ hr ↦ ?_
    cases r with
    | again p' => exact ih (hr p' rfl)
    | done a => exact .pure

end Confines

/-! ### Exploration, function by function -/

section Functions

variable (ho : x.options.Unlimited) (hk : 0 < k)
include ho hk

/-- An initial state is taken up alike, unless it needs a node and the room is full. -/
theorem confines_addInitial {states : List S} (hinit : x.model.initial prec = .ok states)
    (hst : st ∈ states) :
    x.Confines prec k (x.addInitial st) ((x.withRoom k meter).addInitial st) s := by
  refine .demand_bind_eq rfl fun _ _ ↦ .ite (fun _ ↦ .pure) fun hbot ↦ .currentGraph_bind ?_
  refine .demand_bind_eq rfl fun subsumed hsub ↦ ?_
  cases subsumed with
  | true => exact .pure
  | false =>
    refine .checkRoom_bind ho hk fun _ t h ↦ ?_
    obtain ⟨-, rfl⟩ := Prod.mk.inj h
    exact ⟨.root hinit hst (eq_false_of_ne_true hbot) (orFault_eq_ok.1 hsub),
      Graph.created_addRoot⟩

theorem confines_addInitials {states rest : List S} (hinit : x.model.initial prec = .ok states)
    (hrest : ∀ st ∈ rest, st ∈ states) :
    x.Confines prec k (x.addInitials rest) ((x.withRoom k meter).addInitials rest) s := by
  induction rest generalizing s with
  | nil => exact .pure
  | cons st rest ih =>
    refine (confines_addInitial ho hk hinit (hrest st List.mem_cons_self)).bind fun _ _ _ ↦ ?_
    exact ih fun st' h ↦ hrest st' (List.mem_cons_of_mem _ h)

/-- The roots are added alike until the room is full. -/
theorem confines_addRoots (hs : s.graph.WellFormed) :
    x.Confines prec k (x.addRoots prec) ((x.withRoom k meter).addRoots prec) s := by
  refine .demand_bind_eq rfl fun states hinit ↦ ?_
  refine (confines_addInitials ho hk hinit fun _ h ↦ h).bind_does
    (does_addInitials hs hinit fun _ h ↦ h) fun _ t _ hall ↦ ?_
  have hready : Does (x.Grows prec) (x.Stops prec none)
      (editGraph fun g ↦ .ok (g.setInitialized true)) t
      fun _ u ↦ u.graph.created = t.graph.created :=
    .of_eq (editGraph_eq rfl) (.single (.ready hinit hall.1)) rfl
  exact .of_does hready fun h ↦ h

/-- A successor is taken up alike, unless it needs a node and the room is full. -/
theorem confines_addSuccessor (hn : s.graph.node? id = some n) (hinc : n.isIncomplete = true)
    (hsucc : x.successorsOf n.state prec = .ok succ) (hkept : x.Kept succ a st) :
    x.Confines prec k (x.addSuccessor id a st) ((x.withRoom k meter).addSuccessor id a st) s := by
  refine .currentGraph_bind (.demand_bind_eq rfl fun has hhas ↦ ?_)
  cases has with
  | true => exact .pure
  | false =>
    refine .checkRoom_bind ho hk fun made t h ↦ ?_
    obtain ⟨g', hadd, heq⟩ := exists_makeChild hn a st (x.model.key st) (x.model.isTarget st)
    obtain ⟨-, rfl⟩ := Prod.mk.inj (heq.symm.trans h)
    exact ⟨.child hn hinc hsucc hkept (orFault_eq_ok.1 hhas) hadd, Graph.created_addChild hadd⟩

theorem confines_addSuccessors {rest : List S} (hs : s.graph.WellFormed)
    (hn : s.graph.node? id = some n) (hinc : n.isIncomplete = true)
    (hsucc : x.successorsOf n.state prec = .ok succ)
    (hkept : ∀ st ∈ rest, x.Kept succ a st) :
    x.Confines prec k (x.addSuccessors id a rest) ((x.withRoom k meter).addSuccessors id a rest)
      s := by
  induction rest generalizing s n with
  | nil => exact .pure
  | cons st rest ih =>
    have hst := hkept st List.mem_cons_self
    refine (confines_addSuccessor ho hk hn hinc hsucc hst).bind_does
      (does_addSuccessor hs hn hinc hsucc hst) fun made t hgrows hmade ↦ ?_
    -- the node is still incomplete, so the next child is made under the same conditions
    obtain ⟨m, hm, hminc, hstate⟩ := hmade.1.incomplete (extends_of_grows hgrows) hn hinc
    have hrest : ∀ st' ∈ rest, x.Kept succ a st' := fun st' h ↦ hkept st' (List.mem_cons_of_mem _ h)
    exact (ih (wellFormed_of_grows hgrows hs) hm hminc (hstate ▸ hsucc) hrest).bind
      fun _ _ _ ↦ .pure

/-- The successors of a node are taken up alike until the room is full. -/
theorem confines_addAll {rest : List (A × List S)} (hs : s.graph.WellFormed)
    (hn : s.graph.node? id = some n) (hinc : n.isIncomplete = true)
    (hsucc : x.successorsOf n.state prec = .ok succ)
    (hrest : ∀ r ∈ rest, r ∈ succ) :
    x.Confines prec k (x.addAll id rest) ((x.withRoom k meter).addAll id rest) s := by
  induction rest generalizing s n with
  | nil => exact .pure
  | cons r rest ih =>
    obtain ⟨a, states⟩ := r
    refine .demand_bind_eq absorbAll_withRoom fun kept hkept ↦ ?_
    have hall : ∀ st ∈ kept, x.Kept succ a st := fun st hst ↦
      ⟨states, kept, hrest _ List.mem_cons_self, hkept, hst⟩
    refine (confines_addSuccessors ho hk hs hn hinc hsucc hall).bind_does
      (does_addSuccessors hs hn hinc hsucc hall) fun made t hgrows hmade ↦ ?_
    obtain ⟨m, hm, hminc, hstate⟩ := hmade.1.incomplete (extends_of_grows hgrows) hn hinc
    have hrest' : ∀ r ∈ rest, r ∈ succ := fun r h ↦ hrest r (List.mem_cons_of_mem _ h)
    exact (ih (wellFormed_of_grows hgrows hs) hm hminc (hstate ▸ hsucc) hrest').bind
      fun _ _ _ ↦ .pure

/-- **One expansion** goes alike until the room is full. -/
theorem confines_expand (hs : s.graph.WellFormed) (hn : s.graph.node? id = some n)
    (hinc : n.isIncomplete = true) :
    x.Confines prec k (x.expand id prec) ((x.withRoom k meter).expand id prec) s := by
  refine .currentGraph_bind (.demand_bind_eq rfl fun n' hn' ↦ ?_)
  rw [orFault_eq_ok, Graph.node_eq_ok, hn] at hn'
  obtain rfl := Option.some.inj hn'
  refine .demand_bind (fun _ ↦ successorsOf_withRoom) fun succ hsucc ↦ ?_
  refine (confines_addAll ho hk hs hn hinc hsucc fun _ h ↦ h).bind_does
    (does_addAll hs hn hinc hsucc fun _ h ↦ h) fun made t hgrows hmade ↦ ?_
  obtain ⟨m, hm, hminc, hstate⟩ := hmade.1.incomplete (extends_of_grows hgrows) hn hinc
  obtain ⟨g', hset⟩ : ∃ g', t.graph.setExpanded id true = .ok g' := by
    rw [Graph.setExpanded, Graph.node_eq_ok.2 hm]
    exact ⟨_, rfl⟩
  have hcreated : g'.created = t.graph.created := by
    rw [Graph.eq_update_of_setExpanded hset, Graph.created_update]
  have hmark : Does (x.Grows prec) (x.Stops prec none) (do
      editGraph fun g ↦ g.setExpanded id true
      count fun c ↦ { c with expansions := c.expansions + 1 }
      return made) t fun _ u ↦ u.graph.created = t.graph.created :=
    .of_eq (editGraph_bind hset) (.single (.expanded hm hminc (hstate ▸ hsucc) hmade.2 hset))
      hcreated
  exact .of_does hmark fun h ↦ h

/-- **One turn of the loop** goes alike until the room is full. -/
theorem confines_turn (hp : Pursues p s.graph) :
    x.Confines prec k (x.turn none prec p) ((x.withRoom k meter).turn none prec p) s := by
  unfold turn
  cases hpop : p.frontier.pop? with
  | none => exact .pure
  | some q =>
    obtain ⟨id, f⟩ := q
    refine .demand_bind_eq (checkBudgets_withRoom ho) fun _ _ ↦ .currentGraph_bind ?_
    refine .ite (fun _ ↦ .pure) fun hid ↦ ?_
    obtain ⟨n, hn, hinc⟩ : ∃ n, s.graph.node? id = some n ∧ n.isIncomplete = true := by
      rw [Bool.not_eq_true', Bool.not_eq_false, Option.any_eq_true] at hid
      exact hid
    have htry : Does (x.Grows prec) (x.Stops prec none) (x.tryCover id) s
        fun covered t ↦ Covers x id s t covered := does_tryCover hp.wellFormed hn hinc
    refine (Confines.of_does htry Covers.created_eq).bind_does htry fun covered t _ hcov ↦ ?_
    cases covered with
    | true => exact .pure
    | false =>
      obtain ⟨rfl, -⟩ := hcov.failed rfl
      refine (confines_expand ho hk hp.wellFormed hn hinc).bind_does
        (does_expand hp.wellFormed hn hinc) fun made u htu hexp ↦ ?_
      have hnd : made.Nodup := hexp.made_eq ▸ List.nodup_range'
      have hsettle : Does (x.Grows prec) (x.Stops prec none) (x.settle (p.took f) made) u
          fun p' t ↦ Settles (p.took f) made u t p' :=
        does_settle (wellFormed_of_grows htu hp.wellFormed) hnd hexp.fresh
      rw [settle_withRoom]
      refine (Confines.of_does hsettle Settles.created_eq).bind fun p' _ _ ↦ ?_
      exact .ite (fun _ ↦ .pure) fun _ ↦ .pure

/-- **The loop** goes alike until the room is full. -/
theorem confines_pursue {turns : Nat} (hs : s.graph.WellFormed) :
    x.Confines prec k (x.pursue turns none prec) ((x.withRoom k meter).pursue turns none prec)
      s := by
  refine .currentGraph_bind (.ite (fun _ ↦ .pure) fun _ ↦ ?_)
  have hturn : ∀ p t, Pursues p t.graph → Does (x.Grows prec) (x.Stops prec none)
      (x.turn none prec p) t fun r u ↦ ∀ p', r = .again p' → Pursues p' u.graph := by
    intro p t hp
    refine (does_turn hp).imp fun r u htu hr p' heq ↦ ?_
    subst heq
    exact hp.advances hr.1 (extends_of_grows htu) (wellFormed_of_grows htu hp.wellFormed)
  refine (Confines.iterate (fun p t hp ↦ confines_turn ho hk hp) hturn (pursues_initial hs)).bind
    fun r _ _ ↦ ?_
  cases r with
  | none => exact .pure
  | some _ => exact .currentGraph_bind .pure

/-- **An exploration in a room** for `k` nodes. -/
theorem confines_explore {turns : Nat} (hs : s.graph.WellFormed) :
    x.Confines prec k (x.explore turns none prec) ((x.withRoom k meter).explore turns none prec)
      s := by
  have hlimit : (x.withRoom k meter).meter.checkLimit (x.withRoom k meter).options.timeLimit =
      x.meter.checkLimit x.options.timeLimit := by
    show meter.checkLimit x.options.timeLimit = _
    rw [ho.timeLimit, Clock.checkLimit_zero, Clock.checkLimit_zero]
  rw [explore_eq, explore_eq]
  refine .demand_bind_eq (congrArg orFault hlimit) fun _ _ ↦ .currentGraph_bind ?_
  refine .ite (fun _ ↦ confines_pursue ho hk hs) fun _ ↦ ?_
  refine (confines_addRoots ho hk hs).bind_does (does_addRoots hs) fun _ t hst _ ↦ ?_
  exact confines_pursue ho hk (wellFormed_of_grows hst hs)

end Functions

/-- **A limit of nodes only cuts an exploration off.** Let an exploration without limits come to a
verdict and leave `t`. In a room for `k` nodes it does the same, counters included, if it makes no
node or leaves at most `k` live ones. Otherwise it stops because the nodes are used up, at a moment
that it passes through without the limit, and leaves a well-formed graph with `k` live nodes, or as
many as there were if there were more. -/
theorem room_of_explore {turns : Nat} {v : Verdict} (hs : s.graph.WellFormed)
    (ho : x.options.Unlimited) (h : x.explore turns none prec s = (.ok (some v), t)) (hk : 0 < k)
    (meter : Meter) :
    (t.graph.created = s.graph.created ∨ t.graph.live ≤ k →
      (x.withRoom k meter).explore turns none prec s = (.ok (some v), t)) ∧
    (¬(t.graph.created = s.graph.created ∨ t.graph.live ≤ k) → ∃ u,
      (x.withRoom k meter).explore turns none prec s =
        (.error (.failure (.exhausted (.nodes k))), u) ∧
      u.graph.WellFormed ∧ u.graph.live = max s.graph.live k ∧
      s.graph.Extends u.graph ∧ u.graph.Extends t.graph) := by
  have hconfines : x.Confines prec k (x.explore turns none prec)
    ((x.withRoom k meter).explore turns none prec) s := confines_explore ho hk hs
  obtain ⟨hst, htrims⟩ := hconfines (some v) t h
  have hlive := live_add_of_grows hst
  have hcreated := (extends_of_grows hst).created
  generalize hout : (x.withRoom k meter).explore turns none prec s = out at htrims
  cases htrims with
  | fits hroom => exact ⟨fun _ ↦ rfl, fun hno ↦ absurd hroom (by omega)⟩
  | @full u hulive hmore hrest =>
    have hulive' := live_add_of_grows hrest
    have hsu := (does_explore hs).change_of_eq hout
    refine ⟨fun hroom ↦ absurd hroom (by omega), fun _ ↦ ⟨u, rfl, ?_, hulive, ?_, ?_⟩⟩
    · exact wellFormed_of_grows hsu hs
    · exact extends_of_grows hsu
    · exact extends_of_grows hrest

end Explorer

/-- What is left of the stairs in a room for three rungs, which is full in the middle of an
expansion. -/
def landing : Session Rung Unit := ((stairs.withRoom 3 {}).explore 9 none () {}).2

theorem wellFormed_landing : landing.graph.WellFormed :=
  Explorer.wellFormed_of_grows (Explorer.does_explore Graph.wellFormed_empty).change
    Graph.wellFormed_empty

/-- From the landing, where three rungs are live, the stairs lead to two more. A room for five is
just enough, a room for four is full before the last, and a room for two is full at once. -/
theorem room_landing : ∃ t u w, stairs.explore 9 none () landing = (.ok (some .suspect), t) ∧
    t.graph.live = 5 ∧
    (stairs.withRoom 5 {}).explore 9 none () landing = (.ok (some .suspect), t) ∧
    (stairs.withRoom 4 {}).explore 9 none () landing =
      (.error (.failure (.exhausted (.nodes 4))), u) ∧ u.graph.live = 4 ∧
    (stairs.withRoom 2 {}).explore 9 none () landing =
      (.error (.failure (.exhausted (.nodes 2))), w) ∧ w.graph.live = 3 := by
  have hverdict : (stairs.explore 9 none () landing).1 = .ok (some .suspect) := by decide +kernel
  have hlive : (stairs.explore 9 none () landing).2.graph.live = 5 := by decide +kernel
  have hcreated : (stairs.explore 9 none () landing).2.graph.created = 5 := by decide +kernel
  have hsize : landing.graph.created = 3 ∧ landing.graph.live = 3 := by decide +kernel
  generalize hexplore : stairs.explore 9 none () landing = r at hverdict hlive hcreated
  obtain ⟨_, t⟩ := r
  obtain rfl := hverdict
  dsimp only at hlive hcreated
  have hroom := fun k hk ↦ Explorer.room_of_explore (k := k) wellFormed_landing ⟨rfl, rfl, rfl⟩
    hexplore hk {}
  obtain ⟨u, hu, -, hulive, -⟩ := (hroom 4 (by decide)).2 (by omega)
  obtain ⟨w, hw, -, hwlive, -⟩ := (hroom 2 (by decide)).2 (by omega)
  refine ⟨t, u, w, rfl, hlive, (hroom 5 (by decide)).1 (.inr (by omega)), hu, ?_, hw, ?_⟩
  · rw [hulive, hsize.2]
    rfl
  · rw [hwlive, hsize.2]
    rfl

end AbstractionRefinement
