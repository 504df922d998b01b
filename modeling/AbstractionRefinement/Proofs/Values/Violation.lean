import AbstractionRefinement.Proofs.Labels
import AbstractionRefinement.Proofs.Values.Simulation
import AbstractionRefinement.Values.Check

/-!
# What a report of a violation shows

A well-typed program that is reported to violate its property has an execution that does
(`Program.exists_execution_of_violated`). The path in the report belongs to the graph: locations and
edges along it fit together, since roots are made at the initial location and children along edges
(`Program.joinedBy_of_kept`). The valuations in the report come from the simulation of these edges,
and each of them is completed by the store of one execution at that point.

The execution is put together from both. The path gives the configurations: it starts at the initial
location, each move is along an edge of the program, and it ends at the error location. The
simulation gives the stores: a run that is left at the end is justified (`Simulated.Justified`),
which means that for every way to fill in what it leaves open, the statements along the moves lead
from the first valuation to the last.

Well-typedness is needed for the filling in: it is what makes a value that is unknown to the
simulation irrelevant for every condition that has been passed. The budget on runs is not needed,
since a simulation that exceeds it gives no answer at all.
-/

namespace AbstractionRefinement

namespace Program

variable {p : Program} {maxEnum : Nat} {merge : Bool}

/-! ### Locations along paths -/

/-- The move is an edge of the program between the locations of two states. -/
def JoinedBy (p : Program) (s : ProgramState) (m : Move) (t : ProgramState) : Prop :=
  ∃ e ∈ p.edges, e.move = m ∧ e.source = s.first.location ∧ e.target = t.first.location

theorem location_of_initial {prec : ProgramPrecision} {states : List ProgramState}
    (h : (p.model maxEnum merge).initial prec = .ok states) :
    ∀ st ∈ states, st.first.location = p.init := by
  intro st hst
  obtain ⟨firsts, seconds, hfirsts, -, rfl⟩ := Analysis.product_initial_eq_ok.1 h
  obtain rfl := Except.ok.inj hfirsts
  obtain ⟨⟨hfirst, -⟩, -⟩ := Analysis.mem_pairs.1 hst
  rw [List.mem_singleton.1 hfirst]

theorem location_of_successors {prec : ProgramPrecision} {s : ProgramState} {m : Move}
    {states : List ProgramState} (h : (p.model maxEnum merge).successors s m prec = .ok states) :
    ∀ st ∈ states, m.source = s.first.location ∧ m.target = st.first.location := by
  intro st hst
  obtain ⟨firsts, hfirsts, ⟨-, rfl⟩ | ⟨-, seconds, -, rfl⟩⟩ :=
    Analysis.product_successors_eq_ok.1 h
  · cases hst
  · obtain rfl := Except.ok.inj hfirsts
    obtain ⟨⟨hfirst, -⟩, -⟩ := Analysis.mem_pairs.1 hst
    split at hfirst
    · rename_i hsource
      rw [List.mem_singleton.1 hfirst]
      exact ⟨hsource, rfl⟩
    · cases hfirst

/-- Enabled moves are edges that leave the location. -/
theorem exists_edge_of_enabled {s : ProgramState} {moves : List Move}
    (h : (p.model maxEnum merge).enabled s = .ok moves) :
    ∀ m ∈ moves, ∃ e ∈ p.edges, e.move = m ∧ e.source = s.first.location := by
  intro m hm
  obtain ⟨edges, hedges, h⟩ := bind_eq_ok.1 h
  obtain rfl := Except.ok.inj h
  obtain ⟨e, he, rfl⟩ := List.mem_map.1 hm
  rw [outgoing] at hedges
  split at hedges
  · obtain rfl := Except.ok.inj hedges
    obtain ⟨hmem, hsource⟩ := List.mem_filter.1 he
    exact ⟨e, hmem, rfl, of_decide_eq_true hsource⟩
  · cases hedges

variable {x : Explorer ProgramState Move ProgramPrecision}

/-- Children are joined to their parents by edges. -/
theorem joinedBy_of_kept (hx : x.model = p.model maxEnum merge) {prec : ProgramPrecision}
    {s t : ProgramState} {succ : List (Move × List ProgramState)} {m : Move}
    (hsucc : x.successorsOf s prec = .ok succ) (hkept : x.Kept succ m t) : p.JoinedBy s m t := by
  obtain ⟨moves, hmoves, hall⟩ := Explorer.successorsOf_eq_ok.1 hsucc
  have hmem : m ∈ moves := by
    obtain ⟨states, kept, hstates, -⟩ := hkept
    obtain ⟨m', hm', rfl, -⟩ := exists_of_forall₂_of_mem_right hall hstates
    exact hm'
  rw [hx] at hmoves
  obtain ⟨e, he, rfl, hsource⟩ := exists_edge_of_enabled hmoves m hmem
  have htarget : e.target = t.first.location := by
    refine Explorer.forall_of_kept (Q := fun t ↦ e.target = t.first.location)
      (fun {st st' u} hmerge hst hst' ↦ ?_) hsucc hkept fun hstates t ht ↦ ?_
    · rw [hx] at hmerge
      obtain ⟨-, rfl⟩ := merge_eq_some hmerge
      exact hst
    · rw [hx] at hstates
      exact (location_of_successors hstates t ht).2
  exact ⟨e, he, rfl, hsource, htarget⟩

/-! ### From histories to executions -/

/-- A history that is retraced is an execution, read from its beginning. -/
theorem Retraces.along {ρ : Store} {now : Valuation} {bodies : List (List Statement)}
    {history : List Valuation} {steps : List (List Statement × Store)}
    (h : p.Retraces ρ now bodies history)
    (hsteps : Along (fun σ body τ ↦ p.Executes body σ τ) (ρ.override now) steps) :
    ∃ run : Trace Store (List Statement), p.InType run.start ∧
      Along (fun σ body τ ↦ p.Executes body σ τ) run.start run.steps ∧
      run.actions = bodies.reverse ++ steps.map Prod.fst ∧
      run.states = history.reverse.map ρ.override ++ ρ.override now :: steps.map Prod.snd := by
  induction h generalizing steps with
  | start h => exact ⟨⟨_, steps⟩, h, hsteps, rfl, rfl⟩
  | step h _ ih =>
    obtain ⟨run, hstart, hrun, hactions, hstates⟩ := ih (.cons h hsteps)
    refine ⟨run, hstart, hrun, ?_, ?_⟩
    · rw [hactions, List.reverse_cons, List.append_assoc]
      rfl
    · rw [hstates, List.reverse_cons, List.map_append, List.append_assoc]
      rfl

/-- A justified run is an execution of the statements it has passed. -/
theorem exists_stores_of_justified {r : Simulated} {bodies : List (List Statement)} {ρ : Store}
    (h : r.Justified p ([] :: bodies.reverse)) (hρ : p.InType ρ) :
    ∃ run : Trace Store (List Statement), p.InType run.start ∧
      Along (fun σ body τ ↦ p.Executes body σ τ) run.start run.steps ∧
      run.actions = bodies ∧ run.states = r.history.map ρ.override := by
  have hretraces := h.retraces hρ
  generalize hrev : r.history.reverse = latest at hretraces
  cases hretraces with
  | step _ hrest =>
    obtain ⟨run, hstart, hrun, hactions, hstates⟩ := hrest.along .nil
    refine ⟨run, hstart, hrun, ?_, ?_⟩
    · rw [hactions, List.reverse_reverse, List.map_nil, List.append_nil]
    · rw [hstates, ← List.reverse_reverse r.history, hrev, List.reverse_cons, List.map_append]
      rfl

/-- States joined by edges, and stores that the statements of these edges lead to, are an execution
of the program. -/
theorem exists_configs {s : ProgramState} {σ : Store} {steps : List (Move × ProgramState)}
    {stores : List (List Statement × Store)} (hedge : ∀ e ∈ p.edges, p.edge e.id = .ok e)
    (hsteps : Along p.JoinedBy s steps)
    (hstores : Along (fun σ body τ ↦ p.Executes body σ τ) σ stores)
    (hbodies : p.BodiesOf (steps.map Prod.fst) (stores.map Prod.fst)) :
    ∃ configs : List (Move × Config), Along p.concrete.step ⟨s.first.location, σ⟩ configs ∧
      configs.map Prod.fst = steps.map Prod.fst ∧
      configs.map (fun c ↦ c.2.location) = steps.map (fun t ↦ t.2.first.location) ∧
      configs.map (fun c ↦ c.2.store) = stores.map Prod.snd := by
  induction hsteps generalizing σ stores with
  | nil =>
    cases hstores with
    | nil => exact ⟨[], .nil, rfl, rfl, rfl⟩
    | cons => cases hbodies
  | @cons s t m steps hjoin _ ih =>
    cases hstores with
    | nil => cases hbodies
    | @cons _ τ body stores hexec hstores =>
      obtain ⟨⟨e', he', rfl⟩, hrest⟩ := List.forall₂_cons.1 hbodies
      obtain ⟨e, he, rfl, hsource, htarget⟩ := hjoin
      obtain rfl := Except.ok.inj ((hedge e he).symm.trans he')
      obtain ⟨configs, hrun, hmoves, hlocs, hvals⟩ := ih hstores hrest
      refine ⟨(e.move, ⟨t.first.location, τ⟩) :: configs, .cons ?_ hrun, ?_, ?_, ?_⟩
      · exact ⟨e, he, rfl, hsource, htarget, hexec⟩
      · rw [List.map_cons, List.map_cons, hmoves]
      · rw [List.map_cons, List.map_cons, hlocs]
      · rw [List.map_cons, List.map_cons, hvals]

/-! ### Reports -/

/-- What the refuter finds feasible is justified. -/
theorem justified_of_checkMoves (htyped : p.WellTyped) {maxRuns : Nat} {strategy : CoreStrategy}
    {moves : List Move} {witness : List Valuation}
    (h : p.checkMoves maxRuns strategy moves = .ok (.feasible witness)) :
    ∃ bodies, ∃ r : Simulated, p.BodiesOf moves bodies ∧
      r.Justified p ([] :: bodies.reverse) ∧ witness = r.history := by
  obtain ⟨statements, hst, h⟩ := bind_eq_ok.1 h
  obtain ⟨outcome, hsim, h⟩ := bind_eq_ok.1 h
  cases outcome with
  | feasible run =>
    obtain ⟨bodies, hbodies, hjust⟩ := justified_of_simulate htyped (orFault_eq_ok.1 hst) hsim
    exact ⟨bodies, _, hbodies, hjust, (Feasibility.feasible.inj (Except.ok.inj h)).symm⟩
  | stuck failedAt =>
    obtain ⟨core, -, h⟩ := bind_eq_ok.1 h
    cases h

theorem exists_inType {d : Draft} (hbuild : d.build = .ok p) : ∃ ρ, p.InType ρ := by
  have hvalue : ∀ x, ∃ a, ∀ type, p.varType x = .ok type → type.contains a = true := by
    intro x
    cases hx : p.varType x with
    | error f => exact ⟨default, fun type h ↦ by cases h⟩
    | ok type =>
      obtain ⟨a, ha⟩ := d.exists_contains_of_build hbuild hx
      exact ⟨a, fun type' h ↦ Except.ok.inj h ▸ ha⟩
  choose ρ hρ using hvalue
  exact ⟨ρ, fun x type h ↦ hρ x type h⟩

/-- **A report of a violation comes with an execution.** The path is a path of the graph reported to
one of its targets, from the initial to the error location along edges of the program, and an
execution along these edges has at each point the values that the witness knows there. -/
theorem exists_execution_of_violated {d : Draft} (hbuild : d.build = .ok p) (htyped : p.WellTyped)
    {o : ProgramOptions} {meter : Meter} {clock : Clock} {turns : Nat}
    {report : Report ProgramState Move ProgramPrecision (List Valuation)}
    {path : Path ProgramState Move} {witness : List Valuation}
    (h : p.check o meter clock turns = some (.ok report))
    (hviolated : report.conclusion = .violated path witness) :
    (∃ n, report.graph.node? path.target = some n ∧ n.target = true) ∧
      report.graph.IsPath path ∧
      path.trace.start.first.location = p.init ∧ path.trace.last.first.location = p.error ∧
      Along p.JoinedBy path.trace.start path.trace.steps ∧
      witness.length = path.trace.states.length ∧
      ∃ run : Trace Config Move, p.concrete.initial run.start ∧
        Along p.concrete.step run.start run.steps ∧ run.actions = path.trace.actions ∧
        run.states.map Config.location = path.trace.states.map (fun s ↦ s.first.location) ∧
        List.Forall₂ (fun c v ↦ c.store.Extends v) run.states witness := by
  have hedge : ∀ e ∈ p.edges, p.edge e.id = .ok e := fun e he ↦ d.edge_of_build hbuild he
  obtain ⟨hdisc, hlabel, hpath, ⟨n, hn, hcex⟩, hcheck⟩ := Checker.exists_path_of_violated
    (R := fun s ↦ s.first.location = p.init) (E := p.JoinedBy)
    (fun hinit ↦ location_of_initial hinit) (fun hsucc hkept ↦ joinedBy_of_kept rfl hsucc hkept)
    h hviolated
  have htarget : n.target = true := (Bool.and_eq_true_iff.1 hcex).1
  obtain ⟨hstart, hsteps⟩ := hlabel.along hpath
  have hlast : path.trace.last.first.location = p.error := by
    obtain ⟨m, hm, hstate⟩ := hpath.exists_target
    obtain rfl := Option.some.inj (hn.symm.trans hm)
    rw [(hdisc.sane hn).target_eq, hstate] at htarget
    exact of_decide_eq_true htarget
  obtain ⟨bodies, r, hbodies, hjust, rfl⟩ := justified_of_checkMoves htyped hcheck
  have hlen : r.history.length = path.trace.states.length := by
    rw [hjust.length_eq, List.length_cons, List.length_reverse, ← hbodies.length_eq,
      Trace.length_states, Trace.length_actions]
  -- one way to fill in what the witness leaves open
  obtain ⟨ρ, hρ⟩ := exists_inType hbuild
  obtain ⟨stores, hin, hstores, rfl, hstates⟩ := exists_stores_of_justified hjust hρ
  obtain ⟨configs, hrun, hmoves, hlocs, hvals⟩ := exists_configs hedge hsteps hstores hbodies
  refine ⟨⟨n, hn, htarget⟩, hpath, hstart, hlast, hsteps, hlen,
    ⟨⟨path.trace.start.first.location, stores.start⟩, configs⟩, ⟨hstart, hin⟩, hrun, hmoves, ?_, ?_⟩
  · rw [Trace.states, Trace.states, List.map_cons, List.map_cons, List.map_map, List.map_map]
    exact congrArg _ hlocs
  · have hmap : List.map Config.store (Trace.states
        ⟨⟨path.trace.start.first.location, stores.start⟩, configs⟩) = r.history.map ρ.override := by
      rw [← hstates, Trace.states, Trace.states, List.map_cons, List.map_map]
      exact congrArg _ hvals
    have hall := List.forall₂_eq_eq_eq.symm ▸ hmap
    rw [List.forall₂_map_left_iff, List.forall₂_map_right_iff] at hall
    exact hall.imp fun c v hc ↦ hc ▸ Store.extends_override

/-! ### An example -/

/-- Compares two unknown values, then replaces one of them. -/
def detour : Draft where
  vars := [⟨"x", .int 0 3⟩, ⟨"y", .int 0 3⟩]
  locations := ["A", "B", "C"]
  edges :=
    [⟨0, 1, [.assume (.compare .lt (.var 0) (.var 1))]⟩,
      ⟨1, 2, [.havoc 0, .assume (.equal (.var 0) (.arith .add (.var 1) (.const (.int 2))))]⟩]
  init := some 0
  error := some 2

/-- The path to the error location. -/
def detourPath : Path ProgramState Move where
  start := ⟨0, ⟨0⟩, .top⟩
  steps := [(⟨0, 0, 1⟩, ⟨1, ⟨1⟩, .top⟩), (⟨1, 1, 2⟩, ⟨2, ⟨2⟩, .top⟩)]

/-- The values found by the simulation: the first comparison fixes both variables from the
beginning, and the second one fixes only what was stored in between. -/
def detourWitness : List Valuation :=
  [.ofList [(0, .int 0), (1, .int 1)], .ofList [(0, .int 0), (1, .int 1)],
    .ofList [(0, .int 3), (1, .int 1)]]

theorem wellTyped_detour {p : Program} (hp : detour.build = .ok p) : p.WellTyped := by
  have hxtype : p.varType 0 = .ok (.int 0 3) := by
    cases hp
    rfl
  have hytype : p.varType 1 = .ok (.int 0 3) := by
    cases hp
    rfl
  have hx : Expr.HasKind p (.var 0) .int := .var hxtype
  have hy : Expr.HasKind p (.var 1) .int := .var hytype
  have hedges : p.edges = Draft.numberEdges 0 detour.edges := (Draft.build_eq_ok hp).1
  intro e he s hs
  rw [hedges] at he
  rcases List.mem_cons.1 he with rfl | he
  · obtain rfl := List.mem_singleton.1 hs
    exact .assume (.compare hx hy)
  · obtain rfl := List.mem_singleton.1 he
    rcases List.mem_cons.1 hs with rfl | hs
    · exact .havoc hxtype
    · obtain rfl := List.mem_singleton.1 hs
      exact .assume (.equal hx (.arith hy .const))

/-- The whole statement at this program; the execution takes both edges. -/
theorem detour_violated : ∃ p report, detour.build = .ok p ∧ p.WellTyped ∧
    p.check {} {} {} 9 = some (.ok report) ∧
    report.conclusion = .violated detourPath detourWitness ∧
    ∃ run : Trace Config Move, p.concrete.initial run.start ∧
      Along p.concrete.step run.start run.steps ∧
      List.Forall₂ (fun c v ↦ c.store.Extends v) run.states detourWitness := by
  have hrun : (detour.build.toOption.any fun p ↦ (p.check {} {} {} 9).any fun e ↦ e.toOption.any
      fun report ↦ report.conclusion = .violated detourPath detourWitness) = true := by
    decide +kernel
  obtain ⟨p, hp, hrun⟩ := exists_of_toOption_any hrun
  obtain ⟨e, he, hrun⟩ := (Option.any_eq_true _ _).1 hrun
  obtain ⟨report, rfl, hreport⟩ := exists_of_toOption_any hrun
  have hviolated := of_decide_eq_true hreport
  have htyped := wellTyped_detour hp
  obtain ⟨-, -, -, -, -, -, run, hstart, hrun, -, -, hstores⟩ :=
    exists_execution_of_violated hp htyped he hviolated
  exact ⟨p, report, hp, htyped, he, hviolated, run, hstart, hrun, hstores⟩

end Program

end AbstractionRefinement
