import AbstractionRefinement.Program.Basic
import AbstractionRefinement.Proofs.Work

/-!
# Declarations

What the declarations of a program promise. The values listed of a type are the values it contains
(`VarType.mem_values`). A program that was built has its edges at their positions
(`Draft.edge_of_build`), between declared locations and over declared variables
(`Draft.exists_varType_of_build`), and no empty type (`Draft.exists_contains_of_build`).

All of this is read off one inversion of the build (`Draft.build_eq_ok`), which says at once what
each of its checks has established; the checks themselves are opened there and nowhere else. The
edges of a program are numbered by their positions in the draft, so that the edge found under the
number of a move is the edge that the move was made from.

That no type is empty is what gives a program a store at all: a variable that was never assigned has
some value of its type, and an arbitrary assignment has a value to give.
-/

namespace AbstractionRefinement

/-! ### Values of a type -/

namespace VarType

/-- **The values listed are the values contained.** -/
theorem mem_values {t : VarType} {a : Value} : a ∈ t.values ↔ t.contains a = true := by
  rw [values, firstValues, Nat.min_self, List.mem_map]
  cases t with
  | bool =>
    constructor
    · rintro ⟨i, -, rfl⟩
      rfl
    · intro h
      cases a with
      | int n => cases h
      | bool b => cases b with
        | false => exact ⟨0, by decide, rfl⟩
        | true => exact ⟨1, by decide, rfl⟩
  | int lo hi =>
    have hlo := lo.le_toInt
    have hhi := hi.toInt_lt
    constructor
    · rintro ⟨i, hi', rfl⟩
      rw [List.mem_range, count] at hi'
      have heq : (Int64.ofInt (lo.toInt + i)).toInt = lo.toInt + i :=
        Int64.toInt_ofInt_of_le (by omega) (by omega)
      rw [valueAt, contains, Bool.and_eq_true, decide_eq_true_eq, decide_eq_true_eq,
        Int64.le_iff_toInt_le, Int64.le_iff_toInt_le, heq]
      omega
    · intro h
      cases a with
      | bool b => cases h
      | int n =>
        rw [contains, Bool.and_eq_true, decide_eq_true_eq, decide_eq_true_eq,
          Int64.le_iff_toInt_le, Int64.le_iff_toInt_le] at h
        refine ⟨(n.toInt - lo.toInt).toNat, ?_, ?_⟩
        · rw [List.mem_range, count]
          omega
        · have heq : lo.toInt + ((n.toInt - lo.toInt).toNat : Int) = n.toInt := by omega
          rw [valueAt, heq, Int64.ofInt_toInt]

/-- A type that is not empty has a value. -/
theorem exists_contains {t : VarType} (h : 0 < t.count) : ∃ a, t.contains a = true := by
  refine ⟨t.valueAt 0, mem_values.1 ?_⟩
  rw [values, firstValues, Nat.min_self]
  exact List.mem_map.2 ⟨0, List.mem_range.2 h, rfl⟩

end VarType

/-! ### Built programs -/

theorem forM_eq_ok {ε α : Type} {f : α → Except ε Unit} {l : List α} (h : l.forM f = .ok ()) :
    ∀ a ∈ l, f a = .ok () := by
  induction l with
  | nil => exact fun a ha ↦ (List.not_mem_nil ha).elim
  | cons b l ih =>
    obtain ⟨_, hb, h⟩ := bind_eq_ok.1 (show f b >>= (fun _ ↦ l.forM f) = .ok () from h)
    exact List.forall_mem_cons.2 ⟨hb, ih h⟩

namespace Draft

variable {d : Draft} {p : Program}

theorem getElem?_numberEdges {i j : Nat} {l : List EdgeDraft} :
    (numberEdges i l)[j]? = l[j]?.map fun e ↦ ⟨i + j, e.source, e.target, e.body⟩ := by
  induction l generalizing i j with
  | nil => rfl
  | cons e l ih =>
    rw [numberEdges]
    cases j with
    | zero => rfl
    | succ j =>
      rw [List.getElem?_cons_succ, ih, List.getElem?_cons_succ, Nat.add_right_comm, Nat.add_assoc]

theorem count_pos_of_checkVars {earlier vars : List VarDecl} (h : checkVars earlier vars = .ok ()) :
    ∀ v ∈ vars, 0 < v.type.count := by
  induction vars generalizing earlier with
  | nil => exact fun v hv ↦ (List.not_mem_nil hv).elim
  | cons v rest ih =>
    rw [checkVars] at h
    split at h
    · cases h
    · cases htype : v.type with
      | int lo hi =>
        rw [htype] at h
        dsimp only at h
        split at h
        · cases h
        · rename_i hle
          rw [Int64.lt_iff_toInt_lt] at hle
          have hpos : 0 < v.type.count := by
            rw [htype, VarType.count]
            omega
          exact List.forall_mem_cons.2 ⟨hpos, ih h⟩
      | bool =>
        rw [htype] at h
        have hpos : 0 < v.type.count := by
          rw [htype]
          decide
        exact List.forall_mem_cons.2 ⟨hpos, ih h⟩

/-- What building a draft checks, and what it makes of it. -/
theorem build_eq_ok (h : d.build = .ok p) :
    p.edges = numberEdges 0 d.edges ∧ p.vars = d.vars ∧ p.locations = d.locations ∧
      checkVars [] d.vars = .ok () ∧ ∀ e ∈ p.edges, d.checkEdge e = .ok () := by
  rw [build] at h
  split at h
  · split at h
    · obtain ⟨_, -, h⟩ := bind_eq_ok.1 h
      obtain ⟨_, -, h⟩ := bind_eq_ok.1 h
      obtain ⟨_, hvars, h⟩ := bind_eq_ok.1 h
      obtain ⟨_, hedges, h⟩ := bind_eq_ok.1 h
      obtain rfl := Except.ok.inj h
      exact ⟨rfl, rfl, rfl, hvars, forM_eq_ok hedges⟩
    · cases h
  · cases h

theorem lt_of_checkLocation {l : Location} (h : d.checkLocation l = .ok ()) :
    l < d.locations.length := by
  rw [checkLocation] at h
  split at h
  · assumption
  · cases h

/-- **The initial location is declared.** -/
theorem init_lt_of_build (h : d.build = .ok p) : p.init < p.locations.length := by
  rw [build] at h
  split at h
  · split at h
    · obtain ⟨_, hinit, h⟩ := bind_eq_ok.1 h
      obtain ⟨_, -, h⟩ := bind_eq_ok.1 h
      obtain ⟨_, -, h⟩ := bind_eq_ok.1 h
      obtain ⟨_, -, h⟩ := bind_eq_ok.1 h
      obtain rfl := Except.ok.inj h
      exact lt_of_checkLocation hinit
    · cases h
  · cases h

/-- **Edges lead to declared locations.** -/
theorem target_lt_of_build (h : d.build = .ok p) {e : Edge} (he : e ∈ p.edges) :
    e.target < p.locations.length := by
  obtain ⟨-, -, hlocations, -, hedges⟩ := build_eq_ok h
  obtain ⟨_, -, htarget⟩ := bind_eq_ok.1 (hedges e he)
  obtain ⟨_, htarget, -⟩ := bind_eq_ok.1 htarget
  rw [hlocations]
  exact lt_of_checkLocation htarget

/-- **Edges are at their positions.** -/
theorem edge_of_build (h : d.build = .ok p) {e : Edge} (he : e ∈ p.edges) :
    p.edge e.id = .ok e := by
  obtain ⟨hedges, -⟩ := build_eq_ok h
  obtain ⟨i, hi⟩ := List.getElem?_of_mem he
  have hnum := hi
  rw [hedges, getElem?_numberEdges] at hnum
  obtain ⟨f, -, rfl⟩ := Option.map_eq_some_iff.1 hnum
  have hid : p.edges[0 + i]? = some ⟨0 + i, f.source, f.target, f.body⟩ := by
    rwa [Nat.zero_add] at hi ⊢
  rw [Program.edge, hid]
  rfl

/-- **The variables of a statement are declared.** -/
theorem exists_varType_of_build (h : d.build = .ok p) {e : Edge} (he : e ∈ p.edges) {s : Statement}
    (hs : s ∈ e.body) {x : VarId} (hx : x ∈ s.reads ∨ x ∈ s.writes) :
    ∃ type, p.varType x = .ok type := by
  obtain ⟨-, hvars, -, -, hedges⟩ := build_eq_ok h
  obtain ⟨_, -, hbody⟩ := bind_eq_ok.1 (hedges e he)
  obtain ⟨_, -, hbody⟩ := bind_eq_ok.1 hbody
  split at hbody
  · cases hbody
  · rename_i hnone
    have hmem : x ∈ s.reads.toList ++ s.writes.toList :=
      List.mem_append.2 (hx.imp id Option.mem_toList.2)
    have hlt := List.find?_eq_none.1 (List.findSome?_eq_none_iff.1 hnone s hs) x hmem
    rw [decide_eq_true_eq, Nat.not_le, ← hvars] at hlt
    rw [Program.varType, List.getElem?_eq_getElem hlt]
    exact ⟨_, rfl⟩

/-- No type of a built program is empty. -/
theorem exists_contains_of_build (h : d.build = .ok p) {x : VarId} {type : VarType}
    (hx : p.varType x = .ok type) : ∃ a, type.contains a = true := by
  obtain ⟨-, hvars, -, hcheck, -⟩ := build_eq_ok h
  rw [Program.varType] at hx
  cases hdecl : p.vars[x]? with
  | none =>
    rw [hdecl] at hx
    cases hx
  | some v =>
    rw [hdecl] at hx
    obtain rfl := Except.ok.inj hx
    have hmem : v ∈ d.vars := hvars ▸ List.mem_of_getElem? hdecl
    exact VarType.exists_contains (count_pos_of_checkVars hcheck v hmem)

end Draft

end AbstractionRefinement
