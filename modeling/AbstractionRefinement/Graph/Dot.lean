import AbstractionRefinement.Described
import AbstractionRefinement.Graph.Query

/-!
# Drawings of graphs

A graph in the dot language: one line per node, then for each node its edges and, dashed, its link
to the node that covers it. Targets have a double border, covered nodes a dashed one.

Nodes are named by their positions, in the order of creation, and pruned nodes do not appear. Labels
are the descriptions of states and actions, with backslashes and double quotes escaped, so that any
text may stand in them; other characters, line breaks among them, are left as they are.

A drawing is a text and nothing reads it back. It is total: a node whose edges could not be looked
up would be drawn without edges, which on a well-formed graph does not happen.
-/

namespace AbstractionRefinement.Graph

variable {S A : Type}

/-- Escape backslashes and double quotes, so that the text can stand between double quotes. -/
def escapeLabel (text : String) : String :=
  String.join <| text.toList.map fun c ↦
    if c = '\\' then "\\\\" else if c = '"' then "\\\"" else c.toString

/-- The line of a node. -/
def dotNode [Described S] (n : Node S A) : String :=
  let name := nodeName n.id
  let border := if n.target then ", peripheries=2" else ""
  let dashed := if n.isCovered then ", style=dashed" else ""
  s!"  {name} [label=\"{name}: {escapeLabel (describe n.state)}\"{border}{dashed}];\n"

/-- The line of the edge that leads to a node. -/
def dotEdge [Described A] (e : GraphEdge A) : String :=
  let label := escapeLabel (describe e.action)
  s!"  {nodeName e.source} -> {nodeName e.target} [label=\"{label}\"];\n"

/-- The lines that leave a node. -/
def dotLinks [Described A] (g : Graph S A) (n : Node S A) : String :=
  let edges := (g.outEdges n.id).toOption.getD []
  let covering := match n.coveredBy with
    | some m => s!"  {nodeName n.id} -> {nodeName m} [style=dashed];\n"
    | none => ""
  String.join (edges.map dotEdge) ++ covering

/-- The drawing of a graph. -/
def toDot [Described S] [Described A] (g : Graph S A) : String :=
  "digraph arg \x7b\n" ++ String.join (g.nodes.map dotNode) ++
    String.join (g.nodes.map g.dotLinks) ++ "\x7d\n"

end AbstractionRefinement.Graph
