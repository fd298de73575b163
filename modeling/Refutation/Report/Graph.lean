import Refutation.Report.Outline

/-!
# Graphs

A tree as a directed graph in the DOT language: a line for each node, and before the line
of a child the edge that leads to it. Double quotes in a label are escaped; the two
characters `\n` in a label are a line break there.
-/

namespace Refutation.Tree

/-- The text in a node's box. -/
def boxText (t : Tree) : String :=
  let l := t.label
  if t.isLeaf then
    match l.reason? with
    | some r => Entry.listText l.formulas ++ "\\n✗ " ++ r
    | none => Entry.listText l.formulas
  else l.expansion "\\n"

/-- A text with its double quotes escaped. -/
def escapeQuotes (s : String) : String :=
  String.ofList (s.toList.flatMap fun c => if c = '\x22' then ['\\', c] else [c])

/-- The colour of a node's box. -/
def boxColor (s : Status) : String :=
  if s = .closedLeaf then "lightpink" else if s = .openLeaf then "lightgreen" else "lightgray"

/-- The name of a node in the graph. -/
def graphName (t : Tree) : String :=
  "n" ++ toString t.id

/-- The line of a node. -/
def nodeLine (t : Tree) : String :=
  "  " ++ t.graphName ++ " [label=\x22" ++ escapeQuotes t.boxText ++ "\x22, fillcolor=" ++
    boxColor t.label.status ++ ", style=filled];"

/-- The line of an edge. -/
def edgeLine (source target : Tree) : String :=
  "  " ++ source.graphName ++ " -> " ++ target.graphName ++ ";"

mutual

/-- The lines of a tree. -/
def graphLines : Tree → List String
  | .node l ts => nodeLine (.node l ts) :: graphLinesBelow (.node l ts) ts
termination_by structural t => t

/-- The lines of the children of a node, each after its edge. -/
def graphLinesBelow (parent : Tree) : List Tree → List String
  | [] => []
  | t :: ts => edgeLine parent t :: (graphLines t ++ graphLinesBelow parent ts)
termination_by structural ts => ts

end

/-- The text of the graph. -/
def graph (t : Tree) : String :=
  "\n".intercalate
    (["digraph tableau \x7b", "  rankdir=TB;", "  node [shape=box, style=rounded];"] ++
      t.graphLines ++ ["\x7d"]) ++ "\n"

end Refutation.Tree
