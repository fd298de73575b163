import Mathlib.Data.List.Basic
import Mathlib.Data.List.Perm.Basic
import Refutation.Proofs.Report.Wording
import Refutation.Proofs.Tree.Preorder

/-!
# Two renderings of a tree

An outline shows a tree by indentation and a graph by edges. Both can be read without knowing the
tree. The level of a line of an outline is half the number of spaces it starts with, and its parent
is the last line above that has a smaller level. A line of a graph draws a box or an arrow
(`Stroke`), or nothing.

* `lines_eq`: the lines of an outline are those of the nodes in preorder, indented by depth.
* `ofText_graph`: what the text of a graph draws, if no word in it has a line feed.
* `renderings_agree`: **both renderings have the nodes in the same order and the same parents.**
-/

namespace Refutation

/-- The level of a line of an outline: two spaces for each level stand before it. -/
def outlineLevel (line : String) : Nat :=
  (line.toList.takeWhile (· = ' ')).length / 2

/-- What a line of a graph draws. -/
inductive Stroke where
  | box (i : Int)
  | arrow (i j : Int)
  deriving DecidableEq, Repr

namespace Stroke

/-- The natural number at the start of a text, and what follows it. -/
def natural? (cs : List Char) : Option (Nat × List Char) :=
  if cs.takeWhile Char.isDigit = [] then none
  else some (Json.natOf (cs.takeWhile Char.isDigit), cs.drop (cs.takeWhile Char.isDigit).length)

/-- The integer at the start of a text, and what follows it. -/
def integer? : List Char → Option (Int × List Char)
  | '-' :: cs => (natural? cs).map fun r => (-r.1, r.2)
  | cs => (natural? cs).map fun r => (r.1, r.2)

/-- The integer behind a given start of a text, and what follows it. -/
def integerBehind? (start : String) (cs : List Char) : Option (Int × List Char) :=
  (cs.dropPrefix? start.toList).bind integer?

/-- Read a line of a graph. -/
def ofLine? (line : List Char) : Option Stroke :=
  (integerBehind? "  n" line).bind fun r =>
    if " [label=\x22".toList.isPrefixOf r.2 then some (.box r.1)
    else (integerBehind? " -> n" r.2).bind fun s =>
      if s.2 = [';'] then some (.arrow r.1 s.1) else none

/-- Read the text of a graph line by line. -/
def ofText (text : String) : List Stroke :=
  (text.toList.splitOn '\n').filterMap ofLine?

/-- The number in a box. -/
def box? : Stroke → Option Int
  | .box i => some i
  | .arrow _ _ => none

/-- The two ends of an arrow. -/
def arrow? : Stroke → Option (Int × Int)
  | .box _ => none
  | .arrow i j => some (i, j)

end Stroke

/-- The numbers of the boxes in the text of a graph, from top to bottom. -/
def graphBoxes (text : String) : List Int :=
  (Stroke.ofText text).filterMap Stroke.box?

/-- The ends of the arrows in the text of a graph, from top to bottom. -/
def graphArrows (text : String) : List (Int × Int) :=
  (Stroke.ofText text).filterMap Stroke.arrow?

namespace Tree

variable {t u c : Tree} {l : Label} {ts : List Tree}

/-! ## Outlines -/

theorem outlineLevel_indent (d : Nat) (t : Tree) : outlineLevel (indent d ++ t.line) = d := by
  have hline : ∃ rest, t.line.toList = '[' :: rest := by
    unfold line
    simp only [String.toList_append]
    exact ⟨_, rfl⟩
  obtain ⟨rest, hrest⟩ := hline
  have hspaces : ∀ c ∈ List.replicate (2 * d) ' ', decide (c = ' ') = true :=
    fun c hc => decide_eq_true (List.mem_replicate.1 hc).2
  rw [outlineLevel, indent, String.toList_append, String.toList_ofList, hrest,
    List.takeWhile_append_of_pos hspaces, List.takeWhile_cons_of_neg (by decide), List.append_nil,
    List.length_replicate]
  omega

theorem linesIn_eq (d i : Nat) (hts : ∀ t ∈ ts, ∀ d, t.linesAt d =
      (t.addresses.zip t.nodes).map fun r => indent (d + r.1.length) ++ r.2.line) :
    linesIn (d + 1) ts = ((addressesFrom i ts).zip (ts.flatMap nodes)).map
      fun r => indent (d + r.1.length) ++ r.2.line := by
  induction ts generalizing i with
  | nil => rfl
  | cons t ts ih =>
    obtain ⟨ht, hts⟩ := List.forall_mem_cons.1 hts
    have hlength : (t.addresses.map (i :: ·)).length = t.nodes.length := by
      rw [List.length_map, length_addresses]
    rw [linesIn, addressesFrom, List.flatMap_cons, List.zip_append hlength, List.map_append,
      ih (i + 1) hts, ht, List.zip_map_left, List.map_map]
    refine congrArg (· ++ _) (List.map_congr_left fun r _ => ?_)
    show indent (d + 1 + r.1.length) ++ _ = indent (d + (r.1.length + 1)) ++ _
    rw [Nat.add_right_comm, Nat.add_assoc]
    rfl

theorem linesAt_eq (t : Tree) (d : Nat) : t.linesAt d =
    (t.addresses.zip t.nodes).map fun r => indent (d + r.1.length) ++ r.2.line := by
  induction t using induct generalizing d with
  | node l ts ih =>
    rw [linesAt, addresses, nodes, nodesList_eq_flatMap, linesIn_eq d 0 ih]
    rfl

/-- **The lines of an outline are those of the nodes in preorder, indented by depth.** -/
theorem lines_eq (t : Tree) :
    t.lines = (t.addresses.zip t.nodes).map fun r => indent r.1.length ++ r.2.line := by
  rw [lines, linesAt_eq]
  simp only [Nat.zero_add]

/-- The levels of the lines are the depths of the nodes. -/
theorem map_outlineLevel_lines (t : Tree) :
    t.lines.map outlineLevel = t.addresses.map List.length := by
  have hlevel : ∀ r : List Nat × Tree, outlineLevel (indent r.1.length ++ r.2.line) = r.1.length :=
    fun r => outlineLevel_indent r.1.length r.2
  calc t.lines.map outlineLevel
      = (t.addresses.zip t.nodes).map fun r => r.1.length := by
        rw [lines_eq, List.map_map]
        exact List.map_congr_left fun r _ => hlevel r
    _ = ((t.addresses.zip t.nodes).map Prod.fst).map List.length := by rw [List.map_map]; rfl
    _ = t.addresses.map List.length := by rw [List.map_fst_zip (length_addresses t).le]

/-! ## Lines of a graph -/

theorem seamless_noFeed : Seamless fun s => '\n' ∉ s.toList where
  append hs ht := by
    rw [String.toList_append, List.mem_append]
    exact not_or.2 ⟨hs, ht⟩
  ordinary h := fun hn => (h '\n' hn).1 rfl
  escape hc _ := by
    rw [String.toList_ofList]
    simpa using hc.symm

theorem noFeed_nodeLine (h : ∀ s ∈ u.label.words, '\n' ∉ s.toList) : '\n' ∉ u.nodeLine.toList := by
  have hbox : '\n' ∉ (escapeQuotes u.boxText).toList := by
    have htext : '\n' ∉ u.boxText.toList := seamless_noFeed.boxText h
    rw [escapeQuotes, String.toList_ofList, List.mem_flatMap]
    rintro ⟨c, hc, hn⟩
    split at hn
    · next hq => subst hq; simp at hn
    · rw [List.mem_singleton] at hn
      exact htext (hn ▸ hc)
  have hnumber : '\n' ∉ (toString u.id).toList := seamless_noFeed.number u.id
  have hcolor : '\n' ∉ (boxColor u.label.status).toList := by
    unfold boxColor
    split
    · decide
    · split <;> decide
  simp only [nodeLine, graphName, String.toList_append, List.mem_append, not_or]
  refine ⟨⟨⟨⟨⟨⟨?_, ⟨?_, hnumber⟩⟩, ?_⟩, hbox⟩, ?_⟩, hcolor⟩, ?_⟩ <;> decide

theorem noFeed_edgeLine (u c : Tree) : '\n' ∉ (edgeLine u c).toList := by
  have hu : '\n' ∉ (toString u.id).toList := seamless_noFeed.number u.id
  have hc : '\n' ∉ (toString c.id).toList := seamless_noFeed.number c.id
  simp only [edgeLine, graphName, String.toList_append, List.mem_append, not_or]
  refine ⟨⟨⟨⟨?_, ?_, hu⟩, ?_⟩, ?_, hc⟩, ?_⟩ <;> decide

theorem graphLinesBelow_eq_flatMap (u : Tree) (ts : List Tree) :
    graphLinesBelow u ts = ts.flatMap fun c => edgeLine u c :: c.graphLines := by
  induction ts with
  | nil => rfl
  | cons c ts ih => rw [graphLinesBelow, ih, List.flatMap_cons, List.cons_append]

theorem graphLines_node (l : Label) (ts : List Tree) :
    (node l ts).graphLines =
      (node l ts).nodeLine :: ts.flatMap fun c => edgeLine (node l ts) c :: c.graphLines := by
  rw [graphLines, graphLinesBelow_eq_flatMap]

theorem noFeed_graphLines (h : ∀ u ∈ t.nodes, ∀ s ∈ u.label.words, '\n' ∉ s.toList) :
    ∀ line ∈ t.graphLines, '\n' ∉ line.toList := by
  induction t using induct with
  | node l ts ih =>
    rw [nodes, nodesList_eq_flatMap] at h
    obtain ⟨hroot, hbelow⟩ := List.forall_mem_cons.1 h
    rw [graphLines_node]
    refine List.forall_mem_cons.2 ⟨noFeed_nodeLine hroot, fun line hline => ?_⟩
    obtain ⟨c, hc, hline⟩ := List.mem_flatMap.1 hline
    rcases List.mem_cons.1 hline with rfl | hline
    · exact noFeed_edgeLine _ c
    · exact ih c hc (fun u hu => hbelow u (List.mem_flatMap.2 ⟨c, hc, hu⟩)) line hline

end Tree

/-! ## Reading a graph -/

namespace Stroke

theorem natural?_toDigits (n : Nat) {rest : List Char} (hrest : Json.Ends rest) :
    natural? (Nat.toDigits 10 n ++ rest) = some (n, rest) := by
  rw [natural?, Json.takeWhile_digits Json.isDigit_of_mem_toDigits hrest,
    if_neg Nat.toDigits_ne_nil, Json.natOf_toDigits, List.drop_left]

/-- A text that starts with a digit has no sign. -/
theorem integer?_of_digit {d : Char} {cs : List Char} (hd : d.isDigit = true) :
    integer? (d :: cs) = (natural? (d :: cs)).map fun r => ((r.1 : Int), r.2) := by
  unfold integer?
  split
  · next heq =>
    cases heq
    cases hd
  · rfl

theorem integer?_toString (i : Int) {rest : List Char} (hrest : Json.Ends rest) :
    integer? ((toString i).toList ++ rest) = some (i, rest) := by
  have hrepr : ∀ n : Nat, n.repr.toList = Nat.toDigits 10 n := by
    intro n
    rw [← Nat.toString_eq_repr, Nat.toString_eq_ofList_toDigits, String.toList_ofList]
  rw [Int.toString_eq_repr, Int.repr_eq_if]
  split
  · next h =>
    have hnat := natural?_toDigits i.toNat hrest
    rw [hrepr]
    cases hd : Nat.toDigits 10 i.toNat with
    | nil => exact absurd hd Nat.toDigits_ne_nil
    | cons d ds =>
      have hdigit : d.isDigit = true :=
        Json.isDigit_of_mem_toDigits (n := i.toNat) d (by rw [hd]; exact List.mem_cons_self)
      rw [hd, List.cons_append] at hnat
      rw [List.cons_append, integer?_of_digit hdigit, hnat, Option.map_some, Int.toNat_of_nonneg h]
  · next h =>
    have hneg : -((-i).toNat : Int) = i := by omega
    rw [String.toList_append, hrepr]
    show (natural? (Nat.toDigits 10 (-i).toNat ++ rest)).map _ = _
    rw [natural?_toDigits _ hrest, Option.map_some, hneg]

theorem integerBehind?_append (start : String) (i : Int) {rest : List Char}
    (hrest : Json.Ends rest) :
    integerBehind? start (start.toList ++ ((toString i).toList ++ rest)) = some (i, rest) := by
  rw [integerBehind?, List.dropPrefix?_append_of_beq _ (beq_self_eq_true _), Option.bind_some,
    integer?_toString i hrest]

/-- The line of a node draws its box. -/
theorem ofLine?_nodeLine (u : Tree) : ofLine? u.nodeLine.toList = some (.box u.id) := by
  obtain ⟨rest, hline⟩ : ∃ rest, u.nodeLine.toList =
      "  n".toList ++ ((toString u.id).toList ++ (" [label=\x22".toList ++ rest)) := by
    simp only [Tree.nodeLine, Tree.graphName, String.toList_append, List.append_assoc]
    exact ⟨_, rfl⟩
  have hlabel : " [label=\x22".toList.isPrefixOf (" [label=\x22".toList ++ rest) = true :=
    List.isPrefixOf_iff_prefix.2 (List.prefix_append _ _)
  have hspace : Json.Ends (" [label=\x22".toList ++ rest) := .cons rfl
  rw [hline, ofLine?, integerBehind?_append "  n" u.id hspace, Option.bind_some, if_pos hlabel]

/-- The line of an edge draws its arrow. -/
theorem ofLine?_edgeLine (u c : Tree) :
    ofLine? (Tree.edgeLine u c).toList = some (.arrow u.id c.id) := by
  have hline : (Tree.edgeLine u c).toList =
      "  n".toList ++ ((toString u.id).toList ++
        (" -> n".toList ++ ((toString c.id).toList ++ [';']))) := by
    simp only [Tree.edgeLine, Tree.graphName, String.toList_append, List.append_assoc]
    rfl
  have hspace : Json.Ends (" -> n".toList ++ ((toString c.id).toList ++ [';'])) := .cons rfl
  have hend : Json.Ends [';'] := .cons rfl
  have hlabel : ¬" [label=\x22".toList.isPrefixOf
      (" -> n".toList ++ ((toString c.id).toList ++ [';'])) = true := Bool.false_ne_true
  rw [hline, ofLine?, integerBehind?_append "  n" u.id hspace, Option.bind_some, if_neg hlabel,
    integerBehind?_append " -> n" c.id hend, Option.bind_some, if_pos rfl]

end Stroke

namespace Tree

variable {t u c : Tree} {l : Label} {ts : List Tree}

/-- What the lines of the nodes and edges draw. -/
def strokes (t : Tree) : List Stroke :=
  (t.graphLines.map String.toList).filterMap Stroke.ofLine?

theorem strokes_node (l : Label) (ts : List Tree) :
    (node l ts).strokes = .box l.id :: ts.flatMap fun c => .arrow l.id c.id :: c.strokes := by
  rw [strokes, graphLines_node, List.map_cons,
    List.filterMap_cons_some (Stroke.ofLine?_nodeLine _), List.map_flatMap, List.filterMap_flatMap]
  refine congrArg _ (List.flatMap_congr fun c _ => ?_)
  exact List.filterMap_cons_some (Stroke.ofLine?_edgeLine _ c)

/-- A text put together from lines is split into them; nothing follows the last line feed. -/
theorem splitOn_lines {ls : List String} (hls : ∀ l ∈ ls, '\n' ∉ l.toList) (hne : ls ≠ []) :
    ("\n".intercalate ls ++ "\n").toList.splitOn '\n' = ls.map String.toList ++ [[]] := by
  have htext : "\n".intercalate ls ++ "\n" = "\n".intercalate (ls ++ [""]) := by
    rw [String.intercalate_append_of_ne_nil hne (by simp), String.intercalate_singleton,
      String.append_empty]
  have hfeed : ∀ w ∈ (ls ++ [""]).map String.toList, '\n' ∉ w := by
    intro w hw
    obtain ⟨s, hs, rfl⟩ := List.mem_map.1 hw
    rcases List.mem_append.1 hs with hs | hs
    · exact hls s hs
    · rw [List.mem_singleton.1 hs]; simp
  rw [htext, String.toList_intercalate]
  refine (List.splitOn_intercalate '\n' hfeed (by simp)).trans ?_
  rw [List.map_append]
  rfl

/-- **What the text of a graph draws**, if no word in it has a line feed. -/
theorem ofText_graph (h : ∀ u ∈ t.nodes, ∀ s ∈ u.label.words, '\n' ∉ s.toList) :
    Stroke.ofText t.graph = t.strokes := by
  have hfeed : ∀ line ∈ ["digraph tableau \x7b", "  rankdir=TB;",
      "  node [shape=box, style=rounded];"] ++ t.graphLines ++ ["\x7d"], '\n' ∉ line.toList := by
    refine List.forall_mem_append.2 ⟨List.forall_mem_append.2 ⟨?_, noFeed_graphLines h⟩, ?_⟩ <;>
      decide
  rw [Stroke.ofText, graph, splitOn_lines hfeed (by simp), List.map_append, List.map_append,
    List.filterMap_append, List.filterMap_append, List.filterMap_append]
  have hhead : (["digraph tableau \x7b", "  rankdir=TB;",
      "  node [shape=box, style=rounded];"].map String.toList).filterMap Stroke.ofLine? = [] := by
    decide
  have hend : (["\x7d"].map String.toList).filterMap Stroke.ofLine? = [] := by decide
  rw [hhead, hend, List.nil_append, List.append_nil]
  exact List.append_nil _

/-! ## Boxes and arrows -/

theorem filterMap_box_strokes (t : Tree) : t.strokes.filterMap Stroke.box? = t.ids := by
  induction t using induct with
  | node l ts ih =>
    rw [strokes_node, ids_node, List.filterMap_cons_some (f := Stroke.box?) rfl,
      List.filterMap_flatMap]
    refine congrArg _ (List.flatMap_congr fun c hc => ?_)
    rw [List.filterMap_cons_none rfl, ih c hc]

theorem filterMap_arrow_strokes (l : Label) (ts : List Tree) :
    (node l ts).strokes.filterMap Stroke.arrow? =
      ts.flatMap fun c => (l.id, c.id) :: c.strokes.filterMap Stroke.arrow? := by
  rw [strokes_node, List.filterMap_cons_none rfl, List.filterMap_flatMap]
  exact List.flatMap_congr fun c _ => List.filterMap_cons_some rfl

theorem edges_node (l : Label) (ts : List Tree) :
    (node l ts).edges = ts.map (fun c => (l.id, c.id)) ++ ts.flatMap edges := by
  unfold edges
  rw [nodes, nodesList_eq_flatMap, List.flatMap_cons, List.flatMap_assoc]
  rfl

/-- There is one arrow for each parent and child. -/
theorem arrows_perm_edges (t : Tree) : (t.strokes.filterMap Stroke.arrow?).Perm t.edges := by
  induction t using induct with
  | node l ts ih =>
    -- below a node the arrow to each child comes before the arrows below that child
    rw [filterMap_arrow_strokes, edges_node, List.map_eq_flatMap]
    exact (List.flatMap_append_perm ts (fun c => [(l.id, c.id)]) _).symm.trans
      ((List.Perm.flatMap_left ts ih).append_left _)

/-- All nodes but the root have an arrow that leads to them, and these come in preorder. -/
theorem map_snd_arrows (t : Tree) :
    (t.strokes.filterMap Stroke.arrow?).map Prod.snd = t.ids.tail := by
  induction t using induct with
  | node l ts ih =>
    rw [filterMap_arrow_strokes, ids_node, List.tail_cons, List.map_flatMap]
    refine List.flatMap_congr fun c hc => ?_
    rw [List.map_cons, ih c hc]
    cases c with
    | node k cs => rw [ids_node]; rfl

/-- An arrow is drawn right before the box it leads to. -/
theorem arrow_before_box {i j : Int} (h : .arrow i j ∈ t.strokes) :
    [.arrow i j, .box j] <:+: t.strokes := by
  induction t using induct with
  | node l ts ih =>
    rw [strokes_node, List.mem_cons, List.mem_flatMap] at h
    rcases h with h | ⟨c, hc, h⟩
    · cases h
    · have hchild : .arrow l.id c.id :: c.strokes ∈
          ts.map fun c => Stroke.arrow l.id c.id :: c.strokes := List.mem_map_of_mem hc
      rw [strokes_node]
      refine List.IsInfix.trans ?_ ((List.infix_of_mem_flatten hchild).trans
        (List.suffix_cons _ _).isInfix)
      rcases List.mem_cons.1 h with h | h
      · cases h
        cases c with
        | node k cs =>
          rw [strokes_node]
          exact (List.prefix_append [_, _] _).isInfix
      · exact (ih c hc h).trans (List.suffix_cons _ _).isInfix

/-- **Both renderings describe the same tree**, if no number occurs twice and no name, rule or
reason has a line feed. The outline has one line for each node in preorder, indented by its depth.
The graph has one box for each node, in the same order, and one arrow from each parent to each of
its children, right before the box of the child. So the parent of a line of the outline, told by
indentation, and the parent of the box at the same place, told by arrows, are at the same place. -/
theorem renderings_agree (t : Tree) (hids : t.ids.Nodup)
    (hfeed : ∀ u ∈ t.nodes, ∀ s ∈ u.label.words, '\n' ∉ s.toList) :
    t.addresses.map t.at? = t.nodes.map some ∧
    t.lines.length = t.nodes.length ∧
    t.lines = (t.addresses.zip t.nodes).map (fun r => indent r.1.length ++ r.2.line) ∧
    graphBoxes t.graph = t.ids ∧
    (graphArrows t.graph).Perm t.edges ∧ (graphArrows t.graph).Nodup ∧
    (∀ i j, .arrow i j ∈ Stroke.ofText t.graph →
      [.arrow i j, .box j] <:+: Stroke.ofText t.graph) ∧
    ∀ i j a b, (graphBoxes t.graph)[i]? = some a → (graphBoxes t.graph)[j]? = some b →
      ((a, b) ∈ graphArrows t.graph ↔ LastSmaller (t.lines.map outlineLevel) i j) := by
  have hstrokes : Stroke.ofText t.graph = t.strokes := ofText_graph hfeed
  have hboxes : graphBoxes t.graph = t.ids := by
    rw [graphBoxes, hstrokes, filterMap_box_strokes]
  have harrows : (graphArrows t.graph).Perm t.edges := by
    rw [graphArrows, hstrokes]
    exact arrows_perm_edges t
  have hnodup : (graphArrows t.graph).Nodup := by
    rw [graphArrows, hstrokes]
    refine List.Nodup.of_map Prod.snd ?_
    rw [map_snd_arrows]
    exact hids.sublist (List.tail_sublist _)
  have hlength : t.lines.length = t.nodes.length := by
    rw [lines_eq, List.length_map, List.length_zip, length_addresses, Nat.min_self]
  refine ⟨map_at?_addresses t, hlength, lines_eq t, hboxes, harrows, hnodup, ?_, ?_⟩
  · rw [hstrokes]
    exact fun i j => arrow_before_box
  · rw [hboxes]
    intro i j a b ha hb
    rw [harrows.mem_iff, map_outlineLevel_lines, lastSmaller_depths_iff, mem_edges_iff hids ha hb]

/-- A tree of five nodes on three levels, with a quote in a name and a minus sign in a number. Line
3 of the outline has line 0 as its parent, and there is an arrow between the boxes at these places,
but none from the box at place 2. -/
theorem renderings_agree_on_three_levels :
    let leaf (i : Int) (n : String) : Tree :=
      .node { id := i, formulas := [.formula (.const n .truth)] } []
    let t : Tree := .node { id := 0, formulas := [], rule := some "∨ branching" }
      [.node { id := 1, formulas := [], rule := some "¬¬ elimination" } [leaf 4 "A\x22"],
        leaf (-2) "B", leaf 3 "C"]
    t.ids.Nodup ∧ (∀ u ∈ t.nodes, ∀ s ∈ u.label.words, '\n' ∉ s.toList) ∧
      graphBoxes t.graph = [0, 1, 4, -2, 3] ∧ (graphArrows t.graph).Perm t.edges ∧
      (0, -2) ∈ graphArrows t.graph ∧ LastSmaller (t.lines.map outlineLevel) 0 3 ∧
      (4, -2) ∉ graphArrows t.graph ∧ ¬LastSmaller (t.lines.map outlineLevel) 2 3 := by
  intro leaf t
  have hids : t.ids.Nodup := by decide
  have hfeed : ∀ u ∈ t.nodes, ∀ s ∈ u.label.words, '\n' ∉ s.toList := by decide
  obtain ⟨-, -, -, hboxes, harrows, -, -, hparents⟩ := renderings_agree t hids hfeed
  have hplace : ∀ i : Nat, (graphBoxes t.graph)[i]? = t.ids[i]? := fun i => by rw [hboxes]
  have hedge : (0, -2) ∈ graphArrows t.graph := harrows.mem_iff.2 (by decide)
  have hnone : (4, -2) ∉ graphArrows t.graph := fun h => absurd (harrows.mem_iff.1 h) (by decide)
  refine ⟨hids, hfeed, hboxes, harrows, hedge, ?_, hnone, fun h => hnone ?_⟩
  · exact (hparents 0 3 0 (-2) (hplace 0) (hplace 3)).1 hedge
  · exact (hparents 2 3 4 (-2) (hplace 2) (hplace 3)).2 h

end Tree

end Refutation
