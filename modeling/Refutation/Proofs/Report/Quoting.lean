import Mathlib.Algebra.Group.Nat.Even
import Mathlib.Data.List.DropRight
import Refutation.Attempt.Basic
import Refutation.Proofs.Report.Renderings

/-!
# Where the label of a box ends

In a graph the text of a box stands between double quotes. It is read from its opening quote on, and
a backslash takes away the meaning of the character behind it, so the text ends at the first double
quote that no backslash escapes. A backslash is put before each double quote of the text, but none
before a backslash. So a quote is escaped if an even number of backslashes stands before it in the
text, and after an odd number it ends the label; and after an odd number of backslashes at the end
of the text the closing quote does not end it.

* `afterQuoted_escaped_iff`: **the quoted text is read to its end exactly if all these numbers are
  even.**
* `seamless_evenRuns`: texts for which they are even can be put together.
* `label_closes_iff`: which labels of a graph end where they should.
-/

namespace Refutation

/-- What follows a quoted text, the opening quote of which has been read; `escaped` tells that a
backslash takes away the meaning of the next character. -/
def afterQuoted (escaped : Bool) : List Char → Option (List Char)
  | [] => none
  | c :: cs =>
    if escaped then afterQuoted false cs
    else if c = Text.doubleQuote then some cs
    else afterQuoted (c = '\\') cs

/-- What follows the label in a line of a graph. The label starts at the first double quote. -/
def afterLabel? (line : String) : Option (List Char) :=
  afterQuoted false (line.toList.dropWhile (· ≠ Text.doubleQuote)).tail

/-- How many backslashes stand at the end of a text. -/
def backslashes (cs : List Char) : Nat :=
  (cs.rtakeWhile (· = '\\')).length

/-- Wherever a double quote or the end of the text follows, an even number of backslashes stands. -/
def EvenRuns (s : String) : Prop :=
  ∀ before after, s.toList = before ++ after → (∀ c ∈ after.head?, c = Text.doubleQuote) →
    Even (backslashes before)

variable {cs before after rest : List Char} {c : Char}

/-! ## Backslashes at the end of a text -/

theorem backslashes_concat (cs : List Char) (c : Char) :
    backslashes (cs ++ [c]) = if c = '\\' then backslashes cs + 1 else 0 := by
  unfold backslashes
  split
  · next h => rw [List.rtakeWhile_concat_pos _ _ _ (by simpa using h), List.length_append]; rfl
  · next h => rw [List.rtakeWhile_concat_neg _ _ _ (by simpa using h)]; rfl

theorem backslashes_of_notMem (h : '\\' ∉ cs) : backslashes cs = 0 := by
  rcases List.eq_nil_or_concat cs with rfl | ⟨ds, d, rfl⟩
  · rfl
  · rw [List.concat_eq_append] at h ⊢
    have hd : d ≠ '\\' := by
      rintro rfl
      exact h (List.mem_append_right _ List.mem_cons_self)
    rw [backslashes_concat, if_neg hd]

/-- An even number of backslashes before a text makes no difference to it. -/
theorem even_backslashes_append (h : Even (backslashes before)) (cs : List Char) :
    Even (backslashes (before ++ cs)) ↔ Even (backslashes cs) := by
  induction cs using List.reverseRecOn with
  | nil => simpa [backslashes] using h
  | append_singleton cs c ih =>
    rw [← List.append_assoc, backslashes_concat, backslashes_concat]
    split
    · rw [Nat.even_add_one, Nat.even_add_one, ih]
    · rfl

/-! ## Reading an escaped text -/

theorem afterQuoted_true (c : Char) (cs : List Char) :
    afterQuoted true (c :: cs) = afterQuoted false cs := by
  rw [afterQuoted, if_pos rfl]

theorem afterQuoted_quote (cs : List Char) :
    afterQuoted false (Text.doubleQuote :: cs) = some cs := by
  rw [afterQuoted, if_neg Bool.false_ne_true, if_pos rfl]

theorem afterQuoted_false (hc : c ≠ Text.doubleQuote) (cs : List Char) :
    afterQuoted false (c :: cs) = afterQuoted (c = '\\') cs := by
  rw [afterQuoted, if_neg Bool.false_ne_true, if_neg hc]

theorem length_lt_of_afterQuoted {b : Bool} (h : afterQuoted b cs = some rest) :
    rest.length < cs.length := by
  induction cs generalizing b with
  | nil => cases h
  | cons c cs ih =>
    rw [afterQuoted] at h
    split at h
    · exact Nat.lt_succ_of_lt (ih h)
    · split at h
      · cases h
        exact Nat.lt_succ_self _
      · exact Nat.lt_succ_of_lt (ih h)

/-- A character that is no double quote is passed, and what counts is whether the number of
backslashes that stand at the end then is odd. -/
theorem afterQuoted_cons (hc : c ≠ Text.doubleQuote) (before cs : List Char) :
    afterQuoted (!decide (Even (backslashes before))) (c :: cs) =
      afterQuoted (!decide (Even (backslashes (before ++ [c])))) cs := by
  by_cases hb : Even (backslashes before)
  · have hodd : Even (backslashes (before ++ [c])) ↔ c ≠ '\\' := by
      rw [backslashes_concat]
      split <;> simp [*, Nat.even_add_one]
    simp [hb, hodd, afterQuoted_false hc]
  · have heven : Even (backslashes (before ++ [c])) := by
      rw [backslashes_concat]
      split <;> simp [*, Nat.even_add_one]
    simp [hb, heven, afterQuoted_true]

/-- What is asked of a text asks something of its first character and the rest of the text. -/
theorem forall_split_cons {P : List Char → Prop} :
    (∀ as bs, c :: cs = as ++ bs → (∀ d ∈ bs.head?, d = Text.doubleQuote) → P as) ↔
      (c = Text.doubleQuote → P []) ∧
      ∀ as bs, cs = as ++ bs → (∀ d ∈ bs.head?, d = Text.doubleQuote) → P (c :: as) := by
  constructor
  · intro h
    refine ⟨fun hc => h [] (c :: cs) rfl fun d hd => ?_, fun as bs has hbs => ?_⟩
    · cases hd
      exact hc
    · exact h (c :: as) bs (by rw [has, List.cons_append]) hbs
  · rintro ⟨hc, hrest⟩ as bs has hbs
    cases as with
    | nil =>
      rw [List.nil_append] at has
      exact hc (hbs c (by rw [← has]; rfl))
    | cons a as =>
      obtain ⟨rfl, htail⟩ := List.cons.inj has
      exact hrest as bs htail hbs

/-- **A text with its double quotes escaped is read to its closing quote exactly if an even number
of backslashes stands before each of its double quotes and at its end**, those before the text
included. -/
theorem afterQuoted_escaped_iff (before cs rest : List Char) :
    afterQuoted (!decide (Even (backslashes before)))
        (cs.flatMap (fun c => if c = Text.doubleQuote then ['\\', c] else [c]) ++
          Text.doubleQuote :: rest) = some rest ↔
      ∀ as bs, cs = as ++ bs → (∀ c ∈ bs.head?, c = Text.doubleQuote) →
        Even (backslashes (before ++ as)) := by
  induction cs generalizing before with
  | nil =>
    have hend : (∀ as bs, [] = as ++ bs → (∀ c ∈ bs.head?, c = Text.doubleQuote) →
        Even (backslashes (before ++ as))) ↔ Even (backslashes before) := by
      constructor
      · intro h
        simpa using h [] [] rfl (by simp)
      · intro h as bs has _
        obtain ⟨rfl, -⟩ := List.append_eq_nil_iff.1 has.symm
        rwa [List.append_nil]
    rw [hend, List.flatMap_nil, List.nil_append]
    by_cases hb : Even (backslashes before)
    · simp [hb, afterQuoted_quote]
    · -- the closing quote is escaped, and what is read ends behind it
      have hlater : afterQuoted false rest ≠ some rest :=
        fun h => absurd (length_lt_of_afterQuoted h) (Nat.lt_irrefl _)
      simpa [hb, afterQuoted_true] using hlater
  | cons c cs ih =>
    have hrest := ih (before ++ [c])
    simp only [List.append_assoc, List.singleton_append] at hrest
    rw [forall_split_cons, List.append_nil, List.flatMap_cons, ← hrest]
    by_cases hc : c = Text.doubleQuote
    · have hzero : Even (backslashes (before ++ [c])) := by
        rw [backslashes_concat, if_neg (by rw [hc]; decide)]
        exact Even.zero
      rw [if_pos hc, List.append_assoc, List.cons_append, List.singleton_append]
      by_cases hb : Even (backslashes before)
      · -- the backslash put before the quote escapes it
        have hslash : '\\' ≠ Text.doubleQuote := by decide
        simp [hb, hzero, afterQuoted_false hslash, afterQuoted_true]
      · -- the backslash put before the quote is escaped itself, and the label ends too early
        have hearly : ∀ as : List Char, as ++ Text.doubleQuote :: rest ≠ rest := by
          intro as h
          have hlen := congrArg List.length h
          rw [List.length_append, List.length_cons] at hlen
          omega
        simp [hb, hc, afterQuoted_true, afterQuoted_quote, hearly]
    · rw [if_neg hc, List.append_assoc, List.singleton_append, afterQuoted_cons hc]
      exact (and_iff_right fun h => absurd h hc).symm

/-! ## Texts put together -/

theorem evenRuns_of_notMem {s : String} (h : '\\' ∉ s.toList) : EvenRuns s := by
  intro as bs heq _
  rw [heq, List.mem_append, not_or] at h
  rw [backslashes_of_notMem h.1]
  exact Even.zero

/-- **Texts with even runs can be put together.** -/
theorem seamless_evenRuns : Seamless EvenRuns where
  append := by
    intro s t hs ht as bs heq hbs
    rw [String.toList_append, List.append_eq_append_iff] at heq
    rcases heq with ⟨ds, rfl, hds⟩ | ⟨ds, hds, rfl⟩
    · -- all of `s` stands before
      have heven : Even (backslashes s.toList) := hs s.toList [] (by simp) (by simp)
      exact (even_backslashes_append heven ds).2 (ht ds bs hds hbs)
    · refine hs as ds hds fun c hc => hbs c ?_
      rw [List.head?_append, Option.mem_def.1 hc]
      rfl
  ordinary := fun h => evenRuns_of_notMem fun hmem => (h '\\' hmem).2 rfl
  escape := by
    intro c _ hc as bs heq hbs
    rw [String.toList_ofList] at heq
    match as, heq with
    | [], _ => exact Even.zero
    | [d], heq =>
      -- the character behind the backslash is no double quote
      cases heq
      exact absurd (hbs c rfl) hc
    | [d, e], heq =>
      cases heq
      show Even (backslashes (['\\'] ++ [c]))
      rw [backslashes_concat]
      split
      · decide
      · exact Even.zero

namespace Tree

variable {t u : Tree}

/-- What stands behind the label in the line of a node. -/
def behindLabel (u : Tree) : String :=
  ", fillcolor=" ++ boxColor u.label.status ++ ", style=filled];"

/-- **The label in the line of a node ends before the colour exactly if the text of the box has even
runs.** -/
theorem afterLabel?_nodeLine_iff (u : Tree) :
    afterLabel? u.nodeLine = some u.behindLabel.toList ↔ EvenRuns u.boxText := by
  have hline : u.nodeLine.toList = ("  " ++ u.graphName ++ " [label=").toList ++
      Text.doubleQuote :: ((escapeQuotes u.boxText).toList ++
        Text.doubleQuote :: u.behindLabel.toList) := by
    have hopen : " [label=\x22".toList = " [label=".toList ++ [Text.doubleQuote] := rfl
    have hclose : "\x22, fillcolor=".toList = Text.doubleQuote :: ", fillcolor=".toList := rfl
    simp only [nodeLine, behindLabel, String.toList_append]
    rw [hopen, hclose]
    simp only [List.append_assoc, List.cons_append, List.nil_append]
  have hfirst : ∀ c ∈ ("  " ++ u.graphName ++ " [label=").toList,
      decide (c ≠ Text.doubleQuote) = true := by
    simp only [graphName, String.toList_append, List.forall_mem_append, Int.toString_eq_repr]
    refine ⟨⟨List.all_eq_true.1 (by decide), List.all_eq_true.1 (by decide), fun c hc => ?_⟩,
      List.all_eq_true.1 (by decide)⟩
    have hdigit := Json.isDigit_or_minus_of_mem_repr u.id c hc
    refine decide_eq_true ?_
    rintro rfl
    cases hdigit
  rw [afterLabel?, hline, List.dropWhile_append_of_pos hfirst, List.dropWhile_cons_of_neg (by simp),
    List.tail_cons, escapeQuotes, String.toList_ofList]
  exact afterQuoted_escaped_iff [] u.boxText.toList u.behindLabel.toList

theorem nodeLine_mem_graphLines (hu : u ∈ t.nodes) : u.nodeLine ∈ t.graphLines := by
  induction t using induct with
  | node l ts ih =>
    rw [nodes, nodesList_eq_flatMap, List.mem_cons, List.mem_flatMap] at hu
    rw [graphLines_node, List.mem_cons, List.mem_flatMap]
    rcases hu with rfl | ⟨c, hc, hu⟩
    · exact Or.inl rfl
    · exact Or.inr ⟨c, hc, List.mem_cons_of_mem _ (ih c hc hu)⟩

/-- **Which labels of a graph end where they should.** The line of each node of a tree is among the
lines of its graph. Read from its opening quote on, the label in it ends at the quote before the
colour exactly if in the text of the box an even number of backslashes stands before each double
quote and at the end. That is so if it is so in each name in the formulas, in the rule and in the
reason, and in particular if there is no backslash in them. -/
theorem label_closes_iff (t : Tree) (u : Tree) (hu : u ∈ t.nodes) :
    u.nodeLine ∈ t.graphLines ∧
    (afterLabel? u.nodeLine = some u.behindLabel.toList ↔ EvenRuns u.boxText) ∧
    ((∀ s ∈ u.label.words, EvenRuns s) → afterLabel? u.nodeLine = some u.behindLabel.toList) ∧
    ((∀ s ∈ u.label.words, '\\' ∉ s.toList) →
      afterLabel? u.nodeLine = some u.behindLabel.toList) := by
  have hwords : (∀ s ∈ u.label.words, EvenRuns s) →
      afterLabel? u.nodeLine = some u.behindLabel.toList :=
    fun h => (afterLabel?_nodeLine_iff u).2 (seamless_evenRuns.boxText h)
  refine ⟨nodeLine_mem_graphLines hu, afterLabel?_nodeLine_iff u, hwords, fun h => hwords ?_⟩
  exact fun s hs => evenRuns_of_notMem (h s hs)

/-- A name with a double quote behind two backslashes, and a reason with double quotes and no
backslash. -/
theorem label_closes_iff_with_quotes :
    let u : Tree := .node { id := 7, formulas := [.formula (.const "a\\\\\x22" .truth)] } []
    let v : Tree := .node { id := 8, formulas := [], closed := true, status := .closedLeaf,
                            closureReason := some "\x22b\x22 ∧ ¬\x22b\x22" } []
    let t : Tree := .node { id := 0, formulas := [], rule := some "∨ branching" } [u, v]
    u ∈ t.nodes ∧ (∀ s ∈ u.label.words, EvenRuns s) ∧
      afterLabel? u.nodeLine = some ", fillcolor=lightgreen, style=filled];".toList ∧
      v ∈ t.nodes ∧ (∀ s ∈ v.label.words, '\\' ∉ s.toList) ∧
      afterLabel? v.nodeLine = some ", fillcolor=lightpink, style=filled];".toList := by
  intro u v t
  have hu : u ∈ t.nodes := by decide
  have hv : v ∈ t.nodes := by decide
  have hslashes : EvenRuns "\\\\" := seamless_evenRuns.escape (c := '\\') (by decide) (by decide)
  have heven : ∀ s ∈ u.label.words, EvenRuns s := by
    intro s hs
    obtain rfl : s = "a" ++ "\\\\" ++ "\x22" := List.mem_singleton.1 hs
    refine seamless_evenRuns.append (seamless_evenRuns.append ?_ hslashes) ?_ <;>
      exact evenRuns_of_notMem (by decide)
  have hnone : ∀ s ∈ v.label.words, '\\' ∉ s.toList := by decide
  obtain ⟨-, -, hclosesu, -⟩ := label_closes_iff t u hu
  obtain ⟨-, -, -, hclosesv⟩ := label_closes_iff t v hv
  exact ⟨hu, heven, hclosesu heven, hv, hnone, hclosesv hnone⟩

/-- A goal whose name ends with a backslash: the quote behind the label is escaped, and the label
does not end there. -/
theorem label_open_after_backslash :
    let t : Tree := (Attempt.initial (.formula (.const "a\\" .truth)) .standard .byName).root
    t ∈ t.nodes ∧ t.nodeLine ∈ t.graphLines ∧
      t.nodeLine = "  n0 [label=\x22¬a\\\x22, fillcolor=lightgreen, style=filled];" ∧
      afterLabel? t.nodeLine ≠ some ", fillcolor=lightgreen, style=filled];".toList := by
  intro t
  have ht : t ∈ t.nodes := mem_nodes_self t
  refine ⟨ht, nodeLine_mem_graphLines ht, by decide, fun h => ?_⟩
  have heven := (afterLabel?_nodeLine_iff t).1 h ['¬', 'a', '\\'] [] (by decide) nofun
  exact absurd heven (by decide)

end Tree

end Refutation
