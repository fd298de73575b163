import Refutation.Proofs.Formula.Names
import Refutation.Proofs.Json.Text
import Refutation.Report.Graph

/-!
# The words of a shown text

The text in the box of a node is put together from words that can be any texts (names, the rule,
the reason), from signs, and from plain values, which are shown as literals. Some properties of
texts are not broken by putting texts together, and signs and escapes have them (`Seamless`). Such a
property holds of what is shown if it holds of the words.

* `Seamless.literal`: a literal has it whatever the value is.
* `Seamless.formula`: the text of a formula has it if all names in it do.
* `Seamless.boxText`: **the text in a box has it if the words of the label do.**
-/

namespace Refutation

/-- The names in a formula: of variables, of constants and of what quantifiers bind. -/
def Formula.names (f : Formula) : List String :=
  f.varNames ++ f.constants ++ f.binders

/-- The names in an entry. -/
def Entry.names : Entry → List String
  | .formula f => f.names
  | .plain _ => []
  | .notPlain _ => []

/-- What is shown of a label as it stands: names, the rule and the reason. -/
def Label.words (l : Label) : List String :=
  l.formulas.flatMap Entry.names ++ l.origin.toList.flatMap Entry.names ++ l.rule.toList ++
    l.closureReason.toList

/-- A property of texts that is kept when texts are put together. Texts without line feeds and
backslashes have it, and so has an escape, unless a double quote is escaped. -/
structure Seamless (Q : String → Prop) : Prop where
  append : ∀ {s t}, Q s → Q t → Q (s ++ t)
  ordinary : ∀ {s}, (∀ c ∈ s.toList, c ≠ '\n' ∧ c ≠ '\\') → Q s
  escape : ∀ {c}, c ≠ '\n' → c ≠ Text.doubleQuote → Q (String.ofList ['\\', c])

/-- A hexadecimal digit, or the sign for a digit that there is not. -/
theorem Text.exists_of_mem_hex {width n : Nat} {c : Char} (hc : c ∈ Text.hex width n) :
    ∃ d, c = Nat.digitChar d := by
  have hdigits : ∀ n, c ∈ Nat.toDigits 16 n → ∃ d, c = Nat.digitChar d := by
    intro n
    induction n using Nat.strongRecOn with
    | ind n ih =>
      rw [Nat.toDigits_eq_if (by decide)]
      split
      · exact fun h => ⟨n, List.mem_singleton.1 h⟩
      · intro h
        rcases List.mem_append.1 h with h | h
        · exact ih (n / 16) (by omega) h
        · exact ⟨n % 16, List.mem_singleton.1 h⟩
  rcases List.mem_append.1 hc with hc | hc
  · exact ⟨0, (List.mem_replicate.1 hc).2⟩
  · exact hdigits n hc

/-- The double quote is never the quote of a text in which it occurs. -/
theorem Text.ne_doubleQuote_of_quoteFor {cs : List Char} {c : Char} (hc : c ∈ cs)
    (hq : c = Text.quoteFor cs) : c ≠ Text.doubleQuote := by
  intro hd
  unfold quoteFor at hq
  split at hq
  · next h =>
    obtain ⟨-, hnone⟩ := Bool.and_eq_true_iff.1 h
    rw [Bool.not_eq_true', Bool.eq_false_iff, ne_eq, List.contains_iff_mem] at hnone
    exact hnone (hd ▸ hc)
  · rw [hd] at hq
    exact absurd hq (by decide)

namespace Formula

variable {f a b : Formula} {n m : String}

theorem mem_names_app : n ∈ (app f a).names ↔ n ∈ f.names ∨ n ∈ a.names := by
  simp only [names, varNames, constants, binders, List.mem_append]
  tauto

theorem mem_names_binary {op : Connective} :
    n ∈ (binary op a b).names ↔ n ∈ a.names ∨ n ∈ b.names := by
  simp only [names, varNames, constants, binders, List.mem_append]
  tauto

theorem mem_names_quant {q : Quantifier} {τ : Ty} :
    n ∈ (quant q m τ b).names ↔ n = m ∨ n ∈ b.names := by
  simp only [names, varNames, constants, binders, List.mem_append, List.mem_cons]
  tauto

theorem mem_names_of_head (h : f.head.symbol? = some n) : n ∈ f.names := by
  induction f with
  | var m τ => cases h; simp [names, varNames]
  | const m τ => cases h; simp [names, constants]
  | app f a ihf _ => exact mem_names_app.2 (Or.inl (ihf h))
  | _ => cases h

end Formula

namespace Seamless

variable {Q : String → Prop} {f : Formula} {t : Tree} {l : Label}

/-- A sign, that is, a fixed text. -/
theorem sign (hQ : Seamless Q) {s : String}
    (hs : (s.toList.all fun c => c != '\n' && c != '\\') = true) : Q s := by
  refine hQ.ordinary fun c hc => ?_
  have hboth := List.all_eq_true.1 hs c hc
  rwa [Bool.and_eq_true, bne_iff_ne, bne_iff_ne] at hboth

theorem intercalate (hQ : Seamless Q) {sep : String} {ws : List String} (hsep : Q sep)
    (hws : ∀ w ∈ ws, Q w) : Q (sep.intercalate ws) := by
  induction ws with
  | nil => exact hQ.ordinary (by simp)
  | cons w ws ih =>
    obtain ⟨hw, hws⟩ := List.forall_mem_cons.1 hws
    cases ws with
    | nil => rwa [String.intercalate_singleton]
    | cons v ws =>
      rw [String.intercalate_cons_cons]
      exact hQ.append (hQ.append hw hsep) (ih hws)

/-- Parts with commas between them. -/
theorem commas (hQ : Seamless Q) {ws : List String} (hws : ∀ w ∈ ws, Q w) :
    Q (", ".intercalate ws) :=
  hQ.intercalate (hQ.sign (by decide)) hws

theorem flatMap (hQ : Seamless Q) {g : Char → List Char} {cs : List Char}
    (h : ∀ c ∈ cs, Q (String.ofList (g c))) : Q (String.ofList (cs.flatMap g)) := by
  induction cs with
  | nil => exact hQ.ordinary (by simp)
  | cons c cs ih =>
    obtain ⟨hc, hcs⟩ := List.forall_mem_cons.1 h
    rw [List.flatMap_cons, String.ofList_append]
    exact hQ.append hc (ih hcs)

/-! ## Plain values -/

theorem number (hQ : Seamless Q) (n : Int) : Q (toString n) := by
  refine hQ.ordinary fun c hc => ?_
  rw [Int.toString_eq_repr] at hc
  have hdigit := Json.isDigit_or_minus_of_mem_repr n c hc
  constructor <;> rintro rfl <;> cases hdigit

theorem numberEscape (hQ : Seamless Q) (c : Char) : Q (String.ofList (Text.numberEscape c)) := by
  have hhex : ∀ (x : Char) (width : Nat), x ≠ '\n' → x ≠ Text.doubleQuote →
      Q (String.ofList ('\\' :: x :: Text.hex width c.toNat)) := by
    intro x width hx hxq
    have happ : '\\' :: x :: Text.hex width c.toNat = ['\\', x] ++ Text.hex width c.toNat := rfl
    rw [happ, String.ofList_append]
    refine hQ.append (hQ.escape hx hxq) (hQ.ordinary fun d hd => ?_)
    rw [String.toList_ofList] at hd
    obtain ⟨k, rfl⟩ := Text.exists_of_mem_hex hd
    exact ⟨Nat.digitChar_ne _ (by decide), Nat.digitChar_ne _ (by decide)⟩
  unfold Text.numberEscape
  split
  · exact hhex 'x' 2 (by decide) (by decide)
  · split
    · exact hhex 'u' 4 (by decide) (by decide)
    · exact hhex 'U' 8 (by decide) (by decide)

/-- A character of a text in quotes, if it is no double quote that has to be escaped. -/
theorem quotedChar (hQ : Seamless Q) {q c : Char} (hqn : q ≠ '\n')
    (hqc : c = q → c ≠ Text.doubleQuote) : Q (String.ofList (Text.quotedChar q c)) := by
  unfold Text.quotedChar
  split
  · next h => exact hQ.escape (h ▸ hqn) (hqc h)
  split
  · exact hQ.escape (by decide) (by decide)
  split
  · exact hQ.escape (by decide) (by decide)
  split
  · exact hQ.escape (by decide) (by decide)
  split
  · exact hQ.escape (by decide) (by decide)
  split
  · next hbackslash hfeed _ _ _ =>
    refine hQ.ordinary fun d hd => ?_
    rw [String.toList_ofList, List.mem_singleton] at hd
    exact hd ▸ ⟨hfeed, hbackslash⟩
  · exact hQ.numberEscape c

theorem quoted (hQ : Seamless Q) (s : String) : Q (Text.quoted s) := by
  have hquote : ∀ cs, Text.quoteFor cs ≠ '\n' ∧ Text.quoteFor cs ≠ '\\' := by
    intro cs
    unfold Text.quoteFor
    split <;> decide
  have hmark : Q (String.ofList [Text.quoteFor s.toList]) := by
    refine hQ.ordinary fun c hc => ?_
    rw [String.toList_ofList, List.mem_singleton] at hc
    exact hc ▸ hquote _
  have hbody : Q (String.ofList (s.toList.flatMap (Text.quotedChar (Text.quoteFor s.toList)))) :=
    hQ.flatMap fun c hc => hQ.quotedChar (hquote _).1 (Text.ne_doubleQuote_of_quoteFor hc)
  show Q (String.ofList ([_] ++ _ ++ [_]))
  rw [String.ofList_append, String.ofList_append]
  exact hQ.append (hQ.append hmark hbody) hmark

mutual

/-- **A literal has the property whatever the value is.** -/
theorem literal (hQ : Seamless Q) : ∀ v : Json, Q v.literal
  | .null => hQ.sign (by decide)
  | .bool true => hQ.sign (by decide)
  | .bool false => hQ.sign (by decide)
  | .int n => hQ.number n
  | .str s => hQ.quoted s
  | .arr items => by
    have hitems := hQ.commas (hQ.literalItems items)
    rw [Json.literal]
    exact hQ.append (hQ.append (hQ.sign (by decide)) hitems) (hQ.sign (by decide))
  | .obj fields => by
    have hfields := hQ.commas (hQ.literalFields fields)
    rw [Json.literal]
    exact hQ.append (hQ.append (hQ.sign (by decide)) hfields) (hQ.sign (by decide))
termination_by structural v => v

theorem literalItems (hQ : Seamless Q) : ∀ items : List Json, ∀ w ∈ Json.literalItems items, Q w
  | [] => fun _ hw => by cases hw
  | v :: items => List.forall_mem_cons.2 ⟨hQ.literal v, hQ.literalItems items⟩
termination_by structural items => items

theorem literalFields (hQ : Seamless Q) :
    ∀ fields : List (String × Json), ∀ w ∈ Json.literalFields fields, Q w
  | [] => fun _ hw => by cases hw
  | (k, v) :: fields =>
    List.forall_mem_cons.2 ⟨hQ.append (hQ.append (hQ.quoted k) (hQ.sign (by decide)))
      (hQ.literal v), hQ.literalFields fields⟩
termination_by structural fields => fields

end

/-! ## Formulas -/

theorem type (hQ : Seamless Q) (τ : Ty) : Q τ.text := by
  induction τ with
  | fn a b iha ihb =>
    rw [Ty.text]
    repeat' apply hQ.append
    all_goals first | assumption | exact hQ.sign (by decide)
  | _ => exact hQ.sign (by decide)

/-- The text of a formula, and those of the arguments at its head. -/
theorem formula_and_args (hQ : Seamless Q) (h : ∀ n ∈ f.names, Q n) :
    Q f.text ∧ ∀ w ∈ f.argTexts, Q w := by
  induction f with
  | var n τ => exact ⟨h n (by simp [Formula.names, Formula.varNames]), fun w hw => by cases hw⟩
  | const n τ => exact ⟨h n (by simp [Formula.names, Formula.constants]), fun w hw => by cases hw⟩
  | app f a ihf iha =>
    obtain ⟨hf, hargs⟩ := ihf fun n hn => h n (Formula.mem_names_app.2 (Or.inl hn))
    obtain ⟨ha, -⟩ := iha fun n hn => h n (Formula.mem_names_app.2 (Or.inr hn))
    have hall : ∀ w ∈ f.argTexts ++ [a.text], Q w :=
      List.forall_mem_append.2 ⟨hargs, List.forall_mem_singleton.2 ha⟩
    refine ⟨?_, by rw [Formula.argTexts]; exact hall⟩
    rw [Formula.text]
    -- every part is a sign or a text that is known to have the property
    cases hhead : f.head.symbol? with
    | some n =>
      have hn : Q n := h n (Formula.mem_names_of_head (f := .app f a) hhead)
      have hlist := hQ.commas hall
      repeat' apply hQ.append
      all_goals first | assumption | exact hQ.sign (by decide)
    | none =>
      repeat' apply hQ.append
      all_goals first | assumption | exact hQ.sign (by decide)
  | not b ih =>
    exact ⟨hQ.append (hQ.sign (by decide)) (ih h).1, fun w hw => by cases hw⟩
  | binary op a b iha ihb =>
    obtain ⟨ha, -⟩ := iha fun n hn => h n (Formula.mem_names_binary.2 (Or.inl hn))
    obtain ⟨hb, -⟩ := ihb fun n hn => h n (Formula.mem_names_binary.2 (Or.inr hn))
    have hop : Q op.sign := by cases op <;> exact hQ.sign (by decide)
    refine ⟨?_, fun w hw => by cases hw⟩
    rw [Formula.text]
    repeat' apply hQ.append
    all_goals first | assumption | exact hQ.sign (by decide)
  | quant q n τ b ih =>
    obtain ⟨hb, -⟩ := ih fun m hm => h m (Formula.mem_names_quant.2 (Or.inr hm))
    have hn : Q n := h n (Formula.mem_names_quant.2 (Or.inl rfl))
    have hq : Q q.sign := by cases q <;> exact hQ.sign (by decide)
    have hτ : Q τ.text := hQ.type τ
    refine ⟨?_, fun w hw => by cases hw⟩
    rw [Formula.text]
    repeat' apply hQ.append
    all_goals first | assumption | exact hQ.sign (by decide)

/-- **The text of a formula has the property if all names in it do.** -/
theorem formula (hQ : Seamless Q) (h : ∀ n ∈ f.names, Q n) : Q f.text :=
  (hQ.formula_and_args h).1

/-! ## Labels -/

theorem entry (hQ : Seamless Q) {e : Entry} (h : ∀ n ∈ e.names, Q n) : Q e.text := by
  cases e with
  | formula f => exact hQ.formula h
  | plain v => exact hQ.literal v
  | notPlain v => exact hQ.append (hQ.sign (by decide)) (hQ.literal v)

theorem listText (hQ : Seamless Q) {es : List Entry} (h : ∀ n ∈ es.flatMap Entry.names, Q n) :
    Q (Entry.listText es) := by
  unfold Entry.listText
  split
  · exact hQ.sign (by decide)
  · refine hQ.commas fun w hw => ?_
    obtain ⟨e, he, rfl⟩ := List.mem_map.1 hw
    exact hQ.entry fun n hn => h n (List.mem_flatMap.2 ⟨e, he, hn⟩)

theorem optionText (hQ : Seamless Q) {o : Option Entry}
    (h : ∀ n ∈ o.toList.flatMap Entry.names, Q n) : Q (Entry.optionText o) := by
  cases o with
  | none => exact hQ.literal .null
  | some e => exact hQ.entry fun n hn => h n (by simpa using hn)

/-- **The text in a box has the property if the words of the label do.** -/
theorem boxText (hQ : Seamless Q) (h : ∀ s ∈ t.label.words, Q s) : Q t.boxText := by
  simp only [Label.words, List.forall_mem_append] at h
  obtain ⟨⟨⟨hformulas, horigin⟩, hrule⟩, hreason⟩ := h
  have hbreak : Q "\\n" := hQ.escape (c := 'n') (by decide) (by decide)
  unfold Tree.boxText
  dsimp only
  split
  · split
    · next r hr =>
      obtain ⟨hr, -⟩ := Option.filter_eq_some_iff.1 hr
      have hcross : Q "\\n✗ " := hQ.append hbreak (t := "✗ ") (hQ.sign (by decide))
      exact hQ.append (hQ.append (hQ.listText hformulas) hcross) (hreason r (by simp [hr]))
    · exact hQ.listText hformulas
  · have hname : Q (t.label.rule.getD "None") := by
      cases hr : t.label.rule with
      | none => exact hQ.sign (by decide)
      | some r => exact hrule r (by simp [hr])
    exact hQ.append (hQ.append hname hbreak) (hQ.optionText horigin)

end Seamless

end Refutation
