import Mathlib.Data.List.Basic
import Refutation.Json.Parser
import Refutation.Json.Printer

/-!
# The text of a document can be read back

An object that is read keeps one field for each name, so only documents whose objects have
distinct names at every level can be expected back (`Json.Proper`). They all come back.

Splitting into tokens and taking the tokens are two passes over a text, but every token that is
found can be taken at once (`Json.scan_token`). So a reader goes over the written text of a
document from the left, whatever comes after it, and ends up with the document (`Json.Reads`).

* `Json.Proper.reads`: the written text of a document is taken as that document.
* `Json.parse?_indented`: **reading what was written gives the document.**
-/

namespace Refutation.Json

/-- All objects in a document have distinct names. -/
inductive Proper : Json → Prop
  | null : Proper .null
  | bool (b : Bool) : Proper (.bool b)
  | int (n : Int) : Proper (.int n)
  | str (s : String) : Proper (.str s)
  | arr {items : List Json} (hitems : ∀ j ∈ items, Proper j) : Proper (.arr items)
  | obj {fields : List (String × Json)} (hkeys : (fields.map Prod.fst).Nodup)
      (hfields : ∀ f ∈ fields, Proper f.2) : Proper (.obj fields)

/-! ## Objects -/

theorem setField_of_notMem {key : String} {value : Json} {fields : List (String × Json)}
    (h : key ∉ fields.map Prod.fst) : setField key value fields = fields ++ [(key, value)] := by
  induction fields with
  | nil => rfl
  | cons f rest ih =>
    obtain ⟨k, v⟩ := f
    rw [List.map_cons, List.mem_cons, not_or] at h
    rw [setField, if_neg (Ne.symm h.1), ih h.2]
    rfl

/-- An object keeps its fields if their names are distinct. -/
theorem ofFields_of_nodup {fields : List (String × Json)} (h : (fields.map Prod.fst).Nodup) :
    ofFields fields = .obj fields := by
  have hfold : ∀ done : List (String × Json), ((done ++ fields).map Prod.fst).Nodup →
      fields.foldl (fun acc f => setField f.1 f.2 acc) done = done ++ fields := by
    clear h
    induction fields with
    | nil => intro done _; simp
    | cons f rest ih =>
      intro done hnd
      have hnew : f.1 ∉ done.map Prod.fst := by
        rw [List.map_append, List.map_cons, List.nodup_append] at hnd
        intro hmem
        exact hnd.2.2 _ hmem _ List.mem_cons_self rfl
      rw [List.foldl_cons, setField_of_notMem hnew, ih _ (by simpa using hnd)]
      simp
  rw [ofFields, hfold [] (by simpa using h), List.nil_append]

/-! ## Scanning -/

/-- Split a text into tokens and let a reader take them. -/
def scan (r : Reader) (cs : List Char) : Option Reader :=
  (tokensFrom? 0 cs).bind (·.foldlM Reader.step r)

variable {r : Reader} {c : Char} {cs rest : List Char} {t : Token} {st : List Open} {j : Json}

theorem tokensFrom?_length {w : Nat} (h : cs.length = w) :
    tokensFrom? w (cs ++ rest) = tokensFrom? 0 rest := by
  subst h
  induction cs with
  | nil => rfl
  | cons c cs ih => rw [List.cons_append, List.length_cons, tokensFrom?, ih]

theorem scan_space (h : isSpace c = true) : scan r (c :: cs) = scan r cs := by
  rw [scan, tokensFrom?, if_pos h, scan]

theorem scan_spaces (h : ∀ c ∈ cs, isSpace c = true) : scan r (cs ++ rest) = scan r rest := by
  induction cs with
  | nil => rfl
  | cons c cs ih =>
    rw [List.cons_append, scan_space (h c List.mem_cons_self),
      ih fun d hd => h d (List.mem_cons_of_mem _ hd)]

/-- **A token that stands at the start of a text can be taken before the rest is split.** -/
theorem scan_token (cs : List Char) (hspace : isSpace c = false)
    (htoken : tokenAt? (c :: (cs ++ rest)) = some (t, cs.length + 1)) :
    scan r (c :: (cs ++ rest)) = (r.step t).bind (scan · rest) := by
  unfold scan
  rw [tokensFrom?, if_neg (by simp [hspace]), htoken]
  show ((tokensFrom? (cs.length + 1 - 1) (cs ++ rest)).map (t :: ·)).bind _ = _
  rw [Nat.add_sub_cancel, tokensFrom?_length rfl, Option.bind_map]
  exact Option.bind_comm (tokensFrom? 0 rest) (r.step t)

/-- A token of one character. -/
theorem scan_mark (hspace : isSpace c = false) (htoken : tokenAt? (c :: rest) = some (t, 1)) :
    scan r (c :: rest) = (r.step t).bind (scan · rest) :=
  scan_token [] hspace htoken

theorem scan_margin {level : Nat} : scan r ((margin level).toList ++ rest) = scan r rest := by
  refine scan_spaces fun c hc => ?_
  have hc : c = '\n' ∨ c ∈ List.replicate (2 * level) ' ' := by simpa [margin] using hc
  rcases hc with rfl | hc
  · rfl
  · rw [List.eq_of_mem_replicate hc]
    rfl

/-! ## Strings and numbers -/

/-- The number of a control character can be read back from its four digits. -/
theorem unit?_hex {n : Nat} (h : n < 0x20) :
    ∃ a b c d, Text.hex 4 n = [a, b, c, d] ∧ unit? a b c d = some n := by
  have hall : ∀ n < 0x20, Text.hex 4 n = ['0', '0', if n < 16 then '0' else '1', Nat.digitChar (n % 16)] ∧
      unit? '0' '0' (if n < 16 then '0' else '1') (Nat.digitChar (n % 16)) = some n := by decide
  exact ⟨_, _, _, _, hall n h⟩

/-- What a character is written as inside a string is read as the character. -/
theorem stringRest?_stringChar {w : Nat} :
    stringRest? none w (stringChar c ++ rest) =
      (stringRest? none (w + (stringChar c).length) rest).map fun r => (c :: r.1, r.2) := by
  unfold stringChar
  -- the characters with an escape of one letter
  iterate 7
    split
    · next h => subst h; rfl
  split
  · next h =>
    obtain ⟨a, b, d, e, hhex, hunit⟩ := unit?_hex h
    have hhigh : ¬ (0xd800 ≤ c.toNat ∧ c.toNat < 0xdc00) := by omega
    have hlow : ¬ (0xdc00 ≤ c.toNat ∧ c.toNat < 0xe000) := by omega
    rw [hhex]
    simp only [List.cons_append, List.nil_append]
    conv_lhs => unfold stringRest?
    simp only [hunit, if_neg hhigh, if_neg hlow, Char.ofNat_toNat]
    rfl
  · next hquote hslash _ _ _ _ _ hctl =>
    rw [List.singleton_append, stringRest?]
    · simp [hslash, hctl]
    · exact fun h => hquote h
    · intro _ _ _ _ _ h
      exact absurd h hslash
    · intro _ _ h
      exact absurd h hslash

theorem stringRest?_text {w : Nat} :
    stringRest? none w (cs.flatMap stringChar ++ '\x22' :: rest) =
      some (cs, w + (cs.flatMap stringChar).length + 1) := by
  induction cs generalizing w with
  | nil => rfl
  | cons c cs ih =>
    rw [List.flatMap_cons, List.append_assoc, stringRest?_stringChar, ih, List.length_append]
    simp [Nat.add_assoc]

theorem natOf_toDigits {n : Nat} : natOf (Nat.toDigits 10 n) = n := by
  have h := Nat.ofDigitChars_ten_toDigits (n := n)
  rwa [Nat.ofDigitChars_eq_foldl] at h

/-- What may follow a number. -/
def Ends (rest : List Char) : Prop :=
  ∀ c ∈ rest.head?, c.isDigit = false

/-- Where a reader takes a value. -/
def Expect.TakesValue (e : Expect) : Prop :=
  e = .value ∨ e = .first

/-- A text is taken as a document, whatever is open and whatever follows. -/
def Reads (text : String) (j : Json) : Prop :=
  ∀ (e : Expect) (st : List Open) (rest : List Char), e.TakesValue → Ends rest →
    scan ⟨e, st⟩ (text.toList ++ rest) = scan ⟨.after j, st⟩ rest

theorem Expect.TakesValue.step {e : Expect} (h : e.TakesValue) :
    Reader.step ⟨e, st⟩ (.value j) = some ⟨.after j, st⟩ := by
  rcases h with rfl | rfl <;> rfl

theorem Expect.TakesValue.step_openArr {e : Expect} (h : e.TakesValue) :
    Reader.step ⟨e, st⟩ .openArr = some ⟨.first, .arr [] :: st⟩ := by
  rcases h with rfl | rfl <;> rfl

theorem Expect.TakesValue.step_openObj {e : Expect} (h : e.TakesValue) :
    Reader.step ⟨e, st⟩ .openObj = some ⟨.key [] true, st⟩ := by
  rcases h with rfl | rfl <;> rfl

/-- A text that is one token of its own. -/
theorem reads_of_token {text : String} (cs : List Char) (htext : text.toList = c :: cs) (hspace : isSpace c = false)
    (htoken : ∀ rest, Ends rest → tokenAt? (c :: (cs ++ rest)) = some (.value j, cs.length + 1)) :
    Reads text j := by
  intro e st rest he hrest
  rw [htext, List.cons_append, scan_token cs hspace (htoken rest hrest), he.step]
  rfl

theorem scan_string {s : String} :
    scan r ((string s).toList ++ rest) = (r.step (.value (.str s))).bind (scan · rest) := by
  have htext : (string s).toList ++ rest =
      '\x22' :: ((s.toList.flatMap stringChar ++ ['\x22']) ++ rest) := by
    simp [string, Text.doubleQuote]
  rw [htext]
  refine scan_token _ rfl ?_
  rw [tokenAt?, List.append_assoc, List.singleton_append, stringRest?_text]
  simp [Nat.add_comm]

theorem takeWhile_digits {ds : List Char} (hds : ∀ c ∈ ds, c.isDigit = true) (hrest : Ends rest) :
    (ds ++ rest).takeWhile Char.isDigit = ds := by
  rw [List.takeWhile_append_of_pos hds]
  cases rest with
  | nil => simp
  | cons c rest => simp [hrest c rfl]

/-- A number starts wherever a digit stands. -/
theorem tokenAt?_digit (h : c.isDigit = true) :
    tokenAt? (c :: cs) = some (.value (.int (natOf ((c :: cs).takeWhile Char.isDigit))),
      ((c :: cs).takeWhile Char.isDigit).length) := by
  unfold tokenAt?
  split
  case h_12 => simp [h]
  -- the other cases are those of a character that is no digit
  all_goals
    rename_i heq
    cases heq
    cases h

theorem isSpace_digit (h : c.isDigit = true) : isSpace c = false := by
  simp only [isSpace, Bool.or_eq_false_iff, decide_eq_false_iff_not]
  refine ⟨⟨⟨?_, ?_⟩, ?_⟩, ?_⟩ <;> rintro rfl <;> cases h

theorem isDigit_of_mem_toDigits {n : Nat} : ∀ c ∈ Nat.toDigits 10 n, c.isDigit = true := fun _ =>
  Nat.isDigit_of_mem_toDigits (by decide) (by decide)

/-- An integer is written with digits and a minus sign. -/
theorem isDigit_or_minus_of_mem_repr (n : Int) :
    ∀ c ∈ n.repr.toList, (c.isDigit || c == '-') = true := by
  have hdigits : ∀ k : Nat, ∀ c ∈ k.repr.toList, c.isDigit = true := by
    intro k c hc
    rw [← Nat.toString_eq_repr, Nat.toString_eq_ofList_toDigits, String.toList_ofList] at hc
    exact isDigit_of_mem_toDigits c hc
  intro c hc
  rw [Int.repr_eq_if] at hc
  split at hc
  · rw [hdigits _ c hc, Bool.true_or]
  · rw [String.toList_append, List.mem_append] at hc
    rcases hc with hc | hc
    · rw [List.mem_singleton.1 hc]; rfl
    · rw [hdigits _ c hc, Bool.true_or]

theorem reads_nat (n : Nat) : Reads (toString n) (.int n) := by
  have hds := isDigit_of_mem_toDigits (n := n)
  have hnat := natOf_toDigits (n := n)
  cases hd : Nat.toDigits 10 n with
  | nil => exact absurd hd Nat.toDigits_ne_nil
  | cons d ds =>
    rw [hd] at hds hnat
    have hdig := hds d List.mem_cons_self
    refine reads_of_token _ (by rw [Nat.toString_eq_ofList_toDigits, String.toList_ofList, hd])
      (isSpace_digit hdig) fun rest hrest => ?_
    rw [tokenAt?_digit hdig, ← List.cons_append, takeWhile_digits hds hrest, hnat]
    rfl

theorem reads_int (n : Int) : Reads (toString n) (.int n) := by
  rw [Int.toString_eq_repr, Int.repr_eq_if]
  split
  · next h =>
    have hn := reads_nat n.toNat
    rwa [Int.toNat_of_nonneg h] at hn
  · next h =>
    have htext : ("-" ++ (-n).toNat.repr).toList = '-' :: Nat.toDigits 10 (-n).toNat := by
      rw [← Nat.toString_eq_repr, Nat.toString_eq_ofList_toDigits]
      simp
    refine reads_of_token _ htext rfl fun rest hrest => ?_
    have hneg : -((-n).toNat : Int) = n := by omega
    rw [tokenAt?, takeWhile_digits isDigit_of_mem_toDigits hrest, natOf_toDigits, hneg, Nat.add_comm]
    simp

/-! ## Documents -/

theorem Ends.nil : Ends [] := by
  intro c hc
  cases hc

theorem Ends.cons (h : c.isDigit = false) : Ends (c :: rest) := by
  intro d hd
  cases hd
  exact h

theorem Ends.margin {level : Nat} : Ends ((margin level).toList ++ rest) := by
  have htext : (Json.margin level).toList ++ rest =
      '\n' :: (List.replicate (2 * level) ' ' ++ rest) := by
    simp [Json.margin]
  rw [htext]
  exact .cons rfl

/-- What stands between two parts of an array or object. -/
theorem scan_separator {level : Nat} :
    scan r (("," ++ margin level).toList ++ rest) = (r.step .comma).bind (scan · rest) := by
  have htext : ("," ++ margin level).toList ++ rest = ',' :: ((margin level).toList ++ rest) := by
    simp
  rw [htext, scan_mark rfl (t := .comma) rfl]
  simp only [scan_margin]

theorem Ends.separator {level : Nat} : Ends (("," ++ Json.margin level).toList ++ rest) := by
  rw [String.toList_append]
  exact .cons rfl

/-- The items of an array are taken one after another. -/
theorem scan_items {level outer : Nat} {e : Expect} {items done : List Json}
    (he : e.TakesValue) (h : ∀ i ∈ j :: items, Reads (indentedAt level i) i) :
    scan ⟨e, .arr done :: st⟩ (("," ++ margin level).toList.intercalate
        ((indentedItems level (j :: items)).map String.toList) ++
          ((margin outer).toList ++ ']' :: rest)) =
      scan ⟨.after (.arr (done.reverse ++ j :: items)), st⟩ rest := by
  induction items generalizing j e done with
  | nil =>
    rw [indentedItems, indentedItems, List.map_cons, List.map_nil, List.intercalate_singleton,
      h j List.mem_cons_self e _ _ he .margin, scan_margin, scan_mark rfl (t := .closeArr) rfl]
    simp [Reader.step, Reader.complete]
  | cons i items ih =>
    have htail := @ih i .value (j :: done) (Or.inl rfl)
      fun k hk => h k (List.mem_cons_of_mem _ hk)
    rw [indentedItems, indentedItems, List.map_cons, List.map_cons, List.intercalate_cons_cons,
      List.append_assoc, List.append_assoc, h j List.mem_cons_self e _ _ he .separator,
      scan_separator]
    rw [indentedItems, List.map_cons, List.reverse_cons, List.append_assoc] at htail
    exact htail

/-- A field of an object. -/
theorem scan_field {k text : String} {done : List (String × Json)} {b : Bool} (h : Reads text j)
    (hrest : Ends rest) :
    scan ⟨.key done b, st⟩ ((string k ++ ": " ++ text).toList ++ rest) =
      scan ⟨.after j, .obj done k :: st⟩ rest := by
  rw [String.toList_append, String.toList_append, List.append_assoc, List.append_assoc, scan_string]
  show scan ⟨.colon done k, st⟩ (':' :: ' ' :: (text.toList ++ rest)) = _
  rw [scan_mark rfl (t := .colon) rfl]
  show scan ⟨.value, .obj done k :: st⟩ (' ' :: (text.toList ++ rest)) = _
  rw [scan_space rfl, h _ _ _ (Or.inl rfl) hrest]

/-- The fields of an object are taken one after another. -/
theorem scan_fields {level outer : Nat} {k : String} {fields done : List (String × Json)} {b : Bool}
    (h : ∀ f ∈ (k, j) :: fields, Reads (indentedAt level f.2) f.2) :
    scan ⟨.key done b, st⟩ (("," ++ margin level).toList.intercalate
        ((indentedFields level ((k, j) :: fields)).map String.toList) ++
          ((margin outer).toList ++ '\x7d' :: rest)) =
      scan ⟨.after (ofFields (done.reverse ++ (k, j) :: fields)), st⟩ rest := by
  induction fields generalizing k j done b with
  | nil =>
    rw [indentedFields, indentedFields, List.map_cons, List.map_nil, List.intercalate_singleton,
      scan_field (h _ List.mem_cons_self) .margin, scan_margin, scan_mark rfl (t := .closeObj) rfl]
    simp [Reader.step, Reader.complete]
  | cons f fields ih =>
    obtain ⟨l, i⟩ := f
    have htail := @ih i l ((k, j) :: done) false
      fun g hg => h g (List.mem_cons_of_mem _ hg)
    rw [indentedFields, indentedFields, List.map_cons, List.map_cons, List.intercalate_cons_cons,
      List.append_assoc, List.append_assoc, scan_field (h _ List.mem_cons_self) .separator,
      scan_separator]
    rw [indentedFields, List.map_cons, List.reverse_cons, List.append_assoc] at htail
    exact htail

/-- A block between two brackets, character by character. -/
theorem toList_block {level : Nat} {opening closing : String} {parts : List String}
    {l r : Char} (hl : opening.toList = [l]) (hr : closing.toList = [r]) :
    (block level opening closing parts).toList ++ rest =
      l :: ((margin (level + 1)).toList ++
        (("," ++ margin (level + 1)).toList.intercalate (parts.map String.toList) ++
          ((margin level).toList ++ r :: rest))) := by
  simp only [block, String.toList_append, String.toList_intercalate, hl, hr, List.append_assoc,
    List.cons_append, List.nil_append]

/-- **The written text of a document is taken as that document.** -/
theorem Proper.reads (h : Proper j) (level : Nat) : Reads (indentedAt level j) j := by
  induction h generalizing level with
  | null =>
    exact reads_of_token (c := 'n') ['u', 'l', 'l'] (by simp [indentedAt, leaf]) rfl
      fun _ _ => rfl
  | bool b =>
    cases b with
    | true =>
      exact reads_of_token (c := 't') ['r', 'u', 'e'] (by simp [indentedAt, leaf]) rfl
        fun _ _ => rfl
    | false =>
      exact reads_of_token (c := 'f') ['a', 'l', 's', 'e'] (by simp [indentedAt, leaf]) rfl
        fun _ _ => rfl
  | int n => exact reads_int n
  | str s =>
    intro e st rest he _
    show scan ⟨e, st⟩ ((string s).toList ++ rest) = _
    rw [scan_string, he.step]
    rfl
  | @arr items hitems ih =>
    intro e st rest he _
    cases items with
    | nil =>
      have htext : (indentedAt level (.arr [])).toList ++ rest = '[' :: ']' :: rest := by
        simp [indentedAt, leaf]
      rw [htext, scan_mark rfl (t := .openArr) rfl, he.step_openArr, Option.bind_some,
        scan_mark rfl (t := .closeArr) rfl]
      rfl
    | cons i items =>
      rw [indentedAt, toList_block (l := '[') (r := ']') rfl rfl, scan_mark rfl (t := .openArr) rfl,
        he.step_openArr, Option.bind_some, scan_margin,
        scan_items (Or.inr rfl) fun i hi => ih i hi (level + 1)]
      rfl
  | @obj fields hkeys hfields ih =>
    intro e st rest he _
    cases fields with
    | nil =>
      have htext : (indentedAt level (.obj [])).toList ++ rest = '\x7b' :: '\x7d' :: rest := by
        simp [indentedAt, leaf]
      rw [htext, scan_mark rfl (t := .openObj) rfl, he.step_openObj, Option.bind_some,
        scan_mark rfl (t := .closeObj) rfl]
      rfl
    | cons f fields =>
      rw [indentedAt, toList_block (l := '\x7b') (r := '\x7d') rfl rfl,
        scan_mark rfl (t := .openObj) rfl, he.step_openObj, Option.bind_some, scan_margin,
        scan_fields fun f hf => ih f hf (level + 1), List.reverse_nil, List.nil_append,
        ofFields_of_nodup hkeys]

/-- **Reading what was written gives the document**, if its objects have distinct names. -/
theorem parse?_indented (h : Proper j) : parse? j.indented = some j := by
  have hscan := h.reads 0 .value [] [] (Or.inl rfl) .nil
  rw [List.append_nil] at hscan
  unfold scan at hscan
  unfold parse? tokens? indented
  cases htok : tokensFrom? 0 (indentedAt 0 j).toList with
  | none => rw [htok] at hscan; cases hscan
  | some ts =>
    rw [htok] at hscan
    have hread : ts.foldlM Reader.step ⟨.value, []⟩ = some ⟨.after j, []⟩ := hscan
    simp [hread]

end Refutation.Json
