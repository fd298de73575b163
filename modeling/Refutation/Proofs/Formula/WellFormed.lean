import Mathlib.Data.List.Forall2
import Refutation.Proofs.Formula.Document
import Refutation.Proofs.Reading.Names

/-!
# Documents that are formulas

Which documents are read as formulas, told by a table: every kind of formula has its fields, and
every field holds a text, a type or a formula (`Json.layout?`). A document is well formed if all
these fields are there and well formed; other fields are foreign to it and may hold anything. The
order of fields carries no meaning (`Json.Same`).

* `Json.normalises_obj`: an object is normalised field by field, after its table.
* `Formula.normalises_of_ofJson`: what was read is written as the document without foreign fields.
* `Formula.reads_iff_wellFormed`: **what is read is exactly what is well formed.**
-/

namespace Refutation

/-- What a document is read as. -/
inductive Role where
  | text
  | type
  /-- The domain and the range of a function type. -/
  | types
  | formula
  deriving DecidableEq, Repr

/-- The fields of a kind of formula, beside its tag. -/
def Tag.parts : Tag → List (String × Role)
  | .var => [("name", .text), ("type", .type)]
  | .const => [("name", .text), ("type", .type)]
  | .app => [("fn", .formula), ("arg", .formula)]
  | .not => [("body", .formula)]
  | .binary _ => [("left", .formula), ("right", .formula)]
  | .quant _ => [("name", .text), ("type", .type), ("body", .formula)]

namespace Json

/-- The kind of formula that an object with these fields is tagged as. -/
def tag? (fields : List (String × Json)) : Option Tag :=
  match fields.lookup "tag" with
  | some (.str s) => Tag.ofName? s
  | _ => none

/-- The fields of an object in a role, each with its own role. An object without a known tag is no
formula. -/
def layout? (role : Role) (fields : List (String × Json)) : Option (List (String × Role)) :=
  match role with
  | .type => some [("fn", .types)]
  | .formula => (tag? fields).map fun t => ("tag", .text) :: t.parts
  | _ => none

/-- The document can be read in a role: it has all fields of that role, and they are well formed. -/
inductive WellFormed : Role → Json → Prop
  | text (s : String) : WellFormed .text (.str s)
  | individual : WellFormed .type (.str "i")
  | truth : WellFormed .type (.str "o")
  | types {a b : Json} (ha : WellFormed .type a) (hb : WellFormed .type b) :
      WellFormed .types (.arr [a, b])
  | obj {role : Role} {fields : List (String × Json)} {layout : List (String × Role)}
      (hlayout : layout? role fields = some layout)
      (hpresent : ∀ k r, layout.lookup k = some r → ∃ v, fields.lookup k = some v)
      (hparts : ∀ k r v, layout.lookup k = some r → fields.lookup k = some v → WellFormed r v) :
      WellFormed role (.obj fields)

mutual

/-- Names are texts, and the parts of function types are listed. -/
def regular : Role → Json → Bool
  | .text, .str _ => true
  | .text, _ => false
  | .types, .arr items => regularItems items
  | .types, _ => false
  | role, .obj fields =>
    match layout? role fields with
    | some layout => regularFields layout fields
    | none => true
  | _, _ => true
termination_by structural _ j => j

/-- So for every type of a list. -/
def regularItems : List Json → Bool
  | [] => true
  | j :: rest => regular .type j && regularItems rest
termination_by structural items => items

/-- So for every field that has a role. -/
def regularFields (layout : List (String × Role)) : List (String × Json) → Bool
  | [] => true
  | (k, v) :: rest =>
    match layout.lookup k with
    | some role => regular role v && regularFields layout rest
    | none => regularFields layout rest
termination_by structural fields => fields

end

mutual

/-- The document without the fields that are foreign to its role. -/
def trim : Role → Json → Json
  | .types, .arr items => .arr (trimItems items)
  | role, .obj fields =>
    match layout? role fields with
    | some layout => .obj (trimFields layout fields)
    | none => .obj fields
  | _, j => j
termination_by structural _ j => j

/-- A list of types without foreign fields. -/
def trimItems : List Json → List Json
  | [] => []
  | j :: rest => trim .type j :: trimItems rest
termination_by structural items => items

/-- The fields that have a role, without what is foreign to them. -/
def trimFields (layout : List (String × Role)) : List (String × Json) → List (String × Json)
  | [] => []
  | (k, v) :: rest =>
    match layout.lookup k with
    | some role => (k, trim role v) :: trimFields layout rest
    | none => trimFields layout rest
termination_by structural fields => fields

end

/-- The same document, whatever the order of fields. -/
inductive Same : Json → Json → Prop
  | refl (j : Json) : Same j j
  | arr {as bs : List Json} (hitems : List.Forall₂ Same as bs) : Same (.arr as) (.arr bs)
  | obj {fs gs : List (String × Json)}
      (hkeys : ∀ k, (fs.lookup k).isSome = (gs.lookup k).isSome)
      (hvalues : ∀ k a b, fs.lookup k = some a → gs.lookup k = some b → Same a b) :
      Same (.obj fs) (.obj gs)

end Json

/-- The kind of a formula. -/
def Formula.tag : Formula → Tag
  | .var _ _ => .var
  | .const _ _ => .const
  | .app _ _ => .app
  | .not _ => .not
  | .binary op _ _ => .binary op
  | .quant q _ _ _ => .quant q

open Reading (bind_eq_ok_iff)

variable {fields : List (String × Json)} {key : String} {role : Role} {j c v : Json}

/-! ## Tags -/

namespace Tag

theorem ofName?_eq_some_iff {s : String} {t : Tag} : ofName? s = some t ↔ s = t.name := by
  constructor
  · intro h
    unfold ofName? at h
    split at h <;> cases h <;> rfl
  · rintro rfl
    exact ofName?_name t

/-- No number is spelled like a tag. -/
theorem ofName?_repr (n : Int) : ofName? n.repr = none := by
  have hletter : ∀ t : Tag, (t.name.toList.all fun c => c.isDigit || c == '-') = false := by
    intro t
    cases t with
    | binary op => cases op <;> decide
    | quant q => cases q <;> decide
    | _ => decide
  refine Option.eq_none_iff_forall_ne_some.2 fun t h => ?_
  have hall := List.all_eq_true.2 (Json.isDigit_or_minus_of_mem_repr n)
  rw [ofName?_eq_some_iff.1 h, hletter t] at hall
  cases hall

theorem ofJson_eq_ok_iff {t : Tag} : ofJson j = .ok t ↔ j = .str t.name := by
  unfold ofJson spelling?
  cases j with
  | str s =>
    rw [Json.str.injEq, ← ofName?_eq_some_iff]
    cases hs : ofName? s <;> simp [hs]
  | int n => simp [Json.literal, ofName?_repr]
  | bool b => cases b <;> simp [Json.literal, ofName?]
  | null => simp [Json.literal, ofName?]
  | arr items => simp
  | obj fields => simp

end Tag

namespace Json

theorem required_eq_ok_iff {α : Type} {read : Json → Except DecodeError α} {a : α} :
    required fields key read = .ok a ↔ ∃ v, fields.lookup key = some v ∧ read v = .ok a := by
  unfold required
  cases fields.lookup key with
  | none => simp
  | some v => simp

theorem required_tag_iff {t : Tag} :
    required fields "tag" Tag.ofJson = .ok t ↔ tag? fields = some t := by
  rw [required_eq_ok_iff]
  simp only [Tag.ofJson_eq_ok_iff, exists_eq_right]
  unfold tag?
  split
  · rename_i s hs
    simp [hs, Tag.ofName?_eq_some_iff]
  · rename_i hs
    simp only [reduceCtorEq, iff_false]
    exact hs t.name

theorem asText_eq_ok_iff {s : String} : asText j = .ok s ↔ j = .str s := by
  cases j <;> simp [asText]

/-! ## Removing foreign fields -/

variable {layout : List (String × Role)}

theorem lookup_trimFields : (trimFields layout fields).lookup key =
    (layout.lookup key).bind fun r => (fields.lookup key).map (trim r) := by
  induction fields with
  | nil => cases layout.lookup key <;> rfl
  | cons f fields ih =>
    obtain ⟨k, v⟩ := f
    rw [trimFields, List.lookup_cons]
    by_cases hk : key = k
    · subst hk
      rw [beq_self_eq_true]
      cases hr : layout.lookup key with
      | none => rw [ih, hr]; rfl
      | some r => rw [List.lookup_cons, beq_self_eq_true]; rfl
    · rw [beq_false_of_ne hk, ← ih]
      cases layout.lookup k with
      | none => rfl
      | some r => rw [List.lookup_cons, beq_false_of_ne hk]

theorem regular_of_lookup {r : Role} (h : regularFields layout fields = true)
    (hr : layout.lookup key = some r) (hv : fields.lookup key = some v) : regular r v = true := by
  induction fields with
  | nil => cases hv
  | cons f fields ih =>
    obtain ⟨k, w⟩ := f
    rw [regularFields] at h
    rw [List.lookup_cons] at hv
    by_cases hk : key = k
    · subst hk
      rw [beq_self_eq_true] at hv
      cases hv
      rw [hr, Bool.and_eq_true] at h
      exact h.1
    · rw [beq_false_of_ne hk] at hv
      cases hl : layout.lookup k with
      | none => rw [hl] at h; exact ih h hv
      | some s =>
        rw [hl, Bool.and_eq_true] at h
        exact ih h.2 hv

/-- Lists of fields with the same names in the same order have a name both or neither. -/
theorem lookup_of_forall₂ {α β : Type} {R : String → α → β → Prop} {ps : List (String × α)}
    {qs : List (String × β)} (h : List.Forall₂ (fun p q => p.1 = q.1 ∧ R p.1 p.2 q.2) ps qs)
    (key : String) : (ps.lookup key = none ∧ qs.lookup key = none) ∨
      ∃ a b, ps.lookup key = some a ∧ qs.lookup key = some b ∧ R key a b := by
  induction h with
  | nil => exact Or.inl ⟨rfl, rfl⟩
  | @cons p q ps qs hpq _ ih =>
    obtain ⟨k, a⟩ := p
    obtain ⟨k', b⟩ := q
    obtain ⟨rfl, hR⟩ : k = k' ∧ R k a b := hpq
    rw [List.lookup_cons, List.lookup_cons]
    by_cases hk : key = k
    · subst hk
      rw [beq_self_eq_true]
      exact Or.inr ⟨a, b, rfl, rfl, hR⟩
    · rw [beq_false_of_ne hk]
      exact ih

/-- The document is well formed in its role, and `c` is what is left without foreign fields. -/
def Normalises (role : Role) (j c : Json) : Prop :=
  WellFormed role j ∧ Same c (trim role j)

/-- So for one of the fields of an object. -/
def NormalisesField (fields : List (String × Json)) (p : String × Role) (q : String × Json) :
    Prop :=
  p.1 = q.1 ∧ ∃ v, fields.lookup p.1 = some v ∧ Normalises p.2 v q.2

theorem normalisesField_text {s : String} (h : fields.lookup key = some (.str s)) :
    NormalisesField fields (key, .text) (key, .str s) :=
  ⟨rfl, _, h, .text s, .refl _⟩

/-- If what is read in a role is normalised to `c`, so is the field it is read from; what else is
known of the value is handed on. -/
theorem normalisesField_of_required {α : Type} {read : Json → Except DecodeError α} {a : α}
    {known : Bool} {r : Role} (h : required fields key read = .ok a)
    (hr : layout.lookup key = some r) (hregular : regularFields layout fields = true)
    (hread : ∀ v, read v = .ok a → regular r v = true → known = true ∧ Normalises r v c) :
    known = true ∧ NormalisesField fields (key, r) (key, c) := by
  obtain ⟨v, hv, ha⟩ := required_eq_ok_iff.1 h
  obtain ⟨hknown, hnormal⟩ := hread v ha (regular_of_lookup hregular hr hv)
  exact ⟨hknown, rfl, v, hv, hnormal⟩

/-- **An object is normalised field by field.** -/
theorem normalises_obj {cs : List (String × Json)} (hlayout : layout? role fields = some layout)
    (h : List.Forall₂ (NormalisesField fields) layout cs) :
    Normalises role (.obj fields) (.obj cs) := by
  have hlookup := lookup_of_forall₂ (R := fun k r c =>
    ∃ v, fields.lookup k = some v ∧ Normalises r v c) h
  have htrim : trim role (.obj fields) = .obj (trimFields layout fields) := by
    cases role <;> simp [trim, hlayout]
  refine ⟨.obj hlayout ?_ ?_, ?_⟩
  · intro k r hr
    rcases hlookup k with ⟨hnone, -⟩ | ⟨-, -, -, -, v, hv, -⟩
    · rw [hnone] at hr; cases hr
    · exact ⟨v, hv⟩
  · intro k r v hr hv
    rcases hlookup k with ⟨hnone, -⟩ | ⟨r', c, hr', -, v', hv', hwell, -⟩
    · rw [hnone] at hr; cases hr
    · rw [hr'] at hr
      rw [hv'] at hv
      cases hr
      cases hv
      exact hwell
  · rw [htrim]
    refine .obj (fun k => ?_) fun k a b ha hb => ?_
    · rw [lookup_trimFields]
      rcases hlookup k with ⟨hr, hc⟩ | ⟨r, c, hr, hc, v, hv, -⟩
      · rw [hr, hc]; rfl
      · rw [hr, hc, hv]; rfl
    · rw [lookup_trimFields] at hb
      rcases hlookup k with ⟨hr, -⟩ | ⟨r, c, hr, hc, v, hv, -, hsame⟩
      · rw [hr] at hb; cases hb
      · rw [hc] at ha
        rw [hr, hv] at hb
        cases ha
        cases hb
        exact hsame

end Json

/-- Reading the document in a role succeeds. -/
def Json.Readable : Role → Json → Prop
  | .text, j => ∃ s, j = .str s
  | .type, j => ∃ τ, Ty.ofJson j = .ok τ
  | .types, j => ∃ τ, Ty.ofParts j = .ok τ
  | .formula, j => ∃ f, Formula.ofJson j = .ok f

/-! ## Types -/

namespace Ty

variable {τ : Ty}

theorem ofFields_eq_required : ofFields fields = Json.required fields "fn" ofParts := by
  induction fields with
  | nil => rfl
  | cons f fields ih =>
    rw [ofFields, Json.required_cons, ih]
    simp only [eq_comm]

theorem ofItems_eq_ok {items : List Json} (h : ofItems items = .ok τ) :
    ∃ a b σ ρ, items = [a, b] ∧ ofJson a = .ok σ ∧ ofJson b = .ok ρ ∧ τ = .fn σ ρ := by
  unfold ofItems at h
  split at h
  · rename_i a b
    simp only [bind_eq_ok_iff, pure, Except.pure, Except.ok.injEq] at h
    obtain ⟨σ, hσ, ρ, hρ, rfl⟩ := h
    exact ⟨a, b, σ, ρ, rfl, hσ, hρ, rfl⟩
  · cases h

/-- What can be read as a type; lists of parts apart, which have to be arrays. -/
theorem ofJson_cases (h : ofJson j = .ok τ) (hj : Json.regular .type j = true) :
    j = .str "i" ∧ τ = .individual ∨ j = .str "o" ∧ τ = .truth ∨
      ∃ fields a b σ ρ, j = .obj fields ∧ fields.lookup "fn" = some (.arr [a, b]) ∧
        (Json.regular .type a = true ∧ ofJson a = .ok σ) ∧
        (Json.regular .type b = true ∧ ofJson b = .ok ρ) ∧ τ = .fn σ ρ := by
  cases j with
  | str s =>
    rw [ofJson] at h
    unfold ofName at h
    split at h
    · cases h; exact Or.inl ⟨rfl, rfl⟩
    · cases h; exact Or.inr (Or.inl ⟨rfl, rfl⟩)
    · cases h
  | obj fields =>
    rw [ofJson, ofFields_eq_required, Json.required_eq_ok_iff] at h
    obtain ⟨v, hv, h⟩ := h
    have hparts : Json.regular .types v = true := Json.regular_of_lookup hj rfl hv
    cases v with
    | arr items =>
      obtain ⟨a, b, σ, ρ, rfl, hσ, hρ, rfl⟩ := ofItems_eq_ok h
      simp only [Json.regular, Json.regularItems, Bool.and_true, Bool.and_eq_true] at hparts
      exact Or.inr (Or.inr ⟨fields, a, b, σ, ρ, rfl, hv, ⟨hparts.1, hσ⟩, ⟨hparts.2, hρ⟩, rfl⟩)
    | _ => cases hparts
  | _ => cases h

theorem normalises_of_ofJson (h : ofJson j = .ok τ) (hj : Json.regular .type j = true) :
    τ.isKnown = true ∧ Json.Normalises .type j τ.toJson := by
  induction τ generalizing j with
  | individual =>
    rcases ofJson_cases h hj with ⟨rfl, -⟩ | ⟨-, hτ⟩ | ⟨_, _, _, _, _, -, -, -, -, hτ⟩
    · exact ⟨rfl, .individual, .refl _⟩
    · cases hτ
    · cases hτ
  | truth =>
    rcases ofJson_cases h hj with ⟨-, hτ⟩ | ⟨rfl, -⟩ | ⟨_, _, _, _, _, -, -, -, -, hτ⟩
    · cases hτ
    · exact ⟨rfl, .truth, .refl _⟩
    · cases hτ
  | fn σ ρ ihσ ihρ =>
    rcases ofJson_cases h hj with ⟨-, hτ⟩ | ⟨-, hτ⟩ | ⟨fields, a, b, _, _, rfl, hv, ha, hb, hτ⟩
    · cases hτ
    · cases hτ
    · cases hτ
      obtain ⟨hσ, hwella, hsamea⟩ := ihσ ha.2 ha.1
      obtain ⟨hρ, hwellb, hsameb⟩ := ihρ hb.2 hb.1
      have hparts : Json.Normalises .types (.arr [a, b]) (.arr [σ.toJson, ρ.toJson]) :=
        ⟨.types hwella hwellb, .arr (.cons hsamea (.cons hsameb .nil))⟩
      exact ⟨by simp [isKnown, hσ, hρ], Json.normalises_obj rfl (.cons ⟨rfl, _, hv, hparts⟩ .nil)⟩
  | unknown =>
    rcases ofJson_cases h hj with ⟨-, hτ⟩ | ⟨-, hτ⟩ | ⟨_, _, _, _, _, -, -, -, -, hτ⟩ <;> cases hτ

end Ty

/-! ## Formulas -/

namespace Formula

variable {f : Formula}

theorem ofField_eq_required : ofField key fields = Json.required fields key ofJson := by
  induction fields with
  | nil => rfl
  | cons f fields ih =>
    rw [ofField_cons, Json.required_cons, ih]
    simp only [eq_comm]

/-- The parts of a formula are read from the fields of its kind. -/
def ReadFrom (fields : List (String × Json)) : Formula → Prop
  | .var n τ =>
    fields.lookup "name" = some (.str n) ∧ Json.required fields "type" Ty.ofJson = .ok τ
  | .const n τ =>
    fields.lookup "name" = some (.str n) ∧ Json.required fields "type" Ty.ofJson = .ok τ
  | .app f a => Json.required fields "fn" ofJson = .ok f ∧ Json.required fields "arg" ofJson = .ok a
  | .not b => Json.required fields "body" ofJson = .ok b
  | .binary _ a b =>
    Json.required fields "left" ofJson = .ok a ∧ Json.required fields "right" ofJson = .ok b
  | .quant _ n τ b => fields.lookup "name" = some (.str n) ∧
      Json.required fields "type" Ty.ofJson = .ok τ ∧ Json.required fields "body" ofJson = .ok b

theorem ofJson_obj_eq_ok_iff :
    ofJson (.obj fields) = .ok f ↔ Json.tag? fields = some f.tag ∧ f.ReadFrom fields := by
  have hname : ∀ n, Json.required fields "name" Json.asText = .ok n ↔
      fields.lookup "name" = some (.str n) := by
    intro n
    simp only [Json.required_eq_ok_iff, Json.asText_eq_ok_iff, exists_eq_right]
  rw [ofJson, bind_eq_ok_iff]
  simp only [Json.required_tag_iff]
  constructor
  · rintro ⟨t, ht, h⟩
    cases t <;>
      simp only [bind_eq_ok_iff, ofField_eq_required, hname, pure, Except.pure,
        Except.ok.injEq] at h
    · obtain ⟨n, hn, τ, hτ, rfl⟩ := h
      exact ⟨ht, hn, hτ⟩
    · obtain ⟨n, hn, τ, hτ, rfl⟩ := h
      exact ⟨ht, hn, hτ⟩
    · obtain ⟨f, hf, a, ha, rfl⟩ := h
      exact ⟨ht, hf, ha⟩
    · obtain ⟨b, hb, rfl⟩ := h
      exact ⟨ht, hb⟩
    · obtain ⟨a, ha, b, hb, rfl⟩ := h
      exact ⟨ht, ha, hb⟩
    · obtain ⟨n, hn, τ, hτ, b, hb, rfl⟩ := h
      exact ⟨ht, hn, hτ, hb⟩
  · rintro ⟨ht, h⟩
    refine ⟨f.tag, ht, ?_⟩
    cases f <;> simp_all [tag, ReadFrom, bind_eq_ok_iff, ofField_eq_required, pure, Except.pure]

/-- What was read is an object with a tag, and its other fields are read after its kind. -/
theorem exists_fields (h : ofJson j = .ok f) (hj : Json.regular .formula j = true) :
    ∃ fields, j = .obj fields ∧
      Json.layout? .formula fields = some (("tag", .text) :: f.tag.parts) ∧
      Json.regularFields (("tag", .text) :: f.tag.parts) fields = true ∧
      Json.NormalisesField fields ("tag", .text) ("tag", .str f.tag.name) ∧ f.ReadFrom fields := by
  cases j with
  | obj fields =>
    obtain ⟨htag, hread⟩ := ofJson_obj_eq_ok_iff.1 h
    have hlayout : Json.layout? .formula fields = some (("tag", .text) :: f.tag.parts) := by
      rw [Json.layout?, htag, Option.map_some]
    obtain ⟨v, hv, hname⟩ := Json.required_eq_ok_iff.1 (Json.required_tag_iff.2 htag)
    rw [Tag.ofJson_eq_ok_iff.1 hname] at hv
    simp only [Json.regular, hlayout] at hj
    exact ⟨fields, rfl, hlayout, hj, Json.normalisesField_text hv, hread⟩
  | _ => cases h

/-- **What was read is written as the document without its foreign fields.** -/
theorem normalises_of_ofJson (h : ofJson j = .ok f) (hj : Json.regular .formula j = true) :
    f.isTyped = true ∧ Json.Normalises .formula j f.toJson := by
  induction f generalizing j with
  | var n τ | const n τ =>
    obtain ⟨fields, rfl, hlayout, hregular, htag, hn, hτ⟩ := exists_fields h hj
    obtain ⟨hknown, htype⟩ := Json.normalisesField_of_required hτ rfl hregular
      fun v => Ty.normalises_of_ofJson
    exact ⟨hknown, Json.normalises_obj hlayout
      (.cons htag (.cons (Json.normalisesField_text hn) (.cons htype .nil)))⟩
  | app f a ihf iha =>
    obtain ⟨fields, rfl, hlayout, hregular, htag, hf, ha⟩ := exists_fields h hj
    obtain ⟨htf, hf⟩ := Json.normalisesField_of_required hf rfl hregular fun v => ihf
    obtain ⟨hta, ha⟩ := Json.normalisesField_of_required ha rfl hregular fun v => iha
    exact ⟨by rw [isTyped, htf, hta]; rfl,
      Json.normalises_obj hlayout (.cons htag (.cons hf (.cons ha .nil)))⟩
  | not b ih =>
    obtain ⟨fields, rfl, hlayout, hregular, htag, hb⟩ := exists_fields h hj
    obtain ⟨htb, hb⟩ := Json.normalisesField_of_required hb rfl hregular fun v => ih
    exact ⟨htb, Json.normalises_obj hlayout (.cons htag (.cons hb .nil))⟩
  | binary op a b iha ihb =>
    obtain ⟨fields, rfl, hlayout, hregular, htag, ha, hb⟩ := exists_fields h hj
    obtain ⟨hta, ha⟩ := Json.normalisesField_of_required ha rfl hregular fun v => iha
    obtain ⟨htb, hb⟩ := Json.normalisesField_of_required hb rfl hregular fun v => ihb
    exact ⟨by rw [isTyped, hta, htb]; rfl,
      Json.normalises_obj hlayout (.cons htag (.cons ha (.cons hb .nil)))⟩
  | quant q n τ b ih =>
    obtain ⟨fields, rfl, hlayout, hregular, htag, hn, hτ, hb⟩ := exists_fields h hj
    obtain ⟨hknown, htype⟩ := Json.normalisesField_of_required hτ rfl hregular
      fun v => Ty.normalises_of_ofJson
    obtain ⟨htb, hb⟩ := Json.normalisesField_of_required hb rfl hregular fun v => ih
    exact ⟨by rw [isTyped, hknown, htb]; rfl, Json.normalises_obj hlayout
      (.cons htag (.cons (Json.normalisesField_text hn) (.cons htype (.cons hb .nil))))⟩

/-- A tagged object is read if the fields of its kind are. -/
theorem exists_ofJson_obj {t : Tag} (ht : Json.tag? fields = some t)
    (h : ∀ k r, (("tag", .text) :: t.parts).lookup k = some r →
      ∃ v, fields.lookup k = some v ∧ Json.Readable r v) : ∃ f, ofJson (.obj fields) = .ok f := by
  have hname (hr : (("tag", .text) :: t.parts).lookup "name" = some .text) :
      ∃ n, fields.lookup "name" = some (.str n) := by
    obtain ⟨_, hv, n, rfl⟩ := h _ _ hr
    exact ⟨n, hv⟩
  have htype (hr : (("tag", .text) :: t.parts).lookup "type" = some .type) :
      ∃ τ, Json.required fields "type" Ty.ofJson = .ok τ := by
    obtain ⟨v, hv, τ, hτ⟩ := h _ _ hr
    exact ⟨τ, Json.required_eq_ok_iff.2 ⟨v, hv, hτ⟩⟩
  have hformula (k : String) (hr : (("tag", .text) :: t.parts).lookup k = some .formula) :
      ∃ g, Json.required fields k ofJson = .ok g := by
    obtain ⟨v, hv, g, hg⟩ := h _ _ hr
    exact ⟨g, Json.required_eq_ok_iff.2 ⟨v, hv, hg⟩⟩
  suffices ∃ f : Formula, f.tag = t ∧ f.ReadFrom fields by
    obtain ⟨f, rfl, hf⟩ := this
    exact ⟨f, ofJson_obj_eq_ok_iff.2 ⟨ht, hf⟩⟩
  cases t with
  | var =>
    obtain ⟨n, hn⟩ := hname rfl
    obtain ⟨τ, hτ⟩ := htype rfl
    exact ⟨.var n τ, rfl, hn, hτ⟩
  | const =>
    obtain ⟨n, hn⟩ := hname rfl
    obtain ⟨τ, hτ⟩ := htype rfl
    exact ⟨.const n τ, rfl, hn, hτ⟩
  | app =>
    obtain ⟨f, hf⟩ := hformula "fn" rfl
    obtain ⟨a, ha⟩ := hformula "arg" rfl
    exact ⟨.app f a, rfl, hf, ha⟩
  | not =>
    obtain ⟨b, hb⟩ := hformula "body" rfl
    exact ⟨.not b, rfl, hb⟩
  | binary op =>
    obtain ⟨a, ha⟩ := hformula "left" rfl
    obtain ⟨b, hb⟩ := hformula "right" rfl
    exact ⟨.binary op a b, rfl, ha, hb⟩
  | quant q =>
    obtain ⟨n, hn⟩ := hname rfl
    obtain ⟨τ, hτ⟩ := htype rfl
    obtain ⟨b, hb⟩ := hformula "body" rfl
    exact ⟨.quant q n τ b, rfl, hn, hτ, hb⟩

end Formula

/-! ## Reading what is well formed -/

theorem Json.WellFormed.readable (h : Json.WellFormed role j) : Json.Readable role j := by
  induction h with
  | text s => exact ⟨s, rfl⟩
  | individual => exact ⟨.individual, rfl⟩
  | truth => exact ⟨.truth, rfl⟩
  | types _ _ iha ihb =>
    obtain ⟨σ, hσ⟩ := iha
    obtain ⟨ρ, hρ⟩ := ihb
    refine ⟨.fn σ ρ, ?_⟩
    rw [Ty.ofParts, Ty.ofItems, hσ, hρ]
    rfl
  | @obj role fields layout hlayout hpresent _ ih =>
    have hfields : ∀ k r, layout.lookup k = some r →
        ∃ v, fields.lookup k = some v ∧ Json.Readable r v := by
      intro k r hr
      obtain ⟨v, hv⟩ := hpresent k r hr
      exact ⟨v, hv, ih k r v hr hv⟩
    cases role with
    | text => cases hlayout
    | types => cases hlayout
    | type =>
      cases hlayout
      obtain ⟨v, hv, τ, hτ⟩ := hfields "fn" .types rfl
      refine ⟨τ, ?_⟩
      rw [Ty.ofJson, Ty.ofFields_eq_required]
      exact Json.required_eq_ok_iff.2 ⟨v, hv, hτ⟩
    | formula =>
      obtain ⟨t, ht, rfl⟩ := Option.map_eq_some_iff.1 hlayout
      exact Formula.exists_ofJson_obj ht hfields

/-- **What is read is exactly what is well formed, and it is written without its foreign fields.**
Names have to be texts, and the parts of function types listed: a text of two letters would be read
as two parts as well. -/
theorem Formula.reads_iff_wellFormed {d : Json} (hd : Json.regular .formula d = true) :
    ((∃ f, ofJson d = .ok f) ↔ Json.WellFormed .formula d) ∧
      ∀ f, ofJson d = .ok f →
        f.encodeError? = none ∧ Json.Same f.toJson (Json.trim .formula d) := by
  refine ⟨⟨?_, Json.WellFormed.readable⟩, ?_⟩
  · rintro ⟨f, hf⟩
    exact (normalises_of_ofJson hf hd).2.1
  · intro f hf
    obtain ⟨htyped, -, hsame⟩ := normalises_of_ofJson hf hd
    exact ⟨if_pos htyped, hsame⟩

/-- A negation with foreign fields at every depth and its tag at the end. -/
def Json.annotated : Json :=
  .obj [("name", .int 3),
    ("body", .obj [("type", .obj [("note", .null), ("fn", .arr [.str "i", .str "o"])]),
      ("tag", .str "var"), ("name", .str "x"), ("left", .arr [])]),
    ("tag", .str "not")]

theorem Formula.reads_iff_wellFormed_annotated :
    Json.regular .formula Json.annotated = true ∧ Json.WellFormed .formula Json.annotated ∧
      Json.trim .formula Json.annotated =
        .obj [("body", .obj [("type", .obj [("fn", .arr [.str "i", .str "o"])]),
          ("tag", .str "var"), ("name", .str "x")]), ("tag", .str "not")] ∧
      Json.Same (Formula.not (.var "x" (.fn .individual .truth))).toJson
        (Json.trim .formula Json.annotated) := by
  have hd : Json.regular .formula Json.annotated = true := by decide
  have hf : ofJson Json.annotated = .ok (.not (.var "x" (.fn .individual .truth))) := rfl
  obtain ⟨hreads, hwritten⟩ := reads_iff_wellFormed hd
  exact ⟨hd, hreads.1 ⟨_, hf⟩, rfl, (hwritten _ hf).2⟩

end Refutation
