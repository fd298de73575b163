import Refutation.Formula.Document
import Refutation.Proofs.Json.Text

/-!
# Formulas can be read back

A document tells all of a typed formula, its types included: reading it gives the formula again
(`Formula.ofJson_toJson`). The same lemmas on fields serve all documents.

* `Json.required_cons`, `Json.optional_cons`: a field is looked for from the left.
* `Json.mapM_eq_self`: a list is read back if each of its items is.
-/

namespace Refutation

/-! ## Fields and lists -/

namespace Json

variable {α β γ : Type} {fields : List (String × Json)} {key k : String} {v : Json}
  {read : Json → Except DecodeError α}

theorem required_cons :
    required ((k, v) :: fields) key read =
      if key = k then read v else required fields key read := by
  unfold required
  rw [List.lookup_cons]
  by_cases h : key = k
  · simp [h]
  · rw [if_neg h, beq_false_of_ne h]

theorem optional_cons {default : α} :
    optional ((k, v) :: fields) key default read =
      if key = k then read v else optional fields key default read := by
  unfold optional
  rw [List.lookup_cons]
  by_cases h : key = k
  · simp [h]
  · rw [if_neg h, beq_false_of_ne h]

/-- A list is read if each of its items is. -/
theorem mapM_of_forall {f : α → β} {g : β → Except DecodeError γ} {h : α → γ} (xs : List α)
    (hg : ∀ x ∈ xs, g (f x) = .ok (h x)) : (xs.map f).mapM g = .ok (xs.map h) := by
  induction xs with
  | nil => rfl
  | cons x xs ih =>
    rw [List.map_cons, List.mapM_cons, hg x List.mem_cons_self,
      ih fun y hy => hg y (List.mem_cons_of_mem _ hy)]
    rfl

/-- A list is read back if each of its items is. -/
theorem mapM_eq_self {f : α → β} {g : β → Except DecodeError α} (xs : List α)
    (hg : ∀ x ∈ xs, g (f x) = .ok x) : (xs.map f).mapM g = .ok xs := by
  have h := mapM_of_forall (h := fun x => x) xs hg
  rwa [List.map_id'] at h

end Json

/-! ## Types and formulas -/

/-- **The document of a known type tells the type.** -/
theorem Ty.ofJson_toJson {τ : Ty} (h : τ.isKnown = true) : ofJson τ.toJson = .ok τ := by
  induction τ with
  | individual => rfl
  | truth => rfl
  | fn a b iha ihb =>
    simp only [isKnown, Bool.and_eq_true] at h
    simp only [toJson, ofJson, ofFields, if_true, ofParts, ofItems, iha h.1, ihb h.2]
    rfl
  | unknown => cases h

namespace Formula

theorem ofField_cons {key k : String} {v : Json} {fields : List (String × Json)} :
    ofField key ((k, v) :: fields) = if k = key then ofJson v else ofField key fields := by
  rw [ofField]

/-- **The document of a typed formula tells the formula.** -/
theorem ofJson_toJson {f : Formula} (h : f.isTyped = true) : ofJson f.toJson = .ok f := by
  have htag : ∀ t : Tag, Tag.ofJson (.str t.name) = .ok t := by
    intro t
    unfold Tag.ofJson Tag.spelling?
    simp only [Tag.ofName?_name]
  induction f with
  | var n τ =>
    have hτ : Ty.ofJson τ.toJson = .ok τ := Ty.ofJson_toJson h
    simp [toJson, ofJson, Json.required_cons, hτ, show Tag.ofJson (.str "var") = .ok .var from rfl]
    rfl
  | const n τ =>
    have hτ : Ty.ofJson τ.toJson = .ok τ := Ty.ofJson_toJson h
    simp [toJson, ofJson, Json.required_cons, hτ, show Tag.ofJson (.str "const") = .ok .const from rfl]
    rfl
  | app f a ihf iha =>
    simp only [isTyped, Bool.and_eq_true] at h
    simp [toJson, ofJson, Json.required_cons, ofField_cons, ihf h.1, iha h.2,
      show Tag.ofJson (.str "app") = .ok .app from rfl]
    rfl
  | not b ih =>
    simp [toJson, ofJson, Json.required_cons, ofField_cons, ih h,
      show Tag.ofJson (.str "not") = .ok .not from rfl]
    rfl
  | binary op a b iha ihb =>
    simp only [isTyped, Bool.and_eq_true] at h
    simp [toJson, ofJson, Json.required_cons, ofField_cons, iha h.1, ihb h.2, htag]
    rfl
  | quant q n τ b ih =>
    simp only [isTyped, Bool.and_eq_true] at h
    simp [toJson, ofJson, Json.required_cons, ofField_cons, Ty.ofJson_toJson h.1, ih h.2, htag]
    rfl

end Formula

/-! ## Distinct names -/

theorem Ty.proper_toJson (τ : Ty) : Json.Proper τ.toJson := by
  induction τ with
  | individual => exact .str _
  | truth => exact .str _
  | fn a b iha ihb =>
    refine .obj (by simp) ?_
    simp only [List.forall_mem_singleton]
    refine .arr ?_
    simp only [List.forall_mem_cons]
    exact ⟨iha, ihb, by simp⟩
  | unknown => exact .null

theorem Formula.proper_toJson (f : Formula) : Json.Proper f.toJson := by
  induction f with
  | var n τ =>
    refine .obj (by simp) ?_
    simp only [List.forall_mem_cons]
    exact ⟨.str _, .str _, τ.proper_toJson, by simp⟩
  | const n τ =>
    refine .obj (by simp) ?_
    simp only [List.forall_mem_cons]
    exact ⟨.str _, .str _, τ.proper_toJson, by simp⟩
  | app f a ihf iha =>
    refine .obj (by simp) ?_
    simp only [List.forall_mem_cons]
    exact ⟨.str _, ihf, iha, by simp⟩
  | not b ih =>
    refine .obj (by simp) ?_
    simp only [List.forall_mem_cons]
    exact ⟨.str _, ih, by simp⟩
  | binary op a b iha ihb =>
    refine .obj (by simp) ?_
    simp only [List.forall_mem_cons]
    exact ⟨.str _, iha, ihb, by simp⟩
  | quant q n τ b ih =>
    refine .obj (by simp) ?_
    simp only [List.forall_mem_cons]
    exact ⟨.str _, .str _, τ.proper_toJson, ih, by simp⟩

end Refutation
