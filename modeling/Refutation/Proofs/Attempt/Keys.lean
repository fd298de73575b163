import Mathlib.Data.List.Basic
import Refutation.Proofs.Formula.Spelling

/-!
# Keys of witnesses

Under the occurrence policy the key of a witness joins two texts: that of the formula that is
expanded and that of the path of its branch. A text tells its formula up to the types of symbols, if
all names are names of the reader and none of them is that of a variable and of a constant. No word
of a path has a slash, so the text of a path tells the path.

* `intercalate_path_inj`: paths that are written alike are equal.
* `Formula.occurrence_key_eq_iff`: **keys are equal exactly if formulas and branches are**, so no
  witness is shared by two existential statements.
-/

namespace Refutation

/-- The words of which the paths of branches consist. -/
def pathWords : List String := ["root", "left", "right"]

/-- **Paths that are written alike are equal.** -/
theorem intercalate_path_inj {i j : List String} (hi : ∀ d ∈ i, d ∈ pathWords)
    (hj : ∀ d ∈ j, d ∈ pathWords) (h : "/".intercalate i = "/".intercalate j) : i = j := by
  -- a path with words in it is read back by splitting at the slashes
  have hsplit : ∀ l : List String, (∀ d ∈ l, d ∈ pathWords) → l ≠ [] →
      ("/".intercalate l).toList.splitOn '/' = l.map String.toList := by
    intro l hl hne
    have hslash : ∀ d ∈ pathWords, '/' ∉ d.toList := by decide
    rw [String.toList_intercalate]
    refine List.splitOn_intercalate '/' ?_ (by simpa using hne)
    intro w hw
    obtain ⟨d, hd, rfl⟩ := List.mem_map.1 hw
    exact hslash d (hl d hd)
  -- and it is not the empty text
  have hempty : ∀ l : List String, (∀ d ∈ l, d ∈ pathWords) → l ≠ [] →
      "/".intercalate l ≠ "/".intercalate [] := by
    intro l hl hne heq
    have hword := hsplit l hl hne
    rw [heq] at hword
    obtain ⟨d, ds, rfl⟩ := List.exists_cons_of_ne_nil hne
    have hd : d.toList = [] := (List.cons.inj hword).1.symm
    have hnonempty : ∀ d ∈ pathWords, d.toList ≠ [] := by decide
    exact hnonempty d (hl d List.mem_cons_self) hd
  by_cases hi0 : i = []
  · by_cases hj0 : j = []
    · rw [hi0, hj0]
    · rw [hi0] at h
      exact absurd h.symm (hempty j hj hj0)
  · by_cases hj0 : j = []
    · rw [hj0] at h
      exact absurd h (hempty i hi hi0)
    · have hmap : i.map String.toList = j.map String.toList := by
        rw [← hsplit i hi hi0, h, hsplit j hj hj0]
      exact List.map_injective_iff.2 (fun _ _ => String.toList_inj.1) hmap

namespace Formula

variable {f g : Formula}

/-- **Keys of the occurrence policy do not collide.** Let all names of two formulas be names of the
reader, and none of them that of a variable and of a constant. Then the texts are equal exactly if
the formulas are, up to the types of their variables and constants. And two keys are equal exactly if
the formulas are so and the branches are the same. -/
theorem occurrence_key_eq_iff (hf : f.Named) (hg : g.Named)
    (hapart : ∀ n ∈ f.varNames ++ g.varNames, n ∉ f.constants ++ g.constants) :
    (f.text = g.text ↔ f.bare = g.bare) ∧
    ∀ (x y : Option String) (i j : List String), (∀ d ∈ i ++ j, d ∈ pathWords) →
      (WitnessPolicy.byOccurrence.key x f.text i = WitnessPolicy.byOccurrence.key y g.text j ↔
        f.bare = g.bare ∧ i = j) := by
  -- a name is that of a variable if it is so in one of the formulas
  have hbare : f.spelled = g.spelled ↔ f.bare = g.bare := by
    refine spelled_eq_iff (V := (· ∈ f.varNames ++ g.varNames)) ?_ ?_ ?_ ?_
    · exact fun n hn => List.mem_append_left _ hn
    · exact fun n hn hv => hapart n hv (List.mem_append_left _ hn)
    · exact fun n hn => List.mem_append_right _ hn
    · exact fun n hn hv => hapart n hv (List.mem_append_right _ hn)
  have htext : f.text = g.text ↔ f.spelled = g.spelled :=
    ⟨hf.spelled_eq_of_text_eq hg, text_eq_of_spelled_eq⟩
  refine ⟨htext.trans hbare, fun x y i j hij => ?_⟩
  obtain ⟨hi, hj⟩ := List.forall_mem_append.1 hij
  have hpath : "/".intercalate i = "/".intercalate j ↔ i = j :=
    ⟨intercalate_path_inj hi hj, congrArg _⟩
  rw [hf.key_eq_iff hg, hbare, hpath]

/-- `∃x:i.(R(x, a))` has the same key with other types of its symbols on the same branch, another one
on the other branch, and another one with another type of its binder. -/
theorem occurrence_key_eq_iff_existential :
    let f : Formula := .ex "x" .individual
      (.app (.app (.const "R" .truth) (.var "x" .individual)) (.const "a" .individual))
    let g : Formula := .ex "x" .individual
      (.app (.app (.const "R" .individual) (.var "x" .truth)) (.const "a" .truth))
    let k : Formula := .ex "x" .truth
      (.app (.app (.const "R" .truth) (.var "x" .individual)) (.const "a" .individual))
    let key (e : Formula) (turn : String) : Option String :=
      WitnessPolicy.byOccurrence.key (some "x") e.text ["root", turn]
    f.Named ∧ g.Named ∧ k.Named ∧
      (∀ n ∈ f.varNames ++ g.varNames, n ∉ f.constants ++ g.constants) ∧
      (∀ n ∈ f.varNames ++ k.varNames, n ∉ f.constants ++ k.constants) ∧
      key f "left" = key g "left" ∧ key f "left" ≠ key g "right" ∧ key f "left" ≠ key k "left" := by
  intro f g k key
  have hf : f.Named := ⟨by decide, by decide, by decide⟩
  have hg : g.Named := ⟨by decide, by decide, by decide⟩
  have hk : k.Named := ⟨by decide, by decide, by decide⟩
  have hfg : ∀ n ∈ f.varNames ++ g.varNames, n ∉ f.constants ++ g.constants := by decide
  have hfk : ∀ n ∈ f.varNames ++ k.varNames, n ∉ f.constants ++ k.constants := by decide
  have hkeys := (occurrence_key_eq_iff hf hg hfg).2 (some "x") (some "x")
  have hkeyk := (occurrence_key_eq_iff hf hk hfk).2 (some "x") (some "x")
  refine ⟨hf, hg, hk, hfg, hfk, ?_, ?_, ?_⟩
  · exact (hkeys _ _ (by decide)).2 ⟨rfl, rfl⟩
  · intro h
    exact absurd ((hkeys _ _ (by decide)).1 h).2 (by decide)
  · intro h
    exact absurd ((hkeyk _ _ (by decide)).1 h).1 (by decide)

end Formula

end Refutation
