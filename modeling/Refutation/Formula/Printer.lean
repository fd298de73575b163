import Refutation.Formula.Basic

/-!
# Printing formulas

Every formula has one text, used in reasons, logs and keys. An application whose head
is a symbol is written `P(x, y)`, any other one `(f x)`. Binary connectives stand in
brackets, and a quantifier shows the type of its variable.
-/

namespace Refutation

/-- The text of a type. -/
def Ty.text : Ty → String
  | .unknown => "None"
  | .individual => "i"
  | .truth => "o"
  | .fn a b => "(" ++ a.text ++ " → " ++ b.text ++ ")"

/-- The sign of a connective. -/
def Connective.sign : Connective → String
  | .and => "∧"
  | .or => "∨"
  | .imp => "→"
  | .eq => "="

/-- The sign of a quantifier. -/
def Quantifier.sign : Quantifier → String
  | .all => "∀"
  | .ex => "∃"

namespace Formula

mutual

/-- The text of a formula. -/
def text : Formula → String
  | .var n _ => n
  | .const n _ => n
  | .app f a =>
    match f.head.symbol? with
    | some h => h ++ "(" ++ ", ".intercalate (argTexts f ++ [text a]) ++ ")"
    | none => "(" ++ text f ++ " " ++ text a ++ ")"
  | .not b => "¬" ++ text b
  | .binary op l r => "(" ++ text l ++ " " ++ op.sign ++ " " ++ text r ++ ")"
  | .quant q n τ b => q.sign ++ n ++ ":" ++ τ.text ++ ".(" ++ text b ++ ")"
termination_by structural f => f

/-- The texts of the arguments of an application. -/
def argTexts : Formula → List String
  | .app f a => argTexts f ++ [text a]
  | _ => []
termination_by structural f => f

end

theorem argTexts_eq (f : Formula) : f.argTexts = f.args.map text := by
  induction f with
  | app f a ihf _ => simp [argTexts, args, ihf]
  | _ => rfl

end Formula

end Refutation
