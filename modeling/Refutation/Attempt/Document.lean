import Refutation.Attempt.Basic
import Refutation.Json.Parser
import Refutation.Json.Printer
import Refutation.Tree.Document

/-!
# Attempts as documents

An attempt is saved as one document and can be loaded and continued. Loading reads the
tree, the goal, the counters, the log and the witnesses in this order, and checks the
budget and the policy at the end.
-/

namespace Refutation

namespace Record

/-- The document of a record. -/
def toJson (r : Record) : Json :=
  .obj [
    ("num", .int r.num),
    ("rule", .str r.rule),
    ("description", .str r.description),
    ("before_state", .str r.before),
    ("after_state", .str r.after),
    ("branch_path", .strings r.path),
    ("instantiations", instantiationsToJson r.instantiations),
    ("node_id", .int r.nodeId),
    ("formula", .str r.formula)]

/-- The record of a document. -/
def ofJson : Json → Except DecodeError Record
  | .obj fields => do
    let num ← Json.required fields "num" Json.asInt
    let rule ← Json.required fields "rule" Json.asText
    let description ← Json.required fields "description" Json.asText
    let before ← Json.required fields "before_state" Json.asText
    let after ← Json.required fields "after_state" Json.asText
    let path ← Json.optional fields "branch_path" [] Json.asTexts
    let instantiations ← Json.optional fields "instantiations" [] instantiationsOfJson
    let nodeId ← Json.optional fields "node_id" 0 Json.asInt
    let formula ← Json.optional fields "formula" "" Json.asText
    return { num, rule, description, before, after, path, instantiations, nodeId, formula }
  | _ => .error .wrongKind

end Record

/-- Why an attempt cannot be loaded. -/
inductive LoadError where
  /-- The text is no document. -/
  | malformed
  /-- The document is not that of an attempt. -/
  | decode (e : DecodeError)
  /-- The attempt could not have been started. -/
  | setup (e : SetupError)
  deriving DecidableEq, Repr

/-- The log of a document. -/
def logOfJson (j : Json) : Except DecodeError (List Record) := do
  (← j.asItems).mapM Record.ofJson

/-- The name of a witness's key in a document. -/
def keyName (key : Option String) : String :=
  key.getD "null"

/-- The witness table of a document. -/
def witnessesOfJson : Json → Except DecodeError (List (Option String × Formula))
  | .obj fields => fields.mapM fun f => (some f.1, ·) <$> Formula.ofJson f.2
  | _ => .error .notTable

namespace Attempt

/-- Why an attempt cannot be written. -/
def encodeError? (a : Attempt) : Option EncodeError :=
  a.root.encodeError? <|> a.goal.bind Entry.encodeError? <|>
    a.supply.witnesses.findSome? fun w => w.2.encodeError?

/-- The document of an attempt; it can be read back if nothing in it prevents that. -/
def toJson (a : Attempt) : Json :=
  .obj [
    ("root", a.root.toJson),
    ("goal", .ofOption Entry.toJson a.goal),
    ("node_counter", .int a.supply.nextId),
    ("witness_counter", .int a.supply.minted),
    ("steps", .arr (a.log.map Record.toJson)),
    ("witnesses", .obj (a.supply.witnesses.map fun w => (keyName w.1, w.2.toJson))),
    ("step", .int a.step),
    ("halted", .bool a.halted),
    ("halt_reason", .str a.haltReason),
    ("step_limit_reached", .bool a.stepLimitReached),
    ("max_steps", a.maxSteps.toJson),
    ("witness_policy", a.policy.value)]

/-- The attempt of a document, before its budget and policy are checked. -/
def decode : Json → Except DecodeError Attempt
  | .obj fields => do
    let root ← Json.required fields "root" Tree.ofJson
    let goal ← Json.optional fields "goal" none Entry.optionOfJson
    let nextId ← Json.required fields "node_counter" Json.asInt
    let minted ← Json.required fields "witness_counter" Json.asInt
    let log ← Json.required fields "steps" logOfJson
    let witnesses ← Json.required fields "witnesses" witnessesOfJson
    let step ← Json.required fields "step" Json.asInt
    let halted ← Json.optional fields "halted" false Json.asBool
    let haltReason ← Json.optional fields "halt_reason" "" Json.asText
    let stepLimitReached ← Json.optional fields "step_limit_reached" false Json.asBool
    let maxSteps ← Json.optional fields "max_steps" .standard (.ok ∘ Budget.ofJson)
    let policy ← Json.optional fields "witness_policy" .byName (.ok ∘ WitnessPolicy.mk)
    return {
      root, goal, supply := { nextId, minted, witnesses }, log, step, halted, haltReason,
      stepLimitReached, maxSteps, policy }
  | _ => .error .wrongKind

/-- The attempt of a document. -/
def ofJson (j : Json) : Except LoadError Attempt :=
  match decode j with
  | .error e => .error (.decode e)
  | .ok a => a.checked.mapError .setup

/-- The attempt read back from its own document. In the document a missing key is the same as
the key `null`, so the keys of the witnesses are kept. -/
def reread (a : Attempt) : Except LoadError Attempt :=
  (ofJson a.toJson).map fun b =>
    { b with
      supply.witnesses := List.zipWith (fun v w => (v.1, w.2)) a.supply.witnesses b.supply.witnesses }

/-- The text of a saved attempt. -/
def save (a : Attempt) : Except EncodeError String :=
  match a.encodeError? with
  | some e => .error e
  | none => .ok a.toJson.indented

/-- The attempt of a saved text. -/
def load (text : String) : Except LoadError Attempt :=
  match Json.parse? text with
  | none => .error .malformed
  | some j => ofJson j

end Attempt

end Refutation
