import Refutation.Attempt.Basic
import Refutation.Problems
import Refutation.Text.Integer

/-!
# Options

The arguments of the command line are first sorted (`Piece`): options, each with the value
attached to it, plain arguments, and the separator `--` after which everything is plain.
An option may be cut short as long as it stays unambiguous. Then the pieces are taken from
left to right, and the first fault counts. Faults in sorting come before all others, and
arguments that nobody wanted are told last.
-/

namespace Refutation.CommandLine

/-- The options. -/
inductive Opt where
  | help | problem | list | steps | witnesses | save | dot | quiet
  deriving DecidableEq, Repr

namespace Opt

/-- The spellings of an option. -/
def spellings : Opt → List String
  | .help => ["-h", "--help"]
  | .problem => ["--problem"]
  | .list => ["--list"]
  | .steps => ["--steps"]
  | .witnesses => ["--witnesses"]
  | .save => ["--save"]
  | .dot => ["--dot"]
  | .quiet => ["--quiet"]

/-- All options. -/
def all : List Opt :=
  [.help, .problem, .list, .steps, .witnesses, .save, .dot, .quiet]

/-- All spellings with their options. -/
def table : List (String × Opt) :=
  all.flatMap fun o => o.spellings.map (·, o)

/-- The name of an option in messages. -/
def title (o : Opt) : String :=
  "/".intercalate o.spellings

end Opt

/-- Why a command line is refused. -/
inductive UsageError where
  /-- A shortened option fits several. -/
  | ambiguous (arg : String) (fits : List String)
  /-- An option lacks its value. -/
  | valueExpected (o : Opt)
  /-- An option has a value it does not take. -/
  | valueIgnored (o : Opt) (value : String)
  /-- A value should be an integer. -/
  | notInteger (o : Opt) (value : String)
  /-- A value should be one of several. -/
  | notChoice (o : Opt) (value : String) (choices : List String)
  /-- Arguments that nobody wanted. -/
  | unrecognized (args : List String)
  /-- There is nothing to prove. -/
  | noGoal
  /-- The budget is negative. -/
  | negativeSteps
  deriving DecidableEq, Repr

/-- The wording of each refusal. -/
def UsageError.message : UsageError → String
  | .ambiguous arg fits => "ambiguous option: " ++ arg ++ " could match " ++ ", ".intercalate fits
  | .valueExpected o => "argument " ++ o.title ++ ": expected one argument"
  | .valueIgnored o v => "argument " ++ o.title ++ ": ignored explicit argument " ++ Text.quoted v
  | .notInteger o v => "argument " ++ o.title ++ ": invalid int value: " ++ Text.quoted v
  | .notChoice o v cs =>
    "argument " ++ o.title ++ ": invalid choice: " ++ Text.quoted v ++ " (choose from " ++
      ", ".intercalate (cs.map Text.quoted) ++ ")"
  | .unrecognized args => "unrecognized arguments: " ++ " ".intercalate args
  | .noGoal => "give a formula or --problem"
  | .negativeSteps => "--steps must be >= 0"

/-- The argument after which everything is plain. -/
def separatorText : String := "--"

/-- A value attached to an option: after an equals sign, or behind an option of one letter,
where it may be further such options. -/
inductive Attached where
  | equals (value : String)
  | direct (value : List Char)
  deriving DecidableEq, Repr

/-- A sorted argument. -/
inductive Piece where
  | argument (s : String)
  | separator
  | option (o : Opt) (attached : Option Attached)
  | unknown (s : String)
  deriving DecidableEq, Repr

/-- What stands before the first equals sign and what stands after it. -/
def splitEquals (cs : List Char) : List Char × Option (List Char) :=
  match cs.dropWhile (· ≠ '=') with
  | [] => (cs, none)
  | _ :: after => (cs.takeWhile (· ≠ '='), some after)

/-- The value after an equals sign. -/
def attachedEquals : Option (List Char) → Option Attached
  | none => none
  | some v => some (.equals (String.ofList v))

/-- Whether an option is spelled with one letter. -/
def isShort (spelling : List Char) : Bool :=
  spelling.length = 2

/-- The options a shortened spelling fits, with the full spelling. -/
def fitting (cs : List Char) : List (String × Piece) :=
  match cs with
  | '-' :: '-' :: _ =>
    let (front, value) := splitEquals cs
    Opt.table.filterMap fun (s, o) =>
      if front.isPrefixOf s.toList then some (s, .option o (attachedEquals value)) else none
  | _ =>
    Opt.table.filterMap fun (s, o) =>
      if s.toList = cs.take 2 then some (s, .option o (some (.direct (cs.drop 2))))
      else if cs.isPrefixOf s.toList then some (s, .option o none)
      else none

/-- Digits, and at least one. -/
def digits (cs : List Char) : Bool :=
  !cs.isEmpty && cs.all fun c => (Text.digitValue? c).isSome

/-- A text without a line feed at its end. -/
def chopLine (cs : List Char) : List Char :=
  match cs.reverse with
  | '\n' :: rest => rest.reverse
  | _ => cs

/-- Whether an argument is a negative number, whole or with a point. -/
def isNegativeNumber (cs : List Char) : Bool :=
  match chopLine cs with
  | '-' :: rest =>
    digits rest ||
      match rest.dropWhile fun c => (Text.digitValue? c).isSome with
      | '.' :: fraction => digits fraction
      | _ => false
  | _ => false

/-- Sort an argument that stands before any separator. -/
def sortOne (s : String) : Except UsageError Piece :=
  match s.toList with
  | '-' :: c :: cs =>
    match Opt.table.lookup s with
    | some o => .ok (.option o none)
    | none =>
      let (front, value) := splitEquals ('-' :: c :: cs)
      match value, Opt.table.lookup (String.ofList front) with
      | some v, some o =>
        .ok (.option o (if isShort front then some (.direct v) else attachedEquals (some v)))
      | _, _ =>
        match fitting ('-' :: c :: cs) with
        | [(_, p)] => .ok p
        | (s₁, _) :: (s₂, _) :: more =>
          .error (.ambiguous s (s₁ :: s₂ :: more.map Prod.fst))
        | [] =>
          if isNegativeNumber ('-' :: c :: cs) || (c :: cs).contains ' ' then .ok (.argument s)
          else .ok (.unknown s)
  | _ => .ok (.argument s)

/-- Sort all arguments. -/
def sort : List String → Except UsageError (List Piece)
  | [] => .ok []
  | s :: rest =>
    if s = separatorText then .ok (.separator :: rest.map .argument)
    else do
      let p ← sortOne s
      let ps ← sort rest
      return p :: ps

/-- What the command line asks for. -/
structure Options where
  formula : Option String := none
  problem : Option Problem := none
  list : Bool := false
  steps : Budget := .standard
  witnesses : WitnessPolicy := .byName
  save : Option String := none
  dot : Option String := none
  quiet : Bool := false
  deriving DecidableEq, Repr

/-- How far the pieces have been taken. -/
structure Progress where
  options : Options := {}
  /-- Whether the place of the formula is taken. -/
  taken : Bool := false
  /-- Arguments that nobody wanted. -/
  extras : List String := []

/-- What ends the taking of pieces before their end. -/
inductive Stop where
  | help
  | error (e : UsageError)

/-- Set an option that takes a value to nothing. -/
def setNothing (o : Opt) (p : Options) : Options :=
  match o with
  | .steps => { p with steps := .other (.arr []) }
  | .problem => { p with problem := none }
  | .witnesses => { p with witnesses := ⟨.arr []⟩ }
  | .save => { p with save := none }
  | .dot => { p with dot := none }
  | .help | .list | .quiet => p

/-- Set an option that takes a value. -/
def setText (o : Opt) (v : String) (p : Options) : Except Stop Options :=
  match o with
  | .steps =>
    match Text.readInteger? v with
    | some n => .ok { p with steps := .steps n }
    | none => .error (.error (.notInteger o v))
  | .problem =>
    match Problem.find? v with
    | some q => .ok { p with problem := some q }
    | none => .error (.error (.notChoice o v (Problem.samples.map (·.name))))
  | .witnesses =>
    if v ∈ WitnessPolicy.knownNames then .ok { p with witnesses := .named v }
    else .error (.error (.notChoice o v WitnessPolicy.knownNames))
  | .save => .ok { p with save := some v }
  | .dot => .ok { p with dot := some v }
  | .help | .list | .quiet => .error (.error (.valueIgnored o v))

/-- Whether an option takes a value. -/
def Opt.takesValue : Opt → Bool
  | .problem | .steps | .witnesses | .save | .dot => true
  | .help | .list | .quiet => false

/-- Set an option to a value; two dashes stand for nothing. -/
def setValue (o : Opt) (v : String) (p : Options) : Except Stop Options :=
  if v = separatorText && o.takesValue then .ok (setNothing o p) else setText o v p

/-- Set an option that takes no value. -/
def setFlag (o : Opt) (p : Options) : Except Stop Options :=
  match o with
  | .help => .error .help
  | .list => .ok { p with list := true }
  | .quiet => .ok { p with quiet := true }
  | .problem | .steps | .witnesses | .save | .dot => .error (.error (.valueExpected o))

/-- Letters behind `-h`: further options of one letter, of which there is only `h` itself.
What is left when they are taken is a value that nobody wanted. -/
def afterHelp : List Char → Stop
  | ['h'] => .help
  | 'h' :: cs => afterHelp cs
  | cs => .error (.valueIgnored .help (String.ofList cs))

/-- Take the pieces from left to right. -/
def take (p : Progress) : List Piece → Except Stop Progress
  | [] => .ok p
  | .argument s :: .separator :: rest =>
    if p.taken then take { p with extras := p.extras ++ [s, separatorText] } rest
    else take { p with options := { p.options with formula := some s }, taken := true } rest
  | .argument s :: rest =>
    if p.taken then take { p with extras := p.extras ++ [s] } rest
    else take { p with options := { p.options with formula := some s }, taken := true } rest
  | .separator :: rest =>
    if p.taken then take { p with extras := p.extras ++ [separatorText] } rest else take p rest
  | .unknown s :: rest => take { p with extras := p.extras ++ [s] } rest
  | .option o (some (.equals v)) :: rest =>
    match setValue o v p.options with
    | .error e => .error e
    | .ok options => take { p with options } rest
  | .option _ (some (.direct cs)) :: _ => .error (afterHelp cs)
  | .option o none :: rest =>
    match setFlag o p.options with
    | .ok options => take { p with options } rest
    | .error .help => .error .help
    | .error e =>
      match rest with
      | .argument v :: rest =>
        match setValue o v p.options with
        | .error e => .error e
        | .ok options => take { p with options } rest
      | _ => .error e

/-- What a command line asks for. -/
def parse (args : List String) : Except Stop Options :=
  match sort args with
  | .error e => .error (.error e)
  | .ok pieces =>
    match take {} pieces with
    | .error e => .error e
    | .ok p => if p.extras.isEmpty then .ok p.options else .error (.error (.unrecognized p.extras))

end Refutation.CommandLine
