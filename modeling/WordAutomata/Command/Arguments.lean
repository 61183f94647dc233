import WordAutomata.Text.Delimited
import WordAutomata.Text.Digit

/-!
# Arguments of a command

An option is written by its name or by any beginning of the name that belongs to no other option.
Its value is the next argument, or stands behind an equals sign in the same argument. A double dash
behind the equals sign is no value and leaves the setting blank. A next argument that begins with a
dash is no value unless it is a dash alone, looks like a negative number, or contains a space and
resembles no option. Behind a double dash nothing is an option. An argument that no option takes is
a misuse, but help asked for earlier or later comes first. Help is asked for by its name or by one
dash and the letter h, once or several times.
-/
namespace WordAutomata.Command

/-- An option of a command. -/
structure OptionSpec where
  /-- The name with its two dashes. -/
  name : String
  takesValue : Bool
deriving DecidableEq

/-- The option that asks for help, which every command has. -/
def helpOption : OptionSpec := ⟨"--help", false⟩

/-- What a single argument is, before it is known whether an option takes it as its value. -/
inductive Token where
  | operand
  | option (spec : OptionSpec) (attached : Option String)
  /-- Letters behind one dash, of which the first asks for help. -/
  | letters (rest : List Char)
  | unknown
  | ambiguous

/-- Whether an argument looks like a negative number. -/
def isNegativeNumber (arg : List Char) : Bool :=
  let isDigit (c : Char) := (Text.digitValue? c).isSome
  match arg with
  | '-' :: rest =>
    let ends (s : List Char) := s.isEmpty || s = ['\n']
    let whole := rest.takeWhile isDigit
    match rest.dropWhile isDigit with
    | '.' :: fraction =>
      !(fraction.takeWhile isDigit).isEmpty && ends (fraction.dropWhile isDigit)
    | behind => !whole.isEmpty && ends behind
  | _ => false

/-- A text at its first equals sign. -/
def splitAttached (arg : String) : String × Option String :=
  match Text.cut? ['='] arg.toList with
  | some (name, value) => (String.ofList name, some (String.ofList value))
  | none => (arg, none)

/-- What an argument that resembles no option is. -/
def classifyOther (arg : List Char) : Token :=
  if isNegativeNumber arg || arg.contains ' ' then .operand else .unknown

/-- The options whose names begin with a text. -/
def candidates (specs : List OptionSpec) (stem : String) : List OptionSpec :=
  specs.filter fun spec => stem.toList.isPrefixOf spec.name.toList

/-- What an argument that begins with two dashes is. -/
def classifyLong (specs : List OptionSpec) (arg : String) : Token :=
  let (stem, attached) := splitAttached arg
  match specs.find? fun spec => spec.name = stem with
  | some spec => .option spec attached
  | none =>
    match candidates specs stem with
    | [] => classifyOther arg.toList
    | [spec] => .option spec attached
    | _ => .ambiguous

/-- What an argument is. -/
def classify (specs : List OptionSpec) (arg : String) : Token :=
  match arg.toList with
  | '-' :: '-' :: _ => classifyLong specs arg
  | '-' :: 'h' :: rest => .letters rest
  | ['-'] => .operand
  | '-' :: rest => classifyOther ('-' :: rest)
  | _ => .operand

/-- What an option is set to. -/
inductive Setting (α : Type) where
  | value (value : α)
  /-- The option is set, but to nothing. -/
  | blank
deriving DecidableEq

namespace Setting

variable {α β : Type}

/-- The setting with another value in the value's place. -/
def map (f : α → β) : Setting α → Setting β
  | value a => value (f a)
  | blank => blank

/-- The value, if there is one. -/
def value? : Setting α → Option α
  | value a => some a
  | blank => none

/-- The setting for a value that is attached by an equals sign. -/
def ofAttached (text : String) : Setting String := if text = "--" then blank else value text

end Setting

/-- What the arguments ask for, one thing after the other. -/
inductive Request where
  | set (option : String) (setting : Setting String)
  | flag (option : String)
  | help
  /-- An argument that no option takes. -/
  | stray
  /-- An option without its value, or with a value that it does not take. -/
  | misuse
deriving DecidableEq

/-- Whether an argument can be the value of the option before it. -/
def isValue (specs : List OptionSpec) (arg : String) : Bool :=
  arg ≠ "--" && match classify specs arg with
    | .operand => true
    | _ => false

/-- What a flag with an attached value or without one asks for. -/
def flagRequest (spec : OptionSpec) (attached : Option String) : Request :=
  if attached.isSome then .misuse else if spec = helpOption then .help else .flag spec.name

/-- What the letters behind the first one ask for: help, if there are none or all of them do. One
equals sign may stand before them, but not without them. -/
def lettersRequest (rest : List Char) : Request :=
  let letters := match rest with
    | '=' :: more => more
    | _ => rest
  if rest = ['='] then .misuse
  else if letters.all (· = 'h') then .help else .misuse

/-- What the arguments ask for, in order, up to the first misuse. An option that still waits for its
value takes the next argument. -/
def requests (specs : List OptionSpec) (waiting : Option OptionSpec) : List String → List Request
  | [] => if waiting.isSome then [.misuse] else []
  | arg :: rest =>
    match waiting with
    | some spec =>
      if isValue specs arg then .set spec.name (.value arg) :: requests specs none rest
      else [.misuse]
    | none =>
      if arg = "--" then [.stray]
      else match classify specs arg with
        | .letters letters => lettersRequest letters :: requests specs none rest
        | .option spec attached =>
          if spec.takesValue then
            match attached with
            | some text => .set spec.name (.ofAttached text) :: requests specs none rest
            | none => requests specs (some spec) rest
          else flagRequest spec attached :: requests specs none rest
        | .ambiguous => [.misuse]
        | _ => .stray :: requests specs none rest

/-- Whether an argument before the double dash could be several options. -/
def isAmbiguous (specs : List OptionSpec) (args : List String) : Bool :=
  (args.takeWhile (· ≠ "--")).any fun arg => match classify specs arg with
    | .ambiguous => true
    | _ => false

/-- Why a command ends before it has begun. -/
inductive Exit where
  | help
  | misuse
deriving DecidableEq, Repr

/-- The exit code. -/
def Exit.code : Exit → Nat
  | .help => 0
  | .misuse => 2

/-- The settings after the requests. The first request for help, misuse or value that cannot be set
decides; an argument that no option takes counts only when there is none of these. -/
def settle {σ : Type} (set : σ → Request → Option σ) (stray : Bool) (settings : σ) :
    List Request → Except Exit σ
  | [] => if stray then .error .misuse else .ok settings
  | .help :: _ => .error .help
  | .misuse :: _ => .error .misuse
  | .stray :: rest => settle set true settings rest
  | request :: rest =>
    match set settings request with
    | some settings => settle set stray settings rest
    | none => .error .misuse

/-- The settings that the arguments ask for. An argument that could be several options is a misuse
wherever it stands. -/
def readArguments {σ : Type} (specs : List OptionSpec) (set : σ → Request → Option σ)
    (settings : σ) (args : List String) : Except Exit σ :=
  let specs := helpOption :: specs
  if isAmbiguous specs args then .error .misuse
  else settle set false settings (requests specs none args)

end WordAutomata.Command
