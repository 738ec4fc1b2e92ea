/-!
# Commands

The command line: a command, the file that it works on, and options in any order.

* `Command.ofWords?` reads the words after the program name.
* An option's value is the next word, which must not look like an option, or follows the option's name and `=`.
* Behind a word `--`, every word is taken as it is.
-/

namespace Graft

/-- What the program is asked to do. -/
inductive Command where
  /-- Print the listings of a module, or its instructions as JSON. -/
  | decode (input : String) (json : Bool)
  /-- Print the canonical bytes and digests of a module, or the digests only. -/
  | encode (input : String) (digestOnly : Bool)
  /-- Apply a plan to a module, print the patched methods, and write a report to a file if asked to. -/
  | patch (input plan : String) (settings report : Option String)
  /-- Run a method of a module, after a plan was applied if one is given. -/
  | run (input : String) (method : Option String) (args : List String) (plan settings : Option String)
deriving DecidableEq, Repr

namespace Command

/-- A part of a command line. -/
inductive Part where
  | operand (word : String)
  | flag (name : String)
  | option (name value : String)
deriving DecidableEq, Repr

/-- The options that a command has: those without a value, those with one, and those that may be repeated. -/
structure Options where
  flags : List String := []
  valued : List String := []
  repeated : List String := []

/-- Whether a word cannot be the value of the option before it. -/
def looksLikeOption (word : String) : Bool :=
  match word.toList with
  | '-' :: _ :: _ => true
  | _ => false

/-- The name and the value of a word such as `--name=value`; there may be no value. -/
def longOption? (word : String) : Option (String × Option String) :=
  match word.toList with
  | '-' :: '-' :: cs =>
    let value := match cs.dropWhile (· != '=') with
      | _ :: v => some (String.ofList v)
      | [] => none
    some (String.ofList (cs.takeWhile (· != '=')), value)
  | _ => none

/-- The parts of a command line; there are none if a word is an option that the command does not have, or has another
way. -/
def parts? (o : Options) : List String → Option (List Part)
  | [] => some []
  | "--" :: words => some (words.map .operand)
  | word :: words =>
    match longOption? word, words with
    | none, words => if looksLikeOption word then none else (parts? o words).map (.operand word :: ·)
    | some (name, some value), words =>
      if name ∈ o.valued then (parts? o words).map (.option name value :: ·) else none
    | some (name, none), [] => if name ∈ o.flags then some [.flag name] else none
    | some (name, none), next :: rest =>
      if name ∈ o.flags then (parts? o (next :: rest)).map (.flag name :: ·)
      else if name ∈ o.valued && !looksLikeOption next then (parts? o rest).map (.option name next :: ·)
      else none

/-- The operands among parts. -/
def operands (ps : List Part) : List String :=
  ps.filterMap fun
    | .operand word => some word
    | _ => none

/-- The values that parts give to an option. -/
def values (name : String) (ps : List Part) : List String :=
  ps.filterMap fun
    | .option n value => if n = name then some value else none
    | _ => none

/-- The value that parts give to an option. -/
def value? (name : String) (ps : List Part) : Option String := (values name ps).head?

/-- Whether a flag is among parts. -/
def hasFlag (name : String) (ps : List Part) : Bool := ps.contains (.flag name)

/-- Whether no flag, and no option that may not be repeated, is given twice. -/
def isUnrepeated (o : Options) (ps : List Part) : Bool :=
  o.flags.all (fun name => ps.countP (· == .flag name) ≤ 1) &&
    o.valued.all fun name => name ∈ o.repeated || (values name ps).length ≤ 1

/-- The only operand of a command line, and its parts. -/
def inputAndParts? (o : Options) (words : List String) : Option (String × List Part) :=
  match parts? o words with
  | none => none
  | some ps =>
    match operands ps with
    | [input] => if isUnrepeated o ps then some (input, ps) else none
    | _ => none

/-- The command that words stand for. -/
def ofWords? : List String → Option Command
  | "decode" :: words =>
    (inputAndParts? { flags := ["json"] } words).map fun (input, ps) => decode input (hasFlag "json" ps)
  | "encode" :: words =>
    (inputAndParts? { flags := ["digest-only"] } words).map fun (input, ps) => encode input (hasFlag "digest-only" ps)
  | "patch" :: words =>
    (inputAndParts? { valued := ["plan", "settings", "emit"] } words).bind fun (input, ps) =>
      (value? "plan" ps).map fun plan => patch input plan (value? "settings" ps) (value? "emit" ps)
  | "run" :: words =>
    (inputAndParts? { valued := ["method", "arg", "plan", "settings"], repeated := ["arg"] } words).bind
      fun (input, ps) =>
        let plan := value? "plan" ps
        let settings := value? "settings" ps
        if settings.isSome && plan.isNone then none
        else some (run input (value? "method" ps) (values "arg" ps) plan settings)
  | _ => none

end Command

end Graft
