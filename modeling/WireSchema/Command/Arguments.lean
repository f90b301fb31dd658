import WireSchema.Command.Basic
import WireSchema.Entries

/-!
The arguments of the program: a command and its options. The value of an option is the next
argument, or stands in the same argument: behind an equals sign, or right behind a short name.
-/

set_option autoImplicit false

namespace WireSchema

inductive ArgumentFault where
  | noCommand
  | unknown (argument : String)
  | repeated (option : String)
  | badValue (option : String)
  | missing (option : String)
deriving DecidableEq

def ArgumentFault.message : ArgumentFault → String
  | .noCommand => "one of compile, check and normalize is required"
  | .unknown argument => "unexpected argument '" ++ argument ++ "'"
  | .repeated option => "the option '--" ++ option ++ "' is given more than once"
  | .badValue option => "the values of the option '--" ++ option ++ "' are not understood"
  | .missing option => "the option '--" ++ option ++ "' is required"

namespace Arguments

inductive Arity where
  | none
  | one
  | many
deriving DecidableEq

structure Form where
  name : String
  short : Option Char
  arity : Arity

def schemaForms : List Form :=
  [⟨"schema", some 's', .one⟩]

def outForms : List Form :=
  [⟨"out", some 'o', .one⟩]

def writeForms : List Form :=
  [⟨"options", none, .one⟩, ⟨"number-passthrough", none, .none⟩,
    ⟨"date-time-passthrough", none, .none⟩, ⟨"choice-fallthrough", none, .none⟩,
    ⟨"cow", none, .none⟩]

def documentForms : List Form :=
  [⟨"ndjson", none, .none⟩, ⟨"input", some 'i', .many⟩]

def moduleForms : List Form :=
  [⟨"name", none, .one⟩, ⟨"deserializer", none, .none⟩]

def isHead (argument : String) : Bool :=
  match argument.toList with
  | '-' :: _ :: _ => true
  | _ => false

/-- The arguments in front of the first option, and every option with the arguments behind it. -/
def group : List String → List String × List (String × List String)
  | [] => ([], [])
  | argument :: rest =>
    let (values, groups) := group rest
    if isHead argument then ([], (argument, values) :: groups) else (argument :: values, groups)

/-- The option that an argument names, and the value that stands in the same argument. -/
def headOf? (forms : List Form) (argument : String) : Option (Form × Option String) :=
  match argument.toList with
  | '-' :: '-' :: text =>
    let attached := match text.dropWhile (· != '=') with
      | [] => none
      | _ :: value => some (String.ofList value)
    (forms.find? fun form => form.name.toList == text.takeWhile (· != '=')).map (·, attached)
  | '-' :: c :: text =>
    let attached := match text with
      | [] => none
      | '=' :: value => some (String.ofList value)
      | value => some (String.ofList value)
    (forms.find? fun form => form.short == some c).map (·, attached)
  | _ => none

def valuesOf? (arity : Arity) (attached : Option String) (values : List String) :
    Option (List String) :=
  match arity, attached, values with
  | .none, none, [] => some []
  | .one, some value, [] => some [value]
  | .one, none, [value] => some [value]
  | .many, some value, [] => some [value]
  | .many, none, first :: rest => some (first :: rest)
  | _, _, _ => none

def settle (forms : List Form) (given : String × List String) :
    Except ArgumentFault (String × List String) :=
  match headOf? forms given.1 with
  | none => .error (.unknown given.1)
  | some (form, attached) =>
    match valuesOf? form.arity attached given.2 with
    | none => .error (.badValue form.name)
    | some values => .ok (form.name, values)

/-- Refuses options that are given more than once; those with many values may be. -/
def refuseRepeated (forms : List Form) (given : List (String × List String)) :
    Except ArgumentFault Unit :=
  match forms.find? fun form => form.arity != .many && 1 < (Entries.names given).count form.name with
  | some form => .error (.repeated form.name)
  | none => .ok ()

/-- The arguments without two dashes at their end, which only say that no option follows. -/
def withoutEnd (arguments : List String) : List String :=
  if arguments.getLast? = some "--" then arguments.dropLast else arguments

def given (forms : List Form) (arguments : List String) :
    Except ArgumentFault (List (String × List String)) := do
  match group (withoutEnd arguments) with
  | (argument :: _, _) => .error (.unknown argument)
  | ([], groups) =>
    let options ← groups.mapM (settle forms)
    refuseRepeated forms options
    return options

def isGiven (options : List (String × List String)) (name : String) : Bool :=
  (Entries.names options).contains name

def value? (options : List (String × List String)) (name : String) : Option String :=
  (Entries.get? name options).bind List.head?

def path? (options : List (String × List String)) (name : String) :
    Except ArgumentFault (Option String) :=
  match value? options name with
  | some "" => .error (.badValue name)
  | path => .ok path

def schemaPath (options : List (String × List String)) : Except ArgumentFault String := do
  match ← path? options "schema" with
  | some path => return path
  | none => .error (.missing "schema")

def optionSource (options : List (String × List String)) : Except ArgumentFault OptionSource := do
  return ⟨← path? options "options", {
    numberPassthrough := isGiven options "number-passthrough"
    dateTimePassthrough := isGiven options "date-time-passthrough"
    choiceFallthrough := isGiven options "choice-fallthrough"
    cow := isGiven options "cow" }⟩

def documentSource (options : List (String × List String)) :
    Except ArgumentFault DocumentSource :=
  match (options.filter fun option => option.1 == "input").flatMap Prod.snd with
  | [] => .error (.missing "input")
  | inputs => .ok ⟨inputs, isGiven options "ndjson"⟩

end Arguments

open Arguments

def Command.ofArguments : List String → Except ArgumentFault Command
  | [] => .error .noCommand
  | command :: arguments =>
    if command = "compile" then do
      let options ← given (schemaForms ++ writeForms ++ moduleForms ++ outForms) arguments
      return .compile (← schemaPath options) (← optionSource options)
        ((value? options "name").getD "root") (isGiven options "deserializer")
        (← path? options "out")
    else if command = "check" then do
      let options ← given (schemaForms ++ documentForms) arguments
      return .check (← schemaPath options) (← documentSource options)
    else if command = "normalize" then do
      let options ← given (schemaForms ++ writeForms ++ documentForms ++ outForms) arguments
      return .normalize (← schemaPath options) (← optionSource options)
        (← documentSource options) (← path? options "out")
    else .error .noCommand

end WireSchema
