import ContractQuery.Format

/-!
# Arguments

The arguments of the command line: options, one of the three commands, and its operands.
Options may stand before the command and after it. At either place each may be given once,
and a value after the command wins over one before it. Options are `--config V`,
`--format V` and `--verbose`, or `-c V`, `-f V` and `-v`; a value may also be attached, by an
equals sign or, to a letter, directly, and letters without a value can share a dash. `--`
ends the options.

Arguments are taken up from left to right, and the first that is wrong, or that asks for
help or the version, decides.
-/

namespace ContractQuery.Command

/-- The commands. -/
inductive Verb where
  | functions
  | covered
  | compare
  deriving DecidableEq, Repr

/-- Options that take a value. -/
inductive Setting where
  | config
  | format
  deriving DecidableEq, Repr

/-- The options at one of the two places. -/
structure Options where
  config : Option String
  format : Option Format
  verbose : Bool
  deriving DecidableEq, Repr, Inhabited

/-- What is to be done. -/
inductive Task where
  | functions (source contract : String)
  | covered (source locations : String)
  | compare (first second : String) (contract : Option String)
  deriving DecidableEq, Repr

/-- Why arguments do not describe a task: they are wrong, or ask for help or the version. -/
inductive Halt where
  | usage
  | help
  | version
  deriving DecidableEq, Repr

/-- A complete command line. -/
structure Invocation where
  options : Options
  task : Task
  deriving DecidableEq, Repr

/-- Arguments of which some have been taken up: the options before the command, the command,
the options after it, the option that waits for its value, whether options have ended, and
the operands. -/
structure Draft where
  before : Options
  verb : Option Verb
  after : Options
  pending : Option Setting
  ended : Bool
  operands : List String
  deriving DecidableEq, Repr

namespace Verb

/-- The command of a name. -/
def ofName? : String → Option Verb
  | "functions" => some functions
  | "covered" => some covered
  | "compare" => some compare
  | _ => none

/-- How many operands a command takes at most. -/
def maxOperands : Verb → Nat
  | functions => 2
  | covered => 2
  | compare => 3

/-- Whether the operand at a position is a path. -/
def isPathOperand : Verb → Nat → Bool
  | compare, i => i < 2
  | _, i => i < 1

end Verb

namespace Options

/-- No option. -/
def none : Options := ⟨.none, .none, false⟩

/-- Sets an option that takes a value. It must not be set yet, a path is not empty, and a
format is known. -/
def set (o : Options) (s : Setting) (v : String) : Except Halt Options :=
  match s with
  | .config =>
    if o.config.isSome || v.isEmpty then .error .usage else .ok { o with config := some v }
  | .format =>
    match o.format, Format.ofName? v with
    | .none, some f => .ok { o with format := some f }
    | _, _ => .error .usage

/-- Sets the option that takes no value. It must not be set yet. -/
def setVerbose (o : Options) : Except Halt Options :=
  if o.verbose then .error .usage else .ok { o with verbose := true }

/-- The options of both places, where those of the second win. -/
def merge (after before : Options) : Options :=
  ⟨after.config <|> before.config, after.format <|> before.format,
    after.verbose || before.verbose⟩

end Options

namespace Draft

/-- No arguments. -/
def start : Draft := ⟨.none, none, .none, none, false, []⟩

/-- The options at the present place. -/
def current (d : Draft) : Options := if d.verb.isSome then d.after else d.before

/-- Replaces the options at the present place. -/
def withCurrent (d : Draft) (o : Options) : Draft :=
  if d.verb.isSome then { d with after := o } else { d with before := o }

/-- Sets an option at the present place. -/
def set (d : Draft) (s : Setting) (v : String) : Except Halt Draft := do
  return { d.withCurrent (← d.current.set s v) with pending := none }

/-- Sets the option without a value at the present place. -/
def setVerbose (d : Draft) : Except Halt Draft := do
  return d.withCurrent (← d.current.setVerbose)

/-- Asks for the version, which only the place before the command allows. -/
def version {α : Type} (d : Draft) : Except Halt α :=
  .error (if d.verb.isSome then .usage else .version)

/-- Takes up an operand. -/
def operand (d : Draft) (v : String) : Except Halt Draft :=
  match d.verb with
  | none => .error .usage
  | some verb =>
    let i := d.operands.length
    if verb.maxOperands ≤ i || (verb.isPathOperand i && v.isEmpty) then .error .usage
    else .ok { d with operands := d.operands ++ [v] }

/-- Takes up a long option, without its dashes. -/
def long (d : Draft) (cs : List Char) : Except Halt Draft :=
  let (name, attached) := cs.span (· ≠ '=')
  let valued (s : Setting) : Except Halt Draft :=
    match attached with
    | [] => .ok { d with pending := some s }
    | _ :: v => d.set s (String.ofList v)
  match String.ofList name, attached with
  | "config", _ => valued .config
  | "format", _ => valued .format
  | "verbose", [] => d.setVerbose
  | "help", [] => .error .help
  | "version", [] => d.version
  | _, _ => .error .usage

/-- Sets an option from the characters attached to its letter; without any its value is the
next argument. -/
def attach (d : Draft) (s : Setting) : List Char → Except Halt Draft
  | [] => .ok { d with pending := some s }
  | '=' :: v => d.set s (String.ofList v)
  | v => d.set s (String.ofList v)

/-- Takes up the letters that share a dash. -/
def short (d : Draft) : List Char → Except Halt Draft
  | [] => .ok d
  | 'c' :: rest => d.attach .config rest
  | 'f' :: rest => d.attach .format rest
  | 'v' :: rest => do (← d.setVerbose).short rest
  | 'h' :: _ => .error .help
  | 'V' :: _ => d.version
  | _ => .error .usage

/-- Takes up an argument that is neither the value of an option nor a command. -/
def argument (d : Draft) (arg : String) : Except Halt Draft :=
  match arg.toList with
  | ['-', '-'] => .ok { d with ended := true }
  | '-' :: '-' :: rest => d.long rest
  | ['-'] => d.operand arg
  | '-' :: rest => d.short rest
  | _ => d.operand arg

/-- Whether an argument looks like an option and so cannot be the value of one. -/
def isOption (arg : String) : Bool :=
  match arg.toList with
  | '-' :: _ :: _ => true
  | _ => false

/-- What asking for help about the rest of the arguments leads to. -/
def helpOn : List String → Halt
  | [] => .help
  | [name] => if (Verb.ofName? name).isSome || name == "help" then .help else .usage
  | _ => .usage

/-- Takes up arguments from left to right. -/
def read (d : Draft) : List String → Except Halt Draft
  | [] => .ok d
  | arg :: rest =>
    if d.ended then do (← d.operand arg).read rest
    else
      match d.pending with
      | some s => if isOption arg then .error .usage else do (← d.set s arg).read rest
      | none =>
        match d.verb, Verb.ofName? arg with
        | none, some verb => { d with verb := some verb }.read rest
        | verb, _ =>
          if verb.isNone && arg == "help" then .error (helpOn rest)
          else do (← d.argument arg).read rest

/-- The command line that complete arguments describe. -/
def finish (d : Draft) : Except Halt Invocation :=
  if d.pending.isSome then .error .usage
  else
    let options := d.after.merge d.before
    match d.verb, d.operands with
    | some .functions, [source, contract] => .ok ⟨options, .functions source contract⟩
    | some .covered, [source, locations] => .ok ⟨options, .covered source locations⟩
    | some .compare, [first, second] => .ok ⟨options, .compare first second none⟩
    | some .compare, [first, second, contract] =>
      .ok ⟨options, .compare first second (some contract)⟩
    | _, _ => .error .usage

end Draft

/-- The command line that arguments describe. -/
def Invocation.parse (args : List String) : Except Halt Invocation := do
  (← Draft.start.read args).finish

end ContractQuery.Command
