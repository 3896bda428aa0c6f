/-! # Requests on the command line

What the arguments ask for. They are read from left to right, and the first mistake, or the first
question for the version or for help, decides.
-/
namespace Quill.Command

inductive Emit where
  | tokens | ast | ir | run
deriving DecidableEq, Repr

def Emit.text : Emit → String
  | tokens => "tokens"
  | ast => "ast"
  | ir => "ir"
  | run => "run"

def Emit.all : List Emit := [.tokens, .ast, .ir, .run]

def Emit.ofText? (s : String) : Option Emit := all.find? (·.text == s)

structure Options where
  emit : Emit
  /-- Whether the lexemes are logged. -/
  tracing : Bool
  /-- The files, in order. There is at least one. -/
  files : List String
deriving DecidableEq, Repr

inductive Request where
  | compile (o : Options)
  | version
  /-- Help, in full or in short. -/
  | help (full : Bool)
  | misuse
deriving DecidableEq, Repr

/-- What the arguments up to some point have said. -/
structure Heard where
  emit? : Option Emit
  tracing : Bool
  files : List String
deriving DecidableEq, Repr

namespace Heard

def nothing : Heard := ⟨none, false, []⟩

/-- Options do not repeat. -/
def setEmit? (h : Heard) (value : String) : Option Heard :=
  match h.emit?, Emit.ofText? value with
  | none, some e => some { h with emit? := some e }
  | _, _ => none

def setTracing? (h : Heard) : Option Heard :=
  if h.tracing then none else some { h with tracing := true }

def addFile? (h : Heard) (name : String) : Option Heard :=
  if name.isEmpty then none else some { h with files := h.files ++ [name] }

/-- Files are run unless something else is asked for. -/
def request (h : Heard) : Request :=
  if h.files.isEmpty then .misuse
  else .compile { emit := h.emit?.getD .run, tracing := h.tracing, files := h.files }

end Heard

/-- One argument among the options: what is heard then, or what it asks for at once. The option
`emit` without an equals sign takes the argument behind it, and is not one of these. -/
def hear (h : Heard) (arg : String) : Except Request Heard :=
  let ofOption (x : Option Heard) : Except Request Heard :=
    match x with
    | some h => .ok h
    | none => .error .misuse
  match arg.toList with
  | '-' :: '-' :: name =>
    if name = "version".toList then .error .version
    else if name = "help".toList then .error (.help true)
    else if name = "trace-lexer".toList then ofOption h.setTracing?
    else if name.take 5 = "emit=".toList then ofOption (h.setEmit? (String.ofList (name.drop 5)))
    else .error .misuse
  | '-' :: 'V' :: _ => .error .version
  | '-' :: 'h' :: _ => .error (.help false)
  | '-' :: _ :: _ => .error .misuse
  | _ => ofOption (h.addFile? arg)

/-- After two dashes every argument is a file. -/
def hearFiles (h : Heard) : List String → Request
  | [] => h.request
  | name :: rest =>
    match h.addFile? name with
    | some h => hearFiles h rest
    | none => .misuse

def hearAll (h : Heard) : List String → Request
  | [] => h.request
  | "--" :: rest => hearFiles h rest
  | ["--emit"] => .misuse
  | "--emit" :: value :: rest =>
    match h.setEmit? value with
    | some h => hearAll h rest
    | none => .misuse
  | arg :: rest =>
    match hear h arg with
    | .ok h => hearAll h rest
    | .error r => r

def Request.ofArgs (args : List String) : Request := hearAll .nothing args

def versionText : String := "quillc 0.1.0\n"

def usageText : String := "usage"

/-- Lines, each with its end. -/
def textOfLines (lines : List String) : String := String.join (lines.map (· ++ "\n"))

def helpHead : List String :=
  ["Compiler for the Quill language", "", "Usage: quillc [OPTIONS] <FILES>...", "", "Arguments:"]

def shortHelp : String :=
  textOfLines <| helpHead ++
    ["  <FILES>...  Source files, processed in order",
      "",
      "Options:",
      "      --emit <EMIT>  [default: run] [possible values: tokens, ast, ir, run]",
      "      --trace-lexer  Log every token the lexer produces",
      "  -h, --help         Print help (see more with '--help')",
      "  -V, --version      Print version"]

def fullHelp : String :=
  textOfLines <| helpHead ++
    ["  <FILES>...",
      "          Source files, processed in order",
      "",
      "Options:",
      "      --emit <EMIT>",
      "          Possible values:",
      "          - tokens: One token per line",
      "          - ast:    The syntax tree",
      "          - ir:     The lowered module",
      "          - run:    Run `main` over the standard streams",
      "          ",
      "          [default: run]",
      "",
      "      --trace-lexer",
      "          Log every token the lexer produces",
      "",
      "  -h, --help",
      "          Print help (see a summary with '-h')",
      "",
      "  -V, --version",
      "          Print version"]

end Quill.Command
