import Quill.Command.Request
import Quill.Diagnostic
import Quill.Ir.Printer
import Quill.Lowering.Program
import Quill.Machine.Run
import Quill.Source
import Quill.Syntax.Outline

/-! # What a command does

Each file is read, compiled and perhaps run, in order. The first failure ends the command; what
was printed by then stays. The files share one standard input.
-/
namespace Quill.Command

inductive FileState where
  | contents (bytes : List UInt8)
  /-- It can be opened, but not read. -/
  | unreadable (reason : String)
  /-- It cannot be opened. -/
  | unopenable (reason : String)
deriving DecidableEq, Repr

namespace FileState

def directory : FileState := unreadable "Is a directory (os error 21)"

def missing : FileState := unopenable "No such file or directory (os error 2)"

def bytes : FileState → List UInt8
  | contents bs => bs
  | _ => []

def feed : FileState → Feed
  | contents bs => .whole bs
  | unreadable reason | unopenable reason => .ofBytes [] 0 false (.failing reason)

end FileState

/-- What has been printed, and the input that is left. -/
structure Session where
  stdout : List UInt8
  stderr : List UInt8
  input : Input

namespace Session

def print (s : Session) (bytes : List UInt8) : Session := { s with stdout := s.stdout ++ bytes }

def printText (s : Session) (text : String) : Session := s.print (Utf8.encode text)

def complain (s : Session) (text : String) : Session :=
  { s with stderr := s.stderr ++ Utf8.encode text }

def log (s : Session) (records : List Record) : Session :=
  let traces := records.filter (·.level = .trace)
  s.complain (String.join (traces.map fun r => s!"[TRACE quill::lexer] {r.text}\n"))

end Session

/-- A diagnostic behind the name of its file. -/
def renderFile (name : String) (file : FileState) (d : Diagnostic) : String :=
  s!"{name}\n{d.render (Utf8.decodeLossy file.bytes)}"

/-- The result of one file: its status, or why the command fails there. -/
abbrev FileResult := Except String UInt8

def lexerOptions (o : Options) : LexerOptions := { LexerOptions.usual with tracing := o.tracing }

def tokenLine (l : Lexeme) : String := s!"Token({l.token.text}, {l.span.text})\n"

def listTokens (o : LexerOptions) (name : String) (file : FileState) (s : Session) :
    FileResult × Session :=
  let (lexemes, l) := (o.lexer file.feed).lexemes
  let s := (s.log (o.records lexemes)).printText (String.join (lexemes.map tokenLine))
  match l.window.failure with
  | some reason => (.error s!"{name}: {reason}", s)
  | none => (.ok 0, s)

/-- Runs a module. None if it is still running after `fuel` steps. -/
def runModule (fuel : Nat) (name : String) (m : Ir.Module) (s : Session) :
    Option (FileResult × Session) := do
  let (result, machine) ← (Machine.start m s.input .unlimited).runMain fuel
  let s := { s.print machine.world.sink.written.toList with input := machine.world.input }
  return match result with
    | .ok code => (.ok code.toUInt64.toUInt8, s)
    | .error (.trap t) => (.error s!"{name}: {t.message}", s)
    | .error (.fault f) => (.error s!"{name}: {f.message}", s)

def lowerProgram (name : String) (file : FileState) (p : Program) : Except String Ir.Module :=
  match p.lower.outcome with
  | .ok m => .ok m
  | .error (.rejected e) => .error (renderFile name file ⟨e.span, e.val.message⟩)
  | .error (.misuse m) => .error s!"{name}: {m.message}"

/-- Parses a file, and lowers and runs it as far as is asked. -/
def compileFile (fuel : Nat) (emit : Emit) (o : LexerOptions) (name : String) (file : FileState)
    (s : Session) : Option (FileResult × Session) :=
  let parsed := Program.parse o name file.feed
  let s := s.log parsed.records
  match parsed.outcome with
  | .error e => some (.error (renderFile name file ⟨e.span, e.val.message⟩), s)
  | .ok p =>
    if emit = .ast then some (.ok 0, s.printText p.outline)
    else
      match lowerProgram name file p with
      | .error text => some (.error text, s)
      | .ok m =>
        if emit = .ir then some (.ok 0, s.printText m.print) else runModule fuel name m s

def processFile (fuel : Nat) (o : Options) (name : String) (file : FileState) (s : Session) :
    Option (FileResult × Session) :=
  match file, o.emit with
  | .unopenable reason, _ => some (.error s!"{name}: {reason}", s)
  | _, .tokens => some (listTokens (lexerOptions o) name file s)
  | _, emit => compileFile fuel emit (lexerOptions o) name file s

/-- The files in order. The status is that of the last one. -/
def processFiles (fuel : Nat) (o : Options) (find : String → FileState) (status : UInt8)
    (s : Session) : List String → Option (UInt8 × Session)
  | [] => some (status, s)
  | name :: rest =>
    match processFile fuel o name (find name) s with
    | none => none
    | some (.error text, s) => some (1, s.complain s!"{text}\n")
    | some (.ok status, s) => processFiles fuel o find status s rest

structure Report where
  status : UInt8
  stdout : List UInt8
  stderr : List UInt8
deriving DecidableEq, Repr

/-- Carries out a request. None if a program is still running after `fuel` steps. -/
def Request.report (fuel : Nat) (find : String → FileState) (stdin : Feed) :
    Request → Option Report
  | .version => some ⟨0, Utf8.encode versionText, []⟩
  | .help full => some ⟨0, Utf8.encode (if full then fullHelp else shortHelp), []⟩
  | .misuse => some ⟨2, [], Utf8.encode usageText⟩
  | .compile o =>
    (processFiles fuel o find 0 ⟨[], [], .ofFeed stdin⟩ o.files).map fun (status, s) =>
      ⟨status, s.stdout, s.stderr⟩

end Quill.Command
