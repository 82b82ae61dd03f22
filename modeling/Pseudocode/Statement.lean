import Pseudocode.Outline
import Pseudocode.Symbols

/-!
Statements and the command each one is bound to. A line whose text before the first
equals sign is a declared name is an assignment; any other belongs to the first
command whose keyword it starts with.
-/

namespace Pseudocode

inductive Command where
  | write
  | read
  | assign
  deriving DecidableEq

namespace Command

def keyword : Command → Text
  | .write => "Write".toList
  | .read => "Read".toList
  | .assign => "Assign".toList

/-- The commands of a program that are recognised by their keyword. -/
def standard : List Command := [.write, .read]

def assigns (scope : Scope) (statement : Text) : Bool :=
  match Text.cut? '=' statement with
  | none => false
  | some (name, _) => Text.isIdentifier (Text.trim name) && scope.contains (Text.trim name)

def classify? (commands : List Command) (scope : Scope) (statement : Text) : Option Command :=
  if assigns scope statement then some .assign
  else commands.find? fun command => Text.startsWith statement command.keyword

end Command

structure Statement where
  line : Nat
  command : Command
  text : Text
  deriving DecidableEq

namespace Statement

def ofLine (commands : List Command) (scope : Scope) (line : Line) : Except Rejection Statement :=
  match Command.classify? commands scope line.text with
  | some command => .ok ⟨line.number, command, line.text⟩
  | none => .error (.onLine line.number (.invalidStatement line.text))

def ofLines (commands : List Command) (scope : Scope) :
    List Line → Except Rejection (List Statement)
  | [] => .ok []
  | line :: rest => do
      let first ← ofLine commands scope line
      let others ← ofLines commands scope rest
      .ok (first :: others)

/-- A character inside double quotes; control characters are spelled out. -/
def escapeChar (c : Char) : Text :=
  if c = '"' then ['\\', '"']
  else if c = '\\' then ['\\', '\\']
  else if c = '\t' then ['\\', 't']
  else if c = '\n' then ['\\', 'n']
  else if c = '\r' then ['\\', 'r']
  else if c.toNat = 0 then ['\\', '0']
  else if c.toNat < 32 || c.toNat = 127 then
    "\\u\x7b".toList ++ Nat.toDigits 16 c.toNat ++ "\x7d".toList
  else [c]

def describe (statement : Statement) : Text :=
  "Statement \x7b line: ".toList ++ Text.ofNat statement.line ++ ", text: \"".toList ++
    statement.text.flatMap escapeChar ++ "\", processor: \"".toList ++
    statement.command.keyword ++ "\" \x7d".toList

end Statement

end Pseudocode
