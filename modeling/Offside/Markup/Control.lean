import Offside.Character.Trim

/-!
# Control structures

Code in alternate syntax, such as `if ($a):`, is closed by a keyword of its own
instead of a brace. Its shape tells which structure it is.
-/

set_option autoImplicit false

namespace Offside

open Offside.Character

/-- The control structures in alternate syntax. -/
inductive Control where
  | ifBranch
  | elseBranch
  | elseIfBranch
  | whileLoop
  | forLoop
  | foreachLoop
  | switchBlock
  | caseBranch
deriving DecidableEq, Repr

namespace Control

/-- All control structures, in the order in which shapes are tried. -/
def all : List Control :=
  [ifBranch, elseBranch, elseIfBranch, whileLoop, forLoop, foreachLoop, switchBlock, caseBranch]

/-- Whether a text is one line and ends in a colon, up to spaces. -/
def endsInColon (cs : List Char) : Bool :=
  !cs.contains '\n' && (trimEnd isSpace cs).getLast? == some ':'

/-- Whether a text is a condition and a colon: it starts with a space or an
opening parenthesis, and ends in a colon. -/
def isCondition (cs : List Char) : Bool :=
  cs.head?.any (fun c => c == ' ' || c == '(') && endsInColon cs

/-- Whether a text is a colon, up to spaces. -/
def isColon (cs : List Char) : Bool :=
  trim isSpace cs == [':']

/-- Whether a text starts with `keyword`, up to spaces, and goes on as `p` says. -/
def startsWith (keyword : String) (p : List Char → Bool) (cs : List Char) : Bool :=
  (after? keyword.toList (cs.dropWhile isSpace)).any p

/-- Whether code has the shape of a control structure. -/
def hasShape : Control → List Char → Bool
  | ifBranch => startsWith "if" isCondition
  | elseBranch => startsWith "else" isColon
  | elseIfBranch => startsWith "else" (startsWith "if" isCondition)
  | whileLoop => startsWith "while" endsInColon
  | forLoop => startsWith "for" isCondition
  | foreachLoop => startsWith "foreach" isCondition
  | switchBlock => startsWith "switch" isCondition
  | caseBranch => startsWith "case" endsInColon

/-- The control structure that code is, if it is one. -/
def classify (code : String) : Option Control :=
  all.find? (·.hasShape code.toList)

/-- The statement that closes a control structure. -/
def closing : Control → String
  | ifBranch | elseBranch | elseIfBranch => "endif"
  | whileLoop => "endwhile"
  | forLoop => "endfor"
  | foreachLoop => "endforeach"
  | switchBlock => "endswitch"
  | caseBranch => "break"

/-- Whether a structure is a further branch of a conditional. -/
def continues : Control → Bool
  | elseBranch | elseIfBranch => true
  | _ => false

end Control

end Offside
