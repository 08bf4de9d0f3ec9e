namespace Adequacy

/-- What a mutation does to a program. -/
inductive MutantKind where
  /- Clears an array literal or the arguments of `new`. -/
  | arrayDecl
  /- Replaces a compound assignment. -/
  | assignExpr
  | arithmetic
  /- Replaces a comparison. -/
  | equalityOp
  /- Clears a block. -/
  | blockStmt
  /- Makes every link of an optional chain mandatory. -/
  | optionalChain
  /- Forces or negates a condition. -/
  | cond
  | booleanLiteral
  /- Empties or fills a string, a regular expression, a big integer or a template. -/
  | stringLiteral
  | logicalOp
  /- Clears an object literal. -/
  | objectLiteral
  /- Flips a sign. -/
  | unaryOp
  /- Moves or flips an increment or decrement. -/
  | update
  deriving DecidableEq, Repr

namespace MutantKind

/-- Every kind, in the order of reports. -/
def all : List MutantKind :=
  [arrayDecl, assignExpr, arithmetic, equalityOp, blockStmt, optionalChain, cond, booleanLiteral,
   stringLiteral, logicalOp, objectLiteral, unaryOp, update]

def name : MutantKind → String
  | arrayDecl => "ArrayDecl"
  | assignExpr => "AssignExpr"
  | arithmetic => "Arithmetic"
  | equalityOp => "EqualityOp"
  | blockStmt => "BlockStmt"
  | optionalChain => "OptionalChain"
  | cond => "Cond"
  | booleanLiteral => "BooleanLiteral"
  | stringLiteral => "StringLiteral"
  | logicalOp => "LogicalOp"
  | objectLiteral => "ObjectLiteral"
  | unaryOp => "UnaryOp"
  | update => "Update"

def ofName? (text : String) : Option MutantKind := all.find? (·.name = text)

theorem mem_all (k : MutantKind) : k ∈ all := by cases k <;> decide

theorem ofName?_name (k : MutantKind) : ofName? k.name = some k := by cases k <;> rfl

end MutantKind

/-- Operators with the operators that replace them, in the order of the mutants. -/
abbrev Catalog := List (String × List String)

namespace Catalog

/-- The replacements of an operator, none if it is not listed. -/
def lookup (c : Catalog) (op : String) : List String :=
  ((c.find? (·.1 = op)).map (·.2)).getD []

/-- Compound assignments. A plain assignment stays. -/
def assignment : Catalog :=
  [("+=", ["-="]), ("-=", ["+="]), ("*=", ["/="]), ("/=", ["*="]), ("%=", ["*="]),
   ("<<=", [">>="]), (">>=", ["<<="]), ("&=", ["|="]), ("|=", ["&="]), ("??=", ["&&="])]

def arithmetic : Catalog :=
  [("+", ["-"]), ("-", ["+"]), ("*", ["/", "%"]), ("/", ["*", "%"]), ("%", ["*", "/"])]

/-- Comparisons. The second replacement of an equality operator changes its strictness. -/
def equality : Catalog :=
  [(">", [">=", "<="]), (">=", [">", "<"]), ("<", ["<=", ">="]), ("<=", ["<", ">"]),
   ("==", ["!=", "==="]), ("!=", ["==", "!=="]), ("===", ["!==", "=="]), ("!==", ["===", "!="])]

def logical : Catalog :=
  [("&&", ["||", "??"]), ("||", ["&&", "??"]), ("??", ["&&", "||"])]

def unary : Catalog := [("+", ["-"]), ("-", ["+"])]

def update : Catalog := [("++", ["--"]), ("--", ["++"])]

/-- The replacements of an operator between two operands, and their kind. -/
def binary? (op : String) : Option (MutantKind × List String) :=
  [(MutantKind.arithmetic, arithmetic), (.equalityOp, equality), (.logicalOp, logical)].map
    (fun (kind, c) => (kind, c.lookup op)) |>.find? (!·.2.isEmpty)

/-- Whether an operator tests for equality, strictly or not. -/
def isEquality (op : String) : Bool := ["==", "!=", "===", "!=="].contains op

/-- What an empty text is replaced by. -/
def filler : String := "__PLRG__"

end Catalog

end Adequacy
