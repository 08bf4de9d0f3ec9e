import Adequacy.SourceRange
import Adequacy.Quoted

namespace Adequacy

/-- The ways in which a text fails to be a program. -/
inductive SyntaxFault where
  /- Characters and tokens. -/
  | unexpectedCharacter (c : Char)
  | unterminatedComment | unterminatedString | unterminatedRegex | unterminatedTemplate
  | badEscape (expected : String) | unclosedEscape | escapeAtEnd | strayBackslash | badNameEscape
  | escapedKeyword (word : String)
  | nameAfterNumber | numberSeparator | missingDigit (radix : Nat) | missingExponent
  | legacyOctal | legacyDecimal | legacyComment
  | duplicateFlag (flag : Char) | unknownFlags
  | spaceInPrivateName
  /- Tokens out of place. -/
  | expected (wanted got : String) | unexpectedToken (got wanted : String) | unexpectedEnd
  | expectedName | expectedExpression | expectedSemicolon | expectedStatementEnd
  | trailingComma
  /- Names. -/
  | reservedInStrict (word : String) | evalOrArguments | awaitAsName | argumentsInField
  /- Expressions. -/
  | unaryBase | mixedCoalesce | emptyParens | spreadInParens | coverInitializer
  | arrowNotAllowed | newlineBeforeArrow
  | notAssignable | notReference | invalidTarget | deleteName
  | newTargetOutside | superOutside | superCall | superPrivate | chainInNew | chainTemplate | importMisplaced
  | optionalMember
  | awaitStar | awaitOutside | awaitInParameter | yieldInParameter
  /- Patterns, functions and classes. -/
  | notPattern | restNotLast | restNotFinal | restWithDefault | commaAfterRest | restNeedsName
  | patternWithoutInit | constWithoutInit
  | strictInComplex
  | getterParameter | setterParameter | restInSetter
  | duplicateConstructor | constructorField | constructorAccessor | constructorGenerator
  | constructorAsync | staticConstructor | privateConstructor | extendsTwice | modifierHere
  /- Statements. -/
  | declarationHere | labelledFunctionInStrict | labelledGenerator | duplicateLabel (name : String)
  | breakOutside | breakLabel | continueOutside | continueLabel | returnOutside
  | newlineAfterThrow | withInStrict | multipleDefaults
  | tooManyBindings | initializerInHead | awaitLoop | asyncOf
  | usingDisabled
  | moduleItemInside | stringImport (name : String) | stringExport
  | reservedExport (word : String)
  deriving DecidableEq, Repr

/-- A fault and the bytes it was found at. -/
structure SyntaxError where
  fault : SyntaxFault
  span : Span
  deriving DecidableEq, Repr

namespace SyntaxFault

def message : SyntaxFault → String
  | unexpectedCharacter c => "Unexpected character " ++ quotedChar c
  | unterminatedComment => "Unterminated block comment"
  | unterminatedString => "Unterminated string constant"
  | unterminatedRegex => "Unterminated regexp literal"
  | unterminatedTemplate => "Unterminated template"
  | badEscape wanted => "Bad character escape sequence, expected " ++ wanted
  | unclosedEscape => "Invalid unicode escape"
  | escapeAtEnd => "Invalid string escape"
  | strayBackslash => "Expected unicode escape"
  | badNameEscape => "Invalid character in identifier"
  | escapedKeyword word => "Unexpected escape sequence in reserved word: " ++ word
  | nameAfterNumber => "Identifier cannot follow number"
  | numberSeparator => "A numeric separator is only allowed between two digits"
  | missingDigit radix =>
    "Expected " ++
      (if radix = 2 then "a binary" else if radix = 8 then "an octal"
       else if radix = 16 then "a hexadecimal" else "a decimal") ++ " digit"
  | missingExponent => "Expected +, - or decimal digit after e"
  | legacyOctal => "Legacy octal escape is not permitted in strict mode"
  | legacyDecimal => "Legacy decimal escape is not permitted in strict mode"
  | legacyComment => "Legacy comments cannot be used in module code"
  | duplicateFlag flag => "Duplicated regular expression flag '" ++ toString flag ++ "'."
  | unknownFlags => "Unknown regular expression flags."
  | spaceInPrivateName => "Unexpected space between # and identifier"
  | expected wanted got => s!"Expected '{wanted}', got '{got}'"
  | unexpectedToken got wanted => s!"Unexpected token \x60{got}\x60. Expected {wanted}"
  | unexpectedEnd => "Unexpected eof"
  | expectedName => "Expected ident"
  | expectedExpression => "Expression expected"
  | expectedSemicolon => "Expected a semicolon"
  | expectedStatementEnd => "Expected ';', '\x7d' or <eof>"
  | trailingComma => "Trailing comma is not allowed"
  | reservedInStrict word => s!"\x60{word}\x60 cannot be used as an identifier in strict mode"
  | evalOrArguments =>
    "'eval' and 'arguments' cannot be used as a binding identifier in strict mode"
  | awaitAsName => "\x60await\x60 cannot be used as an identifier in an async context"
  | argumentsInField => "'arguments' is only allowed in functions and class methods"
  | unaryBase => "'**' cannot be applied to unary/await expression."
  | mixedCoalesce =>
    "Nullish coalescing operator(??) requires parens when mixing with logical operators"
  | emptyParens => "Parenthesized expression cannot be empty"
  | spreadInParens => "Parenthesized expression cannot contain spread operator"
  | coverInitializer => "assignment property is invalid syntax"
  | arrowNotAllowed => "An arrow function is not allowed here"
  | newlineBeforeArrow => "Unexpected line break between arrow head and arrow"
  | notAssignable => "Cannot assign to this"
  | notReference =>
    "The left-hand side of an assignment expression must be a variable or a property access."
  | invalidTarget => "Invalid assignment target"
  | deleteName => "'delete' cannot be called on an identifier in strict mode"
  | newTargetOutside =>
    "'new.target' is only allowed in the body of a function declaration, function expression, or class."
  | superOutside => "Invalid access to super"
  | superCall => "Invalid \x60super()\x60"
  | superPrivate => "Index super with private name is not allowed"
  | chainInNew => "Constructor in/after an optional chaining is not allowed."
  | chainTemplate => "Tagged template literal is not allowed in optional chain."
  | importMisplaced => "Import is not allowed here"
  | optionalMember => "An object member cannot be declared optional"
  | awaitStar =>
    "await* has been removed from the async functions proposal. Use Promise.all() instead."
  | awaitOutside => "await isn't allowed in non-async function"
  | awaitInParameter => "\x60await\x60 expressions cannot be used in a parameter initializer."
  | yieldInParameter => "'yield' cannot be used as a parameter within generator"
  | notPattern => "Not a pattern"
  | restNotLast => "A rest parameter must be last in a parameter list"
  | restNotFinal => "Rest element must be final element"
  | restWithDefault => "A rest parameter cannot have an initializer"
  | commaAfterRest => "Trailing comma isn't permitted after a rest element"
  | restNeedsName => "\x60...\x60 must be followed by an identifier in declaration contexts"
  | patternWithoutInit => "Destructuring bindings require initializers"
  | constWithoutInit => "'const' declarations must be initialized"
  | strictInComplex =>
    "Illegal 'use strict' directive in function with non-simple parameter list."
  | getterParameter => "A \x60get\x60 accessor cannot have parameters"
  | setterParameter => "A \x60set\x60 accessor must have exactly one parameter"
  | restInSetter => "Rest pattern is not allowed in setter"
  | duplicateConstructor => "A class can only have one constructor"
  | constructorField => "Classes may not have a non-static field named 'constructor'"
  | constructorAccessor => "Class constructor can't be an accessor."
  | constructorGenerator => "Constructor can't be a generator"
  | constructorAsync => "Constructor can't be an async function"
  | staticConstructor => "'static' modifier cannot appear on a constructor declaration"
  | privateConstructor => "Classes can't have a private field named '#constructor'."
  | extendsTwice => "\x60extends\x60 clause already seen."
  | modifierHere => "Modifiers cannot appear here"
  | declarationHere => "Declaration is not allowed"
  | labelledFunctionInStrict => "Function cannot be labelled in strict mode"
  | labelledGenerator => "Generator or async function cannot be labelled"
  | duplicateLabel name => s!"Label {name} is already declared"
  | breakOutside =>
    "A 'break' statement can only be used within an enclosing iteration or switch statement"
  | breakLabel => "A 'break' statement can only jump to a label of an enclosing statement"
  | continueOutside =>
    "A 'continue' statement can only jump to a label of an enclosing iteration statement"
  | continueLabel => "Jump target cannot cross function boundary"
  | returnOutside => "Return statement is not allowed here"
  | newlineAfterThrow => "LineBreak cannot follow 'throw'"
  | withInStrict => "With statement are not allowed in strict mode"
  | multipleDefaults => "A switch block cannot have multiple defaults"
  | tooManyBindings => "Expected one variable binding"
  | initializerInHead => "Unexpected initializer in for in/of loop"
  | awaitLoop => "for await syntax is valid only for for-of statement"
  | asyncOf => "The left-hand side of a \x60for...of\x60 statement may not be \x60async\x60"
  | usingDisabled =>
    "Using declaration is not enabled. Set jsc.parser.explicitResourceManagement to true"
  | moduleItemInside => "'import', and 'export' cannot be used outside of module code"
  | stringImport name =>
    "A string literal cannot be used as an imported binding.\n- Did you mean \x60import \x7b \x22" ++
      name ++ "\x22 as foo \x7d\x60?"
  | stringExport =>
    "A string literal cannot be used as an exported binding without \x60from\x60."
  | reservedExport word => s!"\x60{word}\x60 cannot be used without \x60from\x60 clause"

end SyntaxFault

def SyntaxError.message (e : SyntaxError) : String := "syntax error: " ++ e.fault.message

/-- The message behind the line and column where the fault begins. -/
def SyntaxError.display (e : SyntaxError) (source : String) : String :=
  let range := (LineIndex.ofText source).clamped e.span
  range.start.display ++ ": " ++ e.message

end Adequacy
