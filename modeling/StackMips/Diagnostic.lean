import StackMips.Pos

/-!
# Diagnostics

A diagnostic is a position and a message.  The passes report by code; each code has one message,
so the code of a diagnostic can be recovered from its text.
-/

namespace StackMips

/-- What can be wrong with a program. -/
inductive Code where
  | undeclared
  | multiplyDeclared
  | voidVariable
  | unknownStruct
  | fieldOfNonStruct
  | unknownField
  | noEntryPoint
  | arithmeticOperand
  | logicalOperand
  | relationalOperand
  | equalityOfVoids
  | equalityOfFunctions
  | equalityOfStructNames
  | equalityOfStructs
  | typeMismatch
  | functionAssignment
  | structNameAssignment
  | structAssignment
  | calleeNotFunction
  | argumentCount
  | argumentType
  | ifCondition
  | whileCondition
  | repeatCount
  | readFunction
  | readStructName
  | readStruct
  | writeFunction
  | writeStructName
  | writeStruct
  | writeVoid
  | valueFromVoid
  | returnType
  | missingValue
  deriving DecidableEq

namespace Code

/-- Every code, in the order of the code numbers. -/
def all : List Code :=
  [.undeclared, .multiplyDeclared, .voidVariable, .unknownStruct, .fieldOfNonStruct,
    .unknownField, .noEntryPoint, .arithmeticOperand, .logicalOperand, .relationalOperand,
    .equalityOfVoids, .equalityOfFunctions, .equalityOfStructNames, .equalityOfStructs,
    .typeMismatch, .functionAssignment, .structNameAssignment, .structAssignment,
    .calleeNotFunction, .argumentCount, .argumentType, .ifCondition, .whileCondition,
    .repeatCount, .readFunction, .readStructName, .readStruct, .writeFunction,
    .writeStructName, .writeStruct, .writeVoid, .valueFromVoid, .returnType, .missingValue]

def render : Code → String
  | .undeclared => "E200"
  | .multiplyDeclared => "E201"
  | .voidVariable => "E202"
  | .unknownStruct => "E203"
  | .fieldOfNonStruct => "E204"
  | .unknownField => "E205"
  | .noEntryPoint => "E206"
  | .arithmeticOperand => "E210"
  | .logicalOperand => "E211"
  | .relationalOperand => "E212"
  | .equalityOfVoids => "E213"
  | .equalityOfFunctions => "E214"
  | .equalityOfStructNames => "E215"
  | .equalityOfStructs => "E216"
  | .typeMismatch => "E217"
  | .functionAssignment => "E218"
  | .structNameAssignment => "E219"
  | .structAssignment => "E220"
  | .calleeNotFunction => "E221"
  | .argumentCount => "E222"
  | .argumentType => "E223"
  | .ifCondition => "E224"
  | .whileCondition => "E225"
  | .repeatCount => "E226"
  | .readFunction => "E227"
  | .readStructName => "E228"
  | .readStruct => "E229"
  | .writeFunction => "E230"
  | .writeStructName => "E231"
  | .writeStruct => "E232"
  | .writeVoid => "E233"
  | .valueFromVoid => "E234"
  | .returnType => "E235"
  | .missingValue => "E236"

def message : Code → String
  | .undeclared => "Undeclared identifier"
  | .multiplyDeclared => "Multiply declared identifier"
  | .voidVariable => "Non-function declared void"
  | .unknownStruct => "Invalid name of struct type"
  | .fieldOfNonStruct => "Dot-access of non-struct type"
  | .unknownField => "Invalid struct field name"
  | .noEntryPoint => "No main function"
  | .arithmeticOperand => "Arithmetic operator applied to non-numeric operand"
  | .logicalOperand => "Logical operator applied to non-bool operand"
  | .relationalOperand => "Relational operator applied to non-numeric operand"
  | .equalityOfVoids => "Equality operator applied to void functions"
  | .equalityOfFunctions => "Equality operator applied to functions"
  | .equalityOfStructNames => "Equality operator applied to struct names"
  | .equalityOfStructs => "Equality operator applied to struct variables"
  | .typeMismatch => "Type mismatch"
  | .functionAssignment => "Function assignment"
  | .structNameAssignment => "Struct name assignment"
  | .structAssignment => "Struct variable assignment"
  | .calleeNotFunction => "Attempt to call a non-function"
  | .argumentCount => "Function call with wrong number of args"
  | .argumentType => "Type of actual does not match type of formal"
  | .ifCondition => "Non-bool expression used as an if condition"
  | .whileCondition => "Non-bool expression used as a while condition"
  | .repeatCount => "Non-integer expression used as a repeat clause"
  | .readFunction => "Attempt to read a function"
  | .readStructName => "Attempt to read a struct name"
  | .readStruct => "Attempt to read a struct variable"
  | .writeFunction => "Attempt to write a function"
  | .writeStructName => "Attempt to write a struct name"
  | .writeStruct => "Attempt to write a struct variable"
  | .writeVoid => "Attempt to write void"
  | .valueFromVoid => "Return with a value in a void function"
  | .returnType => "Bad return value"
  | .missingValue => "Missing return value"

/-- The code with this message. -/
def ofMessage? (message : String) : Option Code :=
  all.find? (·.message == message)

theorem ofMessage?_message (code : Code) : ofMessage? code.message = some code := by
  cases code <;> decide

end Code

structure Diagnostic where
  pos : Pos
  message : String
  deriving DecidableEq

namespace Diagnostic

def ofCode (code : Code) (pos : Pos) : Diagnostic :=
  ⟨pos, code.message⟩

/-- The code of a diagnostic; a message that no code has gives none. -/
def code? (diagnostic : Diagnostic) : Option Code :=
  Code.ofMessage? diagnostic.message

@[simp] theorem code?_ofCode (code : Code) (pos : Pos) : (ofCode code pos).code? = some code :=
  Code.ofMessage?_message code

def render (diagnostic : Diagnostic) : String :=
  diagnostic.pos.render ++ " ***ERROR*** " ++ diagnostic.message

/-- One line for each diagnostic, in report order. -/
def renderAll (diagnostics : List Diagnostic) : String :=
  String.join (diagnostics.map fun diagnostic => diagnostic.render ++ "\n")

end Diagnostic

end StackMips
