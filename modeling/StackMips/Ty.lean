/-!
# Semantic types

The types that symbols and expressions have.  `error` is the type of an expression that has
already been reported; it agrees with no type, itself included, so a rule that looks for a
mismatch has to set it aside first.
-/

namespace StackMips

inductive Ty where
  | int
  | bool
  | void
  | string
  /-- An instance of the named struct. -/
  | struct (name : String)
  /-- The name of a struct definition, used where a variable was expected. -/
  | structDef (name : String)
  | function (params : List Ty) (result : Ty)
  | error

namespace Ty

def isInt : Ty → Bool
  | .int => true
  | _ => false

def isBool : Ty → Bool
  | .bool => true
  | _ => false

def isVoid : Ty → Bool
  | .void => true
  | _ => false

def isString : Ty → Bool
  | .string => true
  | _ => false

def isFunction : Ty → Bool
  | .function _ _ => true
  | _ => false

def isStruct : Ty → Bool
  | .struct _ => true
  | _ => false

def isStructDef : Ty → Bool
  | .structDef _ => true
  | _ => false

def isError : Ty → Bool
  | .error => true
  | _ => false

/-- The result type of a function type. -/
def result? : Ty → Option Ty
  | .function _ result => some result
  | _ => none

/-- The parameter types of a function type. -/
def params? : Ty → Option (List Ty)
  | .function params _ => some params
  | _ => none

mutual

/-- Two types agree when they have the same shape and names and `error` occurs in neither. -/
def agrees : Ty → Ty → Bool
  | .int, .int => true
  | .bool, .bool => true
  | .void, .void => true
  | .string, .string => true
  | .struct a, .struct b => a == b
  | .structDef a, .structDef b => a == b
  | .function params result, .function params' result' =>
    agreeAll params params' && agrees result result'
  | _, _ => false

/-- Lists of types agree position by position. -/
def agreeAll : List Ty → List Ty → Bool
  | [], [] => true
  | a :: as, b :: bs => agrees a b && agreeAll as bs
  | _, _ => false

end

mutual

/-- The text of a type; a function type lists its parameters before an arrow. -/
def render : Ty → String
  | .int => "int"
  | .bool => "bool"
  | .void => "void"
  | .string => "String"
  | .struct name => name
  | .structDef _ => "struct"
  | .function params result => String.intercalate "," (renderAll params) ++ "->" ++ result.render
  | .error => "error"

def renderAll : List Ty → List String
  | [] => []
  | ty :: tys => ty.render :: renderAll tys

end

end Ty

end StackMips
