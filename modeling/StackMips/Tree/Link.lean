import StackMips.Fault

/-!
# Linking identifiers

An identifier is linked to its symbol at most once.
-/

namespace StackMips

def Ident.linkTo (id : Ident) (symbol : SymbolId) : Except Fault Ident :=
  match id.link with
  | some link => .error (.alreadyLinked id link)
  | none => .ok { id with link := some symbol }

end StackMips
