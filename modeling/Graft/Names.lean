import Graft.Error

/-!
# Reading names

Readers for opcodes, types and methods that say what was wrong.
-/

namespace Graft

/-- The opcode with a given mnemonic. -/
def Opcode.read (s : String) : Except Error Opcode :=
  match ofText? s.toList with
  | some op => .ok op
  | none => .error (.unknownOpcode s)

/-- The type with a given keyword. -/
def ValueType.read (s : String) : Except Error ValueType :=
  match ofText? s.toList with
  | some t => .ok t
  | none => .error (.unknownType (String.ofList (Text.trim s.toList)))

/-- The method with a given written form. -/
def MethodId.read (s : String) : Except Error MethodId :=
  match ofText? s.toList with
  | some id => .ok id
  | none => .error (.badMethodId s)

end Graft
