import Graft.Text.Numeral

/-!
# Hexadecimal text of bytes
-/

namespace Graft.Text

/-- Two lower-case hexadecimal digits for each byte. -/
def hex (bytes : List UInt8) : String :=
  String.ofList (bytes.flatMap fun b => [Numeral.digitChar (b.toNat / 16), Numeral.digitChar (b.toNat % 16)])

end Graft.Text
