import AlRefactor.Files.FileTree
import AlRefactor.Text.Quoted

/-!
# Paths as URIs
-/

namespace AlRefactor.Path

/-- ASCII characters that cannot stand in the path of a URI. -/
def reserved : Text := " \"#%<>?[]^\x60\x7b|\x7d"

def isEncoded (c : Char) : Bool := c.toNat < 0x20 || 0x7F ≤ c.toNat || reserved.contains c

def encodeByte (b : UInt8) : Text :=
  '%' :: [Nat.digitChar (b.toNat / 16), Nat.digitChar (b.toNat % 16)].map Char.toUpper

/-- A character as it is written in a URI; a backslash becomes a slash. -/
def encode (c : Char) : Text :=
  if c = '\\' then "/"
  else if isEncoded c then (String.utf8EncodeChar c).flatMap encodeByte
  else [c]

def uri (p : Path) : Text := "file://" ++ p.describe.flatMap encode

end AlRefactor.Path
