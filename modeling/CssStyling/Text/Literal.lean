
namespace CssStyling.Literal

def isControl (c : Char) : Bool :=
  c.toNat < 32 || c.toNat == 127

def hexDigits (n : Nat) : List Char :=
  Nat.toDigits 16 n

def escape (quote c : Char) : List Char :=
  if c = quote ∨ c = '\\' then ['\\', c]
  else if c = '\n' then ['\\', 'n']
  else if c = '\r' then ['\\', 'r']
  else if c = '\t' then ['\\', 't']
  else if c = '\x00' then ['\\', '0']
  else if isControl c then ['\\', 'u', '\x7b'] ++ hexDigits c.toNat ++ ['\x7d']
  else [c]

def ofChars (cs : List Char) : List Char :=
  '"' :: cs.flatMap (escape '"') ++ ['"']

def ofString (s : String) : List Char :=
  ofChars s.toList

def ofChar (c : Char) : List Char :=
  '\'' :: escape '\'' c ++ ['\'']

end CssStyling.Literal
