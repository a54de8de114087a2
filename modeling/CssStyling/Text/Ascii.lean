
namespace CssStyling.Ascii

def isSpace (c : Char) : Bool :=
  c == ' ' || c == '\t' || c == '\n' || c == '\r' || c == '\x0c'

def lower (s : String) : String :=
  String.ofList (s.toList.map Char.toLower)

def sameIgnoringCase (s t : String) : Bool :=
  lower s == lower t

def splitStep (c : Char) : List Char × List (List Char) → List Char × List (List Char)
  | ([], ws) => if isSpace c then ([], ws) else ([c], ws)
  | (w, ws) => if isSpace c then ([], w :: ws) else (c :: w, ws)

def wordChars (cs : List Char) : List (List Char) :=
  match cs.foldr splitStep ([], []) with
  | ([], ws) => ws
  | (w, ws) => w :: ws

def words (s : String) : List String :=
  (wordChars s.toList).map String.ofList

end CssStyling.Ascii
