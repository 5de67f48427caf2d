/-!
# Names of elements

A field becomes an element only under a name that is also a path segment, so a name has no point.
-/
namespace TaggedMarkup

def isNameChar (c : Char) : Bool := c.isAlphanum || c == '_' || c == '-'

/-- An ASCII letter or `_`, then ASCII letters, digits, `_` and `-`. -/
def isElementName (name : String) : Bool :=
  match name.toList with
  | [] => false
  | c :: rest => (c.isAlpha || c == '_') && rest.all isNameChar

end TaggedMarkup
