import TaggedMarkup.Text.Ranges
/-!
# Blank characters

The Unicode property White_Space. A text is padded if it starts or ends with such a character.
-/
namespace TaggedMarkup.Text

/-- The characters with the property White_Space. -/
def blankRanges : Ranges where
  toList :=
    [(0x9, 0xD), (0x20, 0x20), (0x85, 0x85), (0xA0, 0xA0), (0x1680, 0x1680), (0x2000, 0x200A),
     (0x2028, 0x2029), (0x202F, 0x202F), (0x205F, 0x205F), (0x3000, 0x3000)]

def isBlank (c : Char) : Bool := blankRanges.covers c.toNat

/-- A text that trimming would shorten. -/
def isPadded (text : String) : Bool :=
  text.toList.head?.any isBlank || text.toList.getLast?.any isBlank

end TaggedMarkup.Text
