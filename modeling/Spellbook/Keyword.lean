/-!
# Keywords

The words that cannot name a rune.
-/

namespace Spellbook

/-- The words of the language. -/
def keywords : List String :=
  ["rune", "transmute", "sealed", "seal", "int", "float", "string", "bool", "foretell", "shift",
   "resolve", "mayhaps", "cycle", "lest", "AD", "infinitum", "betwixt", "shatter", "persist",
   "incantation", "cast", "proclaim", "reveal", "listen", "Truthsung", "Falsehood", "dispel",
   "measure", "tome", "grimoire", "from", "days", "of", "yore"]

/-- Whether a word belongs to the language. -/
def isKeyword (word : String) : Bool := keywords.contains word

/-- The word that opens the last branch of a choice. -/
def resolveWord : String := "resolve"

end Spellbook
