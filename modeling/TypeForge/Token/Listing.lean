import TypeForge.Token.Cursor
import TypeForge.ThroughFirst

/-!
# Token listings

A listing has one line per token of a text and stops at the first error, which it
still shows.
-/

namespace TypeForge

/-- Whether reading failed at this item. -/
def Item.isError : Item → Bool
  | .ok _ => false
  | .error _ => true

/-- The line of an item in a listing. -/
def Item.render : Item → String
  | .ok token => token.render
  | .error e => "error: " ++ e.render LexError.message

/-- The items of a text through the first error. -/
def listedItems (source : String) : List Item :=
  (throughFirst Item.isError (Cursor.ofString source).items.1).1

/-- The listing of a text, one line per item. -/
def tokenListing (source : String) : String :=
  String.join ((listedItems source).map fun item => Item.render item ++ "\n")

end TypeForge
