/-!
Lists of texts written in a row.
-/

namespace ExprFront.Text

def commaSeparated (texts : List String) : String :=
  String.intercalate ", " texts

end ExprFront.Text
