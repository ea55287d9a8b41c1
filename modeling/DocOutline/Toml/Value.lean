/-! What a TOML file can give to a key. -/
namespace DocOutline.Toml

inductive Value where
  | string (text : String)
  | integer (n : Int)
  | float (x : Float)
  | boolean (b : Bool)
  /-- A date, a time or both, as written. -/
  | dateTime (text : String)
  | array (items : List Value)
  /-- An inline table: its keys, each with its dotted parts, and their values. -/
  | inlineTable (pairs : List (List String × Value))

end DocOutline.Toml
