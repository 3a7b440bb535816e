/-!
# JSON values

The JSON values that this library writes and reads. Its numbers are natural numbers, and objects
keep the order of their members and may name one twice. Whatever else a JSON text can hold, a
number with a sign, a fraction or an exponent, or a text with half of a surrogate pair, is well
formed but of no use here: it is read as `foreign`.
-/

namespace TreeImage

inductive Json where
  | null
  | bool (value : Bool)
  | number (value : Nat)
  | string (value : String)
  | array (items : List Json)
  | object (members : List (String × Json))
  | foreign
  deriving Repr

end TreeImage
