/-! JSON values. -/
namespace Mio

/-- `δ` are the numbers. -/
inductive Json (δ : Type) where
  | null
  | bool (b : Bool)
  | number (d : δ)
  | string (s : List Char)
  | array (items : List (Json δ))
  | object (members : List (List Char × Json δ))

end Mio
