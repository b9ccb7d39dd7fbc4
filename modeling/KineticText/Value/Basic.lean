import KineticText.Text.Basic

/-! Values that a host hands over: settings, and the values of messages. -/
namespace KineticText

inductive Value where
  | null
  | bool (b : Bool)
  | integer (n : Int)
  | number (x : Float)
  | text (s : Text)
  | list (vs : List Value)
  | record (fields : List (Text × Value))
  deriving Inhabited

end KineticText
