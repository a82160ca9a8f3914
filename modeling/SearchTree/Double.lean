/-
# `SearchTree.Double` — floating-point values that keep their text

A value is stored with the text it came in and is written as that text.  Two
values are compared as numbers: the two zeros are equal, and what is not a
number differs from everything, itself included.
-/
import SearchTree.Text.Shown

namespace SearchTree

/-- A floating-point number and its text. -/
structure Double where
  text : String
  number : Float

namespace Double

/-- The number that digits with one point among them stand for. -/
def ofDigits? (s : String) : Option Float :=
  match s.splitOn "." with
  | [whole, fraction] =>
      (whole ++ fraction).toNat?.map fun n => Float.ofScientific n true fraction.length
  | _ => none

/-- The magnitude that a text without sign stands for. -/
def magnitude? : String → Option Float
  | "NaN" => some (0.0 / 0.0)
  | "inf" => some (1.0 / 0.0)
  | s => ofDigits? s

def ofText? (s : String) : Option Double :=
  match s.toList with
  | '-' :: rest => (magnitude? (String.ofList rest)).map fun x => ⟨s, -x⟩
  | _ => (magnitude? s).map fun x => ⟨s, x⟩

instance : BEq Double := ⟨fun a b => a.number == b.number⟩

instance : Shown Double := ⟨fun a => .word a.text⟩

end Double

end SearchTree
