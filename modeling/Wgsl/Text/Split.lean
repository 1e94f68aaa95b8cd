/-! # Cutting texts

A text cut at the first place where a character stands, or at every such place, and texts brought to
a width.
-/

namespace Wgsl.Text
set_option autoImplicit false

/-- What stands before and behind the first `c`; nothing if there is no `c`. -/
def cut? (c : Char) (s : String) : Option (String × String) :=
  match s.toList.dropWhile (· ≠ c) with
  | [] => none
  | _ :: behind => some (String.ofList (s.toList.takeWhile (· ≠ c)), String.ofList behind)

/-- The characters between the places where `c` stands. There is always at least one part. -/
def partsAt (c : Char) : List Char → List (List Char)
  | [] => [[]]
  | d :: r =>
    if d = c then [] :: partsAt c r
    else match partsAt c r with
      | [] => [[d]]
      | part :: parts => (d :: part) :: parts

/-- The parts between the places where `c` stands. -/
def split (c : Char) (s : String) : List String := (partsAt c s.toList).map String.ofList

/-- The text with spaces in front, up to a width. -/
def rightAligned (width : Nat) (s : String) : String :=
  String.ofList (List.replicate (width - s.length) ' ') ++ s

end Wgsl.Text
