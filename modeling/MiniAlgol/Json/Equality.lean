import MiniAlgol.Json.Number

/-!
Equality of JSON values.

Numbers are equal by size, and a truth value is a number. Lists are equal item by item, objects
member by member in any order.
-/

namespace MiniAlgol.Json

mutual

def same : Json → Json → Bool
  | null, null => true
  | str a, str b => a == b
  | arr xs, arr ys => sameItems xs ys
  | obj xs, obj ys => xs.length == ys.length && sameMembers xs ys
  | a, b =>
    match a.number?, b.number? with
    | some m, some n => m == n
    | _, _ => false

def sameItems : List Json → List Json → Bool
  | [], [] => true
  | x :: xs, y :: ys => same x y && sameItems xs ys
  | _, _ => false

/-- Whether each of the first members has an equal one among the second. -/
def sameMembers : List (String × Json) → List (String × Json) → Bool
  | [], _ => true
  | (name, x) :: xs, ys =>
    (match ys.lookup name with
      | some y => same x y
      | none => false) && sameMembers xs ys

end

end MiniAlgol.Json
