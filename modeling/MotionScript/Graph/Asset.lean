/-!
# Assets

References to resources of the embedding application: a path, a `{guid}`, or a path with a fragment
behind `#`.
-/

namespace MotionScript

inductive AssetKind where
  | animationClip
  | avatarMask
  | object
deriving DecidableEq, Repr

def AssetKind.noun : AssetKind → String
  | animationClip => "animation clip"
  | avatarMask => "avatar mask"
  | object => "object"

/-- A resolved reference. -/
structure Asset where
  reference : String
  kind : AssetKind
deriving DecidableEq, Repr

namespace Asset

/-- The text between the braces of a reference that is nothing but braces around a text. -/
def guidOf? (reference : String) : Option String :=
  match reference.toList with
  | '{' :: rest => if rest.getLast? = some '}' then some (String.ofList rest.dropLast) else none
  | _ => none

/-- The path of a reference and the fragment behind its first `#`. -/
def splitFragment (reference : String) : String × Option String :=
  let cs := reference.toList
  (String.ofList (cs.takeWhile (· != '#')),
    match cs.dropWhile (· != '#') with
    | [] => none
    | _ :: rest => some (String.ofList rest))

def guid? (a : Asset) : Option String := guidOf? a.reference

def path (a : Asset) : String := (splitFragment a.reference).1

def fragment? (a : Asset) : Option String := (splitFragment a.reference).2

end Asset

end MotionScript
