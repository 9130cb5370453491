import MotionScript.Config.Toml.Scalar
import MotionScript.Config.Toml.Table
/-!
# Values of TOML documents

Words, strings, arrays and inline tables. Arrays and inline tables may go over several lines, and
their last item may have a comma behind it.
-/

namespace MotionScript.Toml

/-- How deep arrays and inline tables may be nested. -/
def nestingLimit : Nat := 80

mutual
/-- A value that opens at most `depth` arrays and inline tables inside each other. -/
def value (depth : Nat) (cs : List Char) : Nat → Option (Setting × List Char)
  | 0 => none
  | fuel + 1 =>
    match cs, depth with
    | '[' :: _, 0 => none
    | '\x7b' :: _, 0 => none
    | '[' :: rest, depth + 1 =>
      (items depth rest fuel).map fun (items, rest) => (.list items, rest)
    | '\x7b' :: rest, depth + 1 =>
      (entries depth [] rest fuel).map fun (t, rest) => (.table t.settings, rest)
    | '"' :: _, _ => (string cs).map fun (text, rest) => (.text text, rest)
    | '\x27' :: _, _ => (string cs).map fun (text, rest) => (.text text, rest)
    | _, _ => word cs

/-- The rest of an array. -/
def items (depth : Nat) (cs : List Char) : Nat → Option (List Setting × List Char)
  | 0 => none
  | fuel + 1 =>
    match skipSpace cs with
    | ']' :: rest => some ([], rest)
    | cs => do
      let (item, rest) ← value depth cs fuel
      match skipSpace rest with
      | ']' :: rest => return ([item], rest)
      | ',' :: rest =>
        let (more, rest) ← items depth rest fuel
        return (item :: more, rest)
      | _ => none

/-- The rest of an inline table behind the entries `before`. -/
def entries (depth : Nat) (before : Entries) (cs : List Char) :
    Nat → Option (Entries × List Char)
  | 0 => none
  | fuel + 1 =>
    match skipSpace cs with
    | '\x7d' :: rest => some (before, rest)
    | cs => do
      let (names, rest) ← key cs cs.length
      let (setting, rest) ← value depth (skipSpace (← expect '=' (skipSpace rest))) fuel
      let now ← before.insert names setting
      match skipSpace rest with
      | '\x7d' :: rest => return (now, rest)
      | ',' :: rest => entries depth now rest fuel
      | _ => none
end

end MotionScript.Toml
