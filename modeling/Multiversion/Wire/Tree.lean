/- Trees: the self-describing form in which values are stored and sent.

   A structure is a record of its fields, or a list of them in their order. A choice is the name of
   the alternative, or a record of one field if the alternative carries a value. -/
namespace Multiversion.Wire

inductive Tree
  | null
  | bool (b : Bool)
  | int (n : Int)
  | text (s : String)
  | list (items : List Tree)
  | record (fields : List (String × Tree))
  /-- A number that is not an integer; no value is stored as one. -/
  | fraction
deriving Inhabited

namespace Tree

/-- An integer within bounds, ends included. -/
def between? (lo hi : Int) : Tree → Option Int
  | int n => if lo ≤ n ∧ n ≤ hi then some n else none
  | _ => none

def int64? (t : Tree) : Option Int64 :=
  (t.between? (-9223372036854775808) 9223372036854775807).map Int64.ofInt

def int32? (t : Tree) : Option Int32 := (t.between? (-2147483648) 2147483647).map Int32.ofInt

/-- A natural number of 64 bits. -/
def nat64? (t : Tree) : Option Nat := (t.between? 0 18446744073709551615).map Int.toNat

/-- A natural number of 32 bits. -/
def nat32? (t : Tree) : Option Nat := (t.between? 0 4294967295).map Int.toNat

def bool? : Tree → Option Bool
  | bool b => some b
  | _ => none

def text? : Tree → Option String
  | text s => some s
  | _ => none

/-- A list of which every item can be read. -/
def listOf? {α : Type} (item? : Tree → Option α) : Tree → Option (List α)
  | list items => items.mapM item?
  | _ => none

/-- A value that may be null. -/
def optional? {α : Type} (item? : Tree → Option α) : Tree → Option (Option α)
  | null => some none
  | t => (item? t).map some

/-- The value of a field that may be missing. -/
def orDefault? {α : Type} (default : α) (item? : Tree → Option α) : Option Tree → Option α
  | none => some default
  | some t => item? t

/-- The first field with a name. -/
def field? (name : String) (fields : List (String × Tree)) : Option Tree :=
  (fields.find? (·.1 = name)).map (·.2)

/-- The named fields of a structure, in the order of the names; none for those that are missing.
Other fields of a record are left out of account, a list has no more items than there are names. -/
def fields? (names : List String) : Tree → Option (List (Option Tree))
  | record fields => some (names.map (field? · fields))
  | list items =>
    if items.length ≤ names.length then
      some (items.map some ++ List.replicate (names.length - items.length) none)
    else none
  | _ => none

/-- The name of the chosen alternative, and the value it carries. -/
def choice? : Tree → Option (String × Option Tree)
  | text name => some (name, none)
  | record [(name, t)] => some (name, some t)
  | _ => none

/-- The name of an alternative that carries no value. -/
def plainChoice? (t : Tree) : Option String :=
  match t.choice? with
  | some (name, none) => some name
  | some (name, some null) => some name
  | _ => none

/-- The name and the value of an alternative that carries one. -/
def taggedChoice? (t : Tree) : Option (String × Tree) :=
  match t.choice? with
  | some (name, some t) => some (name, t)
  | _ => none

end Tree
end Multiversion.Wire
