import Std.Data.TreeSet
import WordTiles.Hex

/-!
# Piece identities

Every piece on a board has an identity of 128 bits, which it keeps while it moves and changes
its kind. The written form of an identity is that of a UUID: thirty-two hexadecimal digits in
groups of 8, 4, 4, 4 and 12, joined by hyphens. Small letters are written; any case is read,
and so are three other spellings: without hyphens, in braces, and as a URN.
-/

set_option autoImplicit false

namespace WordTiles

structure PieceId where
  bits : BitVec 128
  deriving DecidableEq

namespace PieceId

def ofNat (n : Nat) : PieceId := ⟨BitVec.ofNat 128 n⟩

def toNat (id : PieceId) : Nat := id.bits.toNat

/-- Identities are ordered by their numbers. -/
instance : Ord PieceId := ⟨fun id id' => compare id.toNat id'.toNat⟩

theorem toNat_inj {id id' : PieceId} : id.toNat = id'.toNat ↔ id = id' := by
  cases id; cases id'
  simp [toNat, BitVec.toNat_inj]

instance : Std.TransOrd PieceId where
  eq_swap := Std.OrientedOrd.eq_swap (α := Nat)
  isLE_trans := Std.TransOrd.isLE_trans (α := Nat)

instance : Std.LawfulEqOrd PieceId where
  eq_of_compare h := toNat_inj.mp (Std.LawfulEqOrd.eq_of_compare h)

/-- The sizes of the groups of digits. -/
def groups : List Nat := [8, 4, 4, 4, 12]

def cut : List Nat → List Char → List (List Char)
  | [], _ => []
  | n :: ns, cs => cs.take n :: cut ns (cs.drop n)

/-- Undoes the grouping: the digits of groups of the given sizes with one hyphen between two
groups, and nothing before, after or missing. -/
def uncut? : List Nat → List Char → Option (List Char)
  | [], cs => if cs.isEmpty then some [] else none
  | [n], cs => if cs.length = n then some cs else none
  | n :: ns, cs =>
    match cs.drop n with
    | '-' :: rest => (uncut? ns rest).map (cs.take n ++ ·)
    | _ => none

def chars (id : PieceId) : List Char :=
  ['-'].intercalate (cut groups (Hex.digits 32 id.toNat))

def text (id : PieceId) : String := String.ofList id.chars

def ofHyphenated? (cs : List Char) : Option PieceId :=
  ((uncut? groups cs).bind Hex.value?).map ofNat

/-- Reads an identity in any of its spellings. Which of them it is, the length tells. -/
def ofChars? (cs : List Char) : Option PieceId :=
  if cs.length = 32 then (Hex.value? cs).map ofNat
  else if cs.length = 36 then ofHyphenated? cs
  else if cs.length = 38 then
    if cs.head? = some '\x7b' ∧ cs.getLast? = some '\x7d' then
      ofHyphenated? (cs.drop 1).dropLast
    else none
  else if cs.length = 45 then
    if (cs.take 9).map Char.toLower = "urn:uuid:".toList then ofHyphenated? (cs.drop 9)
    else none
  else none

def ofText? (s : String) : Option PieceId := ofChars? s.toList

end PieceId

end WordTiles
