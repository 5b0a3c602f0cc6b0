import Mathlib.Tactic.Common
import Mathlib.Algebra.Order.Ring.Int

/-! C strings in arrays, and the conversions of `sscanf`. A conversion takes
the text that is left and returns its value with the text behind it. -/

namespace MeikoCs2

/-- A string that fits an array of `size` characters together with its NUL. -/
structure CString (size : Nat) where
  chars : List Char
  fits : chars.length < size
  deriving DecidableEq, Repr

/-- A string was written past the end of its array, and from there on the
program means nothing. -/
inductive Overrun where
  | overrun
  deriving DecidableEq, Repr

def store (size : Nat) (w : List Char) : Except Overrun (CString size) :=
  if h : w.length < size then .ok ⟨w, h⟩ else .error .overrun

theorem store_of_fits {size : Nat} {w : List Char} (h : w.length < size) :
    store size w = .ok ⟨w, h⟩ := dif_pos h

theorem store_of_not_fits {size : Nat} {w : List Char} (h : ¬ w.length < size) :
    store size w = .error .overrun := dif_neg h

/-- `strcasecmp` finds two strings equal when these agree. -/
def foldCase (w : List Char) : List Char := w.map Char.toLower

def isspace (c : Char) : Bool := [' ', '\t', '\n', '\x0b', '\x0c', '\r'].contains c

/-- `%s`. -/
def scanWord (cs : List Char) : Option (List Char × List Char) :=
  match (cs.dropWhile isspace).takeWhile (!isspace ·) with
  | [] => none
  | c :: w => some (c :: w, (cs.dropWhile isspace).dropWhile (!isspace ·))

theorem scanWord_ne_nil {cs w rest : List Char} (h : scanWord cs = some (w, rest)) : w ≠ [] := by
  unfold scanWord at h
  split at h
  · cases h
  · cases h
    exact List.cons_ne_nil _ _

theorem scanWord_length_le {cs w rest : List Char} (h : scanWord cs = some (w, rest)) :
    w.length ≤ cs.length := by
  unfold scanWord at h
  split at h
  · cases h
  · rename_i c v hw
    cases h
    rw [← hw]
    exact Nat.le_trans (List.takeWhile_prefix _).length_le (List.dropWhile_suffix _).length_le

def digitVal (base : Nat) (c : Char) : Option Nat :=
  let d := if c.isDigit then c.toNat - '0'.toNat
    else if c.isAlpha then c.toLower.toNat - 'a'.toNat + 10
    else base
  if d < base then some d else none

def digitsFrom (base n : Nat) : List Char → Nat × List Char
  | [] => (n, [])
  | c :: cs =>
    match digitVal base c with
    | some d => digitsFrom base (n * base + d) cs
    | none => (n, c :: cs)

/-- The longest run of digits, of which there has to be one. -/
def scanDigits (base : Nat) : List Char → Option (Nat × List Char)
  | [] => none
  | c :: cs => (digitVal base c).map fun d => digitsFrom base d cs

def scanSign : List Char → Bool × List Char
  | '-' :: cs => (true, cs)
  | '+' :: cs => (false, cs)
  | cs => (false, cs)

/-- Base 16 lets a number start with 0x, behind which a digit has to come. -/
def skipHexPrefix : List Char → List Char
  | '0' :: 'x' :: cs => cs
  | '0' :: 'X' :: cs => cs
  | cs => cs

/-- The value `strtoul` makes of a sign and a number: the greatest one when the
number is out of range. -/
def strtoul (w : Nat) (neg : Bool) (n : Nat) : BitVec w :=
  if 2 ^ w ≤ n then BitVec.allOnes w else if neg then -BitVec.ofNat w n else BitVec.ofNat w n

/-- `%x`, into an object of `w` bits. -/
def scanHex (w : Nat) (cs : List Char) : Option (BitVec w × List Char) :=
  let (neg, cs) := scanSign (cs.dropWhile isspace)
  (scanDigits 16 (skipHexPrefix cs)).map fun (n, rest) => (strtoul w neg n, rest)

end MeikoCs2
