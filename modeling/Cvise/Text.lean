import Mathlib.Algebra.GroupWithZero.Nat
import Mathlib.Algebra.Ring.Int.Defs
import Mathlib.Data.Char
import Mathlib.Data.List.Lex

namespace Cvise
set_option autoImplicit true

abbrev Bytes := List UInt8

instance : LawfulBEq Bytes := inferInstanceAs (LawfulBEq (List UInt8))

/-- A Python `str`, as the list of its code points. -/
abbrev Str := List Char

instance : LawfulBEq Str := inferInstanceAs (LawfulBEq (List Char))

/-- The exceptions that the modelled code raises or handles, by class. -/
inductive PyErr where
  | assertionError
  | unicodeDecodeError
  | indexError
  | keyError
  | fileNotFoundError
  | osError
  | zeroSizeError
  | passBugError
  | unknownArgumentError
  | timeoutError
  | runtimeError (message : Str)
  | other
deriving DecidableEq

/-- `bytes.decode()`, which is strict UTF-8. -/
def decode (b : Bytes) : Option Str := (String.fromUTF8? ⟨b.toArray⟩).map (·.toList)

/-- `str.encode()`. -/
def encode (s : Str) : Bytes := (String.ofList s).toUTF8.data.toList

theorem encode_append (s t : Str) : encode (s ++ t) = encode s ++ encode t := by
  simp only [encode, String.ofList_append, String.toUTF8_eq_toByteArray, String.toByteArray_append,
    ByteArray.data_append, Array.toList_append]

theorem decode_encode (s : Str) : decode (encode s) = some s := by
  have h : (⟨(encode s).toArray⟩ : ByteArray) = (String.ofList s).toByteArray := rfl
  rw [decode, h, String.fromUTF8?, dif_pos (String.ofList s).isValidUTF8]
  show some (String.ofList s).toList = some s
  rw [String.toList_ofList]

theorem encode_decode (h : decode b = some s) : encode s = b := by
  rw [decode, String.fromUTF8?] at h
  split at h
  · rw [Option.map_some, Option.some.injEq] at h
    subst h
    rw [encode, String.ofList_toList]
    rfl
  · cases h

/-- `str.isspace` of one character; the regular expression `\s` matches the same ones. -/
def isSpace (c : Char) : Bool :=
  let n := c.toNat
  (9 ≤ n && n ≤ 13) || (28 ≤ n && n ≤ 32) || n = 0x85 || n = 0xa0 || n = 0x1680 ||
    (0x2000 ≤ n && n ≤ 0x200a) || n = 0x2028 || n = 0x2029 || n = 0x202f || n = 0x205f || n = 0x3000

def rstrip (s : Str) : Str := (s.reverse.dropWhile isSpace).reverse

/-- What `\s` matches in a regular expression over bytes; `bytes.isspace` holds of the same. -/
def isSpaceByte (b : UInt8) : Bool := (9 ≤ b && b ≤ 13) || b = 32

/-- The parts of a `Path`. The empty list is `Path()`, which a relative path to itself also gives. -/
abbrev RelPath := List Str

instance : LawfulBEq RelPath := inferInstanceAs (LawfulBEq (List (List Char)))

/-- The root of an absolute path; POSIX keeps exactly two leading slashes apart from one. -/
def pathRoot : Str → RelPath
  | '/' :: '/' :: '/' :: _ => [['/']]
  | '/' :: '/' :: _ => [['/', '/']]
  | '/' :: _ => [['/']]
  | _ => []

/-- `Path(s)`: empty parts and single dots are dropped. -/
def pathOfStr (s : Str) : RelPath :=
  pathRoot s ++ (s.splitOn '/').filter fun c => c ≠ [] ∧ c ≠ ['.']

/-- `str(path)`. -/
def strOfPath : RelPath → Str
  | [] => ['.']
  | ('/' :: root) :: parts => '/' :: root ++ List.intercalate ['/'] parts
  | parts => List.intercalate ['/'] parts

/-- `Path(b.decode())`. -/
def pathOfBytes (b : Bytes) : Except PyErr RelPath :=
  match decode b with
  | some s => .ok (pathOfStr s)
  | none => .error .unicodeDecodeError

example : pathOfBytes "./a//b.h".toUTF8.data.toList = .ok [['a'], ['b', '.', 'h']] := by decide

example : pathOfBytes [0xff] = .error .unicodeDecodeError := by decide

end Cvise
