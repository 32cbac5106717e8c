import Cvise.Text
import Mathlib.Data.List.Sort
import Mathlib.Data.Prod.Lex

namespace Cvise
set_option autoImplicit true

/-- A single patch inside a hint. Without a property that says otherwise it deletes its chunk. -/
structure Patch where
  path : Option Nat := none
  left : Option Nat := none
  right : Option Nat := none
  operation : Option Nat := none
  value : Option Nat := none
deriving DecidableEq

/-- A property in a comparison key: an absent one compares as `-1`. -/
def keyOf : Option Nat → Int
  | none => -1
  | some n => n

def Patch.comparisonKey (p : Patch) : List Int :=
  [keyOf p.path, keyOf p.left, keyOf p.right, keyOf p.operation, keyOf p.value]

structure Hint where
  type : Option Nat := none
  patches : List Patch := []
  extra : Option Nat := none
deriving DecidableEq

def Hint.comparisonKey (h : Hint) : Int ×ₗ List (List Int) ×ₗ Int :=
  toLex (keyOf h.type, toLex (h.patches.map Patch.comparisonKey, keyOf h.extra))

structure HintBundle where
  hints : List Hint
  passName : Str := []
  passUserVisibleName : Str := []
  /-- Strings that hints can refer to. -/
  vocabulary : List Bytes := []
deriving DecidableEq

namespace HintBundle

/-- `bundle.vocabulary[i]`. -/
def word (b : HintBundle) (i : Nat) : Except PyErr Bytes :=
  match b.vocabulary[i]? with
  | some s => .ok s
  | none => .error .indexError

/-- The path that a patch is applied to: `Path()` when the patch names none. -/
def pathOf (b : HintBundle) (p : Patch) : Except PyErr RelPath :=
  match p.path with
  | none => .ok []
  | some i => b.word i >>= pathOfBytes

/-- The type that `group_hints_by_type` files a hint under. -/
def typeOf (b : HintBundle) (h : Hint) : Except PyErr Bytes :=
  match h.type with
  | none => .ok []
  | some i => b.word i

end HintBundle

/-- `is_special_hint_type`: the type starts with an at sign. -/
def isSpecialHintType : Bytes → Bool
  | 0x40 :: _ => true
  | _ => false

/-- A dictionary in insertion order. -/
abbrev Dict (κ ν : Type) := List (κ × ν)

/-- `group_hints_by_type`, one hint at a time. -/
def addToGroup (b : HintBundle) (grouped : Dict Bytes HintBundle) (h : Hint) :
    Except PyErr (Dict Bytes HintBundle) := do
  let type ← b.typeOf h
  if grouped.any (·.1 = type) then
    return grouped.map fun g =>
      if g.1 = type then (g.1, { g.2 with hints := g.2.hints ++ [h] }) else g
  else
    return grouped ++ [(type, { b with hints := [h] })]

/-- Splits the bundle into one per hint type, types in the order they first occur. -/
def groupHintsByType (b : HintBundle) : Except PyErr (Dict Bytes HintBundle) :=
  b.hints.foldlM (addToGroup b) []

/-- `sort_hints`: the patches of each hint, and then the hints. -/
def sortHints (b : HintBundle) : HintBundle :=
  let sortPatches (h : Hint) : Hint :=
    { h with patches := h.patches.insertionSort fun p q => p.comparisonKey ≤ q.comparisonKey }
  { b with hints :=
      (b.hints.map sortPatches).insertionSort fun g h => g.comparisonKey ≤ h.comparisonKey }

example : (sortHints { hints := [{ patches := [{ left := some 4 }, { left := some 2 }] }, {}] }).hints =
    [{}, { patches := [{ left := some 2 }, { left := some 4 }] }] := by decide

end Cvise
