import Cvise.Pass

namespace Cvise
set_option autoImplicit true

variable {L T : Type}

/-- `_hash_dir_tree`: what the hash of a directory is computed from. The text of a symlink is taken
as `Path` writes it. -/
def dirTreeDigest (sha256 : Bytes → Bytes) (entries : List (RelPath × Entry)) : Bytes :=
  entries.flatMap fun e =>
    let flag (b : Bool) : UInt8 := if b then 1 else 0
    sha256 (encode (strOfPath e.1)) ++ [flag e.2.isDir, flag e.2.isFile, flag e.2.isSymlink] ++
      match e.2 with
      | .symlink text _ => sha256 (encode (strOfPath (pathOfStr text)))
      | .file data => sha256 data
      | .dir => []

def hashTestCase (sha256 : Bytes → Bytes) : TestCase → Bytes
  | .file data => sha256 data
  | .dir t => sha256 (dirTreeDigest sha256 t.entries)

/-- What the cache holds for a hash. `testCases` is not in the source: it remembers the contents of
all test cases when the item was added. -/
structure CacheItem (T : Type) where
  contents : TestCase
  testCases : T → TestCase

abbrev Cache (T : Type) := Dict Str (Dict Bytes (CacheItem T))

namespace Cache

def maxItemsPerPassGroup : Nat := 3

/-- `repr([passes])`. -/
def key (passes : List (Pass L)) : Str :=
  "[[".toList ++ List.intercalate ", ".toList (passes.map (·.repr)) ++ "]]".toList

def group (c : Cache T) (key : Str) : Dict Bytes (CacheItem T) :=
  ((c.find? (·.1 = key)).map Prod.snd).getD []

def lookup (c : Cache T) (passes : List (Pass L)) (hashBefore : Bytes) : Option (CacheItem T) :=
  ((c.group (key passes)).find? (·.1 = hashBefore)).map Prod.snd

/-- The group with the new item, after the eviction of the item that it replaces or of the oldest. -/
def addToMapping (mapping : Dict Bytes (CacheItem T)) (hashBefore : Bytes) (item : CacheItem T) :
    Dict Bytes (CacheItem T) :=
  (if mapping.any (·.1 = hashBefore) then mapping.filter (·.1 ≠ hashBefore)
    else if mapping.length ≥ maxItemsPerPassGroup then mapping.tail
    else mapping) ++ [(hashBefore, item)]

def add (c : Cache T) (passes : List (Pass L)) (hashBefore : Bytes) (item : CacheItem T) :
    Cache T :=
  (c.filter (·.1 ≠ key passes)) ++
    [(key passes, addToMapping (c.group (key passes)) hashBefore item)]

end Cache

end Cvise
