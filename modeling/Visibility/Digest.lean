import Visibility.Text.Utf8

namespace Visibility.Digest

/-- The number that the hash starts with. -/
def offset : UInt64 := 0xcbf29ce484222325

/-- The number that the state is multiplied by after each byte. -/
def prime : UInt64 := 0x100000001b3

/-- Takes one byte into the state of the hash. -/
def absorb (h : UInt64) (b : UInt8) : UInt64 := (h ^^^ b.toUInt64) * prime

/-- The hash of a string of bytes. -/
def fnv (bytes : List UInt8) : UInt64 := bytes.foldl absorb offset

/-- The bytes of a list of fields. A zero byte ends each, so that fields cannot run together. -/
def fieldBytes (fields : List String) : List UInt8 :=
  fields.flatMap fun f => Text.utf8 f ++ [0]

/-- The 16 lower-case hexadecimal digits of a word. -/
def hex (h : UInt64) : String :=
  String.ofList ((List.range 16).reverse.map fun i => Nat.digitChar (h.toNat / Nat.pow 16 i % 16))

/-- The digest of a list of fields. -/
def ofFields (fields : List String) : String := hex (fnv (fieldBytes fields))

/-- The digest of a namespace, from those of the cluster-scoped objects and of its own. -/
def combine (cluster inNamespace : String) : String := ofFields [cluster, inNamespace]

end Visibility.Digest
