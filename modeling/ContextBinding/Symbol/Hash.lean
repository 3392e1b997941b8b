import ContextBinding.Symbol.Digest
import ContextBinding.Text.Quoted

/-!
# Symbol hashes

Types, fields and methods are looked up by a 64-bit hash that is put together from the digests of
the names they are made of. The digest is a parameter, so that what is said about look-up does not
rest on one digest. A method's hash depends on the order of its parameters.
-/

namespace ContextBinding

/-- The key under which a symbol is entered into a look-up table. -/
structure SymbolHash where
  word : UInt64
  deriving DecidableEq, Repr

namespace SymbolHash

instance : Ord SymbolHash := ⟨fun a b => compare a.word.toNat b.word.toNat⟩

/-- Tells the hash of a type from that of a field or method of the same text. -/
def typeSeed : UInt64 := 0x2fac10b63a6cc57c

def fieldSeed : UInt64 := 0x6b1f0e4c3d2a9587

def methodSeed : UInt64 := 0x7d3c8b4a92e15f6d

/-- Multiplies what was hashed so far ahead of each parameter. -/
def separator : UInt64 := 0x4bc94d6bd06053ad

/-- One marker for each of the leading parameter positions. -/
def positionMarkers : List UInt64 :=
  [0x9e3779b97f4a7c15, 0xbf58476d1ce4e5b9, 0x94d049bb133111eb, 0xd6e8feb86659fd93,
    0xe7037ed1a0b428db, 0xc6a4a7935bd1e995, 0x8648dbbc94d49b8d, 0xa2b48b2c69e0d657]

/-- The marker of a parameter position. Beyond the list it is counted up from the first one. -/
def positionMarker (position : Nat) : UInt64 :=
  match positionMarkers[position]? with
  | some marker => marker
  | none => 0x9e3779b97f4a7c15 + UInt64.ofNat position

/-- Hash of a type's full name. -/
def ofType (digest : String → UInt64) (name : String) : SymbolHash := ⟨typeSeed ^^^ digest name⟩

/-- Hash of a field of `owner`. -/
def ofField (digest : String → UInt64) (owner : SymbolHash) (name : String) : SymbolHash :=
  ⟨fieldSeed ^^^ Symbol.rotateLeft owner.word 7 ^^^ digest name⟩

/-- Take the parameters from `position` on into a method's hash. -/
def addParams (h : UInt64) : Nat → List SymbolHash → UInt64
  | _, [] => h
  | position, p :: rest =>
    addParams (h * separator + (positionMarker position ^^^ p.word)) (position + 1) rest

/-- Hash of a method of `owner` with parameters of the given types. -/
def ofMethod (digest : String → UInt64) (owner : SymbolHash) (name : String)
    (params : List SymbolHash) : SymbolHash :=
  ⟨addParams (methodSeed ^^^ owner.word ^^^ digest name) 0 params⟩

protected def toString (h : SymbolHash) : String := "0x" ++ Text.hexWord h.word

instance : ToString SymbolHash := ⟨SymbolHash.toString⟩

/-- The hash with the name of what it is. -/
def describe (h : SymbolHash) : String := s!"SymbolHash({h})"

end SymbolHash

end ContextBinding
