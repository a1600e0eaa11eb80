/-!
# Primitive types

The Go types that have a C++ counterpart, and their spelling on both sides.
Several Go names share a C++ type; `byte` is `uint8` under another name.
-/

namespace Recast

/-- A type that can be written in C++. -/
inductive Primitive where
  | int8 | int16 | int32 | int64 | int
  | uint8 | uint16 | uint32 | uint64 | uint
  | bool | string | rune
  deriving Repr, DecidableEq, Inhabited

namespace Primitive

/-- The primitive that a Go type name stands for. -/
def ofName? : String → Option Primitive
  | "int8" => some .int8
  | "int16" => some .int16
  | "int32" => some .int32
  | "int64" => some .int64
  | "int" => some .int
  | "uint8" => some .uint8
  | "byte" => some .uint8
  | "uint16" => some .uint16
  | "uint32" => some .uint32
  | "uint64" => some .uint64
  | "uint" => some .uint
  | "bool" => some .bool
  | "string" => some .string
  | "rune" => some .rune
  | _ => none

/-- The C++ type. -/
def text : Primitive → String
  | .int8 => "signed char"
  | .int16 => "short int"
  | .int32 => "long int"
  | .int64 | .int => "long long int"
  | .uint8 => "unsigned char"
  | .uint16 => "unsigned short int"
  | .uint32 => "unsigned long int"
  | .uint64 | .uint => "unsigned long long int"
  | .bool => "bool"
  | .string => "QString"
  | .rune => "QChar"

end Primitive

end Recast
