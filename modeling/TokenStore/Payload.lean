/-!
# Application values

What an application hangs on a token of its own: a value of any type. An arena keeps the value and
hands it back; it looks at the type alone. Reading a value back names the type again, and
`PayloadType.typeName` is how a message spells it.

## Main definitions

* `PayloadType`: some types of the language itself, and all others by their names.
* `Payload`: a value together with its type.
-/

namespace TokenStore

/-- A type that is known by its name only. Different types of one name differ in `id`. -/
structure NamedType where
  name : String
  id : Nat := 0
  deriving DecidableEq, Inhabited

/-- The types of application values. -/
inductive PayloadType where
  | uint
  | sint
  | bool
  | unit
  | string
  | bytes
  | named (t : NamedType)
  deriving DecidableEq, Inhabited

namespace PayloadType

/-- How messages spell the type. -/
def typeName : PayloadType → String
  | uint => "u64"
  | sint => "i64"
  | bool => "bool"
  | unit => "()"
  | string => "alloc::string::String"
  | bytes => "alloc::vec::Vec<u8>"
  | named t => t.name

end PayloadType

/-- An application value together with its type. -/
inductive Payload where
  | uint (value : UInt64)
  | sint (value : Int64)
  | bool (value : Bool)
  | unit
  | string (value : String)
  | bytes (value : List UInt8)
  /-- A value of another type, as the application encodes it. -/
  | named (t : NamedType) (code : List UInt8)
  deriving DecidableEq, Inhabited

namespace Payload

def type : Payload → PayloadType
  | uint _ => .uint
  | sint _ => .sint
  | bool _ => .bool
  | unit => .unit
  | string _ => .string
  | bytes _ => .bytes
  | named t _ => .named t

end Payload

end TokenStore
