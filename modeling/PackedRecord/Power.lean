/-!
# Powers

Another library may bring an instance of its own for powers of integers, and prefer it.  With
`corePow` as a local instance a module means those of the core library, whatever else is
imported; a power of numerals means them everywhere.
-/

namespace PackedRecord

/-- Powers as the core library has them. -/
abbrev corePow {α : Type} [NatPow α] : Pow α Nat := instPowNat

attribute [default_instance 20000] corePow

end PackedRecord
