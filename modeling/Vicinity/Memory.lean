/-!
# Room in memory

Counts are words of 64 bits, and no list takes `2 ^ 63` bytes or more. Whoever
sets room aside for a list that cannot exist breaks off.
-/

set_option autoImplicit false

namespace Vicinity.Memory

def hasRoom (count width : Nat) : Bool := decide (count * width < Nat.pow 2 63)

def word (count : Nat) : Nat := count % UInt64.size

end Vicinity.Memory
