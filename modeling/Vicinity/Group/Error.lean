import Vicinity.Wire.Codec

/-!
# What can go wrong in a group

Failures of sending, receiving and of the operations built from them. Ranks
are named by their number, which may lie outside of the group.
-/

set_option autoImplicit false

namespace Vicinity

structure Tag where
  number : UInt32
  deriving DecidableEq, Repr

namespace Tag

def barrier : Tag := ⟨0⟩
def gather : Tag := ⟨1⟩
def counts : Tag := ⟨2⟩
def distribute : Tag := ⟨3⟩

def describe (t : Tag) : String := "Tag(" ++ toString t.number.toNat ++ ")"

end Tag

inductive CommError where
  | invalidRank (rank size : Nat)
  | disconnected (peer : Nat)
  | timeout (peer : Nat)
  | tagMismatch (peer : Nat) (expected found : Tag)
  | lengthMismatch (expected actual : Nat)
  | codec (fault : CodecError)
  | rankPanicked (rank : Nat)
  deriving DecidableEq, Repr

namespace CommError

def message : CommError → String
  | invalidRank rank size =>
    "rank " ++ toString rank ++ " is outside a group of size " ++ toString size
  | disconnected peer => "peer rank " ++ toString peer ++ " disconnected"
  | timeout peer => "timed out waiting for a message from rank " ++ toString peer
  | tagMismatch peer expected found =>
    "expected tag " ++ expected.describe ++ " from rank " ++ toString peer ++
      ", found " ++ found.describe
  | lengthMismatch expected actual =>
    "length mismatch: expected " ++ toString expected ++ " items, got " ++ toString actual
  | codec fault => "codec error: " ++ fault.message
  | rankPanicked rank => "rank " ++ toString rank ++ " panicked"

def isTimeout : CommError → Bool
  | timeout _ => true
  | _ => false

end CommError

end Vicinity
