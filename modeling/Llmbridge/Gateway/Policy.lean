import Llmbridge.Gateway.Forward

/-!
# The policy seam

`gateway/include/gateway/policy.hpp`: what a policy answers of a request and of a failed
venue, and the texts it may give.
-/

namespace Llmbridge
namespace Gateway

open Rfc8259 (Byte Bytes)

/-- `kMaxDenyMessage`. -/
def kMaxDenyMessage : Nat := 256

/-- Printable ASCII that a JSON string holds as it is. -/
def plainText (m : Bytes) : Bool :=
  m.all fun c => 0x20 ≤ c ∧ c ≤ 0x7e ∧ c ≠ 0x22 ∧ c ≠ 0x5c

/-- `deny_message_ok`. -/
def denyMessageOk (m : Bytes) : Bool :=
  !m.isEmpty && m.length ≤ kMaxDenyMessage && plainText m

/-- `kMaxSubstituteModel`. -/
def kMaxSubstituteModel : Nat := 255

/-- `kMaxSubstituteFor`. -/
def kMaxSubstituteFor : Nat := 64

/-- `substitute_ok`. -/
def substituteOk (m : Bytes) (max : Nat) : Bool :=
  !m.isEmpty && m.length ≤ max && plainText m

/-- `substitution_ok`: none, or both halves of one. -/
def substitutionOk (model forModel : Bytes) : Bool :=
  (model.isEmpty && forModel.isEmpty) ||
    (substituteOk model kMaxSubstituteModel && substituteOk forModel kMaxSubstituteFor)

/-- `kMaxHedgeLegs`. -/
def kMaxHedgeLegs : Nat := 3

/-- `HedgeLeg`. -/
structure HedgeLeg where
  upstreamIndex : Int := -1
  model : Bytes := []
  serviceTier : Bytes := []
  speed : Bytes := []
  inferenceGeo : Bytes := []
  anthropicBeta : Bytes := []
  credentialHeader : Bytes := []
  deriving DecidableEq, Repr

/-- `Decision`; `hedge` is none for a null pointer. -/
structure Decision where
  allow : Bool := false
  denyStatus : Int := 401
  upstreamIndex : Int := -1
  model : Bytes := []
  serviceTier : Bytes := []
  reason : String := "policy denied"
  message : Option Bytes := none
  tag : Nat := 0
  credentialHeader : Bytes := []
  hold : Bool := false
  speed : Bytes := []
  inferenceGeo : Bytes := []
  anthropicBeta : Bytes := []
  substituteModel : Bytes := []
  substituteFor : Bytes := []
  hedge : Option (List HedgeLeg) := none
  hedgeLegs : Nat := 0
  vertexProject : Bytes := []
  deriving DecidableEq, Repr

/-- `Retry`. -/
structure Retry where
  retry : Bool := false
  upstreamIndex : Int := -1
  model : Bytes := []
  serviceTier : Bytes := []
  credentialHeader : Bytes := []
  speed : Bytes := []
  inferenceGeo : Bytes := []
  anthropicBeta : Bytes := []
  substituteModel : Bytes := []
  substituteFor : Bytes := []
  deriving DecidableEq, Repr

end Gateway
end Llmbridge
