import Llmbridge.Http1.Lines
import Llmbridge.Rfc8259.Places

/-!
# Venues

`provider/dialect.hpp` and `provider/registry.cpp`: how a venue takes a credential,
and the target a Gemini client's request goes to.
-/

namespace Llmbridge
namespace Provider

open Rfc8259 (Byte Bytes ascii)
open Http1 (find)

/-- `Venue`. -/
inductive Venue
  | openAi
  | anthropic
  | gemini
  | cohere
  | bedrock
  | azure
  | vertex
  deriving DecidableEq, Repr

/-- `Wire`. -/
inductive Wire
  | openAi
  | anthropic
  | gemini
  | cohere
  deriving DecidableEq, Repr

/-- `Auth`. -/
inductive Auth
  | forward
  | xApiKey
  | googApiKey
  | bearer
  | apiKey
  | sigV4
  deriving DecidableEq, Repr

/-- `VenueSpec`, without its translators and finish reasons. -/
structure VenueSpec where
  wire : Wire
  auth : Auth
  streams : Bool
  sameWireForwards : Bool
  deriving DecidableEq, Repr

/-- `spec`. -/
def spec : Venue → VenueSpec
  | .openAi => ⟨.openAi, .forward, true, true⟩
  | .anthropic => ⟨.anthropic, .xApiKey, true, true⟩
  | .gemini => ⟨.gemini, .googApiKey, false, true⟩
  | .cohere => ⟨.cohere, .bearer, false, true⟩
  | .bedrock => ⟨.anthropic, .sigV4, false, false⟩
  | .azure => ⟨.openAi, .apiKey, true, false⟩
  | .vertex => ⟨.gemini, .googApiKey, false, true⟩

/-- A lower-case letter. -/
def isLower (c : Byte) : Bool :=
  0x61 ≤ c ∧ c ≤ 0x7a

/-- An upper-case letter. -/
def isUpper (c : Byte) : Bool :=
  0x41 ≤ c ∧ c ≤ 0x5a

/-- A decimal digit. -/
def isDigit (c : Byte) : Bool :=
  0x30 ≤ c ∧ c ≤ 0x39

/-- `path_model_ok`. -/
def pathModelOk (m : Bytes) : Bool :=
  !m.isEmpty && m.length ≤ 255 &&
    m.all fun c => isUpper c || isLower c || isDigit c || c == 0x2e || c == 0x5f || c == 0x2d

/-- `kMaxGoogleProject`. -/
def kMaxGoogleProject : Nat := 30

/-- `vertex_project_ok`. -/
def vertexProjectOk (p : Bytes) : Bool :=
  if p.length < 6 ∨ kMaxGoogleProject < p.length then false
  else
    let number := p.head?.any isDigit
    if number = false ∧ p.head?.any isLower = false then false
    else if p.getLast? = some 0x2d then false
    else p.all fun c => if number then isDigit c else isDigit c || isLower c || c == 0x2d

/-- `rfind`: where `needle` last occurs. -/
def rfind (needle : Bytes) : Bytes → Option Nat
  | [] => if needle.isEmpty then some 0 else none
  | c :: rest =>
      match rfind needle rest with
      | some n => some (n + 1)
      | none => if needle.isPrefixOf (c :: rest) then some 0 else none

/-- `target.substr(0, target.find('?'))`. -/
def pathOf (target : Bytes) : Bytes :=
  target.takeWhile fun c => c != 0x3f

/-- `PathModel`. -/
structure PathModel where
  «at» : Option Nat := none
  model : Bytes := []
  deriving DecidableEq, Repr

/-- `gemini_path_model`. -/
def geminiPathModel (target : Bytes) : PathModel :=
  let path := pathOf target
  match rfind [0x3a] path with
  | none => {}
  | some colon =>
      match rfind (ascii "/models/") (path.take colon) with
      | none => {}
      | some m => { «at» := some (m + 8), model := Rfc8259.substr path (m + 8) (colon - (m + 8)) }

/-- `gemini_vertex_scoped`. -/
def geminiVertexScoped (target : Bytes) : Bool :=
  let path := pathOf target
  (find (ascii "/projects/") path).isSome && (find (ascii "/locations/") path).isSome

/-- `gemini_forward_target`: none where it answers false. -/
def geminiForwardTarget (target model : Bytes) (venue : Venue) (project : Bytes) :
    Option Bytes :=
  if project ≠ [] ∧ vertexProjectOk project = false then none
  else
    let pm := geminiPathModel target
    match pm.at with
    | none => if model ≠ [] then none else some target
    | some «at» =>
        let publisherPath := ascii "/publishers/google/models/"
        let head := target.take «at»
        let publisher := publisherPath.isSuffixOf head
        let front :=
          if venue = .vertex ∧ project ≠ [] ∧ geminiVertexScoped target = false then
            let version :=
              if publisher then head.take (head.length - publisherPath.length) else ascii "/v1"
            version ++ ascii "/projects/" ++ project ++ ascii "/locations/global" ++ publisherPath
          else if venue = .vertex ∧ publisher = false then
            ascii "/v1/publishers/google/models/"
          else if venue = .gemini ∧ publisher then ascii "/v1beta/models/"
          else head
        some (front ++ (if model = [] then pm.model else model) ++
          target.drop («at» + pm.model.length))

end Provider
end Llmbridge
