import Llmbridge.Rfc3986.Paths
import Llmbridge.Provider.GeminiTarget
import Llmbridge.Provider.StringEscapes

/-!
# The model in a venue's path

`provider/src/registry.cpp`: the builders of a translated request's target.  The model
is the raw text of a JSON string, decoded and percent-encoded into one segment.
-/

namespace Llmbridge
namespace Provider

open Rfc8259 (Byte Bytes ascii IsChars Means decode)
open Rfc3986 (PathText PlainSegment joined percentDecode percentEncode removeDotSegments)

/-! ## The builders -/

/-- `kHex`. -/
def kHex : Bytes :=
  ascii "0123456789ABCDEF"

/-- One byte of a segment, as `append_segment` writes it. -/
def segmentByte (c : Byte) : Bytes :=
  if isUpper c || isLower c || isDigit c || c == 0x2d || c == 0x5f || c == 0x2e || c == 0x7e then
    [c]
  else [0x25, kHex.getD (c >>> 4).toNat 0, kHex.getD (c &&& 15).toNat 0]

/-- `append_segment`: none where it answers false. -/
def appendSegment (path model : Bytes) : Option Bytes :=
  let model := if (0x5c : Byte) ∈ model then Json.unescapeString model else model
  if model.isEmpty then none else some (path ++ model.flatMap segmentByte)

/-- `if (model.substr(0, 7) == "models/") model.remove_prefix(7);` -/
def lessModels (model : Bytes) : Bytes :=
  if (ascii "models/").isPrefixOf model then model.drop 7 else model

/-- A Google path up to the model, the model and the method. -/
def googleTarget (front model path : Bytes) : Option Bytes :=
  (appendSegment (path ++ front) (lessModels model)).map (· ++ ascii ":generateContent")

/-- `gemini_target`. -/
def geminiTarget (model path : Bytes) : Option Bytes :=
  googleTarget (ascii "/v1beta/models/") model path

/-- `vertex_target`. -/
def vertexTarget (model path : Bytes) : Option Bytes :=
  googleTarget (ascii "/v1/publishers/google/models/") model path

/-- `vertex_project_target`. -/
def vertexProjectTarget (project model path : Bytes) : Option Bytes :=
  if vertexProjectOk project = false then none
  else
    googleTarget
      (ascii "/v1/projects/" ++ project ++ ascii "/locations/global/publishers/google/models/")
      model path

/-- `bedrock_target`. -/
def bedrockTarget (model path : Bytes) : Option Bytes :=
  (appendSegment (path ++ ascii "/model/") model).map (· ++ ascii "/invoke")

/-- The builders that name a model in the path. -/
inductive TargetBuilder
  | gemini
  | vertex
  | vertexProject (project : Bytes)
  | bedrock
  deriving DecidableEq, Repr

namespace TargetBuilder

/-- What a builder appends to `path`: none where it answers false. -/
def write : TargetBuilder → (model path : Bytes) → Option Bytes
  | gemini => geminiTarget
  | vertex => vertexTarget
  | vertexProject project => vertexProjectTarget project
  | bedrock => bedrockTarget

/-- The segments ahead of the model's. -/
def before : TargetBuilder → List Bytes
  | gemini => [ascii "v1beta", ascii "models"]
  | vertex => [ascii "v1", ascii "publishers", ascii "google", ascii "models"]
  | vertexProject project =>
      [ascii "v1", ascii "projects", project, ascii "locations", ascii "global",
        ascii "publishers", ascii "google", ascii "models"]
  | bedrock => [ascii "model"]

/-- The method that ends the model's segment. -/
def method : TargetBuilder → Bytes
  | bedrock => []
  | _ => ascii ":generateContent"

/-- The segments behind the model's. -/
def after : TargetBuilder → List Bytes
  | bedrock => [ascii "invoke"]
  | _ => []

/-- The model that the client's text names, less Google's own prefix. -/
def named (b : TargetBuilder) (raw : Bytes) : Bytes :=
  if b = bedrock then Json.unescapeString raw else lessModels (Json.unescapeString raw)

/-- The model that the builder writes: it takes the prefix off the raw text. -/
def written (b : TargetBuilder) (raw : Bytes) : Bytes :=
  Json.unescapeString (if b = bedrock then raw else lessModels raw)

/-- The builder has a project it can write, or needs none. -/
def ProjectOk : TargetBuilder → Prop
  | vertexProject project => vertexProjectOk project = true
  | _ => True

end TargetBuilder

/-- The target keeps the model in one segment: its bytes are legal, resolving it does
not change it, and the builder's segments stand around the model's. -/
structure OneSegment (b : TargetBuilder) (raw target : Bytes) : Prop where
  legal : PathText target
  resolved : removeDotSegments target = target
  segment : ∃ seg, target = joined (b.before ++ [seg] ++ b.after) ∧ (0x2f : Byte) ∉ seg ∧
    percentDecode seg = b.named raw ++ b.method

/-! ## What the builders write -/

/-- The source's tests and table are those of a percent-encoded segment. -/
theorem segmentByte_eq (c : Byte) : segmentByte c = Rfc3986.encodeByte c := by
  have small := c.toNat_lt
  have same : ∀ n < 256, segmentByte (UInt8.ofNat n) = Rfc3986.encodeByte (UInt8.ofNat n) := by
    decide +kernel
  have met := same c.toNat small
  rwa [UInt8.ofNat_toNat] at met

theorem unescapeString_plain {raw : Bytes} (plain : (0x5c : Byte) ∉ raw) :
    Json.unescapeString raw = raw := by
  have run := Json.unescapeFrom_run (fun c member same => plain (same ▸ member)) []
  rw [List.append_nil] at run
  exact run.trans (List.append_nil raw)

theorem appendSegment_eq (path model : Bytes) :
    appendSegment path model =
      if Json.unescapeString model = [] then none
      else some (path ++ percentEncode (Json.unescapeString model)) := by
  have decoded : (if (0x5c : Byte) ∈ model then Json.unescapeString model else model) =
      Json.unescapeString model := by
    split
    · rfl
    · next plain => exact (unescapeString_plain plain).symm
  have bytes : ∀ text : Bytes, text.flatMap segmentByte = percentEncode text := fun text =>
    congrArg (text.flatMap ·) (funext segmentByte_eq)
  unfold appendSegment
  dsimp only
  rw [decoded, bytes]
  simp only [List.isEmpty_iff]

/-- The target of a builder, for a model that is not empty. -/
theorem TargetBuilder.write_eq (b : TargetBuilder) (raw path : Bytes) (projectOk : b.ProjectOk) :
    b.write raw path =
      if b.written raw = [] then none
      else some (path ++
        joined (b.before ++ [percentEncode (b.written raw) ++ b.method] ++ b.after)) := by
  have google : ∀ front : Bytes, b ≠ .bedrock → b.after = [] → b.method = ascii ":generateContent" →
      joined b.before ++ [0x2f] = front →
      googleTarget front raw path =
        if b.written raw = [] then none
        else some (path ++
          joined (b.before ++ [percentEncode (b.written raw) ++ b.method] ++ b.after)) := by
    rintro _ other noAfter suffix rfl
    unfold googleTarget
    rw [appendSegment_eq, written, if_neg other, noAfter, suffix]
    split
    · rfl
    · simp only [Option.map_some, Option.some.injEq, Rfc3986.joined_append,
        Rfc3986.joined_cons, List.append_assoc, List.cons_append, List.nil_append,
        List.append_nil]
      rfl
  cases b with
  | gemini => exact google _ (by decide) rfl rfl rfl
  | vertex => exact google _ (by decide) rfl rfl rfl
  | vertexProject project =>
      have ok : vertexProjectOk project = true := projectOk
      change vertexProjectTarget project raw path = _
      rw [vertexProjectTarget, if_neg (by rw [ok]; decide)]
      apply google _ (by simp) rfl rfl
      simp only [TargetBuilder.before, Rfc3986.joined_cons, List.append_assoc]
      rfl
  | bedrock =>
      change bedrockTarget raw path = _
      unfold bedrockTarget
      rw [appendSegment_eq, written, if_pos rfl]
      split
      · rfl
      · simp only [Option.map_some, Option.some.injEq, Rfc3986.joined_append,
          Rfc3986.joined_cons, method, List.append_assoc, List.cons_append, List.nil_append,
          List.append_nil]
        rfl

/-! ## One segment -/

theorem project_plain {project : Bytes} (ok : vertexProjectOk project = true) :
    PlainSegment project ∧ PathText project := by
  obtain ⟨sized, chars⟩ := vertexProject_chars ok
  rw [List.all_eq_true] at chars
  refine ⟨⟨fun slash => absurd (chars _ slash) (by decide), ?_, ?_⟩, ?_⟩
  · rintro rfl
    exact absurd sized (by decide)
  · rintro rfl
    exact absurd sized (by decide)
  · have legal : ∀ n < 256, (isDigit (UInt8.ofNat n) || isLower (UInt8.ofNat n) ||
        UInt8.ofNat n == 0x2d) = true → Rfc3986.isPathByte (UInt8.ofNat n) = true := by
      decide +kernel
    apply PathText.of_bytes
    apply List.all_eq_true.mpr
    intro c member
    have met := legal c.toNat c.toNat_lt
    rw [UInt8.ofNat_toNat] at met
    exact met (chars c member)

/-- The fixed segments of a builder stay in their place and are legal. -/
theorem TargetBuilder.fixed_plain {b : TargetBuilder} (projectOk : b.ProjectOk) :
    ∀ s ∈ b.before ++ b.after, PlainSegment s ∧ PathText s := by
  have word : ∀ s ∈ [ascii "v1beta", ascii "models", ascii "v1", ascii "publishers",
      ascii "google", ascii "projects", ascii "locations", ascii "global", ascii "model",
      ascii "invoke"], PlainSegment s ∧ PathText s := by
    have plain : ∀ s ∈ [ascii "v1beta", ascii "models", ascii "v1", ascii "publishers",
        ascii "google", ascii "projects", ascii "locations", ascii "global", ascii "model",
        ascii "invoke"], (0x2f : Byte) ∉ s ∧ s ≠ ascii "." ∧ s ≠ ascii ".." ∧
          s.all Rfc3986.isPathByte = true := by
      decide
    intro s member
    obtain ⟨noSlash, notDot, notDots, legal⟩ := plain s member
    exact ⟨⟨noSlash, notDot, notDots⟩, PathText.of_bytes legal⟩
  intro s member
  cases b with
  | gemini =>
      simp only [before, after, List.append_nil, List.mem_cons, List.not_mem_nil,
        or_false] at member
      rcases member with rfl | rfl <;> exact word _ (by decide)
  | vertex =>
      simp only [before, after, List.append_nil, List.mem_cons, List.not_mem_nil,
        or_false] at member
      rcases member with rfl | rfl | rfl | rfl <;> exact word _ (by decide)
  | vertexProject project =>
      simp only [before, after, List.append_nil, List.mem_cons, List.not_mem_nil,
        or_false] at member
      rcases member with rfl | rfl | rfl | rfl | rfl | rfl | rfl | rfl
      · exact word _ (by decide)
      · exact word _ (by decide)
      · exact project_plain projectOk
      all_goals exact word _ (by decide)
  | bedrock =>
      simp only [before, after, List.cons_append, List.nil_append, List.mem_cons,
        List.not_mem_nil, or_false] at member
      rcases member with rfl | rfl <;> exact word _ (by decide)

/-- The model's segment, its method on it. -/
theorem TargetBuilder.modelSegment_ok (b : TargetBuilder) (model : Bytes) :
    (0x2f : Byte) ∉ percentEncode model ++ b.method ∧
      PathText (percentEncode model ++ b.method) ∧
      percentDecode (percentEncode model ++ b.method) = model ++ b.method := by
  have method : (0x2f : Byte) ∉ b.method ∧ b.method.all Rfc3986.isPathByte = true ∧
      percentDecode b.method = b.method := by
    cases b with
    | bedrock => decide
    | gemini => decide
    | vertex => decide
    | vertexProject project =>
        change (0x2f : Byte) ∉ ascii ":generateContent" ∧
          (ascii ":generateContent").all Rfc3986.isPathByte = true ∧
          percentDecode (ascii ":generateContent") = ascii ":generateContent"
        decide
  obtain ⟨noSlash, legal, decoded⟩ := method
  refine ⟨?_, (Rfc3986.percentEncode_text model).append (PathText.of_bytes legal), ?_⟩
  · exact List.not_mem_append (Rfc3986.percentEncode_noSlash model) noSlash
  · rw [Rfc3986.percentDecode_encode, decoded]

/-- The model's segment is a dot segment only on Bedrock, whose method is a segment. -/
theorem TargetBuilder.modelSegment_plain {b : TargetBuilder} {model : Bytes}
    (notDots : b = .bedrock → model ≠ ascii "." ∧ model ≠ ascii "..") :
    PlainSegment (percentEncode model ++ b.method) := by
  obtain ⟨noSlash, -, decoded⟩ := b.modelSegment_ok model
  have apart : ∀ dots : Bytes, dots = ascii "." ∨ dots = ascii ".." →
      percentEncode model ++ b.method ≠ dots := by
    intro dots which same
    rw [same] at decoded
    have left : percentDecode dots = dots := by
      rcases which with rfl | rfl <;> rfl
    rw [left] at decoded
    by_cases onBedrock : b = .bedrock
    · subst onBedrock
      rw [show TargetBuilder.bedrock.method = [] from rfl, List.append_nil] at decoded
      rcases which with dot | dot
      · exact (notDots rfl).1 (decoded.symm.trans dot)
      · exact (notDots rfl).2 (decoded.symm.trans dot)
    · have suffix : b.method = ascii ":generateContent" := by
        cases b with
        | bedrock => exact absurd rfl onBedrock
        | gemini => rfl
        | vertex => rfl
        | vertexProject project => rfl
      have sizes := congrArg List.length decoded
      rw [suffix, List.length_append, show (ascii ":generateContent").length = 16 from rfl] at sizes
      rcases which with rfl | rfl
      · rw [show (ascii ".").length = 1 from rfl] at sizes
        omega
      · rw [show (ascii "..").length = 2 from rfl] at sizes
        omega
  exact ⟨noSlash, apart _ (Or.inl rfl), apart _ (Or.inr rfl)⟩

/-! ## The prefix -/

theorem lessModels_append (model : Bytes) : lessModels (ascii "models/" ++ model) = model :=
  if_pos (List.isPrefixOf_iff_prefix.mpr (List.prefix_append _ _))

theorem lessModels_of_not {model : Bytes} (other : ¬ ascii "models/" <+: model) :
    lessModels model = model :=
  if_neg fun starts => other (List.isPrefixOf_iff_prefix.mp starts)

theorem unescapeString_models (raw : Bytes) :
    Json.unescapeString (ascii "models/" ++ raw) = ascii "models/" ++ Json.unescapeString raw :=
  Json.unescapeFrom_run (List.forall_mem_ne'.mpr (by decide)) raw

/-- The prefix is not hidden in escapes from a builder that takes it off. -/
def PrefixShown (b : TargetBuilder) (raw : Bytes) : Prop :=
  b ≠ .bedrock → ascii "models/" <+: Json.unescapeString raw → ascii "models/" <+: raw

/-- The builder writes the model that is named where the prefix is not hidden. -/
theorem TargetBuilder.written_eq_iff (b : TargetBuilder) (raw : Bytes) :
    b.written raw = b.named raw ↔ PrefixShown b raw := by
  unfold written named PrefixShown
  by_cases onBedrock : b = .bedrock
  · rw [if_pos onBedrock, if_pos onBedrock]
    exact iff_of_true rfl fun other => absurd onBedrock other
  · rw [if_neg onBedrock, if_neg onBedrock]
    by_cases shown : ascii "models/" <+: raw
    · obtain ⟨model, rfl⟩ := shown
      rw [lessModels_append, unescapeString_models, lessModels_append]
      exact iff_of_true rfl fun _ _ => List.prefix_append _ _
    · rw [lessModels_of_not shown]
      constructor
      · rintro same - ⟨model, hidden⟩
        rw [← hidden, lessModels_append] at same
        have sizes := congrArg List.length same
        rw [List.length_append, show (ascii "models/").length = 7 from rfl] at sizes
        omega
      · intro keeps
        rw [lessModels_of_not fun hidden => shown (keeps onBedrock hidden)]

theorem unescapeString_ne_nil {raw : Bytes} (chars : IsChars raw) (some_byte : raw ≠ []) :
    Json.unescapeString raw ≠ [] := by
  obtain ⟨units, means⟩ := chars.means
  rw [Json.unescapeString_means means]
  cases means with
  | nil => exact absurd rfl some_byte
  | plain => exact Rfc8259.decode_ne_nil _ _
  | escape => exact Rfc8259.decode_ne_nil _ _
  | unicode => exact Rfc8259.decode_ne_nil _ _

/-- Only the prefix alone names no model. -/
theorem TargetBuilder.written_ne_nil {b : TargetBuilder} {raw : Bytes} (chars : IsChars raw)
    (some_byte : raw ≠ []) (notAlone : b ≠ .bedrock → raw ≠ ascii "models/") :
    b.written raw ≠ [] := by
  unfold written
  by_cases onBedrock : b = .bedrock
  · rw [if_pos onBedrock]
    exact unescapeString_ne_nil chars some_byte
  · rw [if_neg onBedrock]
    by_cases shown : ascii "models/" <+: raw
    · obtain ⟨model, rfl⟩ := shown
      rw [lessModels_append]
      apply unescapeString_ne_nil (chars.after (by decide))
      rintro rfl
      exact notAlone onBedrock (List.append_nil _)
    · rw [lessModels_of_not shown]
      exact unescapeString_ne_nil chars some_byte

/-! ## The model stays in its segment -/

/-- The condition under which it does: its text is no dot segment of Bedrock's path, and
its prefix is not hidden from a Google builder. -/
def ModelKept (b : TargetBuilder) (raw : Bytes) : Prop :=
  (b = .bedrock → Json.unescapeString raw ≠ ascii "." ∧ Json.unescapeString raw ≠ ascii "..") ∧
    PrefixShown b raw

/-- A target with the model in its place is one segment for it exactly then. -/
theorem oneSegment_iff {b : TargetBuilder} (projectOk : b.ProjectOk) (raw : Bytes) :
    OneSegment b raw
        (joined (b.before ++ [percentEncode (b.written raw) ++ b.method] ++ b.after)) ↔
      ModelKept b raw := by
  obtain ⟨noSlash, legal, decoded⟩ := b.modelSegment_ok (b.written raw)
  have fixed := TargetBuilder.fixed_plain projectOk
  constructor
  · intro one
    constructor
    · rintro rfl
      have resolved := one.resolved
      constructor
      · intro dot
        rw [TargetBuilder.written, if_pos rfl, dot] at resolved
        exact absurd resolved (by decide +kernel)
      · intro dots
        rw [TargetBuilder.written, if_pos rfl, dots] at resolved
        exact absurd resolved (by decide +kernel)
    · obtain ⟨seg, same, -, names⟩ := one.segment
      simp only [Rfc3986.joined_append, Rfc3986.joined_cons, List.append_assoc] at same
      have cut := List.append_cancel_left same
      have ours := List.append_cancel_right (List.cons.inj cut).2
      rw [← ours, decoded] at names
      exact (b.written_eq_iff raw).mp (List.append_cancel_right names)
  · rintro ⟨notDots, shown⟩
    have model : b = .bedrock → b.written raw ≠ ascii "." ∧ b.written raw ≠ ascii ".." := by
      intro onBedrock
      rw [TargetBuilder.written, if_pos onBedrock]
      exact notDots onBedrock
    have plain := TargetBuilder.modelSegment_plain model
    have whole : ∀ s ∈ b.before ++ [percentEncode (b.written raw) ++ b.method] ++ b.after,
        PlainSegment s ∧ PathText s := by
      intro s member
      simp only [List.mem_append, List.mem_singleton] at member
      rcases member with (ahead | rfl) | behind
      · exact fixed s (List.mem_append_left _ ahead)
      · exact ⟨plain, legal⟩
      · exact fixed s (List.mem_append_right _ behind)
    refine ⟨Rfc3986.joined_text fun s member => (whole s member).2,
      Rfc3986.removeDotSegments_joined fun s member => (whole s member).1,
      _, rfl, noSlash, ?_⟩
    rw [decoded, (b.written_eq_iff raw).mpr shown]

/-- A builder without a usable project writes nothing. -/
theorem TargetBuilder.write_none {b : TargetBuilder} (bad : ¬ b.ProjectOk) (raw path : Bytes) :
    b.write raw path = none := by
  cases b with
  | vertexProject project => exact if_pos (Bool.not_eq_true _ ▸ bad)
  | gemini => exact absurd trivial bad
  | vertex => exact absurd trivial bad
  | bedrock => exact absurd trivial bad

/-- A model named by the client stays one segment of the venue's path exactly where it is
no dot segment on Bedrock and its prefix is not hidden from a Google builder. -/
theorem modelTarget_iff {raw : Bytes} (chars : IsChars raw) (some_byte : raw ≠ [])
    (b : TargetBuilder) (path : Bytes) :
    (b.write raw path = none ↔ ¬ b.ProjectOk ∨ (b ≠ .bedrock ∧ raw = ascii "models/")) ∧
      ∀ out, b.write raw path = some out →
        ∃ target, out = path ++ target ∧ (OneSegment b raw target ↔ ModelKept b raw) := by
  by_cases projectOk : b.ProjectOk
  · rw [b.write_eq raw path projectOk, or_iff_right (not_not_intro projectOk)]
    constructor
    · constructor
      · intro refused
        by_contra other
        have named := TargetBuilder.written_ne_nil chars some_byte
          (fun google alone => other ⟨google, alone⟩)
        rw [if_neg named] at refused
        exact absurd refused (by simp)
      · rintro ⟨google, rfl⟩
        apply if_pos
        rw [TargetBuilder.written, if_neg google]
        rfl
    · intro out written
      split at written
      · exact absurd written (by simp)
      · exact ⟨_, (Option.some.inj written).symm, oneSegment_iff projectOk raw⟩
  · have nothing := TargetBuilder.write_none projectOk raw path
    refine ⟨iff_of_true nothing (Or.inl projectOk), fun out written => ?_⟩
    rw [nothing] at written
    exact absurd written (by simp)

/-- A model of two dots leaves Bedrock's model path. -/
theorem bedrockTarget_dots :
    bedrockTarget (ascii "..") [] = some (ascii "/model/../invoke") ∧
      removeDotSegments (ascii "/model/../invoke") = ascii "/invoke" ∧
      ¬ OneSegment .bedrock (ascii "..") (ascii "/model/../invoke") := by
  have leaves : removeDotSegments (ascii "/model/../invoke") = ascii "/invoke" := by
    decide +kernel
  refine ⟨by decide, leaves, fun one => ?_⟩
  have resolved := one.resolved
  rw [leaves] at resolved
  exact absurd resolved (by decide)

/-- The same of a model with Google's prefix, an escape and a slash of its own. -/
theorem modelTarget_iff_escaped :
    ∃ target, ascii "/v1beta/models/a%2Fb:generateContent" = [] ++ target ∧
      (OneSegment .gemini (ascii "models/a\\/b") target ↔
        ModelKept .gemini (ascii "models/a\\/b")) := by
  have chars : IsChars (ascii "models/a\\/b") :=
    (IsChars.of_plain (s := ascii "models/a")
      (List.forall_mem_iff_forall_getElem.mpr (by decide))).append
      (IsChars.escape 0x2f _ rfl (IsChars.plain 0x62 _ rfl IsChars.nil))
  exact (modelTarget_iff chars (by decide) .gemini []).2 _ (by decide)

end Provider
end Llmbridge
