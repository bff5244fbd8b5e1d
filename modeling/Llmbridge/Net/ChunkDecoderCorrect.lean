import Llmbridge.Http1.Rendering
import Llmbridge.Net.ChunkSteps

/-!
# The chunk decoder

The steps over a chunked encoding give its payload and take its bytes, so `feed`
decodes it however it is cut.
-/

namespace Llmbridge
namespace Http

open Rfc8259 (Byte Bytes ascii)
open Http1 (cr lf crlf)

namespace ChunkDecoder

/-! ## Lines of an encoding -/

/-- The steps over the input lead to `next`, which has not counted them. -/
def Took (d : ChunkDecoder) (input : Bytes) (next : ChunkDecoder) (out : Bytes) : Prop :=
  d.run input = (next.count input.length, out)

theorem Took.append
    {d next last : ChunkDecoder} {front back out more : Bytes}
    (first : Took d front next out) (second : Took next back last more) :
    Took d (front ++ back) last (out ++ more) := by
  unfold Took at *
  rw [run_append, first, run_count, second, List.length_append]
  simp only [count_count, Nat.add_comm]

theorem Took.byte
    {d next : ChunkDecoder} {c : Byte} (live : ¬ d.Settled) (taken : d.take c = (next, [])) :
    Took d [c] next [] := by
  unfold Took
  rw [run_cons, step, if_neg live, taken]
  rfl

/-- A line without CR LF, and its CR: each byte is kept. -/
theorem run_text
    {d : ChunkDecoder} {text : Bytes} (live : ¬ d.Settled) (free : ¬ crlf <:+: text)
    (pushes : ∀ line c, line.length ≤ text.length → endsCrlf (line ++ [c]) = false →
      take { d with line := line } c = ({ d with line := line ++ [c] }, []))
    {seen rest : Bytes} (split : seen ++ rest = text ++ [cr]) :
    Took { d with line := seen } rest { d with line := text ++ [cr] } [] := by
  induction rest generalizing seen with
  | nil =>
      rw [List.append_nil] at split
      rw [split]
      rfl
  | cons c rest inductionHypothesis =>
      have onward : seen ++ [c] ++ rest = text ++ [cr] := by
        rw [← split, List.append_assoc]
        rfl
      have size := congrArg List.length split
      simp only [List.length_append, List.length_cons, List.length_nil] at size
      have inside : endsCrlf (seen ++ [c]) = false := by
        apply Bool.eq_false_of_not_eq_true
        intro ends
        exact Http1.not_suffix_crlf free ⟨rest, onward⟩ (List.isSuffixOf_iff_suffix.mp ends)
      have first := @Took.byte { d with line := seen } _ c live (pushes seen c (by omega) inside)
      exact first.append (inductionHypothesis onward)

/-- What the size line says. -/
theorem sizeDigits_append
    (sz : Nat) {digits rest : Bytes} (hex : ∀ h ∈ digits, h ∈ Http1.hexDigits)
    (ends : ∀ c ∈ rest.head?, hexValue c = none)
    (bounded : Http1.hexNumber sz digits ≤ kMaxBodyLen) :
    sizeDigits sz (digits ++ rest) = some (Http1.hexNumber sz digits, rest) := by
  have values : ∀ h ∈ Http1.hexDigits, hexValue h = some (Http1.hexDigit h) := by
    have table : (Http1.hexDigits.all fun h => hexValue h == some (Http1.hexDigit h)) = true := by
      decide
    intro h member
    simpa using List.all_eq_true.mp table h member
  induction digits generalizing sz with
  | nil =>
      cases rest with
      | nil => rfl
      | cons c rest =>
          have notHex := ends c rfl
          rw [List.nil_append, sizeDigits, notHex]
          rfl
  | cons h digits inductionHypothesis =>
      rw [Http1.hexNumber_cons] at bounded ⊢
      have grows := Http1.le_hexNumber (sz * 16 + Http1.hexDigit h) digits
      rw [List.cons_append, sizeDigits, values h (hex h List.mem_cons_self)]
      dsimp only
      rw [if_neg (by omega)]
      exact inductionHypothesis _ (fun h member => hex h (List.mem_cons_of_mem _ member)) bounded

theorem sizeLine_text (l : Http1.SizeLine) (bounded : l.size ≤ kMaxBodyLen) :
    sizeLine l.text = some l.size := by
  obtain ⟨digits, blanks, extension, some, hex, blank, named, clean⟩ := l
  have first : ∀ c ∈ extension.head?, c = 0x3b := by
    intro c member
    rw [Option.mem_def] at member
    rw [member] at named
    simpa using named
  have behind : ∀ c ∈ (blanks ++ extension).head?, hexValue c = none := by
    intro c member
    cases blanks with
    | cons b blanks =>
        have same : c = b := by simpa [eq_comm] using member
        subst same
        rcases blank c List.mem_cons_self with rfl | rfl <;> decide
    | nil =>
        rw [first c member]
        decide
  have rest : (blanks ++ extension).dropWhile isOws = extension := by
    rw [List.dropWhile_append_of_pos (by
      intro c member
      rcases blank c member with rfl | rfl <;> decide)]
    cases extension with
    | nil => rfl
    | cons e extension =>
        rw [first e rfl]
        rfl
  have pos := List.length_pos_iff.mpr some
  have noCr : extension.contains cr = false := by
    simpa using fun member => (clean cr member).1 rfl
  have noLf : extension.contains lf = false := by
    simpa using fun member => (clean lf member).2 rfl
  have semicolon : extension.head?.any (fun c => c != 0x3b) = false := by
    cases extension with
    | nil => rfl
    | cons e extension =>
        rw [first e rfl]
        rfl
  unfold sizeLine Http1.SizeLine.text Http1.SizeLine.size at *
  dsimp only at bounded ⊢
  rw [sizeDigits_append 0 hex behind bounded]
  dsimp only
  rw [if_neg (by simp only [List.length_append]; omega), rest, semicolon, noCr, noLf]
  rfl

theorem endsCrlf_append (text : Bytes) : endsCrlf (text ++ [cr] ++ [lf]) = true := by
  rw [List.append_assoc]
  exact List.isSuffixOf_iff_suffix.mpr (List.suffix_append text crlf)

theorem append_crlf (text : Bytes) : text ++ crlf = text ++ [cr] ++ [lf] := by
  rw [List.append_assoc]
  rfl

/-- A line without CR LF, and its line end. -/
theorem run_line
    {d next : ChunkDecoder} {text : Bytes} (live : ¬ d.Settled) (fresh : d.line = [])
    (free : ¬ crlf <:+: text)
    (pushes : ∀ line c, line.length ≤ text.length → endsCrlf (line ++ [c]) = false →
      take { d with line := line } c = ({ d with line := line ++ [c] }, []))
    (ends : take { d with line := text ++ [cr] } lf = (next, [])) :
    Took d (text ++ crlf) next [] := by
  have front := @run_text d text live free pushes [] (text ++ [cr]) rfl
  have same : ({ d with line := [] } : ChunkDecoder) = d := by
    obtain ⟨st, remaining, consumed, line⟩ := d
    dsimp only at fresh
    subst fresh
    rfl
  rw [same] at front
  rw [append_crlf]
  exact front.append (Took.byte live ends)

theorem lineEnd_length (text : Bytes) : (text ++ [cr] ++ [lf]).length = text.length + 2 := by
  rw [List.length_append, List.length_append]
  rfl

/-- A size line. -/
theorem run_sizeLine
    (l : Http1.SizeLine) (short : l.text.length + 2 ≤ 64) (bounded : l.size ≤ kMaxBodyLen) :
    Took {} (l.text ++ crlf)
      { st := if l.size = 0 then .trailer else .data, remaining := l.size } [] := by
  apply run_line (by decide) rfl l.text_clean.no_crlf
  · intro line c fits inside
    rw [take_size rfl, push_line, if_neg, if_neg]
    · rfl
    · exact Bool.eq_false_iff.mp inside
    · rw [List.length_append, List.length_singleton]
      dsimp only
      omega
  · rw [take_size rfl, push_line, if_neg, if_pos]
    · have line : (l.text ++ [cr] ++ [lf]).take ((l.text ++ [cr] ++ [lf]).length - 2) =
          l.text := by
        rw [lineEnd_length, Nat.add_sub_cancel, List.append_assoc, List.take_left]
      unfold endSize
      rw [push_line]
      dsimp only
      rw [line, sizeLine_text l bounded]
      rfl
    · exact endsCrlf_append l.text
    · rw [lineEnd_length]
      omega

/-- A chunk. -/
theorem run_chunk
    (c : Http1.Chunk) (short : c.line.text.length + 2 ≤ 64)
    (bounded : c.data.length ≤ kMaxBodyLen) : Took {} c.render {} c.data := by
  have pos := List.length_pos_iff.mpr c.some
  have size := run_sizeLine c.line short (c.sized ▸ bounded)
  rw [c.sized, if_neg (by omega)] at size
  have data : Took { st := .data, remaining := c.data.length } c.data
      { st := .dataCrlf } c.data := by
    have runs := run_data { st := .data, remaining := c.data.length } c.data rfl pos
      (Nat.le_refl _)
    unfold dataRead at runs
    dsimp only at runs
    rw [Nat.sub_self, if_pos rfl] at runs
    exact runs
  have behind : Took { st := .dataCrlf } crlf {} [] := rfl
  have whole := size.append (data.append behind)
  rw [List.nil_append, List.append_nil] at whole
  exact whole

/-- A trailer line. -/
theorem run_trailer
    {t : Bytes} (some : t ≠ []) (free : ¬ crlf <:+: t) (short : t.length + 2 ≤ kMaxHeaderLen) :
    Took { st := .trailer } (t ++ crlf) { st := .trailer } [] := by
  have pos := List.length_pos_iff.mpr some
  apply run_line (by decide) rfl free
  · intro line c fits inside
    rw [take_trailer rfl, push_line, if_neg, if_neg]
    · rfl
    · exact Bool.eq_false_iff.mp inside
    · rw [List.length_append, List.length_singleton]
      dsimp only
      omega
  · rw [take_trailer rfl, push_line, if_neg, if_pos, if_neg]
    · rfl
    · rw [lineEnd_length]
      omega
    · exact endsCrlf_append t
    · rw [lineEnd_length]
      omega

theorem run_chunks
    {chunks : List Http1.Chunk} (each : ∀ c ∈ chunks, Took {} c.render {} c.data) :
    Took {} (chunks.flatMap Http1.Chunk.render) {} (chunks.flatMap fun c => c.data) := by
  induction chunks with
  | nil => rfl
  | cons c chunks inductionHypothesis =>
      rw [List.flatMap_cons, List.flatMap_cons]
      apply (each c List.mem_cons_self).append
      exact inductionHypothesis fun c member => each c (List.mem_cons_of_mem _ member)

theorem run_trailers
    {trailers : List Bytes}
    (each : ∀ t ∈ trailers, Took { st := .trailer } (t ++ crlf) { st := .trailer } []) :
    Took { st := .trailer } (trailers.flatMap fun t => t ++ crlf) { st := .trailer } [] := by
  induction trailers with
  | nil => rfl
  | cons t trailers inductionHypothesis =>
      rw [List.flatMap_cons]
      apply (each t List.mem_cons_self).append
      exact inductionHypothesis fun t member => each t (List.mem_cons_of_mem _ member)

/-- The steps over an encoding. -/
theorem run_encoding
    (e : Http1.Encoding) (within : e.Within 64 kMaxBodyLen kMaxHeaderLen) :
    Took {} e.render { st := .done } e.payload := by
  have chunks := run_chunks fun c member =>
    run_chunk c (within.lines c member) (within.chunks c member)
  have last := run_sizeLine e.last within.last (by rw [e.zero]; exact Nat.zero_le _)
  rw [if_pos e.zero, e.zero] at last
  have trailers := run_trailers fun t member =>
    run_trailer (e.fields t member).1 (e.fields t member).2 (within.trailers t member)
  have blank : Took { st := .trailer } crlf { st := .done } [] := rfl
  have whole := chunks.append (last.append (trailers.append blank))
  rw [List.append_nil, List.append_nil, List.append_nil] at whole
  exact whole

/-! ## Every encoding, however it is cut -/

/-- The front of an encoding's input: what is fed so far, and what it decodes to. -/
structure Decoded (e : Http1.Encoding) (fed : Bytes) (d : ChunkDecoder) (out : Bytes) :
    Prop where
  alive : d.failed = false
  ends : d.isDone = true ↔ e.render.length ≤ fed.length
  front : out <+: e.payload
  whole : d.isDone = true → out = e.payload ∧ d.consumed = e.render.length
  still : d.isDone = true → ∀ input, d.feed input = (d, [])

theorem run_decoded
    (e : Http1.Encoding) (within : e.Within 64 kMaxBodyLen kMaxHeaderLen) {fed : Bytes}
    {rest : Bytes} (part : fed <+: e.render ++ rest) :
    Decoded e fed (run {} fed).1 (run {} fed).2 := by
  have whole : run {} e.render = (count { st := .done } e.render.length, e.payload) :=
    run_encoding e within
  have settled : (count { st := .done } e.render.length).Settled := Or.inl rfl
  by_cases long : e.render.length ≤ fed.length
  · obtain ⟨behind, rfl⟩ : e.render <+: fed :=
      List.prefix_of_prefix_length_le (List.prefix_append _ _) part long
    rw [run_append, whole]
    dsimp only
    rw [run_settled settled, List.append_nil]
    exact ⟨rfl, ⟨fun _ => long, fun _ => rfl⟩, List.prefix_refl _,
      fun _ => ⟨rfl, Nat.zero_add _⟩, fun ends => feed_done ends⟩
  · obtain ⟨behind, same⟩ : fed <+: e.render :=
      List.prefix_of_prefix_length_le part (List.prefix_append _ _) (by omega)
    rw [← same, run_append] at whole
    have out := (Prod.ext_iff.mp whole).2
    have last := (Prod.ext_iff.mp whole).1
    dsimp only at out last
    -- a decoder settled before the end would not count the bytes behind
    have live : ¬ (run {} fed).1.Settled := by
      intro stopped
      rw [run_settled stopped] at last
      have least := (run_consumed {} fed).1
      have counted := congrArg ChunkDecoder.consumed last
      rw [count_consumed, same] at counted
      dsimp only at counted least
      omega
    obtain ⟨notDone, notError⟩ := not_or.mp live
    have undone : (run {} fed).1.isDone = false := by simpa [isDone] using notDone
    rw [← same] at long
    exact ⟨by simpa [failed] using notError,
      ⟨fun ends => absurd (undone.symm.trans ends) (by decide),
        fun enough => absurd (same ▸ enough) long⟩,
      ⟨_, out⟩, fun ends => absurd (undone.symm.trans ends) (by decide),
      fun ends => absurd (undone.symm.trans ends) (by decide)⟩

/-- Every chunked encoding is decoded however it is cut, and no cut shows in what any
input decodes to. -/
theorem feedAll_decodes :
    (∀ (e : Http1.Encoding), e.Within 64 kMaxBodyLen kMaxHeaderLen →
      ∀ (rest : Bytes) (reads : List Bytes), reads.flatten <+: e.render ++ rest →
        Decoded e reads.flatten (feedAll {} reads).1 (feedAll {} reads).2) ∧
    ∀ reads reads' : List Bytes, reads.flatten = reads'.flatten →
      (feedAll {} reads).2 = (feedAll {} reads').2 ∧
        (feedAll {} reads).1.isDone = (feedAll {} reads').1.isDone ∧
        (feedAll {} reads).1.failed = (feedAll {} reads').1.failed := by
  constructor
  · intro e within rest reads part
    have decoded := run_decoded e within part
    obtain ⟨shows, outs⟩ := feedAll_shown {} reads sound_fresh
    have same := eq_of_shown shows.symm decoded.alive
    rw [← same, outs]
    exact decoded
  · intro reads reads' same
    exact feedAll_cuts {} sound_fresh same

/-- `hello` as one chunk with an extension, and a trailer line. -/
def hello : Http1.Encoding where
  chunks := [{
    line := {
      digits := ascii "05"
      blanks := ascii " "
      extension := ascii ";x=y"
      some := by decide
      hex := List.forall_mem_iff_forall_getElem.mpr (by decide)
      blank := List.forall_mem_iff_forall_getElem.mpr (by decide)
      named := by decide
      clean := by decide }
    data := ascii "hello"
    sized := by decide
    some := by decide }]
  last := Http1.SizeLine.zero
  trailers := [ascii "A: b"]
  zero := Http1.SizeLine.zero_size
  fields := by decide

/-- The encoding cut inside the size line's end and inside the data. -/
theorem feedAll_decodes_hello :
    let reads := [ascii "05 ;x=y\r", ascii "\nhel", ascii "lo\r\n0\r\nA: b\r\n\r\nHTTP"]
    Decoded hello reads.flatten (feedAll {} reads).1 (feedAll {} reads).2 :=
  feedAll_decodes.1 hello ⟨by decide, by decide, by decide, by decide⟩ (ascii "HTTP")
    [ascii "05 ;x=y\r", ascii "\nhel", ascii "lo\r\n0\r\nA: b\r\n\r\nHTTP"] (by decide)

end ChunkDecoder

end Http
end Llmbridge
