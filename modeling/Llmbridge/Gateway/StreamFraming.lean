import Llmbridge.Gateway.StreamStep
import Llmbridge.Net.ChunkDecoderCorrect

/-!
# The framings of a stream

The client's: pieces as chunks.  The venue's: what reads in turn give of the body depends
on their bytes alone.
-/

namespace Llmbridge
namespace Gateway

open Rfc8259 (Byte Bytes ascii)
open Http (Body ChunkDecoder)
open Http1 (Chunk Encoding crlf hexText)

/-! ## Pieces and chunks -/

/-- A piece in the client's framing. -/
def framed (chunkedOut : Bool) (piece : Bytes) : Bytes :=
  chunkWrap chunkedOut piece 0

/-- Pieces as chunks; empty ones are none. -/
def chunksOf (pieces : List Bytes) : List Chunk :=
  pieces.filterMap fun piece =>
    if some : piece = [] then none else Option.some (Chunk.ofData piece some)

@[simp] theorem framed_false (piece : Bytes) : framed false piece = piece := by
  unfold framed chunkWrap
  exact if_pos (Or.inl rfl)

@[simp] theorem framed_nil (chunkedOut : Bool) : framed chunkedOut [] = [] := by
  unfold framed chunkWrap
  exact if_pos (Or.inr (Nat.le_refl 0))

theorem chunksOf_cons (piece : Bytes) (pieces : List Bytes) :
    chunksOf (piece :: pieces) =
      if some : piece = [] then chunksOf pieces
      else Chunk.ofData piece some :: chunksOf pieces := by
  unfold chunksOf
  rw [List.filterMap_cons]
  split <;> rename_i found <;> split at found <;> simp_all

theorem framed_true {piece : Bytes} (some : piece ≠ []) :
    framed true piece = (Chunk.ofData piece some).render := by
  have pos := List.length_pos_iff.mpr some
  rw [Chunk.render_ofData, framed, chunkWrap, if_neg]
  · simp only [List.take_zero, List.nil_append, List.drop_zero, Nat.sub_zero, List.append_assoc]
  · rintro (no | none)
    · cases no
    · omega

theorem chunkWrap_append (chunkedOut : Bool) (out piece : Bytes) :
    chunkWrap chunkedOut (out ++ piece) out.length = out ++ framed chunkedOut piece := by
  unfold framed chunkWrap
  rw [List.length_append, List.take_left, List.drop_left, Nat.add_sub_cancel_left, Nat.sub_zero,
    List.take_zero, List.drop_zero, List.nil_append]
  by_cases bare : chunkedOut = false ∨ piece = []
  · have left : chunkedOut = false ∨ out.length + piece.length ≤ out.length :=
      bare.imp id fun none => by rw [none]; exact Nat.le_refl _
    have right : chunkedOut = false ∨ piece.length ≤ 0 :=
      bare.imp id fun none => by rw [none]; exact Nat.le_refl _
    rw [if_pos left, if_pos right]
  · obtain ⟨chunked, some⟩ := not_or.mp bare
    have pos := List.length_pos_iff.mpr some
    rw [if_neg (by rintro (no | none); exacts [chunked no, by omega]),
      if_neg (by rintro (no | none); exacts [chunked no, by omega])]
    simp only [List.append_assoc]

/-- Framed pieces are chunks. -/
theorem flatMap_framed (pieces : List Bytes) :
    pieces.flatMap (framed true) = (chunksOf pieces).flatMap Chunk.render := by
  induction pieces with
  | nil => rfl
  | cons piece pieces inductionHypothesis =>
      rw [List.flatMap_cons, inductionHypothesis, chunksOf_cons]
      by_cases empty : piece = []
      · rw [dif_pos empty, empty, framed_nil, List.nil_append]
      · rw [dif_neg empty, framed_true empty, List.flatMap_cons]

theorem chunksOf_data (pieces : List Bytes) :
    ((chunksOf pieces).flatMap fun c => c.data) = pieces.flatten := by
  induction pieces with
  | nil => rfl
  | cons piece pieces inductionHypothesis =>
      rw [chunksOf_cons, List.flatten_cons, ← inductionHypothesis]
      by_cases empty : piece = []
      · rw [dif_pos empty, empty, List.nil_append]
      · rw [dif_neg empty, List.flatMap_cons]
        rfl

theorem flatMap_framed_false (pieces : List Bytes) :
    pieces.flatMap (framed false) = pieces.flatten := by
  rw [List.flatMap_def, List.map_congr_left fun piece _ => framed_false piece, List.map_id']

/-! ## Taking the venue's framing off -/

namespace Framing

/-- The body is at its end by its own framing. -/
def Exhausted (f : Framing) : Prop :=
  (f.streamBody = .chunked ∧ f.chunkdec.isDone = true) ∨
    (f.streamBody = .length ∧ f.streamLeft = 0)

theorem streamComplete_false (f : Framing) :
    f.streamComplete false = true ↔ f.Exhausted := by
  unfold streamComplete Exhausted
  cases f.streamBody with
  | chunked => simp
  | length => simp
  | none => simp
  | untilClose => simp

/-- Nothing more is read of a body at its end. -/
theorem Exhausted.unframe {f : Framing} (exhausted : f.Exhausted) (input : Bytes) :
    (f.unframe input).1 = true ∧ (f.unframe input).2.1 = f ∧ (f.unframe input).2.2.2 = [] := by
  obtain ⟨body, left, dec⟩ := f
  rcases exhausted with ⟨rfl, done⟩ | ⟨rfl, zero⟩
  · have still : dec.feed input = (dec, []) := ChunkDecoder.feed_done done input
    have alive : dec.failed = false := by
      have is : dec.st = .done := by simpa [ChunkDecoder.isDone] using done
      simp [ChunkDecoder.failed, is]
    unfold Framing.unframe
    dsimp only
    rw [still, alive]
    exact ⟨rfl, rfl, rfl⟩
  · dsimp only at zero
    subst zero
    unfold Framing.unframe
    dsimp only
    cases input with
    | nil => exact ⟨rfl, rfl, rfl⟩
    | cons c input => exact ⟨rfl, rfl, rfl⟩

/-- The bodies of reads in turn, those that break the framing left out. -/
def bodies (f : Framing) (rbuf : Bytes) : List Bytes → List Bytes
  | [] => []
  | read :: reads =>
      (if (f.unframe (rbuf ++ read)).1 then [(f.unframe (rbuf ++ read)).2.2.2] else []) ++
        (f.unframe (rbuf ++ read)).2.1.bodies (f.unframe (rbuf ++ read)).2.2.1 reads

/-- The framing behind reads in turn, and what stays of them. -/
def after (f : Framing) (rbuf : Bytes) : List Bytes → Framing × Bytes
  | [] => (f, rbuf)
  | read :: reads =>
      (f.unframe (rbuf ++ read)).2.1.after (f.unframe (rbuf ++ read)).2.2.1 reads

theorem bodies_concat (f : Framing) (rbuf : Bytes) (reads : List Bytes) (read : Bytes) :
    f.bodies rbuf (reads ++ [read]) = f.bodies rbuf reads ++
      (if ((f.after rbuf reads).1.unframe ((f.after rbuf reads).2 ++ read)).1 then
        [((f.after rbuf reads).1.unframe ((f.after rbuf reads).2 ++ read)).2.2.2] else []) := by
  induction reads generalizing f rbuf with
  | nil => rw [List.nil_append, bodies, bodies, bodies, List.append_nil, List.nil_append]; rfl
  | cons first reads inductionHypothesis =>
      rw [List.cons_append, bodies, inductionHypothesis, bodies, after, List.append_assoc]

theorem after_concat (f : Framing) (rbuf : Bytes) (reads : List Bytes) (read : Bytes) :
    f.after rbuf (reads ++ [read]) =
      (((f.after rbuf reads).1.unframe ((f.after rbuf reads).2 ++ read)).2.1,
        ((f.after rbuf reads).1.unframe ((f.after rbuf reads).2 ++ read)).2.2.1) := by
  induction reads generalizing f rbuf with
  | nil => rfl
  | cons first reads inductionHypothesis => rw [List.cons_append, after, inductionHypothesis, after]

/-- The body that some bytes of the venue hold. -/
def bodyOf (f : Framing) (bytes : Bytes) : Bytes :=
  match f.streamBody with
  | .chunked => (f.chunkdec.run bytes).2
  | .length => bytes.take f.streamLeft
  | _ => bytes

/-- Those bytes break the framing. -/
def breaks (f : Framing) (bytes : Bytes) : Bool :=
  f.streamBody = .chunked && (f.chunkdec.run bytes).1.failed

/-- Those bytes reach the end of the body by its own framing. -/
def reaches (f : Framing) (bytes : Bytes) : Bool :=
  match f.streamBody with
  | .chunked => (f.chunkdec.run bytes).1.isDone
  | .length => f.streamLeft ≤ bytes.length
  | _ => false

/-- A framing on its way: `seen` was read, `rbuf` of it is left, and `said` is the body
so far. -/
structure Progress (f g : Framing) (rbuf seen said : Bytes) : Prop where
  kind : g.streamBody = f.streamBody
  whole : f.breaks seen = false → said = f.bodyOf seen
  front : said <+: f.bodyOf seen
  left : rbuf = if f.streamBody = .length then seen.drop f.streamLeft else []
  taken : f.streamBody = .length → g.streamLeft = f.streamLeft - seen.length
  decoder : f.streamBody = .chunked → g.chunkdec.shown = (f.chunkdec.run seen).1.shown
  sound : g.chunkdec.Sound

theorem Progress.start {f : Framing} (sound : f.chunkdec.Sound) : Progress f f [] [] [] where
  kind := rfl
  whole := fun _ => by unfold bodyOf; split <;> simp
  front := List.nil_prefix
  left := by simp
  taken := fun _ => rfl
  decoder := fun _ => rfl
  sound := sound

theorem failed_shown {d e : ChunkDecoder} (same : d.shown = e.shown) : d.failed = e.failed := by
  have st : d.st = e.st := by rw [← ChunkDecoder.shown_st d, same, ChunkDecoder.shown_st]
  unfold ChunkDecoder.failed
  rw [st]

theorem isDone_shown {d e : ChunkDecoder} (same : d.shown = e.shown) : d.isDone = e.isDone := by
  have st : d.st = e.st := by rw [← ChunkDecoder.shown_st d, same, ChunkDecoder.shown_st]
  unfold ChunkDecoder.isDone
  rw [st]

/-- What a read adds to the body. -/
def adds (g : Framing) (input : Bytes) : Bytes :=
  if (g.unframe input).1 then (g.unframe input).2.2.2 else []

theorem Progress.chunked {f g : Framing} {rbuf seen said : Bytes}
    (progress : Progress f g rbuf seen said) (chunked : f.streamBody = .chunked)
    (read : Bytes) :
    Progress f (g.unframe (rbuf ++ read)).2.1 (g.unframe (rbuf ++ read)).2.2.1 (seen ++ read)
      (said ++ g.adds (rbuf ++ read)) := by
  obtain ⟨kind, whole, front, left, taken, decoder, sound⟩ := progress
  rw [chunked, if_neg (by decide)] at left
  subst left
  have same := decoder chunked
  obtain ⟨shows, outs, soundly⟩ := ChunkDecoder.feed_shown g.chunkdec read sound
  have unframed : g.unframe ([] ++ read) = (!(g.chunkdec.feed read).1.failed,
      { g with chunkdec := (g.chunkdec.feed read).1 }, [], (g.chunkdec.feed read).2) := by
    unfold Framing.unframe
    rw [kind, chunked]
    rfl
  have onward : ((g.chunkdec.feed read).1.shown = (f.chunkdec.run (seen ++ read)).1.shown) ∧
      ((g.chunkdec.feed read).1.failed = false →
        said ++ (g.chunkdec.feed read).2 = f.bodyOf (seen ++ read)) ∧
      f.bodyOf seen <+: f.bodyOf (seen ++ read) := by
    unfold bodyOf
    rw [chunked, ChunkDecoder.run_append]
    dsimp only
    by_cases alive : g.chunkdec.failed = false
    · have exact := ChunkDecoder.eq_of_shown same alive
      rw [← exact, shows, outs]
      refine ⟨rfl, fun _ => ?_, List.prefix_append _ _⟩
      have unbroken : f.breaks seen = false := by
        unfold breaks
        rw [← exact, alive, Bool.and_false]
      have said := whole unbroken
      unfold bodyOf at said
      rw [chunked] at said
      rw [said, exact]
    · have stopped : g.chunkdec.st = .error := by simpa [ChunkDecoder.failed] using alive
      have alsoStopped : (f.chunkdec.run seen).1.st = .error := by
        rw [← ChunkDecoder.shown_st, ← same, ChunkDecoder.shown_st, stopped]
      rw [shows, ChunkDecoder.run_settled (Or.inr stopped),
        ChunkDecoder.run_settled (Or.inr alsoStopped)]
      refine ⟨same, fun live => ?_, List.prefix_append _ _⟩
      rw [failed_shown shows, ChunkDecoder.run_settled (Or.inr stopped)] at live
      exact absurd live alive
  obtain ⟨shown, all, longer⟩ := onward
  unfold adds
  rw [unframed]
  dsimp only
  constructor
  case kind => exact kind
  case whole =>
    intro unbroken
    have alive : (g.chunkdec.feed read).1.failed = false := by
      rw [failed_shown shown]
      unfold breaks at unbroken
      rw [chunked] at unbroken
      exact unbroken
    rw [alive]
    exact all alive
  case front =>
    cases failed : (g.chunkdec.feed read).1.failed with
    | true =>
        rw [Bool.not_true, if_neg Bool.false_ne_true, List.append_nil]
        exact front.trans longer
    | false =>
        rw [Bool.not_false, if_pos rfl, all failed]
  case left => rw [chunked, if_neg (by decide)]
  case taken => exact fun length => absurd (chunked.symm.trans length) (by decide)
  case decoder => exact fun _ => shown
  case sound => exact soundly

theorem Progress.length {f g : Framing} {rbuf seen said : Bytes}
    (progress : Progress f g rbuf seen said) (length : f.streamBody = .length) (read : Bytes) :
    Progress f (g.unframe (rbuf ++ read)).2.1 (g.unframe (rbuf ++ read)).2.2.1 (seen ++ read)
      (said ++ g.adds (rbuf ++ read)) := by
  obtain ⟨kind, whole, front, left, taken, decoder, sound⟩ := progress
  have least := taken length
  rw [if_pos length] at left
  have unbroken : ∀ bytes, f.breaks bytes = false := by
    intro bytes
    unfold breaks
    rw [length]
    rfl
  have body : ∀ bytes, f.bodyOf bytes = bytes.take f.streamLeft := by
    intro bytes
    unfold bodyOf
    rw [length]
  have rest : (rbuf ++ read).take g.streamLeft = read.take g.streamLeft ∧
      (rbuf ++ read).drop g.streamLeft = (seen ++ read).drop f.streamLeft := by
    rw [left, least]
    by_cases short : seen.length ≤ f.streamLeft
    · have behind : (seen ++ read).drop f.streamLeft = read.drop (f.streamLeft - seen.length) := by
        rw [List.drop_append, List.drop_of_length_le short, List.nil_append]
      rw [List.drop_of_length_le short, List.nil_append, behind]
      exact ⟨rfl, rfl⟩
    · have behind : (seen ++ read).drop f.streamLeft = seen.drop f.streamLeft ++ read :=
        List.drop_append_of_le_length (by omega)
      rw [Nat.sub_eq_zero_of_le (by omega), behind]
      exact ⟨rfl, rfl⟩
  have unframed : (g.unframe (rbuf ++ read)).1 = true ∧
      (g.unframe (rbuf ++ read)).2.1 =
        { g with streamLeft := g.streamLeft - (rbuf ++ read).length } ∧
      (g.unframe (rbuf ++ read)).2.2.1 = (rbuf ++ read).drop g.streamLeft ∧
      (g.unframe (rbuf ++ read)).2.2.2 = (rbuf ++ read).take g.streamLeft := by
    unfold Framing.unframe
    rw [kind, length]
    dsimp only
    by_cases more : g.streamLeft < (rbuf ++ read).length
    · rw [if_pos more, Nat.sub_eq_zero_of_le (Nat.le_of_lt more)]
      exact ⟨rfl, rfl, rfl, rfl⟩
    · rw [if_neg more, List.drop_of_length_le (by omega), List.take_of_length_le (by omega)]
      exact ⟨rfl, rfl, rfl, rfl⟩
  obtain ⟨ok, framing, kept, sse⟩ := unframed
  have said' : said ++ g.adds (rbuf ++ read) = (seen ++ read).take f.streamLeft := by
    unfold adds
    rw [ok, if_pos rfl, sse, rest.1, whole (unbroken seen), body, List.take_append, least]
  rw [framing, kept, rest.2, said']
  constructor
  case kind => exact kind
  case whole => exact fun _ => (body _).symm
  case front => rw [body]
  case left => rw [if_pos length]
  case taken =>
    intro _
    dsimp only
    rw [least, left, List.length_append, List.length_append, List.length_drop]
    omega
  case decoder => exact fun chunked => absurd (length.symm.trans chunked) (by decide)
  case sound => exact sound

theorem Progress.unsized {f g : Framing} {rbuf seen said : Bytes}
    (progress : Progress f g rbuf seen said)
    (bare : f.streamBody ≠ .chunked ∧ f.streamBody ≠ .length) (read : Bytes) :
    Progress f (g.unframe (rbuf ++ read)).2.1 (g.unframe (rbuf ++ read)).2.2.1 (seen ++ read)
      (said ++ g.adds (rbuf ++ read)) := by
  obtain ⟨kind, whole, front, left, taken, decoder, sound⟩ := progress
  rw [if_neg bare.2] at left
  subst left
  have body : ∀ bytes, f.bodyOf bytes = bytes := by
    intro bytes
    unfold bodyOf
    split
    · exact absurd ‹_› bare.1
    · exact absurd ‹_› bare.2
    · rfl
  have unframed : g.unframe ([] ++ read) = (true, g, [], read) := by
    unfold Framing.unframe
    rw [kind]
    split
    · exact absurd ‹_› bare.1
    · exact absurd ‹_› bare.2
    · rfl
  have unbroken : f.breaks seen = false := by
    unfold breaks
    rw [decide_eq_false bare.1, Bool.false_and]
  unfold adds
  rw [unframed]
  dsimp only
  rw [if_pos rfl, whole unbroken, body]
  exact ⟨kind, fun _ => (body _).symm, by rw [body], by rw [if_neg bare.2],
    fun length => absurd length bare.2, fun chunked => absurd chunked bare.1, sound⟩

/-- A read takes a framing on. -/
theorem Progress.step {f g : Framing} {rbuf seen said : Bytes}
    (progress : Progress f g rbuf seen said) (read : Bytes) :
    Progress f (g.unframe (rbuf ++ read)).2.1 (g.unframe (rbuf ++ read)).2.2.1 (seen ++ read)
      (said ++ g.adds (rbuf ++ read)) := by
  by_cases chunked : f.streamBody = .chunked
  · exact progress.chunked chunked read
  by_cases length : f.streamBody = .length
  · exact progress.length length read
  · exact progress.unsized ⟨chunked, length⟩ read

/-- Reads in turn take a framing through all of their bytes. -/
theorem progress_after {f : Framing} (sound : f.chunkdec.Sound) (reads : List Bytes) :
    Progress f (f.after [] reads).1 (f.after [] reads).2 reads.flatten
      (f.bodies [] reads).flatten := by
  induction reads using List.reverseRecOn with
  | nil => exact Progress.start sound
  | append_singleton reads read inductionHypothesis =>
      have next := inductionHypothesis.step read
      rw [after_concat, bodies_concat, List.flatten_append, List.flatten_append,
        List.flatten_singleton]
      unfold adds at next
      split
      · rename_i ok
        rw [if_pos ok] at next
        rw [List.flatten_singleton]
        exact next
      · rename_i broken
        rw [if_neg broken] at next
        exact next

/-- Those bytes, and with `eof` the venue's end behind them, are a whole body. -/
def finishes (f : Framing) (bytes : Bytes) (eof : Bool) : Bool :=
  f.reaches bytes || (eof && (f.streamBody ≠ .chunked && f.streamBody ≠ .length))

theorem Progress.complete {f g : Framing} {rbuf seen said : Bytes}
    (progress : Progress f g rbuf seen said) (eof : Bool) :
    g.streamComplete eof = f.finishes seen eof := by
  unfold streamComplete finishes reaches
  rw [progress.kind]
  cases kind : f.streamBody with
  | chunked => simp [isDone_shown (progress.decoder kind)]
  | length => simp [progress.taken kind, Nat.sub_eq_zero_iff_le]
  | none => simp
  | untilClose => simp

/-- A body that was whole stays so. -/
theorem finishes_more {f : Framing} {front : Bytes} (more : Bytes) (eof : Bool)
    (finished : f.finishes front false = true) : f.finishes (front ++ more) eof = true := by
  unfold finishes reaches at *
  cases kind : f.streamBody with
  | chunked =>
      rw [kind] at finished
      have done : (f.chunkdec.run front).1.st = .done := by
        simpa [ChunkDecoder.isDone] using finished
      simp [ChunkDecoder.run_append, ChunkDecoder.run_settled (Or.inl done),
        ChunkDecoder.isDone, done]
  | length =>
      rw [kind] at finished
      have long : f.streamLeft ≤ front.length := by simpa using finished
      simp only [List.length_append, Bool.or_eq_true, decide_eq_true_eq]
      exact Or.inl (by omega)
  | none => simp [kind] at finished
  | untilClose => simp [kind] at finished

/-- A broken framing stays broken. -/
theorem breaks_more {f : Framing} {front : Bytes} (more : Bytes)
    (breaks : f.breaks front = true) : f.breaks (front ++ more) = true := by
  unfold Framing.breaks at *
  obtain ⟨kind, failed⟩ := Bool.and_eq_true_iff.mp breaks
  have stopped : (f.chunkdec.run front).1.st = .error := by
    simpa [ChunkDecoder.failed] using failed
  rw [kind, ChunkDecoder.run_append, ChunkDecoder.run_settled (Or.inr stopped)]
  exact failed

theorem unframe_broken (g : Framing) (input : Bytes) :
    (g.unframe input).1 = false ↔ (g.unframe input).2.1.streamBody = .chunked ∧
      (g.unframe input).2.1.chunkdec.failed = true := by
  unfold Framing.unframe
  cases kind : g.streamBody with
  | chunked => simp
  | length =>
      dsimp only
      split <;> simp
  | none => simp [kind]
  | untilClose => simp [kind]

/-- The framing breaks at a read exactly where its bytes do. -/
theorem Progress.broken {f g : Framing} {input rbuf seen said : Bytes}
    (progress : Progress f (g.unframe input).2.1 rbuf seen said) :
    (g.unframe input).1 = false ↔ f.breaks seen = true := by
  rw [unframe_broken, progress.kind]
  unfold breaks
  rw [Bool.and_eq_true, decide_eq_true_eq]
  exact and_congr_right fun kind => by rw [failed_shown (progress.decoder kind)]

theorem exhausted_iff {f g : Framing} {rbuf seen said : Bytes}
    (progress : Progress f g rbuf seen said) :
    g.Exhausted ↔ f.finishes seen false = true := by
  rw [← streamComplete_false, progress.complete]

/-- A read behind the ones before: what it tells of the framing, and its body. -/
structure Next (f : Framing) (reads : List Bytes) (read : Bytes) (g : Framing)
    (input : Bytes) : Prop where
  broken : (g.unframe input).1 = false ↔ f.breaks (reads.flatten ++ read) = true
  complete : ∀ eof, (g.unframe input).2.1.streamComplete eof =
    f.finishes (reads.flatten ++ read) eof
  still : f.finishes reads.flatten false = true →
    (g.unframe input).1 = true ∧ g.adds input = []
  bodies : f.bodies [] (reads ++ [read]) =
    f.bodies [] reads ++ if (g.unframe input).1 then [g.adds input] else []

/-- Every read tells of the framing what all the bytes up to it do. -/
theorem next {f g : Framing} {reads : List Bytes} {rbuf : Bytes} (sound : f.chunkdec.Sound)
    (place : f.after [] reads = (g, rbuf)) (read : Bytes) :
    Next f reads read g (rbuf ++ read) := by
  have progress := progress_after sound reads
  have progress' := progress_after sound (reads ++ [read])
  have pieces := f.bodies_concat [] reads read
  have place' := f.after_concat [] reads read
  rw [place] at progress place' pieces
  rw [place', List.flatten_append, List.flatten_singleton] at progress'
  dsimp only at progress place' pieces progress'
  constructor
  case broken => exact progress'.broken
  case complete => exact progress'.complete
  case still =>
    intro finished
    have exhausted := (exhausted_iff progress).mpr finished
    unfold adds
    rw [(exhausted.unframe _).1, (exhausted.unframe _).2.2, ite_self]
    exact ⟨rfl, rfl⟩
  case bodies =>
    rw [pieces]
    unfold adds
    split <;> rfl

/-- What the bodies are turned into grows by what the read adds. -/
theorem Next.flatMap_bodies {f g : Framing} {reads : List Bytes} {read input : Bytes}
    (next : Next f reads read g input) {text : Bytes → Bytes} (none : text [] = []) :
    (f.bodies [] (reads ++ [read])).flatMap text =
      (f.bodies [] reads).flatMap text ++ text (g.adds input) := by
  rw [next.bodies, List.flatMap_append]
  unfold adds
  split
  · rw [List.flatMap_singleton]
  · rw [none, List.flatMap_nil]

end Framing

end Gateway
end Llmbridge
