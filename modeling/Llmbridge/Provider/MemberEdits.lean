import Llmbridge.Edits
import Llmbridge.Provider.BodyScanCorrect
import Llmbridge.Provider.JsonScanTree

/-!
# Edits of the members of a root object

A member of a body's root may go as it is, go as spaces with the separator before
it, or go with another value.  Each of these is an edit of the body's bytes, and
the bytes so edited are the text of the tree edited the same way.
-/

namespace Llmbridge
namespace MemberEdits

open Rfc8259
open BodyScan (Placed placed)
open JsonScan (rawMembers)

/-! ## Whitespace -/

/-- One run of whitespace behind another. -/
def Ws.join (front back : Ws) : Ws where
  bytes := front.bytes ++ back.bytes
  ok c member := (List.mem_append.mp member).elim (front.ok c) (back.ok c)

/-- Spaces. -/
def Ws.spaces (n : Nat) : Ws where
  bytes := List.replicate n 0x20
  ok c member := by
    rw [List.eq_of_mem_replicate member]
    rfl

theorem noBytes_ws : ∀ c ∈ ([] : Bytes), isWs c = true := by simp

/-- No whitespace. -/
def Ws.none : Ws where
  bytes := []
  ok := noBytes_ws

/-! ## The members of an object as a list -/

/-- A member with the whitespace around it. -/
structure Entry where
  key : Head .object
  pre : Ws
  value : Json
  post : Ws

/-- The text of a member. -/
def Entry.render (e : Entry) : Bytes :=
  e.key.render ++ (e.pre.bytes ++ (e.value.render ++ e.post.bytes))

/-- The raw key and the raw value of a member. -/
def Entry.raw (e : Entry) : Bytes × Bytes :=
  ((Key.name e.key).bytes, e.value.render)

/-- The items of an object with these members. -/
def ofEntries : Entry → List Entry → Items .object
  | e, [] => .last e.key e.pre e.value e.post
  | e, f :: rest => .cons e.key e.pre e.value e.post (ofEntries f rest)

theorem exists_entries : ∀ items : Items .object, ∃ e rest, items = ofEntries e rest
  | .last key pre value post => ⟨⟨key, pre, value, post⟩, [], rfl⟩
  | .cons key pre value post rest => by
      obtain ⟨e, others, equal⟩ := exists_entries rest
      exact ⟨⟨key, pre, value, post⟩, e :: others, by rw [equal]; rfl⟩

theorem ofEntries_render (e : Entry) (rest : List Entry) :
    (ofEntries e rest).render =
      e.render ++ rest.flatMap fun f => 0x2c :: f.render := by
  induction rest generalizing e with
  | nil =>
      rw [ofEntries, Items.render, List.flatMap_nil, List.append_nil]
      rfl
  | cons f rest inductionHypothesis =>
      rw [ofEntries, Items.render, inductionHypothesis, List.flatMap_cons]
      simp only [Entry.render, List.append_assoc, List.cons_append]

/-! ## Pieces behind a member -/

/-- What follows a member: whitespace, or a comma and a member. -/
inductive Piece
  | blank (ws : Ws)
  | entry (e : Entry)

/-- The text of a piece, `lead` standing before a member. -/
def Piece.text (lead : Bytes) : Piece → Bytes
  | .blank ws => ws.bytes
  | .entry e => lead ++ e.render

/-- The text of a piece behind a member. -/
def Piece.render (piece : Piece) : Bytes :=
  piece.text [0x2c]

/-- The member of a piece. -/
def Piece.raw : Piece → Option (Bytes × Bytes)
  | .blank _ => none
  | .entry e => some e.raw

/-- A member and the pieces behind it, whitespace going to the member before
it. -/
def weave : Entry → List Piece → Items .object
  | e, [] => .last e.key e.pre e.value e.post
  | e, .blank ws :: rest => weave { e with post := Ws.join e.post ws } rest
  | e, .entry f :: rest => .cons e.key e.pre e.value e.post (weave f rest)

theorem weave_render (e : Entry) (pieces : List Piece) :
    (weave e pieces).render = e.render ++ pieces.flatMap Piece.render := by
  induction pieces generalizing e with
  | nil =>
      rw [weave, Items.render, List.flatMap_nil, List.append_nil]
      rfl
  | cons piece rest inductionHypothesis =>
      cases piece with
      | blank ws =>
          rw [weave, inductionHypothesis, List.flatMap_cons]
          simp only [Entry.render, Ws.join, Piece.render, Piece.text, List.append_assoc]
      | entry f =>
          rw [weave, Items.render, inductionHypothesis, List.flatMap_cons]
          simp only [Entry.render, Piece.render, Piece.text, List.append_assoc,
            List.cons_append, List.nil_append]

theorem weave_raw (e : Entry) (pieces : List Piece) :
    rawMembers (.full .object (weave e pieces)) =
      e.raw :: pieces.filterMap Piece.raw := by
  rw [rawMembers, Json.members]
  induction pieces generalizing e with
  | nil =>
      rw [weave, Items.members]
      rfl
  | cons piece rest inductionHypothesis =>
      cases piece with
      | blank ws =>
          rw [weave, inductionHypothesis, List.filterMap_cons]
          rfl
      | entry f =>
          rw [weave, Items.members, List.map_cons, inductionHypothesis,
            List.filterMap_cons]
          rfl

/-! ## Changes -/

/-- What happens to a member. -/
inductive Change
  | keep
  /-- It goes as spaces, with the separator before it. -/
  | blank
  /-- Its value is a string, whose contents go replaced. -/
  | contents (chars : Chars)
  /-- Its value goes replaced, with whitespace behind it. -/
  | value (value : Json) (fill : Ws)

namespace Change

/-- The edits of the body. -/
def edits (p : Placed) : Change → List (Edit Byte)
  | .keep => []
  | .blank => [⟨p.sep, p.stop, (Ws.spaces (p.stop - p.sep)).bytes⟩]
  | .contents chars => [⟨p.valueAt + 1, p.stop - 1, chars.bytes⟩]
  | .value v fill => [⟨p.valueAt, p.stop, v.render ++ fill.bytes⟩]

/-- The member as it goes, behind a comma. -/
def piece (p : Placed) (e : Entry) : Change → Piece
  | .keep => .entry e
  | .blank => .blank (Ws.join (Ws.spaces (p.stop - p.sep)) e.post)
  | .contents chars => .entry { e with value := .string chars }
  | .value v fill => .entry { e with value := v, post := Ws.join fill e.post }

/-- The raw key and the raw value of the member as it goes. -/
def raw (p : Placed) : Change → Option (Bytes × Bytes)
  | .keep => some (p.name, p.value.render)
  | .blank => none
  | .contents chars => some (p.name, quoted chars.bytes)
  | .value v _ => some (p.name, v.render)

/-- Only the contents of a string are replaced. -/
def Fits (p : Placed) : Change → Prop
  | .contents _ => p.value.isString = true
  | _ => True

end Change

/-- The members behind a separator, with their places. -/
def placedFrom : Nat → List Entry → List Placed
  | _, [] => []
  | sep, e :: rest =>
      Placed.of sep (sep + 1) e.key e.pre e.value ::
        placedFrom (sep + 1 + e.render.length) rest

theorem Placed.stop_of (sep «at» : Nat) (e : Entry) :
    (Placed.of sep «at» e.key e.pre e.value).stop + e.post.bytes.length =
      «at» + e.render.length := by
  simp only [Placed.stop, Placed.of, Entry.render, List.length_append,
    JsonScan.Head.render_object]
  omega

theorem placed_ofEntries (sep «at» : Nat) (e : Entry) (rest : List Entry) :
    placed sep «at» (ofEntries e rest) =
      Placed.of sep «at» e.key e.pre e.value ::
        placedFrom («at» + e.render.length) rest := by
  induction rest generalizing sep «at» e with
  | nil =>
      rw [ofEntries, placed]
      rfl
  | cons f rest inductionHypothesis =>
      rw [ofEntries, placed, inductionHypothesis, Placed.stop_of, placedFrom]

section Changes

variable (change : Placed → Change)

/-- The members behind a separator as they go. -/
def pieces : Nat → List Entry → List Piece
  | _, [] => []
  | sep, e :: rest =>
      (change (Placed.of sep (sep + 1) e.key e.pre e.value)).piece
          (Placed.of sep (sep + 1) e.key e.pre e.value) e ::
        pieces (sep + 1 + e.render.length) rest

/-- The edits of members. -/
def editsOf (ps : List Placed) : List (Edit Byte) :=
  ps.flatMap fun p => (change p).edits p

/-- The members as they go. -/
def rawsOf (ps : List Placed) : List (Bytes × Bytes) :=
  ps.filterMap fun p => (change p).raw p

theorem piece_raw (sep «at» : Nat) (e : Entry) (c : Change) :
    (c.piece (Placed.of sep «at» e.key e.pre e.value) e).raw =
      c.raw (Placed.of sep «at» e.key e.pre e.value) := by
  cases c <;> rfl

theorem pieces_raw (sep : Nat) (rest : List Entry) :
    (pieces change sep rest).filterMap Piece.raw =
      rawsOf change (placedFrom sep rest) := by
  induction rest generalizing sep with
  | nil => rfl
  | cons e rest inductionHypothesis =>
      rw [pieces, rawsOf, placedFrom, List.filterMap_cons, List.filterMap_cons,
        piece_raw, inductionHypothesis]
      rfl

end Changes

/-! ## Edited bytes -/

section Bytes

variable {body bytes : Bytes} {«at» sep j : Nat}

theorem slice_located (located : Located body «at» bytes) :
    slice body «at» («at» + bytes.length) = bytes := by
  rw [slice, Nat.add_sub_cancel_left]
  exact located.substr

theorem Entry.render_pos (e : Entry) : 0 < e.render.length := by
  simp only [Entry.render, JsonScan.Head.render_object, Key.render, quoted,
    List.length_append, List.length_cons]
  omega

/-- The bytes of a member with its edit, up to the member behind it. -/
theorem rewrite_member
    (lead : Bytes) (e : Entry) {p : Placed} (change : Change)
    (place : p = Placed.of sep (sep + lead.length) e.key e.pre e.value)
    (fits : change.Fits p) (located : Located body sep (lead ++ e.render))
    {later : List (Edit Byte)}
    (behind : ∀ f ∈ later, sep + lead.length + e.render.length ≤ f.at)
    (inside : sep + lead.length + e.render.length ≤ j) :
    Edit.rewrite body (change.edits p ++ later) sep j =
      (change.piece p e).text lead ++
        Edit.rewrite body later (sep + lead.length + e.render.length) j := by
  have nonempty := e.render_pos
  have valuePos : 0 < e.value.render.length := by
    obtain ⟨first, others, shape, -⟩ := e.value.head
    rw [shape]
    exact Nat.succ_pos _
  have size : e.render.length = (Head.render e.key).length + e.pre.bytes.length +
      e.value.render.length + e.post.bytes.length := by
    simp only [Entry.render, List.length_append]
    omega
  have valueAt : p.valueAt =
      sep + lead.length + (Head.render e.key).length + e.pre.bytes.length := by
    rw [place]
    rfl
  have stop : p.stop = p.valueAt + e.value.render.length := by
    rw [place]
    rfl
  have sepAt : p.sep = sep := by rw [place]; rfl
  obtain ⟨-, whole⟩ := located.split
  rw [Entry.render] at whole
  have keyed := whole.split.1
  have posted := whole.split.2.split.2.split.2
  have valued := whole.split.2.split.2.split.1
  rw [← valueAt] at posted valued
  rw [← stop] at posted
  have after : slice body p.stop (sep + lead.length + e.render.length) =
      e.post.bytes := by
    have found := slice_located posted
    rwa [show p.stop + e.post.bytes.length = sep + lead.length + e.render.length by
      omega] at found
  have front : slice body sep p.valueAt =
      lead ++ (Head.render e.key ++ e.pre.bytes) := by
    have shape : lead ++ e.render = (lead ++ (Head.render e.key ++ e.pre.bytes)) ++
        (e.value.render ++ e.post.bytes) := by
      simp only [Entry.render, List.append_assoc]
    have found := slice_located (shape ▸ located).split.1
    rwa [show sep + (lead ++ (Head.render e.key ++ e.pre.bytes)).length = p.valueAt by
      simp only [List.length_append]; omega] at found
  have rest := Edit.rewrite_front body behind
    (show p.stop ≤ _ by omega) inside
  cases change with
  | keep =>
      have all := Edit.rewrite_front body behind
        (show sep ≤ _ by omega) inside
      rw [Change.edits, List.nil_append, all]
      have found := slice_located located
      rw [List.length_append, ← Nat.add_assoc] at found
      rw [found]
      rfl
  | blank =>
      rw [Change.edits, List.cons_append, List.nil_append, Edit.rewrite,
        if_neg (by dsimp only; omega), rest, after, sepAt, slice_self]
      simp only [Change.piece, Piece.text, Ws.join, List.nil_append, List.append_assoc,
        sepAt]
  | value v fill =>
      rw [Change.edits, List.cons_append, List.nil_append, Edit.rewrite,
        if_neg (by dsimp only; omega), rest, after, front]
      simp only [Change.piece, Piece.text, Ws.join, Entry.render, List.append_assoc]
  | contents chars =>
      have isString : e.value.isString = true := by
        rw [place] at fits
        exact fits
      obtain ⟨s, equal⟩ := Json.exists_string isString
      have quotes : e.value.render.length = s.bytes.length + 2 := by
        rw [equal, Json.render, quoted]
        simp
      rw [equal, Json.render, quoted] at valued
      have opening : slice body p.valueAt (p.valueAt + 1) = [0x22] :=
        slice_located (@Located.split _ _ [0x22] _ valued).1
      have closing : slice body (p.stop - 1) p.stop = [0x22] := by
        have found := slice_located valued.tail.split.2
        rwa [List.length_singleton,
          show p.valueAt + 1 + s.bytes.length = p.stop - 1 by omega,
          show p.stop - 1 + 1 = p.stop by omega] at found
      have rest' := Edit.rewrite_front body behind
        (show p.stop - 1 ≤ _ by omega) inside
      rw [Change.edits, List.cons_append, List.nil_append, Edit.rewrite,
        if_neg (by dsimp only; omega), rest',
        ← slice_append body (show sep ≤ p.valueAt by omega) (Nat.le_succ _),
        ← slice_append body (show p.stop - 1 ≤ p.stop by omega) (by omega),
        after, front, opening, closing]
      simp only [Change.piece, Piece.text, Entry.render, Json.render, quoted,
        List.append_assoc, List.cons_append, List.nil_append]

/-- A string has its quotes. -/
theorem Placed.two_le_of_isString {p : Placed} (isString : p.value.isString = true) :
    2 ≤ p.value.render.length := by
  obtain ⟨s, equal⟩ := Json.exists_string isString
  simp [equal, Json.render, quoted]

/-- A member's edit is inside the member. -/
theorem edits_inside
    {p : Placed} {change : Change} (fits : change.Fits p) (before : p.sep ≤ p.valueAt)
    {f : Edit Byte} (member : f ∈ change.edits p) :
    p.sep ≤ f.at ∧ f.at ≤ f.stop ∧ f.stop ≤ p.stop := by
  have stop : p.stop = p.valueAt + p.value.render.length := rfl
  cases change with
  | keep => simp [Change.edits] at member
  | blank =>
      rw [Change.edits, List.mem_singleton] at member
      subst member
      exact ⟨Nat.le_refl _, by dsimp only; omega, Nat.le_refl _⟩
  | value v fill =>
      rw [Change.edits, List.mem_singleton] at member
      subst member
      exact ⟨before, by dsimp only; omega, Nat.le_refl _⟩
  | contents chars =>
      rw [Change.edits, List.mem_singleton] at member
      subst member
      have quotes := Placed.two_le_of_isString (p := p) fits
      exact ⟨by dsimp only; omega, by dsimp only; omega, Nat.sub_le _ _⟩

theorem placedFrom_bounds :
    ∀ {rest : List Entry} {sep : Nat} {p : Placed}, p ∈ placedFrom sep rest →
      sep ≤ p.sep ∧ p.sep ≤ p.valueAt ∧
        p.stop ≤ sep + (rest.flatMap fun f => 0x2c :: f.render).length
  | e :: rest, sep, p, member => by
      have stop := Placed.stop_of sep (sep + 1) e
      rw [List.flatMap_cons, List.length_append, List.length_cons]
      rw [placedFrom, List.mem_cons] at member
      rcases member with rfl | member
      · refine ⟨Nat.le_refl _, ?_, by omega⟩
        simp only [Placed.of]
        omega
      · obtain ⟨after, inner, before⟩ := placedFrom_bounds member
        exact ⟨by omega, inner, by omega⟩

/-- Edits of the members behind a separator are behind it. -/
theorem editsOf_behind
    {change : Placed → Change} {rest : List Entry}
    (fits : ∀ p ∈ placedFrom sep rest, (change p).Fits p) {f : Edit Byte}
    (member : f ∈ editsOf change (placedFrom sep rest)) : sep ≤ f.at := by
  rw [editsOf, List.mem_flatMap] at member
  obtain ⟨p, inside, edit⟩ := member
  obtain ⟨after, inner, -⟩ := placedFrom_bounds inside
  exact Nat.le_trans after (edits_inside (fits p inside) inner edit).1

/-- The bytes of members behind a separator with their edits. -/
theorem rewrite_members
    (later : List (Edit Byte)) (change : Placed → Change) :
    ∀ (rest : List Entry) (sep : Nat),
      (∀ p ∈ placedFrom sep rest, (change p).Fits p) →
      Located body sep (rest.flatMap fun f => 0x2c :: f.render) →
      (∀ f ∈ later, sep + (rest.flatMap fun f => 0x2c :: f.render).length ≤ f.at) →
      sep + (rest.flatMap fun f => 0x2c :: f.render).length ≤ j →
      Edit.rewrite body (editsOf change (placedFrom sep rest) ++ later) sep j =
        (pieces change sep rest).flatMap Piece.render ++
          Edit.rewrite body later
            (sep + (rest.flatMap fun f => 0x2c :: f.render).length) j
  | [], sep, _, _, _, _ => rfl
  | e :: rest, sep, fits, located, behind, inside => by
      rw [List.flatMap_cons] at located
      have size : ((e :: rest).flatMap fun f => 0x2c :: f.render).length =
          1 + e.render.length + (rest.flatMap fun f => 0x2c :: f.render).length := by
        rw [List.flatMap_cons, List.length_append, List.length_cons]
        omega
      rw [size] at behind inside ⊢
      obtain ⟨first, others⟩ := located.split
      rw [List.length_cons, Nat.add_comm _ 1, ← Nat.add_assoc] at others
      have fits' : ∀ p ∈ placedFrom (sep + 1 + e.render.length) rest,
          (change p).Fits p := fun p member => fits p (by simp [placedFrom, member])
      rw [placedFrom, pieces, editsOf, List.flatMap_cons, List.append_assoc,
        rewrite_member [0x2c] (p := Placed.of sep (sep + 1) e.key e.pre e.value) e _ rfl
          (fits _ (by simp [placedFrom])) first ?_
          (by simp only [List.length_singleton]; omega),
        List.flatMap_cons, List.append_assoc, List.length_singleton]
      · have tail := rewrite_members _ change rest (sep + 1 + e.render.length) fits' others
          (fun f member => by have := behind f member; omega) (by omega)
        rw [editsOf] at tail
        rw [tail, ← Nat.add_assoc sep, ← Nat.add_assoc sep]
        rfl
      · intro f member
        rw [List.mem_append] at member
        rw [List.length_singleton]
        rcases member with member | member
        · exact editsOf_behind fits' member
        · have := behind f member
          omega

end Bytes

/-! ## Members in order -/

/-- Where a member stands inside a span. -/
structure Within (p : Placed) (i j : Nat) : Prop where
  start : i ≤ p.sep
  sep : p.sep ≤ p.valueAt
  value : p.valueAt < p.stop
  stop : p.stop ≤ j

theorem within_of (sep «at» : Nat) (before : sep ≤ «at») (e : Entry) :
    Within (Placed.of sep «at» e.key e.pre e.value) sep («at» + e.render.length) := by
  have stop := Placed.stop_of sep «at» e
  obtain ⟨first, others, shape, -⟩ := e.value.head
  refine ⟨Nat.le_refl _, ?_, ?_, by omega⟩
  · simp only [Placed.of]
    omega
  · simp only [Placed.of, Placed.stop, shape, List.length_cons]
    omega

theorem placedFrom_ordered :
    ∀ (rest : List Entry) (sep : Nat),
      (∀ p ∈ placedFrom sep rest, Within p sep
        (sep + (rest.flatMap fun f => 0x2c :: f.render).length)) ∧
      (placedFrom sep rest).Pairwise fun p q => p.stop ≤ q.sep
  | [], sep => by simp [placedFrom]
  | e :: rest, sep => by
      obtain ⟨within, ordered⟩ := placedFrom_ordered rest (sep + 1 + e.render.length)
      have first := within_of sep (sep + 1) (Nat.le_succ _) e
      rw [List.flatMap_cons, List.length_append, List.length_cons, placedFrom]
      refine ⟨?_, List.pairwise_cons.mpr ⟨fun q member => ?_, ordered⟩⟩
      · intro p member
        rcases List.mem_cons.mp member with rfl | member
        · exact ⟨first.start, first.sep, first.value, by have := first.stop; omega⟩
        · obtain ⟨start, sepAt, value, stop⟩ := within p member
          exact ⟨by omega, sepAt, value, by omega⟩
      · exact Nat.le_trans first.stop (within q member).start

/-- The members of a root stand one behind the other, inside the body. -/
theorem rootMembers_ordered (text : Text) :
    (∀ p ∈ BodyScan.rootMembers text,
      Within p (text.pre.bytes.length + 1) text.render.length) ∧
    (BodyScan.rootMembers text).Pairwise fun p q => p.stop ≤ q.sep := by
  obtain ⟨pre, value, post⟩ := text
  match value with
  | .full .object items =>
      obtain ⟨e, rest, rfl⟩ := exists_entries items
      have members : BodyScan.rootMembers ⟨pre, .full .object (ofEntries e rest), post⟩ =
          Placed.of (pre.bytes.length + 1) (pre.bytes.length + 1) e.key e.pre e.value ::
            placedFrom (pre.bytes.length + 1 + e.render.length) rest :=
        placed_ofEntries ..
      have size : (Text.render ⟨pre, .full .object (ofEntries e rest), post⟩).length =
          pre.bytes.length + 1 + e.render.length +
            (rest.flatMap fun f => 0x2c :: f.render).length + 1 + post.bytes.length := by
        simp only [Text.render, Json.render, ofEntries_render, List.length_append,
          List.length_cons, List.length_nil]
        omega
      obtain ⟨within, ordered⟩ :=
        placedFrom_ordered rest (pre.bytes.length + 1 + e.render.length)
      have first := within_of (pre.bytes.length + 1) (pre.bytes.length + 1)
        (Nat.le_refl _) e
      rw [members, size]
      refine ⟨?_, List.pairwise_cons.mpr ⟨fun q member => ?_, ordered⟩⟩
      · intro p member
        rcases List.mem_cons.mp member with rfl | member
        · exact ⟨first.start, first.sep, first.value, by have := first.stop; omega⟩
        · obtain ⟨start, sepAt, value, stop⟩ := within p member
          exact ⟨by dsimp only; omega, sepAt, value, by omega⟩
      · exact Nat.le_trans first.stop (within q member).start
  | .lit _ | .number _ | .string _ | .empty .array _ | .empty .object _
  | .full .array _ => exact ⟨by simp [BodyScan.rootMembers, Placed.inside], by
      simp [BodyScan.rootMembers, Placed.inside]⟩

/-- The edits of members that stand one behind the other are in order. -/
theorem editsOf_ordered
    {change : Placed → Change} {ps : List Placed} {i j : Nat}
    (within : ∀ p ∈ ps, Within p i j) (ordered : ps.Pairwise fun p q => p.stop ≤ q.sep)
    (fits : ∀ p ∈ ps, (change p).Fits p) : Edit.Ordered (editsOf change ps) := by
  induction ps with
  | nil => exact Edit.Ordered.nil
  | cons p ps inductionHypothesis =>
      obtain ⟨behind, ordered⟩ := List.pairwise_cons.mp ordered
      have first := within p List.mem_cons_self
      have own := fun f (member : f ∈ (change p).edits p) =>
        edits_inside (fits p List.mem_cons_self) first.sep member
      rw [editsOf, List.flatMap_cons]
      refine Edit.Ordered.append ⟨fun f member => (own f member).2.1, ?_⟩
        (inductionHypothesis (fun q member => within q (List.mem_cons_of_mem p member))
          ordered fun q member => fits q (List.mem_cons_of_mem p member))
        p.stop (fun f member => (own f member).2.2) ?_
      · cases change p <;> simp [Change.edits]
      · intro f member
        rw [List.mem_flatMap] at member
        obtain ⟨q, inside, edit⟩ := member
        have inner := within q (List.mem_cons_of_mem p inside)
        exact Nat.le_trans (behind q inside)
          (edits_inside (fits q (List.mem_cons_of_mem p inside)) inner.sep edit).1

/-! ## Edited roots -/

/-- What stands in an object between its brackets: members, or whitespace. -/
theorem object_cases {value : Json} (isObject : value.isObject = true) :
    (∃ inside, value = .empty .object inside) ∨
      ∃ e rest, value = .full .object (ofEntries e rest) := by
  obtain ⟨inside, rfl⟩ | ⟨items, rfl⟩ := Json.isObject_cases isObject
  · exact Or.inl ⟨inside, rfl⟩
  · obtain ⟨e, rest, equal⟩ := exists_entries items
    exact Or.inr ⟨e, rest, by rw [equal]⟩

/-- The first member stays. -/
def firstStays (change : Placed → Change) : List Placed → Bool
  | [] => false
  | p :: _ =>
      match change p with
      | .blank => false
      | _ => true

/-- The members that go in, separated by commas. -/
def membersText : List Entry → Bytes
  | [] => []
  | m :: rest => m.render ++ rest.flatMap fun f => 0x2c :: f.render

theorem membersText_concat (ms : List Entry) (m : Entry) :
    membersText (ms ++ [m]) =
      membersText ms ++ ((if ms.isEmpty then [] else [0x2c]) ++ m.render) := by
  cases ms with
  | nil => simp [membersText]
  | cons first rest => simp [membersText]

theorem membersText_isEmpty (ms : List Entry) :
    (membersText ms).isEmpty = ms.isEmpty := by
  cases ms with
  | nil => rfl
  | cons m rest =>
      have nonempty := m.render_pos
      rw [membersText, List.isEmpty_cons, List.isEmpty_eq_false_iff]
      intro none
      have size := congrArg List.length none
      rw [List.length_append, List.length_nil] at size
      omega

/-- The plain bytes of a text, as the contents of a string. -/
def plainChars (bytes : Bytes) : Chars where
  bytes := bytes.filter isPlain
  ok := by
    induction bytes with
    | nil => exact IsChars.nil
    | cons c bytes inductionHypothesis =>
        by_cases plain : isPlain c = true
        · rw [List.filter_cons_of_pos plain]
          exact IsChars.plain c _ plain inductionHypothesis
        · rwa [List.filter_cons_of_neg plain]

theorem plainChars_bytes {bytes : Bytes} (plain : ∀ c ∈ bytes, isPlain c = true) :
    (plainChars bytes).bytes = bytes :=
  List.filter_eq_self.mpr plain

/-- A member whose value is a string, written without whitespace. -/
def Entry.plain (m : Bytes × Bytes) : Entry where
  key := (⟨Ws.none, plainChars m.1, Ws.none⟩ : Key)
  pre := Ws.none
  value := .string (plainChars m.2)
  post := Ws.none

/-- Both the name and the value go as they are. -/
def PlainMember (m : Bytes × Bytes) : Prop :=
  (∀ c ∈ m.1, isPlain c = true) ∧ ∀ c ∈ m.2, isPlain c = true

theorem Entry.plain_raw {m : Bytes × Bytes} (plain : PlainMember m) :
    (Entry.plain m).raw = (m.1, quoted m.2) := by
  rw [Entry.raw, Entry.plain, Json.render, plainChars_bytes plain.2]
  exact congrArg (·, _) (plainChars_bytes plain.1)

theorem Entry.plain_render {m : Bytes × Bytes} (plain : PlainMember m) :
    (Entry.plain m).render = 0x22 :: (m.1 ++ (ascii "\":\"" ++ (m.2 ++ [0x22]))) := by
  have colon : ascii "\":\"" = [0x22, 0x3a, 0x22] := by decide
  rw [Entry.render, Entry.plain, JsonScan.Head.render_object, Key.render, Json.render,
    quoted, quoted, plainChars_bytes plain.1, plainChars_bytes plain.2, colon]
  simp [Ws.none]

/-- The bytes through the brace of a root object. -/
theorem brace_length (pre : Ws) :
    (pre.bytes ++ [0x7b]).length = pre.bytes.length + 1 := by
  rw [List.length_append, List.length_singleton]

section Roots

variable {text : Text} {change : Placed → Change}

theorem object_render (pre post : Ws) (items : Items .object) :
    Text.render ⟨pre, .full .object items, post⟩ =
      (pre.bytes ++ [0x7b]) ++ (items.render ++ 0x7d :: post.bytes) := by
  simp [Text.render, Json.render, Kind.opens, Kind.closes]

/-- The members of a root object and what follows them, edited. -/
theorem rewrite_root
    {pre post : Ws} (e : Entry) (rest : List Entry)
    (whole : text = ⟨pre, .full .object (ofEntries e rest), post⟩)
    (fits : ∀ p ∈ BodyScan.rootMembers text, (change p).Fits p) :
    let p := Placed.of (pre.bytes.length + 1) (pre.bytes.length + 1) e.key e.pre e.value
    Edit.rewrite text.render (editsOf change (BodyScan.rootMembers text))
        (pre.bytes.length + 1) text.render.length =
      ((change p).piece p e).text [] ++
        ((pieces change (pre.bytes.length + 1 + e.render.length) rest).flatMap
          Piece.render ++ 0x7d :: post.bytes) := by
  intro p
  have members : BodyScan.rootMembers text =
      p :: placedFrom (pre.bytes.length + 1 + e.render.length) rest := by
    rw [whole]
    exact placed_ofEntries ..
  rw [members] at fits ⊢
  have render : text.render = (pre.bytes ++ [0x7b]) ++ (e.render ++
      ((rest.flatMap fun f => 0x2c :: f.render) ++ (0x7d :: post.bytes))) := by
    rw [whole, Text.render, Json.render, ofEntries_render]
    simp [Kind.opens, Kind.closes]
  have size := congrArg List.length render
  simp only [List.length_append, List.length_cons, List.length_nil] at size
  have located : Located text.render (pre.bytes.length + 1) (e.render ++
      ((rest.flatMap fun f => 0x2c :: f.render) ++ (0x7d :: post.bytes))) := by
    refine ⟨[], ?_⟩
    rw [render, List.append_nil,
      show pre.bytes.length + 1 = (pre.bytes ++ [0x7b]).length by simp, List.drop_left]
  obtain ⟨first, others⟩ := located.split
  obtain ⟨others, last⟩ := others.split
  have fits' := fun q member => fits q (List.mem_cons_of_mem p member)
  have tail := rewrite_members [] (j := text.render.length) change rest _ fits'
    others (by simp) (by omega)
  have ending := slice_located last
  rw [editsOf, List.flatMap_cons,
    rewrite_member [] (p := p) e (change p) rfl
      (fits p List.mem_cons_self) first ?_
      (by simp only [List.length_nil]; omega)]
  · rw [List.append_nil] at tail
    rw [List.length_nil, Nat.add_zero]
    rw [editsOf] at tail
    rw [tail, Edit.rewrite]
    rw [List.length_cons] at ending
    rw [← ending]
    congr 3
    omega
  · intro f member
    exact editsOf_behind fits' member

/-- The edits of a root object are behind its brace. -/
theorem rootEdits_behind
    {pre post : Ws} (e : Entry) (rest : List Entry)
    (whole : text = ⟨pre, .full .object (ofEntries e rest), post⟩)
    (fits : ∀ p ∈ BodyScan.rootMembers text, (change p).Fits p) :
    ∀ f ∈ editsOf change (BodyScan.rootMembers text), pre.bytes.length + 1 ≤ f.at := by
  have members : BodyScan.rootMembers text =
      Placed.of (pre.bytes.length + 1) (pre.bytes.length + 1) e.key e.pre e.value ::
        placedFrom (pre.bytes.length + 1 + e.render.length) rest := by
    rw [whole]
    exact placed_ofEntries ..
  intro f member
  rw [members] at fits member
  rw [editsOf, List.flatMap_cons, List.mem_append] at member
  rcases member with member | member
  · refine (edits_inside (fits _ List.mem_cons_self) ?_ member).1
    simp only [Placed.of]
    omega
  · have := editsOf_behind (fun q inside => fits q (List.mem_cons_of_mem _ inside)) member
    omega

/-- A member that is not blanked goes as a member. -/
theorem piece_entry
    {p : Placed} {e : Entry} {c : Change} (stays : c ≠ .blank) :
    ∃ f, c.piece p e = .entry f := by
  cases c with
  | blank => exact absurd rfl stays
  | keep | contents | value => exact ⟨_, rfl⟩

/-- The whole text of a root with these members. -/
theorem woven_render
    (pre post fill : Ws) (e : Entry) (others : List Piece) :
    pre.bytes ++ [0x7b] ++ (e.render ++ (others.flatMap Piece.render ++
        0x7d :: post.bytes)) ++ fill.bytes =
      Text.render ⟨pre, .full .object (weave e others), Ws.join post fill⟩ := by
  rw [Text.render, Json.render, weave_render]
  simp [Kind.opens, Kind.closes, Ws.join]

/-- A root whose members are edited, the first staying, is a text. -/
theorem edit_root
    (fits : ∀ p ∈ BodyScan.rootMembers text, (change p).Fits p)
    (stays : ∀ p ∈ BodyScan.rootMembers text, change p ≠ .blank) (fill : Ws) :
    ∃ text' : Text,
      Edit.rewrite text.render (editsOf change (BodyScan.rootMembers text)) 0
          text.render.length ++ fill.bytes = text'.render ∧
        rawMembers text'.value = rawsOf change (BodyScan.rootMembers text) := by
  have untouched : BodyScan.rootMembers text = [] → rawMembers text.value = [] →
      ∃ text' : Text,
        Edit.rewrite text.render (editsOf change (BodyScan.rootMembers text)) 0
            text.render.length ++ fill.bytes = text'.render ∧
          rawMembers text'.value = rawsOf change (BodyScan.rootMembers text) := by
    intro none raws
    refine ⟨⟨text.pre, text.value, Ws.join text.post fill⟩, ?_, by rw [raws, none]; rfl⟩
    rw [none, editsOf, List.flatMap_nil, Edit.rewrite, slice, List.drop_zero,
      Nat.sub_zero, List.take_length, Text.render, Text.render]
    simp [Ws.join]
  cases kind : text.value.isObject with
  | false =>
      exact untouched (BodyScan.inside_of_not_object _ kind)
        (JsonScan.rawMembers_of_not_object kind)
  | true =>
      obtain ⟨pre, value, post⟩ := text
      obtain ⟨inside, equal⟩ | ⟨e, rest, equal⟩ := object_cases kind
      · dsimp only at equal
        subst equal
        exact untouched rfl rfl
      · dsimp only at equal
        subst equal
        have edited := rewrite_root e rest rfl fits
        have behind := rootEdits_behind e rest rfl fits
        have members : BodyScan.rootMembers ⟨pre, .full .object (ofEntries e rest), post⟩ =
            Placed.of (pre.bytes.length + 1) (pre.bytes.length + 1) e.key e.pre
                e.value ::
              placedFrom (pre.bytes.length + 1 + e.render.length) rest :=
          placed_ofEntries ..
        obtain ⟨f, piece⟩ := piece_entry (e := e) (stays _ (members ▸ List.mem_cons_self))
        dsimp only at edited
        rw [piece] at edited
        have opening : slice (Text.render ⟨pre, .full .object (ofEntries e rest), post⟩) 0
            (pre.bytes.length + 1) = pre.bytes ++ [0x7b] := by
          rw [object_render, ← brace_length]
          exact slice_left ..
        refine ⟨⟨pre, .full .object (weave f
          (pieces change (pre.bytes.length + 1 + e.render.length) rest)),
          Ws.join post fill⟩, ?_, ?_⟩
        · rw [Edit.rewrite_front _ behind (Nat.zero_le _) ?_, opening, edited]
          · exact woven_render pre post fill f _
          · simp only [Text.render, Json.render, List.length_append, List.length_cons]
            omega
        · rw [weave_raw, members, rawsOf, List.filterMap_cons, pieces_raw]
          have raw := piece_raw (pre.bytes.length + 1) (pre.bytes.length + 1) e
            (change (Placed.of (pre.bytes.length + 1) (pre.bytes.length + 1) e.key e.pre
              e.value))
          rw [piece] at raw
          rw [← raw]
          rfl

/-- A root that members go into, and whose own members are edited, is a text. -/
theorem insert_root
    (isObject : text.value.isObject = true)
    (fits : ∀ p ∈ BodyScan.rootMembers text, (change p).Fits p)
    (m : Entry) (ms : List Entry) {glue : Bytes}
    (glued : if firstStays change (BodyScan.rootMembers text) then glue = [0x2c]
      else ∀ c ∈ glue, isWs c = true) (fill : Ws) :
    ∃ text' : Text,
      Edit.rewrite text.render
          (⟨text.pre.bytes.length + 1, text.pre.bytes.length + 1,
              membersText (m :: ms) ++ glue⟩ ::
            editsOf change (BodyScan.rootMembers text)) 0
          text.render.length ++ fill.bytes = text'.render ∧
        rawMembers text'.value =
          (m :: ms).map Entry.raw ++ rawsOf change (BodyScan.rootMembers text) := by
  obtain ⟨pre, value, post⟩ := text
  have entries : ∀ rest : List Entry,
      (rest.map Piece.entry).flatMap Piece.render =
        rest.flatMap fun f => 0x2c :: f.render := by
    intro rest
    rw [List.flatMap_map]
    rfl
  have raws : ∀ rest : List Entry,
      (rest.map Piece.entry).filterMap Piece.raw = rest.map Entry.raw := by
    intro rest
    rw [List.filterMap_map]
    exact List.filterMap_eq_map (f := Entry.raw) ▸ rfl
  obtain ⟨inside, equal⟩ | ⟨e, rest, equal⟩ := object_cases isObject
  · dsimp only at equal
    subst equal
    have blank : ∀ c ∈ glue, isWs c = true := glued
    refine ⟨⟨pre, .full .object (weave m
      (ms.map Piece.entry ++ [.blank (Ws.join ⟨glue, blank⟩ inside)])),
      Ws.join post fill⟩, ?_, ?_⟩
    · have render : Text.render ⟨pre, .empty .object inside, post⟩ =
          (pre.bytes ++ [0x7b]) ++ (inside.bytes ++ 0x7d :: post.bytes) := by
        simp [Text.render, Json.render, Kind.opens, Kind.closes]
      rw [← woven_render, render, ← brace_length]
      have none : BodyScan.rootMembers ⟨pre, .empty .object inside, post⟩ = [] := rfl
      rw [none, editsOf, List.flatMap_nil, Edit.rewrite, if_neg, Edit.rewrite,
        slice_left, slice_right, membersText, List.flatMap_append, entries]
      · simp [Piece.render, Piece.text, Ws.join]
      · simp
    · rw [weave_raw, List.filterMap_append, raws]
      rfl
  · dsimp only at equal
    subst equal
    have edited := rewrite_root e rest rfl fits
    have behind := rootEdits_behind e rest rfl fits
    have members : BodyScan.rootMembers ⟨pre, .full .object (ofEntries e rest), post⟩ =
        Placed.of (pre.bytes.length + 1) (pre.bytes.length + 1) e.key e.pre e.value ::
          placedFrom (pre.bytes.length + 1 + e.render.length) rest :=
      placed_ofEntries ..
    have opening : slice (Text.render ⟨pre, .full .object (ofEntries e rest), post⟩) 0
        (pre.bytes.length + 1) = pre.bytes ++ [0x7b] := by
      rw [object_render, ← brace_length]
      exact slice_left ..
    have inside : ¬ (pre.bytes.length + 1 < 0 ∨
        (Text.render ⟨pre, .full .object (ofEntries e rest), post⟩).length ≤
          pre.bytes.length + 1) := by
      rw [object_render]
      simp
    have raw := piece_raw (pre.bytes.length + 1) (pre.bytes.length + 1) e
      (change (Placed.of (pre.bytes.length + 1) (pre.bytes.length + 1) e.key e.pre
        e.value))
    dsimp only at edited
    rw [Edit.rewrite, if_neg (by exact inside), opening, edited]
    generalize Placed.of (pre.bytes.length + 1) (pre.bytes.length + 1) e.key e.pre
      e.value = p at members raw
    rw [members] at glued ⊢
    rw [rawsOf, List.filterMap_cons, ← raw, ← rawsOf, ← pieces_raw]
    -- What goes in the first member's place, the glue before it.
    obtain ⟨piece, lead, woven⟩ : ∃ piece : Piece,
        glue ++ ((change p).piece p e).text [] = piece.render ∧
          piece.raw = ((change p).piece p e).raw := by
      cases first : change p with
      | blank =>
          rw [firstStays, first] at glued
          exact ⟨.blank (Ws.join ⟨glue, glued⟩ _), rfl, rfl⟩
      | keep | contents | value =>
          rw [firstStays, first] at glued
          obtain rfl : glue = [0x2c] := glued
          exact ⟨.entry _, rfl, rfl⟩
    refine ⟨⟨pre, .full .object (weave m (ms.map Piece.entry ++ piece ::
      pieces change (pre.bytes.length + 1 + e.render.length) rest)),
      Ws.join post fill⟩, ?_, ?_⟩
    · rw [← woven_render, List.flatMap_append, List.flatMap_cons, entries, membersText,
        ← lead]
      simp only [List.append_assoc]
    · rw [weave_raw, List.filterMap_append, raws, List.filterMap_cons, woven]
      rfl

end Roots

end MemberEdits
end Llmbridge
