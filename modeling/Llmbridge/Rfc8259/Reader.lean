import Llmbridge.Rfc8259.Grammar

/-!
# A reference reader for the grammar

The reader walks a byte string once and returns the concrete tree at its front
with the bytes that follow it.  It returns a tree exactly when the grammar has
one (`readValue_eq_some_iff`), so the grammar is decidable and every text has
one tree.  Programs that recognise JSON are compared with this reader.
-/

namespace Llmbridge
namespace Rfc8259

/-! ## Tokens -/

/-- The whitespace at the front and what follows it. -/
def readWs (s : Bytes) : Ws × Bytes :=
  (⟨s.takeWhile isWs, fun _ member => List.mem_takeWhile_imp member⟩,
    s.dropWhile isWs)

/-- What follows `word` at the front of `s`. -/
def strip : Bytes → Bytes → Option Bytes
  | [], s => some s
  | _ :: _, [] => none
  | w :: word, c :: s => if c = w then strip word s else none

/-- The contents of a string through its closing quote. -/
def readChars : Bytes → Option (Chars × Bytes)
  | [] => none
  | c :: rest =>
      if c = 0x22 then some (⟨[], .nil⟩, rest)
      else if c = 0x5c then
        match rest with
        | [] => none
        | e :: rest =>
            if escape : isEscape e = true then
              (readChars rest).map fun (chars, after) =>
                (⟨0x5c :: e :: chars.bytes, .escape _ _ escape chars.ok⟩, after)
            else if e = 0x75 then
              match rest with
              | h₁ :: h₂ :: h₃ :: h₄ :: rest =>
                  if hex : isHex h₁ = true ∧ isHex h₂ = true ∧
                      isHex h₃ = true ∧ isHex h₄ = true then
                    (readChars rest).map fun (chars, after) =>
                      (⟨0x5c :: 0x75 :: h₁ :: h₂ :: h₃ :: h₄ :: chars.bytes,
                        .unicode _ _ _ _ _ hex.1 hex.2.1 hex.2.2.1 hex.2.2.2
                          chars.ok⟩, after)
                  else none
              | _ => none
            else none
      else if plain : isPlain c = true then
        (readChars rest).map fun (chars, after) =>
          (⟨c :: chars.bytes, .plain _ _ plain chars.ok⟩, after)
      else none

/-- One or more digits and what follows them. -/
def readDigits (s : Bytes) : Option ({digits : Bytes // IsDigits digits} × Bytes) :=
  if some_digit : s.takeWhile isDigit ≠ [] then
    some (⟨s.takeWhile isDigit,
      some_digit, fun _ member => List.mem_takeWhile_imp member⟩, s.dropWhile isDigit)
  else none

/-- The optional minus sign. -/
def readMinus : Bytes → Bytes × Bytes
  | [] => ([], [])
  | c :: rest => if c = 0x2d then ([0x2d], rest) else ([], c :: rest)

/-- A zero standing alone, or digits that do not start with one. -/
def readInt : Bytes → Option (Bytes × Bytes)
  | [] => none
  | c :: rest =>
      if c = 0x30 then some ([0x30], rest)
      else (readDigits (c :: rest)).map fun (digits, after) => (digits.1, after)

/-- The optional fraction. -/
def readFrac : Bytes → Option (Bytes × Bytes)
  | [] => some ([], [])
  | c :: rest =>
      if c = 0x2e then
        (readDigits rest).map fun (digits, after) => (0x2e :: digits.1, after)
      else some ([], c :: rest)

/-- The optional sign of an exponent. -/
def readSign : Bytes → Bytes × Bytes
  | [] => ([], [])
  | c :: rest =>
      if c = 0x2b ∨ c = 0x2d then ([c], rest) else ([], c :: rest)

/-- The optional exponent. -/
def readExp : Bytes → Option (Bytes × Bytes)
  | [] => some ([], [])
  | c :: rest =>
      if c = 0x65 ∨ c = 0x45 then
        (readDigits (readSign rest).2).map fun (digits, after) =>
          (c :: ((readSign rest).1 ++ digits.1), after)
      else some ([], c :: rest)

/-- The bytes of a number and what follows them. -/
def readNumberBytes (s : Bytes) : Option (Bytes × Bytes) := do
  let (int, s₁) ← readInt (readMinus s).2
  let (frac, s₂) ← readFrac s₁
  let (exp, s₃) ← readExp s₂
  return ((readMinus s).1 ++ (int ++ (frac ++ exp)), s₃)

/-- The sign that was read, if any, is the front. -/
theorem readMinus_spec (s : Bytes) :
    ((readMinus s).1 = [] ∨ (readMinus s).1 = [0x2d]) ∧
      s = (readMinus s).1 ++ (readMinus s).2 := by
  cases s with
  | nil => simp [readMinus]
  | cons c rest =>
      by_cases minus : c = 0x2d <;> simp [readMinus, minus]

/-- The digits that were read are the front. -/
theorem readDigits_spec
    {s after : Bytes} {digits : {digits : Bytes // IsDigits digits}}
    (read : readDigits s = some (digits, after)) :
    s = digits.1 ++ after := by
  unfold readDigits at read
  split at read
  · simp only [Option.some.injEq, Prod.mk.injEq] at read
    obtain ⟨rfl, rfl⟩ := read
    simp
  · simp at read

/-- The integer part that was read is the front. -/
theorem readInt_spec
    {s int after : Bytes}
    (read : readInt s = some (int, after)) :
    IsInt int ∧ s = int ++ after := by
  cases s with
  | nil => simp [readInt] at read
  | cons c rest =>
      by_cases zero : c = 0x30
      · simp only [readInt, zero, if_true, Option.some.injEq,
          Prod.mk.injEq] at read
        obtain ⟨rfl, rfl⟩ := read
        exact ⟨Or.inl rfl, by simp [zero]⟩
      · simp only [readInt, zero, if_false, Option.map_eq_some_iff,
          Prod.mk.injEq, Prod.exists] at read
        obtain ⟨digits, after', digitsRead, rfl, rfl⟩ := read
        have split := readDigits_spec digitsRead
        refine ⟨Or.inr ⟨digits.2, ?_⟩, split⟩
        have nonempty := digits.2.1
        intro head
        obtain ⟨first, others, shape⟩ := List.exists_cons_of_ne_nil nonempty
        rw [shape] at split head
        simp only [List.cons_append, List.cons.injEq] at split
        simp only [List.head?_cons, Option.some.injEq] at head
        exact zero (split.1.trans head)

/-- The fraction that was read is the front. -/
theorem readFrac_spec
    {s frac after : Bytes}
    (read : readFrac s = some (frac, after)) :
    IsFrac frac ∧ s = frac ++ after := by
  cases s with
  | nil =>
      simp only [readFrac, Option.some.injEq, Prod.mk.injEq] at read
      obtain ⟨rfl, rfl⟩ := read
      exact ⟨Or.inl rfl, rfl⟩
  | cons c rest =>
      by_cases point : c = 0x2e
      · simp only [readFrac, point, if_true, Option.map_eq_some_iff,
          Prod.mk.injEq, Prod.exists] at read
        obtain ⟨digits, after', digitsRead, rfl, rfl⟩ := read
        exact ⟨Or.inr ⟨digits.1, digits.2, rfl⟩,
          by rw [point, readDigits_spec digitsRead]; rfl⟩
      · simp only [readFrac, point, if_false, Option.some.injEq,
          Prod.mk.injEq] at read
        obtain ⟨rfl, rfl⟩ := read
        exact ⟨Or.inl rfl, rfl⟩

/-- The exponent's sign that was read, if any, is the front. -/
theorem readSign_spec (s : Bytes) :
    ((readSign s).1 = [] ∨ (readSign s).1 = [0x2b] ∨ (readSign s).1 = [0x2d]) ∧
      s = (readSign s).1 ++ (readSign s).2 := by
  cases s with
  | nil => simp [readSign]
  | cons c rest =>
      by_cases sign : c = 0x2b ∨ c = 0x2d
      · rcases sign with rfl | rfl <;> simp [readSign]
      · simp [readSign, sign]

/-- The exponent that was read is the front. -/
theorem readExp_spec
    {s exp after : Bytes}
    (read : readExp s = some (exp, after)) :
    IsExp exp ∧ s = exp ++ after := by
  cases s with
  | nil =>
      simp only [readExp, Option.some.injEq, Prod.mk.injEq] at read
      obtain ⟨rfl, rfl⟩ := read
      exact ⟨Or.inl rfl, rfl⟩
  | cons c rest =>
      by_cases marker : c = 0x65 ∨ c = 0x45
      · simp only [readExp, marker, if_true, Option.map_eq_some_iff,
          Prod.mk.injEq, Prod.exists] at read
        obtain ⟨digits, after', digitsRead, rfl, rfl⟩ := read
        obtain ⟨signShape, signSplit⟩ := readSign_spec rest
        refine ⟨Or.inr ⟨c, (readSign rest).1, digits.1, marker, signShape,
          digits.2, rfl⟩, ?_⟩
        rw [List.cons_append, List.append_assoc,
          ← readDigits_spec digitsRead, ← signSplit]
      · simp only [readExp, marker, if_false, Option.some.injEq,
          Prod.mk.injEq] at read
        obtain ⟨rfl, rfl⟩ := read
        exact ⟨Or.inl rfl, rfl⟩

/-- The number that was read is the front. -/
theorem readNumberBytes_spec
    {s bytes after : Bytes}
    (read : readNumberBytes s = some (bytes, after)) :
    IsNumber bytes ∧ s = bytes ++ after := by
  simp only [readNumberBytes, Option.bind_eq_bind, Option.bind_eq_some_iff,
    Option.pure_def, Option.some.injEq, Prod.mk.injEq, Prod.exists] at read
  obtain ⟨int, s₁, intRead, frac, s₂, fracRead, exp, s₃, expRead, rfl, rfl⟩ :=
    read
  obtain ⟨minusShape, minusSplit⟩ := readMinus_spec s
  obtain ⟨intShape, intSplit⟩ := readInt_spec intRead
  obtain ⟨fracShape, fracSplit⟩ := readFrac_spec fracRead
  obtain ⟨expShape, expSplit⟩ := readExp_spec expRead
  refine ⟨⟨_, _, _, _, minusShape, intShape, fracShape, expShape, rfl⟩, ?_⟩
  rw [List.append_assoc, List.append_assoc, List.append_assoc, ← expSplit,
    ← fracSplit, ← intSplit, ← minusSplit]

/-- A number at the front and what follows it. -/
def readNumber (s : Bytes) : Option (Number × Bytes) :=
  match read : readNumberBytes s with
  | none => none
  | some (bytes, after) =>
      some (⟨bytes, (readNumberBytes_spec read).1⟩, after)

/-! ## Values -/

/-- What precedes an item's value: a key through its colon in an object. -/
def readHead : (kind : Kind) → Bytes → Option (Head kind × Bytes)
  | .array, s => some ((), s)
  | .object, s =>
      match (readWs s).2 with
      | 0x22 :: inside =>
          (readChars inside).bind fun (name, s₁) =>
            match (readWs s₁).2 with
            | 0x3a :: s₂ =>
                some (Key.mk (readWs s).1 name (readWs s₁).1, s₂)
            | _ => none
      | _ => none

/-- Items through the closing bracket, each value read by `readV`.  Every item
takes at least one byte, so the length of the input is fuel enough. -/
def readItems (readV : Bytes → Option (Json × Bytes)) (kind : Kind) :
    Nat → Bytes → Option (Items kind × Bytes)
  | 0, _ => none
  | fuel + 1, s =>
      (readHead kind s).bind fun (head, s₁) =>
        (readV (readWs s₁).2).bind fun (value, s₂) =>
          match (readWs s₂).2 with
          | [] => none
          | c :: s₃ =>
              if c = 0x2c then
                (readItems readV kind fuel s₃).map fun (rest, after) =>
                  (.cons head (readWs s₁).1 value (readWs s₂).1 rest, after)
              else if c = kind.closes then
                some (.last head (readWs s₁).1 value (readWs s₂).1, s₃)
              else none

/-- A container whose opening bracket was read. -/
def readContainer (readV : Bytes → Option (Json × Bytes)) (kind : Kind)
    (s : Bytes) : Option (Json × Bytes) :=
  match (readWs s).2 with
  | [] => none
  | c :: rest =>
      if c = kind.closes then some (.empty kind (readWs s).1, rest)
      else (readItems readV kind s.length s).map fun (items, after) =>
        (.full kind items, after)

/-- A literal name or a number. -/
def readScalar (c : Byte) (s : Bytes) : Option (Json × Bytes) :=
  if c = 0x74 then (strip (ascii "true") s).map fun after => (.lit .true, after)
  else if c = 0x66 then
    (strip (ascii "false") s).map fun after => (.lit .false, after)
  else if c = 0x6e then
    (strip (ascii "null") s).map fun after => (.lit .null, after)
  else (readNumber s).map fun (number, after) => (.number number, after)

/-- The value at the front of `s`, its containers nested at most `depth`
deep, and what follows it. -/
def readValue : (depth : Nat) → Bytes → Option (Json × Bytes)
  | _, [] => none
  | 0, c :: rest =>
      if c = 0x22 then
        (readChars rest).map fun (chars, after) => (.string chars, after)
      else if c = 0x7b ∨ c = 0x5b then none
      else readScalar c (c :: rest)
  | depth + 1, c :: rest =>
      if c = 0x22 then
        (readChars rest).map fun (chars, after) => (.string chars, after)
      else if c = 0x7b then readContainer (readValue depth) .object rest
      else if c = 0x5b then readContainer (readValue depth) .array rest
      else readScalar c (c :: rest)

/-- The whole of `s` as one text nested at most `depth` deep. -/
def readText (depth : Nat) (s : Bytes) : Option Text :=
  (readValue depth (readWs s).2).bind fun (value, s₁) =>
    if (readWs s₁).2 = [] then some ⟨(readWs s).1, value, (readWs s₁).1⟩
    else none

/-! ## Soundness: what is read is the front of the input -/

/-- The input is the whitespace read and what follows it. -/
theorem readWs_split (s : Bytes) :
    s = (readWs s).1.bytes ++ (readWs s).2 :=
  (List.takeWhile_append_dropWhile (p := isWs) (l := s)).symm

/-- What follows the whitespace read does not start with whitespace. -/
theorem readWs_stops (s : Bytes) :
    ∀ c rest, (readWs s).2 = c :: rest → isWs c = false := by
  intro c rest after
  have dropped : s.dropWhile isWs = c :: rest := after
  have nonempty : s.dropWhile isWs ≠ [] := by simp [dropped]
  have stopped := List.head_dropWhile_not isWs nonempty
  simpa [dropped] using stopped

/-- A word is taken off exactly where it is the front. -/
theorem strip_eq_some_iff {word s after : Bytes} :
    strip word s = some after ↔ s = word ++ after := by
  induction word generalizing s with
  | nil => simp [strip]
  | cons w word inductionHypothesis =>
      cases s with
      | nil => simp [strip]
      | cons c s =>
          by_cases same : c = w
          · simp [strip, same, inductionHypothesis]
          · simp [strip, same]

/-- The characters that were read, with the closing quote, are the front. -/
theorem readChars_spec
    {s after : Bytes} {chars : Chars}
    (read : readChars s = some (chars, after)) :
    s = chars.bytes ++ 0x22 :: after := by
  fun_induction readChars s generalizing chars after with
  | case1 => simp at read
  | case2 rest =>
      simp only [Option.some.injEq, Prod.mk.injEq] at read
      obtain ⟨rfl, rfl⟩ := read
      rfl
  | case3 => simp at read
  | case4 e rest escape _ inductionHypothesis =>
      simp only [Option.map_eq_some_iff, Prod.mk.injEq, Prod.exists] at read
      obtain ⟨inner, after', innerRead, rfl, rfl⟩ := read
      simp [inductionHypothesis innerRead]
  | case5 h₁ h₂ h₃ h₄ rest hex _ _ inductionHypothesis =>
      simp only [Option.map_eq_some_iff, Prod.mk.injEq, Prod.exists] at read
      obtain ⟨inner, after', innerRead, rfl, rfl⟩ := read
      simp [inductionHypothesis innerRead]
  | case6 => simp at read
  | case7 => simp at read
  | case8 => simp at read
  | case9 c rest notQuote notBackslash plain inductionHypothesis =>
      simp only [Option.map_eq_some_iff, Prod.mk.injEq, Prod.exists] at read
      obtain ⟨inner, after', innerRead, rfl, rfl⟩ := read
      simp [inductionHypothesis innerRead]
  | case10 => simp at read

/-- A number is read exactly where its bytes are. -/
theorem readNumber_eq_some_iff
    {s after : Bytes} {number : Number} :
    readNumber s = some (number, after) ↔
      readNumberBytes s = some (number.bytes, after) := by
  unfold readNumber
  split
  · next none => simp [none]
  · next bytes after' read =>
      constructor
      · intro equal
        simp only [Option.some.injEq, Prod.mk.injEq] at equal
        obtain ⟨rfl, rfl⟩ := equal
        exact read
      · intro equal
        rw [read] at equal
        simp only [Option.some.injEq, Prod.mk.injEq] at equal
        obtain ⟨rfl, rfl⟩ := equal
        rfl

/-- No number is read exactly where no bytes of one are. -/
theorem readNumber_eq_none_iff {s : Bytes} :
    readNumber s = none ↔ readNumberBytes s = none := by
  unfold readNumber
  split
  · next none => simp [none]
  · next some => simp [some]

/-- The number that was read is rendered in front. -/
theorem readNumber_spec
    {s after : Bytes} {number : Number}
    (read : readNumber s = some (number, after)) :
    s = number.bytes ++ after :=
  (readNumberBytes_spec (readNumber_eq_some_iff.mp read)).2

/-- The head of an item that was read is rendered in front. -/
theorem readHead_spec
    {kind : Kind} {s after : Bytes} {head : Head kind}
    (read : readHead kind s = some (head, after)) :
    s = head.render ++ after := by
  cases kind with
  | array =>
      simp only [readHead, Option.some.injEq] at read
      cases read
      rfl
  | object =>
      simp only [readHead] at read
      split at read
      · next inside quote =>
          simp only [Option.bind_eq_some_iff, Prod.exists] at read
          obtain ⟨name, s₁, nameRead, read⟩ := read
          split at read
          · next s₂ colon =>
              simp only [Option.some.injEq] at read
              cases read
              have first := readWs_split s
              have second := readWs_split s₁
              rw [quote, readChars_spec nameRead] at first
              rw [colon] at second
              conv_lhs => rw [first, second]
              simp [Head.render, Key.render, quoted]
          · simp at read
      · simp at read

section Soundness

variable {readV : Bytes → Option (Json × Bytes)} {depth : Nat}

/-- A value reader that returns what stands at the front of its input, nested
at most `depth` deep. -/
def ReadsFront (readV : Bytes → Option (Json × Bytes)) (depth : Nat) : Prop :=
  ∀ s value after, readV s = some (value, after) →
    s = value.render ++ after ∧ value.depth ≤ depth

/-- The items that were read are rendered in front, and no deeper than allowed. -/
theorem readItems_spec
    (front : ReadsFront readV depth)
    {kind : Kind} {fuel : Nat} {s after : Bytes} {items : Items kind}
    (read : readItems readV kind fuel s = some (items, after)) :
    s = items.render ++ kind.closes :: after ∧ items.depth ≤ depth := by
  induction fuel generalizing s items with
  | zero => simp [readItems] at read
  | succ fuel inductionHypothesis =>
      simp only [readItems, Option.bind_eq_some_iff, Prod.exists] at read
      obtain ⟨head, s₁, headRead, value, s₂, valueRead, read⟩ := read
      obtain ⟨valueSplit, valueDepth⟩ := front _ _ _ valueRead
      have split₁ := readWs_split s₁
      have split₂ := readWs_split s₂
      rw [valueSplit] at split₁
      split at read
      · simp at read
      · next c s₃ tail =>
          rw [tail] at split₂
          split at read
          · next comma =>
              simp only [Option.map_eq_some_iff, Prod.mk.injEq,
                Prod.exists] at read
              obtain ⟨rest, after', restRead, rfl, rfl⟩ := read
              obtain ⟨restSplit, restDepth⟩ := inductionHypothesis restRead
              refine ⟨?_, Nat.max_le.mpr ⟨valueDepth, restDepth⟩⟩
              conv_lhs =>
                rw [readHead_spec headRead, split₁, split₂, comma, restSplit]
              simp [Items.render]
          · split at read
            · next close =>
                simp only [Option.some.injEq, Prod.mk.injEq] at read
                obtain ⟨rfl, rfl⟩ := read
                refine ⟨?_, by simp [Items.depth, valueDepth]⟩
                conv_lhs => rw [readHead_spec headRead, split₁, split₂, close]
                simp [Items.render]
            · simp at read

/-- The container that was read is rendered in front. -/
theorem readContainer_spec
    (front : ReadsFront readV depth)
    {kind : Kind} {s after : Bytes} {value : Json}
    (read : readContainer readV kind s = some (value, after)) :
    kind.opens :: s = value.render ++ after ∧ value.depth ≤ depth + 1 := by
  unfold readContainer at read
  have split := readWs_split s
  split at read
  · simp at read
  · next c rest tail =>
      rw [tail] at split
      split at read
      · next close =>
          simp only [Option.some.injEq, Prod.mk.injEq] at read
          obtain ⟨rfl, rfl⟩ := read
          refine ⟨?_, by simp [Json.depth]⟩
          conv_lhs => rw [split, close]
          simp [Json.render]
      · simp only [Option.map_eq_some_iff, Prod.mk.injEq, Prod.exists] at read
        obtain ⟨items, after', itemsRead, rfl, rfl⟩ := read
        obtain ⟨itemsSplit, itemsDepth⟩ := readItems_spec front itemsRead
        refine ⟨?_, by simp [Json.depth, itemsDepth]⟩
        rw [itemsSplit]
        simp [Json.render]

end Soundness

/-- The scalar that was read is rendered in front. -/
theorem readScalar_spec
    {c : Byte} {s after : Bytes} {value : Json}
    (read : readScalar c s = some (value, after)) :
    s = value.render ++ after ∧ value.depth = 0 := by
  unfold readScalar at read
  split at read
  · simp only [Option.map_eq_some_iff, Prod.mk.injEq] at read
    obtain ⟨_, stripped, rfl, rfl⟩ := read
    exact ⟨strip_eq_some_iff.mp stripped, rfl⟩
  · split at read
    · simp only [Option.map_eq_some_iff, Prod.mk.injEq] at read
      obtain ⟨_, stripped, rfl, rfl⟩ := read
      exact ⟨strip_eq_some_iff.mp stripped, rfl⟩
    · split at read
      · simp only [Option.map_eq_some_iff, Prod.mk.injEq] at read
        obtain ⟨_, stripped, rfl, rfl⟩ := read
        exact ⟨strip_eq_some_iff.mp stripped, rfl⟩
      · simp only [Option.map_eq_some_iff, Prod.mk.injEq, Prod.exists] at read
        obtain ⟨number, after', numberRead, rfl, rfl⟩ := read
        exact ⟨readNumber_spec numberRead, rfl⟩

/-- The string that was read is rendered in front. -/
theorem readString_spec
    {rest after : Bytes} {value : Json}
    (read : (readChars rest).map (fun (chars, after) =>
      (Json.string chars, after)) = some (value, after)) :
    0x22 :: rest = value.render ++ after ∧ value.depth = 0 := by
  simp only [Option.map_eq_some_iff, Prod.mk.injEq, Prod.exists] at read
  obtain ⟨chars, after', charsRead, rfl, rfl⟩ := read
  refine ⟨?_, rfl⟩
  rw [readChars_spec charsRead]
  simp [Json.render, quoted]

/-- The reader returns what stands at the front, within its depth. -/
theorem readValue_readsFront (depth : Nat) :
    ReadsFront (readValue depth) depth := by
  induction depth with
  | zero =>
      intro s value after read
      cases s with
      | nil => simp [readValue] at read
      | cons c rest =>
          simp only [readValue] at read
          split at read
          · next quote =>
              rw [quote]
              have spec := readString_spec read
              exact ⟨spec.1, spec.2.le⟩
          · split at read
            · simp at read
            · have spec := readScalar_spec read
              exact ⟨spec.1, spec.2.le⟩
  | succ depth inductionHypothesis =>
      intro s value after read
      cases s with
      | nil => simp [readValue] at read
      | cons c rest =>
          simp only [readValue] at read
          split at read
          · next quote =>
              rw [quote]
              have spec := readString_spec read
              exact ⟨spec.1, by omega⟩
          · split at read
            · next brace =>
                rw [brace]
                exact readContainer_spec inductionHypothesis read
            · split at read
              · next bracket =>
                  rw [bracket]
                  exact readContainer_spec inductionHypothesis read
              · have spec := readScalar_spec read
                exact ⟨spec.1, by omega⟩

/-! ## Completeness: a rendering is read back -/

/-- No byte at the front continues a number. -/
def EndsNumber (rest : Bytes) : Prop :=
  ∀ c tail, rest = c :: tail →
    isDigit c = false ∧ c ≠ 0x2e ∧ c ≠ 0x65 ∧ c ≠ 0x45

/-- No whitespace at the front. -/
def EndsWs (rest : Bytes) : Prop :=
  ∀ c tail, rest = c :: tail → isWs c = false

/-- A run of bytes that all pass, up to one that does not. -/
theorem dropWhile_append_stop
    {p : Byte → Bool} {front rest : Bytes}
    (inside : ∀ c ∈ front, p c = true)
    (stops : ∀ c tail, rest = c :: tail → p c = false) :
    (front ++ rest).takeWhile p = front ∧
      (front ++ rest).dropWhile p = rest := by
  induction front with
  | nil =>
      cases rest with
      | nil => simp
      | cons c tail => simp [stops c tail rfl]
  | cons c front inductionHypothesis =>
      have head : p c = true := inside c (by simp)
      have tail := inductionHypothesis fun c member =>
        inside c (List.mem_cons_of_mem _ member)
      simp [head, tail]

/-- Written whitespace is read back. -/
theorem readWs_append
    (w : Ws) {rest : Bytes}
    (stops : EndsWs rest) :
    readWs (w.bytes ++ rest) = (w, rest) := by
  obtain ⟨taken, dropped⟩ := dropWhile_append_stop w.ok stops
  simp only [readWs, dropped, Prod.mk.injEq, and_true]
  cases w
  simpa using taken

/-- Written characters are read back. -/
theorem readChars_append
    {bytes : Bytes} (ok : IsChars bytes) (rest : Bytes) :
    readChars (bytes ++ 0x22 :: rest) = some (⟨bytes, ok⟩, rest) := by
  induction ok with
  | nil =>
      rw [List.nil_append, readChars.eq_def]
      simp
  | plain c inner plain innerOk inductionHypothesis =>
      have notQuote : c ≠ 0x22 := by
        rintro rfl
        simp [isPlain] at plain
      have notBackslash : c ≠ 0x5c := by
        rintro rfl
        simp [isPlain] at plain
      rw [List.cons_append, readChars.eq_def]
      simp [notQuote, notBackslash, plain, inductionHypothesis]
  | escape c inner escape innerOk inductionHypothesis =>
      rw [List.cons_append, List.cons_append, readChars.eq_def]
      simp [escape, inductionHypothesis]
  | unicode h₁ h₂ h₃ h₄ inner hex₁ hex₂ hex₃ hex₄ innerOk
      inductionHypothesis =>
      have notEscape : isEscape 0x75 = false := by decide
      rw [List.cons_append, List.cons_append, readChars.eq_def]
      simp [notEscape, hex₁, hex₂, hex₃, hex₄, inductionHypothesis]

/-- Written digits are read back where no digit follows. -/
theorem readDigits_append
    {digits rest : Bytes} (ok : IsDigits digits)
    (stops : ∀ c tail, rest = c :: tail → isDigit c = false) :
    readDigits (digits ++ rest) = some (⟨digits, ok⟩, rest) := by
  obtain ⟨taken, dropped⟩ := dropWhile_append_stop ok.2 stops
  simp [readDigits, taken, dropped, ok.1]

/-- A written exponent is read back. -/
theorem readExp_append
    {exp rest : Bytes} (ok : IsExp exp) (stops : EndsNumber rest) :
    readExp (exp ++ rest) = some (exp, rest) := by
  rcases ok with rfl | ⟨e, sign, digits, marker, signShape, digitsOk, rfl⟩
  · cases rest with
    | nil => simp [readExp]
    | cons c tail =>
        obtain ⟨_, _, lower, upper⟩ := stops c tail rfl
        simp [readExp, lower, upper]
  · have signRead : readSign (sign ++ (digits ++ rest)) =
        (sign, digits ++ rest) := by
      rcases signShape with rfl | rfl | rfl
      · obtain ⟨first, others, rfl⟩ := List.exists_cons_of_ne_nil digitsOk.1
        have digit := digitsOk.2 first (by simp)
        have notPlus : first ≠ 0x2b := by
          rintro rfl
          simp [isDigit] at digit
        have notMinus : first ≠ 0x2d := by
          rintro rfl
          simp [isDigit] at digit
        simp [readSign, notPlus, notMinus]
      · simp [readSign]
      · simp [readSign]
    have digitsRead := readDigits_append digitsOk
      fun c tail equal => (stops c tail equal).1
    simp [readExp, marker, signRead, digitsRead]

/-- What follows a fraction in a number neither continues its digits nor is a
point. -/
theorem exp_append_stops
    {exp rest : Bytes} (ok : IsExp exp) (stops : EndsNumber rest) :
    ∀ c tail, exp ++ rest = c :: tail → isDigit c = false ∧ c ≠ 0x2e := by
  intro c tail equal
  rcases ok with rfl | ⟨e, sign, digits, marker, signShape, digitsOk, rfl⟩
  · exact ⟨(stops c tail equal).1, (stops c tail equal).2.1⟩
  · simp only [List.cons_append, List.cons.injEq] at equal
    obtain ⟨rfl, -⟩ := equal
    rcases marker with rfl | rfl <;> decide

/-- A written fraction is read back. -/
theorem readFrac_append
    {frac rest : Bytes} (ok : IsFrac frac)
    (stops : ∀ c tail, rest = c :: tail → isDigit c = false ∧ c ≠ 0x2e) :
    readFrac (frac ++ rest) = some (frac, rest) := by
  rcases ok with rfl | ⟨digits, digitsOk, rfl⟩
  · cases rest with
    | nil => simp [readFrac]
    | cons c tail => simp [readFrac, (stops c tail rfl).2]
  · have digitsRead := readDigits_append digitsOk
      fun c tail equal => (stops c tail equal).1
    simp [readFrac, digitsRead]

/-- No digit begins a fraction or what follows it. -/
theorem frac_append_stops
    {frac rest : Bytes} (ok : IsFrac frac)
    (stops : ∀ c tail, rest = c :: tail → isDigit c = false ∧ c ≠ 0x2e) :
    ∀ c tail, frac ++ rest = c :: tail → isDigit c = false := by
  intro c tail equal
  rcases ok with rfl | ⟨digits, digitsOk, rfl⟩
  · exact (stops c tail equal).1
  · simp only [List.cons_append, List.cons.injEq] at equal
    obtain ⟨rfl, -⟩ := equal
    decide

/-- A written integer part is read back. -/
theorem readInt_append
    {int rest : Bytes} (ok : IsInt int)
    (stops : ∀ c tail, rest = c :: tail → isDigit c = false) :
    readInt (int ++ rest) = some (int, rest) := by
  rcases ok with rfl | ⟨digitsOk, notZero⟩
  · simp [readInt]
  · obtain ⟨first, others, rfl⟩ := List.exists_cons_of_ne_nil digitsOk.1
    have first_ne : first ≠ 0x30 := by simpa using notZero
    have digitsRead := readDigits_append digitsOk stops
    rw [List.cons_append] at digitsRead ⊢
    simp [readInt, first_ne, digitsRead]

/-- A written sign is read back. -/
theorem readMinus_append
    {minus int : Bytes} (rest : Bytes) (shape : minus = [] ∨ minus = [0x2d])
    (ok : IsInt int) :
    readMinus (minus ++ (int ++ rest)) = (minus, int ++ rest) := by
  rcases shape with rfl | rfl
  · have notMinus : ∃ first others, int = first :: others ∧ first ≠ 0x2d := by
      rcases ok with rfl | ⟨digitsOk, -⟩
      · exact ⟨_, _, rfl, by decide⟩
      · obtain ⟨first, others, rfl⟩ := List.exists_cons_of_ne_nil digitsOk.1
        refine ⟨first, others, rfl, ?_⟩
        rintro rfl
        simpa [isDigit] using digitsOk.2 0x2d (by simp)
    obtain ⟨first, others, rfl, first_ne⟩ := notMinus
    simp [readMinus, first_ne]
  · simp [readMinus]

/-- A written number is read back where it ends. -/
theorem readNumber_append
    (number : Number) {rest : Bytes} (stops : EndsNumber rest) :
    readNumber (number.bytes ++ rest) = some (number, rest) := by
  rw [readNumber_eq_some_iff]
  obtain ⟨minus, int, frac, exp, minusShape, intOk, fracOk, expOk, shape⟩ :=
    number.ok
  have afterFrac := exp_append_stops expOk stops
  have afterInt := frac_append_stops fracOk afterFrac
  have minusRead := readMinus_append (frac ++ (exp ++ rest))
    minusShape intOk
  have intRead := readInt_append intOk afterInt
  have fracRead := readFrac_append fracOk afterFrac
  have expRead := readExp_append expOk stops
  rw [shape]
  simp [readNumberBytes, minusRead, intRead, fracRead, expRead]

/-- A number starts with a minus sign or a digit. -/
theorem Number.head (number : Number) :
    ∃ c tail, number.bytes = c :: tail ∧ (c = 0x2d ∨ isDigit c = true) := by
  obtain ⟨minus, int, frac, exp, minusShape, intOk, -, -, shape⟩ := number.ok
  rcases minusShape with rfl | rfl
  · rcases intOk with rfl | ⟨digitsOk, -⟩
    · exact ⟨0x30, frac ++ exp, by simpa using shape, Or.inr (by decide)⟩
    · obtain ⟨first, others, rfl⟩ := List.exists_cons_of_ne_nil digitsOk.1
      exact ⟨first, others ++ (frac ++ exp), by simpa using shape,
        Or.inr (digitsOk.2 first (by simp))⟩
  · exact ⟨0x2d, int ++ (frac ++ exp), by simpa using shape, Or.inl rfl⟩

/-- A digit is no other byte. -/
theorem isDigit_ne
    {c : Byte} (other : Byte) (digit : isDigit c = true)
    (notDigit : isDigit other = false) : c ≠ other := by
  rintro rfl
  simp [digit] at notDigit

/-- A digit is no whitespace. -/
theorem isWs_eq_false_of_isDigit
    {c : Byte} (digit : isDigit c = true) : isWs c = false := by
  simp only [isWs, Bool.or_eq_false_iff, beq_eq_false_iff_ne]
  exact ⟨⟨⟨isDigit_ne _ digit (by decide), isDigit_ne _ digit (by decide)⟩,
    isDigit_ne _ digit (by decide)⟩, isDigit_ne _ digit (by decide)⟩

/-- A value starts with a byte that is neither whitespace nor a closing
bracket. -/
theorem Json.head (value : Json) :
    ∃ c tail, value.render = c :: tail ∧ isWs c = false ∧
      c ≠ 0x5d ∧ c ≠ 0x7d := by
  cases value with
  | lit l => cases l <;> exact ⟨_, _, rfl, by decide, by decide, by decide⟩
  | number n =>
      obtain ⟨c, tail, shape, minus | digit⟩ := n.head
      · subst minus
        exact ⟨0x2d, tail, shape, by decide, by decide, by decide⟩
      · exact ⟨c, tail, shape, isWs_eq_false_of_isDigit digit,
          isDigit_ne _ digit (by decide), isDigit_ne _ digit (by decide)⟩
  | string s => exact ⟨0x22, _, rfl, by decide, by decide, by decide⟩
  | empty kind inside =>
      cases kind <;> exact ⟨_, _, rfl, by decide, by decide, by decide⟩
  | full kind items =>
      cases kind <;> exact ⟨_, _, rfl, by decide, by decide, by decide⟩

/-- No value begins with whitespace. -/
theorem Json.endsWs (value : Json) (rest : Bytes) :
    EndsWs (value.render ++ rest) := by
  obtain ⟨first, others, shape, notWs, -⟩ := value.head
  intro c tail equal
  rw [shape, List.cons_append, List.cons.injEq] at equal
  rwa [← equal.1]

/-- A byte that is no whitespace ends it. -/
theorem EndsWs.cons
    {c : Byte} {rest : Bytes} (notWs : isWs c = false) :
    EndsWs (c :: rest) := by
  intro first tail equal
  rw [List.cons.injEq] at equal
  rwa [← equal.1]

/-- A written head of an item is read back. -/
theorem readHead_append
    {kind : Kind} (head : Head kind) (rest : Bytes) :
    readHead kind (head.render ++ rest) = some (head, rest) := by
  cases kind with
  | array => rfl
  | object =>
      obtain ⟨pre, name, post⟩ : Key := head
      have first : readWs (pre.bytes ++ (0x22 :: (name.bytes ++
          0x22 :: (post.bytes ++ 0x3a :: rest)))) =
          (pre, 0x22 :: (name.bytes ++ 0x22 :: (post.bytes ++ 0x3a :: rest))) :=
        readWs_append pre (.cons (by decide))
      have second : readWs (post.bytes ++ 0x3a :: rest) =
          (post, 0x3a :: rest) :=
        readWs_append post (.cons (by decide))
      simp [readHead, Head.render, Key.render, quoted, first, second,
        readChars_append name.ok]

/-- The items of a container do not start like an empty container. -/
theorem Items.first
    {kind : Kind} (items : Items kind) (rest : Bytes) :
    ∃ c tail, (readWs (items.render ++ rest)).2 = c :: tail ∧
      c ≠ kind.closes := by
  have item : ∀ (head : Head kind) (pre : Ws) (value : Json) (more : Bytes),
      ∃ c tail, (readWs (head.render ++ (pre.bytes ++
        (value.render ++ more)))).2 = c :: tail ∧ c ≠ kind.closes := by
    intro head pre value more
    cases kind with
    | array =>
        obtain ⟨c, tail, shape, -, notBracket, -⟩ := value.head
        refine ⟨c, tail ++ more, ?_, notBracket⟩
        have read := readWs_append pre (value.endsWs more)
        simp only [Head.render, List.nil_append, read]
        rw [shape, List.cons_append]
    | object =>
        obtain ⟨keyPre, name, keyPost⟩ : Key := head
        refine ⟨0x22, name.bytes ++ 0x22 :: (keyPost.bytes ++ 0x3a ::
          (pre.bytes ++ (value.render ++ more))), ?_, by decide⟩
        simp only [Head.render, Key.render, quoted, List.append_assoc,
          List.cons_append, List.nil_append]
        rw [readWs_append keyPre (.cons (by decide))]
  cases items with
  | last head pre value post =>
      obtain ⟨c, tail, read, notClose⟩ := item head pre value (post.bytes ++ rest)
      refine ⟨c, tail, ?_, notClose⟩
      simpa [Items.render] using read
  | cons head pre value post others =>
      obtain ⟨c, tail, read, notClose⟩ := item head pre value
        (post.bytes ++ 0x2c :: (others.render ++ rest))
      refine ⟨c, tail, ?_, notClose⟩
      simpa [Items.render] using read

/-- Whitespace, a comma or a closing bracket ends a number. -/
theorem endsNumber_ws_append
    (w : Ws) {c : Byte} {rest : Bytes}
    (ends : EndsNumber (c :: rest)) :
    EndsNumber (w.bytes ++ c :: rest) := by
  intro first tail equal
  obtain ⟨bytes, ok⟩ := w
  cases bytes with
  | nil => exact ends first tail equal
  | cons w others =>
      simp only [List.cons_append, List.cons.injEq] at equal
      obtain ⟨rfl, -⟩ := equal
      have white := ok w (by simp)
      simp only [isWs, Bool.or_eq_true, beq_iff_eq] at white
      rcases white with ((rfl | rfl) | rfl) | rfl <;> decide

/-- A byte that no number goes on with ends it. -/
theorem EndsNumber.cons
    {c : Byte} {rest : Bytes}
    (ends : isDigit c = false ∧ c ≠ 0x2e ∧ c ≠ 0x65 ∧ c ≠ 0x45) :
    EndsNumber (c :: rest) := by
  intro first tail equal
  rw [List.cons.injEq] at equal
  rwa [← equal.1]

/-- A closing bracket ends a number. -/
theorem Kind.closes_endsNumber (kind : Kind) (rest : Bytes) :
    EndsNumber (kind.closes :: rest) := by
  cases kind <;> exact .cons (by decide)

/-- A closing bracket ends whitespace. -/
theorem Kind.closes_endsWs (kind : Kind) (rest : Bytes) :
    EndsWs (kind.closes :: rest) := by
  cases kind <;> exact .cons (by decide)

/-- A written literal is read back. -/
theorem readScalar_lit (depth : Nat) (l : Lit) (rest : Bytes) :
    readValue depth (l.text ++ rest) = some (.lit l, rest) := by
  have stripped : strip l.text (l.text ++ rest) = some rest :=
    strip_eq_some_iff.mpr rfl
  cases l <;> cases depth <;>
    exact congrArg (Option.map fun after => (_, after)) stripped

/-- A written number is read back as a value. -/
theorem readValue_number
    (depth : Nat) (number : Number) {rest : Bytes} (ends : EndsNumber rest) :
    readValue depth (number.bytes ++ rest) = some (.number number, rest) := by
  have read := readNumber_append number ends
  obtain ⟨c, tail, shape, minus | digit⟩ := number.head
  · subst minus
    rw [shape, List.cons_append] at read ⊢
    cases depth <;> simp [readValue, readScalar, read]
  · rw [shape, List.cons_append] at read ⊢
    have notQuote := isDigit_ne 0x22 digit (by decide)
    have notBrace := isDigit_ne 0x7b digit (by decide)
    have notBracket := isDigit_ne 0x5b digit (by decide)
    have notT := isDigit_ne 0x74 digit (by decide)
    have notF := isDigit_ne 0x66 digit (by decide)
    have notN := isDigit_ne 0x6e digit (by decide)
    cases depth <;>
      simp [readValue, readScalar, read, notQuote, notBrace, notBracket, notT,
        notF, notN]

mutual

/-- A value within the depth is read back, whatever ends it. -/
theorem readValue_append :
    ∀ (value : Json) (depth : Nat) (rest : Bytes), value.depth ≤ depth →
      EndsNumber rest →
      readValue depth (value.render ++ rest) = some (value, rest)
  | .lit l, depth, rest, _, _ => readScalar_lit depth l rest
  | .number n, depth, rest, _, ends => readValue_number depth n ends
  | .string s, depth, rest, _, _ => by
      have read := readChars_append s.ok rest
      cases depth <;>
        simp [Json.render, quoted, readValue, read]
  | .empty kind inside, depth, rest, bound, _ => by
      obtain ⟨depth, rfl⟩ : ∃ inner, depth = inner + 1 :=
        ⟨depth - 1, by simp only [Json.depth] at bound; omega⟩
      have read : readWs (inside.bytes ++ kind.closes :: rest) =
          (inside, kind.closes :: rest) :=
        readWs_append inside (kind.closes_endsWs rest)
      have container : readContainer (readValue depth) kind
          (inside.bytes ++ kind.closes :: rest) =
          some (.empty kind inside, rest) := by
        simp [readContainer, read]
      cases kind <;> simpa [Json.render, readValue, Kind.opens] using container
  | .full kind items, depth, rest, bound, _ => by
      obtain ⟨depth, rfl⟩ : ∃ inner, depth = inner + 1 :=
        ⟨depth - 1, by simp only [Json.depth] at bound; omega⟩
      have itemsRead := readItems_append items depth
        (items.render ++ kind.closes :: rest).length rest
        (by simp only [Json.depth] at bound; omega)
        (by simp only [List.length_append, List.length_cons]; omega)
      obtain ⟨c, tail, first, notClose⟩ :=
        items.first (kind.closes :: rest)
      have container : readContainer (readValue depth) kind
          (items.render ++ kind.closes :: rest) =
          some (.full kind items, rest) := by
        simp only [readContainer, first, notClose, if_false, itemsRead,
          Option.map_some]
      cases kind <;> simpa [Json.render, readValue, Kind.opens] using container

/-- Written items are read back. -/
theorem readItems_append :
    ∀ {kind : Kind} (items : Items kind) (depth fuel : Nat) (rest : Bytes),
      items.depth ≤ depth → items.render.length < fuel →
      readItems (readValue depth) kind fuel
        (items.render ++ kind.closes :: rest) = some (items, rest)
  | kind, .last head pre value post, depth, fuel, rest, bound, enough => by
      obtain ⟨fuel, rfl⟩ : ∃ inner, fuel = inner + 1 := ⟨fuel - 1, by omega⟩
      have headRead := readHead_append head (pre.bytes ++ (value.render ++
        (post.bytes ++ kind.closes :: rest)))
      have preRead := readWs_append pre
        (value.endsWs (post.bytes ++ kind.closes :: rest))
      have valueRead := readValue_append value depth
        (post.bytes ++ kind.closes :: rest) bound
        (endsNumber_ws_append post (kind.closes_endsNumber rest))
      have postRead := readWs_append post (kind.closes_endsWs rest)
      have notComma : kind.closes ≠ 0x2c := by cases kind <;> decide
      simp [Items.render, readItems, headRead, preRead, valueRead, postRead,
        notComma]
  | kind, .cons head pre value post others, depth, fuel, rest, bound,
      enough => by
      obtain ⟨fuel, rfl⟩ : ∃ inner, fuel = inner + 1 := ⟨fuel - 1, by omega⟩
      simp only [Items.depth, Nat.max_le] at bound
      have othersRead := readItems_append others depth fuel rest bound.2
        (by simp only [Items.render, List.length_append,
              List.length_cons] at enough; omega)
      have headRead := readHead_append head (pre.bytes ++ (value.render ++
        (post.bytes ++ 0x2c :: (others.render ++ kind.closes :: rest))))
      have preRead := readWs_append pre (value.endsWs
        (post.bytes ++ 0x2c :: (others.render ++ kind.closes :: rest)))
      have valueRead := readValue_append value depth
        (post.bytes ++ 0x2c :: (others.render ++ kind.closes :: rest)) bound.1
        (endsNumber_ws_append post (.cons (by decide)))
      have postRead : readWs (post.bytes ++
          0x2c :: (others.render ++ kind.closes :: rest)) =
          (post, 0x2c :: (others.render ++ kind.closes :: rest)) :=
        readWs_append post (.cons (by decide))
      simp [Items.render, readItems, headRead, preRead, valueRead, postRead,
        othersRead]

end

/-! ## The reader by the first byte -/

/-- Nothing is read of nothing. -/
theorem readValue_nil (depth : Nat) : readValue depth [] = none := by
  cases depth <;> rfl

/-- Nothing follows the whitespace of nothing. -/
theorem readWs_nil : (readWs []).2 = [] := rfl

/-- Whitespace is read once. -/
theorem readWs_readWs (s : Bytes) :
    readWs (readWs s).2 = (⟨[], by simp⟩, (readWs s).2) :=
  readWs_append ⟨[], by simp⟩ (readWs_stops s)

/-- A quote begins a string. -/
theorem readValue_quote (levels : Nat) (rest : Bytes) :
    readValue levels (0x22 :: rest) =
      (readChars rest).map fun (chars, after) => (.string chars, after) := by
  cases levels <;> simp [readValue]

/-- An opening bracket begins a container where one may still open. -/
theorem readValue_container
    (levels : Nat) (kind : Kind) (rest : Bytes) :
    readValue (levels + 1) (kind.opens :: rest) =
      readContainer (readValue levels) kind rest := by
  cases kind <;> simp [readValue, Kind.opens]

/-- No container opens below the last level. -/
theorem readValue_deep (kind : Kind) (rest : Bytes) :
    readValue 0 (kind.opens :: rest) = none := by
  cases kind <;> simp [readValue, Kind.opens]

/-- Any other byte begins a scalar. -/
theorem readValue_scalar
    {c : Byte} (levels : Nat) (rest : Bytes) (notQuote : c ≠ 0x22)
    (notContainer : ¬ (c = 0x7b ∨ c = 0x5b)) :
    readValue levels (c :: rest) = readScalar c (c :: rest) := by
  rw [not_or] at notContainer
  cases levels <;> simp [readValue, notQuote, notContainer]

/-- A text nested at most `depth` deep is read back whole. -/
theorem readText_render
    (text : Text) {depth : Nat} (bound : text.value.depth ≤ depth) :
    readText depth text.render = some text := by
  obtain ⟨pre, value, ⟨post, white⟩⟩ := text
  have preRead := readWs_append pre (value.endsWs post)
  have ends : EndsNumber post := by
    cases post with
    | nil => intro c tail equal; simp at equal
    | cons c rest =>
        have spaces := @endsNumber_ws_append ⟨[c], by simpa using white c⟩
          0x2c [] (.cons (by decide))
        exact .cons (spaces c _ rfl)
  have valueRead := readValue_append value depth post bound ends
  have postRead : readWs post = (⟨post, white⟩, []) := by
    have read := @readWs_append ⟨post, white⟩ []
      (by intro c tail equal; simp at equal)
    simpa using read
  simp [readText, Text.render, preRead, valueRead, postRead]

/-- What is read whole is the rendering of the text read. -/
theorem readText_spec
    {depth : Nat} {s : Bytes} {text : Text}
    (read : readText depth s = some text) :
    s = text.render ∧ text.value.depth ≤ depth := by
  simp only [readText, Option.bind_eq_some_iff, Prod.exists] at read
  obtain ⟨value, s₁, valueRead, read⟩ := read
  split at read
  · next rest =>
      simp only [Option.some.injEq] at read
      subst read
      obtain ⟨valueSplit, valueDepth⟩ := readValue_readsFront depth _ _ _ valueRead
      refine ⟨?_, valueDepth⟩
      have first := readWs_split s
      have last := readWs_split s₁
      rw [valueSplit] at first
      rw [rest, List.append_nil] at last
      conv_lhs => rw [first, last]
      rfl
  · simp at read

/-- The reader decides the grammar: it returns the one tree of a text. -/
theorem readText_eq_some_iff
    {depth : Nat} {s : Bytes} {text : Text} :
    readText depth s = some text ↔
      s = text.render ∧ text.value.depth ≤ depth := by
  constructor
  · exact readText_spec
  · rintro ⟨rfl, bound⟩
    exact readText_render text bound

/-- A byte string has at most one concrete tree. -/
theorem Text.render_injective : Function.Injective Text.render := by
  intro left right equal
  have leftRead := readText_render left
    (Nat.le_max_left left.value.depth right.value.depth)
  have rightRead := readText_render right
    (Nat.le_max_right left.value.depth right.value.depth)
  rw [equal, rightRead, Option.some.injEq] at leftRead
  exact leftRead.symm

/-- Two values written alike are the same. -/
theorem Json.render_injective : Function.Injective Json.render := by
  intro left right equal
  have none : Ws := ⟨[], by simp⟩
  have texts : Text.render ⟨none, left, none⟩ = Text.render ⟨none, right, none⟩ := by
    rw [Text.render, Text.render, equal]
  exact congrArg Text.value (Text.render_injective texts)

end Rfc8259
end Llmbridge
