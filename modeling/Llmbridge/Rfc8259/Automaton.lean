import Llmbridge.Rfc8259.Reader

/-!
# A pushdown recogniser that reads one byte at a time

The recogniser keeps its place and the kinds of the open containers, and tells
an observer what it passes: where a value starts and ends, where a key opens
and closes, the commas of objects and the closing brackets.  The observer may
refuse.  Scanning a byte string to its end is the same as reading its tree and
showing that tree to the observer (`scan_text`), so what an observer learns and
whether the scan ends well depend on the tree only.
-/

namespace Llmbridge
namespace Rfc8259

/-- What the recogniser passes; `depth` counts the containers open around
it. -/
inductive Event
  /-- A value starts at `«at»` with the byte `c`. -/
  | start (depth «at» : Nat) (c : Byte)
  /-- A key's opening quote. -/
  | keyStart (depth «at» : Nat)
  /-- A key's closing quote. -/
  | keyEnd (depth «at» : Nat)
  /-- A comma between members. -/
  | comma (depth «at» : Nat)
  /-- A container closed, `depth` being what is left open. -/
  | close (depth : Nat)
  /-- A value ended before `stop`. -/
  | finish (depth stop : Nat)
  deriving DecidableEq, Repr

/-- Where the next byte stands. -/
inductive Place
  | value
  | first (kind : Kind)
  | key
  | colon
  | next
  | chars (isKey : Bool)
  | escape (isKey : Bool)
  | hex (isKey : Bool) (seen : Nat)
  | sign
  | zero
  | int
  | dot
  | frac
  | e
  | eSign
  | exp
  | lit (l : Lit) (seen : Nat)
  deriving DecidableEq, Repr

/-- The recogniser: its place and the open containers, innermost first. -/
structure Machine where
  place : Place
  stack : List Kind
  deriving DecidableEq, Repr

section Machine

variable {σ : Type} (limit : Nat) (emit : Event → σ → Option σ)

/-- A value ended before `stop`. -/
def valueDone (stack : List Kind) (stop : Nat) (s : σ) : Option (Machine × σ) :=
  (emit (.finish stack.length stop) s).map fun s => (⟨.next, stack⟩, s)

/-- A container opens, unless `limit` are open. -/
def openContainer (kind : Kind) (stack : List Kind) (s : σ) :
    Option (Machine × σ) :=
  if stack.length = limit then none
  else some (⟨.first kind, kind :: stack⟩, s)

/-- A value starts with `c`. -/
def beginValue (stack : List Kind) (i : Nat) (c : Byte) (s : σ) :
    Option (Machine × σ) :=
  (emit (.start stack.length i c) s).bind fun s =>
    if c = 0x22 then some (⟨.chars false, stack⟩, s)
    else if c = 0x7b then openContainer limit .object stack s
    else if c = 0x5b then openContainer limit .array stack s
    else if c = 0x74 then some (⟨.lit .true 1, stack⟩, s)
    else if c = 0x66 then some (⟨.lit .false 1, stack⟩, s)
    else if c = 0x6e then some (⟨.lit .null 1, stack⟩, s)
    else if c = 0x2d then some (⟨.sign, stack⟩, s)
    else if c = 0x30 then some (⟨.zero, stack⟩, s)
    else if isDigit c then some (⟨.int, stack⟩, s)
    else none

/-- The innermost container closes at `i`. -/
def closeContainer (stack : List Kind) (i : Nat) (s : σ) :
    Option (Machine × σ) :=
  (emit (.close stack.length) s).bind fun s => valueDone emit stack (i + 1) s

/-- A key opens at `i`. -/
def beginKey (stack : List Kind) (i : Nat) (c : Byte) (s : σ) :
    Option (Machine × σ) :=
  if c = 0x22 then
    (emit (.keyStart stack.length i) s).map fun s => (⟨.chars true, stack⟩, s)
  else none

/-- A byte between tokens that is not whitespace. -/
def stepMark (m : Machine) (i : Nat) (c : Byte) (s : σ) :
    Option (Machine × σ) :=
  match m.place with
  | .value => beginValue limit emit m.stack i c s
  | .first .array =>
      if c = 0x5d then closeContainer emit m.stack.tail i s
      else beginValue limit emit m.stack i c s
  | .first .object =>
      if c = 0x7d then closeContainer emit m.stack.tail i s
      else beginKey emit m.stack i c s
  | .key => beginKey emit m.stack i c s
  | .colon => if c = 0x3a then some (⟨.value, m.stack⟩, s) else none
  | .next =>
      match m.stack with
      | [] => none
      | .array :: outer =>
          if c = 0x2c then some (⟨.value, m.stack⟩, s)
          else if c = 0x5d then closeContainer emit outer i s
          else none
      | .object :: outer =>
          if c = 0x2c then
            (emit (.comma m.stack.length i) s).map fun s => (⟨.key, m.stack⟩, s)
          else if c = 0x7d then closeContainer emit outer i s
          else none
  | _ => none

/-- A byte between tokens. -/
def stepBetween (m : Machine) (i : Nat) (c : Byte) (s : σ) :
    Option (Machine × σ) :=
  if isWs c then some (m, s) else stepMark limit emit m i c s

/-- A number ended before the byte at `i`, which stands after it. -/
def endNumber (stack : List Kind) (i : Nat) (c : Byte) (s : σ) :
    Option (Machine × σ) :=
  (valueDone emit stack i s).bind fun (m, s) => stepBetween limit emit m i c s

/-- A byte of a number that must be a digit. -/
def stepDigit (stack : List Kind) (c : Byte) (s : σ) (place : Place) :
    Option (Machine × σ) :=
  if isDigit c then some (⟨place, stack⟩, s) else none

/-- One byte. -/
def stepByte (m : Machine) (i : Nat) (c : Byte) (s : σ) :
    Option (Machine × σ) :=
  match m.place with
  | .chars isKey =>
      if c = 0x22 then
        if isKey then
          (emit (.keyEnd m.stack.length i) s).map fun s => (⟨.colon, m.stack⟩, s)
        else valueDone emit m.stack (i + 1) s
      else if c = 0x5c then some (⟨.escape isKey, m.stack⟩, s)
      else if isPlain c then some (m, s)
      else none
  | .escape isKey =>
      if c = 0x75 then some (⟨.hex isKey 0, m.stack⟩, s)
      else if isEscape c then some (⟨.chars isKey, m.stack⟩, s)
      else none
  | .hex isKey seen =>
      if isHex c then
        if seen = 3 then some (⟨.chars isKey, m.stack⟩, s)
        else some (⟨.hex isKey (seen + 1), m.stack⟩, s)
      else none
  | .lit l seen =>
      if l.text[seen]? = some c then
        if seen + 1 = l.text.length then valueDone emit m.stack (i + 1) s
        else some (⟨.lit l (seen + 1), m.stack⟩, s)
      else none
  | .sign =>
      stepDigit m.stack c s (if c = 0x30 then .zero else .int)
  | .zero =>
      if isDigit c then none
      else if c = 0x2e then some (⟨.dot, m.stack⟩, s)
      else if c = 0x65 ∨ c = 0x45 then some (⟨.e, m.stack⟩, s)
      else endNumber limit emit m.stack i c s
  | .int =>
      if isDigit c then some (m, s)
      else if c = 0x2e then some (⟨.dot, m.stack⟩, s)
      else if c = 0x65 ∨ c = 0x45 then some (⟨.e, m.stack⟩, s)
      else endNumber limit emit m.stack i c s
  | .dot => stepDigit m.stack c s .frac
  | .frac =>
      if isDigit c then some (m, s)
      else if c = 0x65 ∨ c = 0x45 then some (⟨.e, m.stack⟩, s)
      else endNumber limit emit m.stack i c s
  | .e =>
      if c = 0x2b ∨ c = 0x2d then some (⟨.eSign, m.stack⟩, s)
      else stepDigit m.stack c s .exp
  | .eSign => stepDigit m.stack c s .exp
  | .exp =>
      if isDigit c then some (m, s) else endNumber limit emit m.stack i c s
  | _ => stepBetween limit emit m i c s

/-- The input ended: a value was read, or a number at the root ends here. -/
def stop (m : Machine) (i : Nat) (s : σ) : Option σ :=
  match m.stack, m.place with
  | [], .next => some s
  | [], .zero => emit (.finish 0 i) s
  | [], .int => emit (.finish 0 i) s
  | [], .frac => emit (.finish 0 i) s
  | [], .exp => emit (.finish 0 i) s
  | _, _ => none

/-- Every byte in turn, from position `i`, and then the end. -/
def scan (m : Machine) (i : Nat) (s : σ) : Bytes → Option σ
  | [] => stop emit m i s
  | c :: rest =>
      (stepByte limit emit m i c s).bind fun (m, s) => scan m (i + 1) s rest

/-! ## Showing a tree to the observer -/

/-- The first byte of a value. -/
def Json.firstByte (value : Json) : Byte :=
  value.render.headD 0

/-- A key at `«at»`. -/
def showHead (depth «at» : Nat) (s : σ) : {kind : Kind} → Head kind → Option σ
  | .array, _ => some s
  | .object, key =>
      (emit (.keyStart depth («at» + (Key.pre key).bytes.length)) s).bind fun s =>
        emit (.keyEnd depth («at» + (Key.pre key).bytes.length + 1 +
          (Key.name key).bytes.length)) s

/-- A comma after an item: only objects tell it. -/
def showComma (depth «at» : Nat) (s : σ) : Kind → Option σ
  | .array => some s
  | .object => emit (.comma depth «at») s

/-- A container closes and its value ends. -/
def showClose (depth stop : Nat) (s : σ) : Option σ :=
  (emit (.close depth) s).bind fun s => emit (.finish depth stop) s

mutual

/-- A value at `«at»` past its first byte, inside `depth` containers. -/
def showBody (depth «at» : Nat) : Json → σ → Option σ
  | .full kind items, s =>
      (showItems (depth + 1) («at» + 1) items s).bind fun s =>
        showClose emit depth («at» + (Json.full kind items).render.length) s
  | .empty kind inside, s =>
      showClose emit depth («at» + (Json.empty kind inside).render.length) s
  | .lit l, s => emit (.finish depth («at» + (Json.lit l).render.length)) s
  | .number n, s => emit (.finish depth («at» + (Json.number n).render.length)) s
  | .string chars, s =>
      emit (.finish depth («at» + (Json.string chars).render.length)) s

/-- Items from `«at»` on, inside `depth` containers. -/
def showItems (depth «at» : Nat) : {kind : Kind} → Items kind → σ → Option σ
  | _, .last head pre value _, s =>
      (showHead emit depth «at» s head).bind fun s =>
        (emit (.start depth («at» + head.render.length + pre.bytes.length)
          value.firstByte) s).bind fun s =>
          showBody depth («at» + head.render.length + pre.bytes.length) value s
  | kind, .cons head pre value post rest, s =>
      (showHead emit depth «at» s head).bind fun s =>
        (emit (.start depth («at» + head.render.length + pre.bytes.length)
          value.firstByte) s).bind fun s =>
          (showBody depth («at» + head.render.length + pre.bytes.length)
            value s).bind fun s =>
            (showComma emit depth («at» + head.render.length + pre.bytes.length +
              value.render.length + post.bytes.length) s kind).bind fun s =>
              showItems depth («at» + head.render.length + pre.bytes.length +
                value.render.length + post.bytes.length + 1) rest s

end

/-- A value at `«at»`, inside `depth` containers. -/
def showValue (depth «at» : Nat) (value : Json) (s : σ) : Option σ :=
  (emit (.start depth «at» value.firstByte) s).bind fun s =>
    showBody emit depth «at» value s

/-! ## Scanning tokens -/

/-- The scan after a value that ended before `i`. -/
def scanAfter (stack : List Kind) (i : Nat) (s : σ) (rest : Bytes) : Option σ :=
  (emit (.finish stack.length i) s).bind fun s =>
    scan limit emit ⟨.next, stack⟩ i s rest

variable {limit : Nat} {emit : Event → σ → Option σ}

/-- A scan is its first byte and the scan behind it. -/
theorem scan_cons (m : Machine) (i : Nat) (s : σ) (c : Byte) (rest : Bytes) :
    scan limit emit m i s (c :: rest) =
      (stepByte limit emit m i c s).bind fun (m, s) =>
        scan limit emit m (i + 1) s rest := rfl

/-- A byte the machine takes. -/
theorem scan_of_step
    {m m' : Machine} {i : Nat} {s s' : σ} {c : Byte}
    (taken : stepByte limit emit m i c s = some (m', s')) (rest : Bytes) :
    scan limit emit m i s (c :: rest) = scan limit emit m' (i + 1) s' rest := by
  rw [scan_cons, taken]
  rfl

/-- A byte the machine takes without telling. -/
theorem scan_of_move
    {m : Machine} (m' : Machine) {i : Nat} {s : σ} {c : Byte}
    (taken : stepByte limit emit m i c s = some (m', s)) (rest : Bytes) :
    scan limit emit m i s (c :: rest) = scan limit emit m' (i + 1) s rest :=
  scan_of_step taken rest

/-- A byte the machine refuses. -/
theorem scan_of_refused
    {m : Machine} {i : Nat} {s : σ} {c : Byte}
    (refused : stepByte limit emit m i c s = none) (rest : Bytes) :
    scan limit emit m i s (c :: rest) = none := by
  rw [scan_cons, refused]
  rfl

/-- Bytes that leave the machine where it is are passed over. -/
theorem scan_skip
    {m : Machine} {s : σ} {p : Byte → Bool}
    (stays : ∀ i c, p c = true → stepByte limit emit m i c s = some (m, s))
    (i : Nat) (rest : Bytes) :
    scan limit emit m i s rest =
      scan limit emit m (i + (rest.takeWhile p).length) s (rest.dropWhile p) := by
  induction rest generalizing i with
  | nil => simp
  | cons c rest inductionHypothesis =>
      by_cases inside : p c = true
      · rw [scan_of_step (stays i c inside), inductionHypothesis]
        simp [inside, Nat.add_assoc, Nat.add_comm 1]
      · simp [inside]

/-- The scan after the contents of a string. -/
def scanAfterChars (limit : Nat) (emit : Event → σ → Option σ) (isKey : Bool)
    (stack : List Kind) (i : Nat) (s : σ) (rest : Bytes) : Option σ :=
  if isKey then
    (emit (.keyEnd stack.length i) s).bind fun s =>
      scan limit emit ⟨.colon, stack⟩ (i + 1) s rest
  else scanAfter limit emit stack (i + 1) s rest

/-- An open string is no end. -/
theorem stop_chars (isKey : Bool) (stack : List Kind) (i : Nat) (s : σ) :
    stop emit ⟨.chars isKey, stack⟩ i s = none := by
  cases stack <;> rfl

/-- Nor is an open escape. -/
theorem scan_hex_nil
    (isKey : Bool) (stack : List Kind) (seen i : Nat) (s : σ) :
    scan limit emit ⟨.hex isKey seen, stack⟩ i s [] = none := by
  cases stack <;> rfl

/-- A hex digit of an escape. -/
theorem scan_hex_cons
    (isKey : Bool) (stack : List Kind) (seen i : Nat) (s : σ) (c : Byte)
    (rest : Bytes) (more : seen ≠ 3) :
    scan limit emit ⟨.hex isKey seen, stack⟩ i s (c :: rest) =
      if isHex c then scan limit emit ⟨.hex isKey (seen + 1), stack⟩ (i + 1) s rest
      else none := by
  by_cases hex : isHex c = true
  · rw [scan_of_move ⟨.hex isKey (seen + 1), stack⟩
      (by simp [stepByte, hex, more]), if_pos hex]
  · rw [scan_of_refused (by simp [stepByte, hex]), if_neg hex]

/-- Its last one. -/
theorem scan_hex_last
    (isKey : Bool) (stack : List Kind) (i : Nat) (s : σ) (c : Byte)
    (rest : Bytes) :
    scan limit emit ⟨.hex isKey 3, stack⟩ i s (c :: rest) =
      if isHex c then scan limit emit ⟨.chars isKey, stack⟩ (i + 1) s rest
      else none := by
  by_cases hex : isHex c = true
  · rw [scan_of_move ⟨.chars isKey, stack⟩ (by simp [stepByte, hex]),
      if_pos hex]
  · rw [scan_of_refused (by simp [stepByte, hex]), if_neg hex]

/-- The contents of a string, through the closing quote. -/
theorem scan_chars
    (isKey : Bool) (stack : List Kind) (i : Nat) (s : σ) (rest : Bytes) :
    scan limit emit ⟨.chars isKey, stack⟩ i s rest =
      (readChars rest).bind fun (chars, after) =>
        scanAfterChars limit emit isKey stack (i + chars.bytes.length) s
          after := by
  fun_induction readChars rest generalizing i with
  | case1 => exact stop_chars isKey stack i s
  | case2 rest =>
      rw [scan_cons]
      cases isKey <;>
        simp [stepByte, scanAfterChars, scanAfter, valueDone, Option.bind_map]
  | case3 =>
      rw [scan_of_move ⟨.escape isKey, stack⟩ (by simp [stepByte])]
      cases stack <;> rfl
  | case4 e rest escape _ inductionHypothesis =>
      have notU : e ≠ 0x75 := by
        rintro rfl
        exact absurd escape (by decide)
      rw [scan_of_move ⟨.escape isKey, stack⟩ (by simp [stepByte]),
        scan_of_move ⟨.chars isKey, stack⟩
          (by simp [stepByte, notU, escape]), inductionHypothesis]
      simp [Option.bind_map, Nat.add_assoc, Nat.add_comm 2]
  | case5 h₁ h₂ h₃ h₄ rest hex _ notEscape inductionHypothesis =>
      obtain ⟨hex₁, hex₂, hex₃, hex₄⟩ := hex
      rw [scan_of_move ⟨.escape isKey, stack⟩ (by simp [stepByte]),
        scan_of_move ⟨.hex isKey 0, stack⟩ (by simp [stepByte])]
      simp (disch := decide) only [scan_hex_cons, scan_hex_last, hex₁, hex₂,
        hex₃, hex₄, if_true, Nat.reduceAdd, inductionHypothesis]
      simp [Option.bind_map, Nat.add_assoc, Nat.add_comm 6]
  | case6 h₁ h₂ h₃ h₄ rest notHex _ notEscape =>
      rw [scan_of_move ⟨.escape isKey, stack⟩ (by simp [stepByte]),
        scan_of_move ⟨.hex isKey 0, stack⟩ (by simp [stepByte])]
      simp (disch := decide) only [scan_hex_cons, scan_hex_last, Nat.reduceAdd]
      by_cases hex₁ : isHex h₁ = true <;> by_cases hex₂ : isHex h₂ = true <;>
        by_cases hex₃ : isHex h₃ = true <;> by_cases hex₄ : isHex h₄ = true <;>
        simp_all
  | case7 rest short _ notEscape =>
      rw [scan_of_move ⟨.escape isKey, stack⟩ (by simp [stepByte]),
        scan_of_move ⟨.hex isKey 0, stack⟩ (by simp [stepByte])]
      rcases rest with _ | ⟨h₁, _ | ⟨h₂, _ | ⟨h₃, _ | ⟨h₄, more⟩⟩⟩⟩
      · simp [scan_hex_nil]
      · simp [scan_hex_nil, scan_hex_cons]
      · simp [scan_hex_nil, scan_hex_cons]
      · simp [scan_hex_nil, scan_hex_cons]
      · exact (short h₁ h₂ h₃ h₄ more rfl).elim
  | case8 e rest notEscape notU =>
      rw [scan_of_move ⟨.escape isKey, stack⟩ (by simp [stepByte]),
        scan_of_refused (by simp [stepByte, notEscape, notU])]
      rfl
  | case9 c rest notQuote notBackslash plain inductionHypothesis =>
      rw [scan_of_move ⟨.chars isKey, stack⟩
        (by simp [stepByte, notQuote, notBackslash, plain]), inductionHypothesis]
      simp [Option.bind_map, Nat.add_assoc, Nat.add_comm 1]
  | case10 c rest notQuote notBackslash notPlain =>
      rw [scan_of_refused (by
        simp [stepByte, notQuote, notBackslash, notPlain])]
      rfl

/-! ### Numbers -/

/-- At a byte that ends a number the scan goes on behind it. -/
theorem scan_endNumber
    {place : Place} {stack : List Kind} {i : Nat} {s : σ} {c : Byte}
    (ends : stepByte limit emit ⟨place, stack⟩ i c s =
      endNumber limit emit stack i c s) (rest : Bytes) :
    scan limit emit ⟨place, stack⟩ i s (c :: rest) =
      scanAfter limit emit stack i s (c :: rest) := by
  have next : ∀ s, stepByte limit emit ⟨.next, stack⟩ i c s =
      stepBetween limit emit ⟨.next, stack⟩ i c s := fun _ => rfl
  simp only [scan_cons, ends, endNumber, valueDone, scanAfter, next,
    Option.bind_map, Option.bind_assoc, Function.comp_def]

/-- At the end of the input a number that may end does. -/
theorem scan_number_nil
    {place : Place} (stack : List Kind) (i : Nat) (s : σ)
    (mayEnd : place = .zero ∨ place = .int ∨ place = .frac ∨ place = .exp) :
    scan limit emit ⟨place, stack⟩ i s [] =
      scanAfter limit emit stack i s [] := by
  cases stack with
  | nil =>
      have stopped : ∀ s : σ, stop emit ⟨.next, []⟩ i s = some s := fun _ => rfl
      rcases mayEnd with rfl | rfl | rfl | rfl <;>
        simp [scanAfter, scan, stop]
  | cons kind outer =>
      have stopped : ∀ s : σ, stop emit ⟨.next, kind :: outer⟩ i s = none :=
        fun _ => rfl
      rcases mayEnd with rfl | rfl | rfl | rfl <;>
        simp [scanAfter, scan, stop]

/-- The digits of a run, through to what follows them. -/
theorem scan_digits
    {place : Place} {stack : List Kind} {s : σ}
    (stays : ∀ i c, isDigit c = true →
      stepByte limit emit ⟨place, stack⟩ i c s = some (⟨place, stack⟩, s))
    (i : Nat) (rest : Bytes) :
    scan limit emit ⟨place, stack⟩ i s rest =
      scan limit emit ⟨place, stack⟩ (i + (rest.takeWhile isDigit).length) s
        (rest.dropWhile isDigit) :=
  scan_skip stays i rest

/-- No digit follows a run of them. -/
theorem head_dropWhile_digit
    {rest : Bytes} {c : Byte} {tail : Bytes}
    (shape : rest.dropWhile isDigit = c :: tail) : isDigit c = false := by
  have head := List.head_dropWhile_not isDigit (l := rest) (by simp [shape])
  simpa [shape] using head

/-- The digits of an exponent. -/
theorem scan_exp (stack : List Kind) (i : Nat) (s : σ) (rest : Bytes) :
    scan limit emit ⟨.exp, stack⟩ i s rest =
      scanAfter limit emit stack (i + (rest.takeWhile isDigit).length) s
        (rest.dropWhile isDigit) := by
  rw [scan_digits (by intro i c digit; simp [stepByte, digit])]
  cases shape : rest.dropWhile isDigit with
  | nil => exact scan_number_nil stack _ s (by simp)
  | cons c tail =>
      have notDigit := head_dropWhile_digit shape
      exact scan_endNumber (by simp [stepByte, notDigit]) tail

/-- A place at which a digit must come, and `onward` after it. -/
theorem scan_someDigits
    {place : Place} (onward : Place) {stack : List Kind} {s : σ}
    (first : ∀ i c, stepByte limit emit ⟨place, stack⟩ i c s =
      stepDigit stack c s onward)
    (none : ∀ i, stop emit ⟨place, stack⟩ i s = none)
    (stays : ∀ i c, isDigit c = true →
      stepByte limit emit ⟨onward, stack⟩ i c s = some (⟨onward, stack⟩, s))
    (i : Nat) (rest : Bytes) :
    scan limit emit ⟨place, stack⟩ i s rest =
      (readDigits rest).bind fun (digits, after) =>
        scan limit emit ⟨onward, stack⟩ (i + digits.1.length) s after := by
  cases rest with
  | nil => simp [scan, none, readDigits]
  | cons c rest =>
      by_cases digit : isDigit c = true
      · rw [scan_of_move ⟨onward, stack⟩ (by simp [first, stepDigit, digit]),
          scan_digits stays]
        simp [readDigits, digit, Nat.add_assoc, Nat.add_comm 1]
      · rw [scan_of_refused (by simp [first, stepDigit, digit])]
        simp [readDigits, digit]

/-- Behind the digits that were read no digit is left. -/
theorem dropWhile_of_readDigits
    {rest after : Bytes} {digits : {digits : Bytes // IsDigits digits}}
    (read : readDigits rest = some (digits, after)) :
    after.takeWhile isDigit = [] ∧ after.dropWhile isDigit = after := by
  rw [readDigits] at read
  split at read
  · simp only [Option.some.injEq, Prod.mk.injEq] at read
    obtain ⟨-, rfl⟩ := read
    cases shape : rest.dropWhile isDigit with
    | nil => simp
    | cons c tail => simp [head_dropWhile_digit shape]
  · simp at read

/-- An exponent behind its sign. -/
theorem scan_eSign (stack : List Kind) (i : Nat) (s : σ) (rest : Bytes) :
    scan limit emit ⟨.eSign, stack⟩ i s rest =
      (readDigits rest).bind fun (digits, after) =>
        scanAfter limit emit stack (i + digits.1.length) s after := by
  rw [scan_someDigits .exp (fun _ _ => rfl)
    (by intro i; cases stack <;> rfl)
    (by intro i c digit; simp [stepByte, digit])]
  cases read : readDigits rest with
  | none => rfl
  | some found =>
      obtain ⟨digits, after⟩ := found
      obtain ⟨taken, dropped⟩ := dropWhile_of_readDigits read
      simp [scan_exp, taken, dropped]

/-- An exponent. -/
theorem scan_e (stack : List Kind) (i : Nat) (s : σ) (rest : Bytes) :
    scan limit emit ⟨.e, stack⟩ i s rest =
      (readDigits (readSign rest).2).bind fun (digits, after) =>
        scanAfter limit emit stack
          (i + (readSign rest).1.length + digits.1.length) s after := by
  cases rest with
  | nil =>
      have none : scan limit emit ⟨.e, stack⟩ i s [] = none := by
        cases stack <;> rfl
      simp [none, readSign, readDigits]
  | cons c rest =>
      by_cases sign : c = 0x2b ∨ c = 0x2d
      · rw [scan_of_move ⟨.eSign, stack⟩ (by simp [stepByte, sign]),
          scan_eSign]
        simp [readSign, sign]
      · have same : scan limit emit ⟨.e, stack⟩ i s (c :: rest) =
            scan limit emit ⟨.eSign, stack⟩ i s (c :: rest) := by
          simp [scan_cons, stepByte, sign]
        rw [same, scan_eSign]
        simp [readSign, sign]

/-- The scan through an optional exponent and on. -/
def scanExp (limit : Nat) (emit : Event → σ → Option σ) (stack : List Kind)
    (i : Nat) (s : σ) (rest : Bytes) : Option σ :=
  (readExp rest).bind fun (exp, after) =>
    scanAfter limit emit stack (i + exp.length) s after

/-- The scan through an optional fraction, an optional exponent and on. -/
def scanFrac (limit : Nat) (emit : Event → σ → Option σ) (stack : List Kind)
    (i : Nat) (s : σ) (rest : Bytes) : Option σ :=
  (readFrac rest).bind fun (frac, after) =>
    scanExp limit emit stack (i + frac.length) s after

/-- A place where an exponent may come or the number end. -/
theorem scan_expNext
    {place : Place} {stack : List Kind} {i : Nat} {s : σ} {rest : Bytes}
    (mayEnd : place = .zero ∨ place = .int ∨ place = .frac ∨ place = .exp)
    (marker : ∀ c tail, rest = c :: tail → c = 0x65 ∨ c = 0x45 →
      stepByte limit emit ⟨place, stack⟩ i c s = some (⟨.e, stack⟩, s))
    (ends : ∀ c tail, rest = c :: tail → ¬ (c = 0x65 ∨ c = 0x45) →
      stepByte limit emit ⟨place, stack⟩ i c s =
        endNumber limit emit stack i c s) :
    scan limit emit ⟨place, stack⟩ i s rest =
      scanExp limit emit stack i s rest := by
  cases rest with
  | nil =>
      rw [scan_number_nil stack i s mayEnd]
      simp [scanExp, readExp]
  | cons c tail =>
      by_cases isMarker : c = 0x65 ∨ c = 0x45
      · rw [scan_of_move _ (marker c tail rfl isMarker), scan_e]
        simp [scanExp, readExp, isMarker, Option.bind_map,
          Nat.add_assoc, Nat.add_comm 1]
      · rw [scan_endNumber (ends c tail rfl isMarker)]
        simp [scanExp, readExp, isMarker]

/-- The digits of a fraction. -/
theorem scan_frac (stack : List Kind) (i : Nat) (s : σ) (rest : Bytes) :
    scan limit emit ⟨.frac, stack⟩ i s rest =
      scanExp limit emit stack (i + (rest.takeWhile isDigit).length) s
        (rest.dropWhile isDigit) := by
  rw [scan_digits (by intro i c digit; simp [stepByte, digit])]
  refine scan_expNext (by simp) ?_ ?_
  · intro c tail shape marker
    simp [stepByte, head_dropWhile_digit shape, marker]
  · intro c tail shape notMarker
    simp [stepByte, head_dropWhile_digit shape, notMarker]

/-- A fraction. -/
theorem scan_dot (stack : List Kind) (i : Nat) (s : σ) (rest : Bytes) :
    scan limit emit ⟨.dot, stack⟩ i s rest =
      (readDigits rest).bind fun (digits, after) =>
        scanExp limit emit stack (i + digits.1.length) s after := by
  rw [scan_someDigits .frac (fun _ _ => rfl)
    (by intro i; cases stack <;> rfl)
    (by intro i c digit; simp [stepByte, digit])]
  cases read : readDigits rest with
  | none => rfl
  | some found =>
      obtain ⟨digits, after⟩ := found
      obtain ⟨taken, dropped⟩ := dropWhile_of_readDigits read
      simp [scan_frac, taken, dropped]

/-- A place where a fraction may come, at a byte that is no digit. -/
theorem scan_fracNext
    {place : Place} {stack : List Kind} {i : Nat} {s : σ} {rest : Bytes}
    (mayEnd : place = .zero ∨ place = .int)
    (notDigit : ∀ c tail, rest = c :: tail → isDigit c = false) :
    scan limit emit ⟨place, stack⟩ i s rest =
      scanFrac limit emit stack i s rest := by
  by_cases point : ∃ tail, rest = 0x2e :: tail
  · obtain ⟨tail, rfl⟩ := point
    have digit := notDigit _ _ rfl
    have taken : stepByte limit emit ⟨place, stack⟩ i 0x2e s =
        some (⟨.dot, stack⟩, s) := by
      rcases mayEnd with rfl | rfl <;> simp [stepByte, digit]
    rw [scan_of_move _ taken, scan_dot]
    simp [scanFrac, readFrac, Option.bind_map, Nat.add_assoc,
      Nat.add_comm 1]
  · have noPoint : ∀ c tail, rest = c :: tail → c ≠ 0x2e := by
      rintro c tail rfl rfl
      exact point ⟨tail, rfl⟩
    have read : readFrac rest = some ([], rest) := by
      cases rest with
      | nil => rfl
      | cons c tail => simp [readFrac, noPoint c tail rfl]
    rw [scanFrac, read, Option.bind_some]
    refine scan_expNext (by rcases mayEnd with rfl | rfl <;> simp) ?_ ?_
    · intro c tail shape marker
      rcases mayEnd with rfl | rfl <;>
        simp [stepByte, notDigit c tail shape, noPoint c tail shape, marker]
    · intro c tail shape notMarker
      rcases mayEnd with rfl | rfl <;>
        simp [stepByte, notDigit c tail shape, noPoint c tail shape, notMarker]

/-- The digits of an integer part. -/
theorem scan_int (stack : List Kind) (i : Nat) (s : σ) (rest : Bytes) :
    scan limit emit ⟨.int, stack⟩ i s rest =
      scanFrac limit emit stack (i + (rest.takeWhile isDigit).length) s
        (rest.dropWhile isDigit) := by
  rw [scan_digits (by intro i c digit; simp [stepByte, digit])]
  exact scan_fracNext (by simp) fun c tail shape => head_dropWhile_digit shape

/-- Behind a whole value a digit is refused. -/
theorem scanAfter_digit
    {c : Byte} (digit : isDigit c = true) (stack : List Kind) (i : Nat) (s : σ)
    (rest : Bytes) : scanAfter limit emit stack i s (c :: rest) = none := by
  have notWs := isWs_eq_false_of_isDigit digit
  have notComma := isDigit_ne 0x2c digit (by decide)
  have notBracket := isDigit_ne 0x5d digit (by decide)
  have notBrace := isDigit_ne 0x7d digit (by decide)
  have refused : ∀ s, stepByte limit emit ⟨.next, stack⟩ i c s = none := by
    intro s
    match stack with
    | [] => simp [stepByte, stepBetween, stepMark, notWs]
    | .array :: outer =>
        simp [stepByte, stepBetween, stepMark, notWs, notComma, notBracket]
    | .object :: outer =>
        simp [stepByte, stepBetween, stepMark, notWs, notComma, notBrace]
  simp [scanAfter, scan_cons, refused]

/-- A zero is an integer part of its own. -/
theorem scan_zero (stack : List Kind) (i : Nat) (s : σ) (rest : Bytes) :
    scan limit emit ⟨.zero, stack⟩ i s rest =
      scanFrac limit emit stack i s rest := by
  by_cases digit : ∃ c tail, rest = c :: tail ∧ isDigit c = true
  · obtain ⟨c, tail, rfl, digit⟩ := digit
    have notPoint := isDigit_ne 0x2e digit (by decide)
    have notLower := isDigit_ne 0x65 digit (by decide)
    have notUpper := isDigit_ne 0x45 digit (by decide)
    rw [scan_of_refused (by simp [stepByte, digit])]
    simp [scanFrac, scanExp, readFrac, readExp, notPoint, notLower, notUpper,
      scanAfter_digit digit]
  · refine scan_fracNext (by simp) ?_
    rintro c tail rfl
    by_contra isDigit
    exact digit ⟨c, tail, rfl, by simpa using isDigit⟩

/-- A number behind its sign. -/
theorem scan_sign (stack : List Kind) (i : Nat) (s : σ) (rest : Bytes) :
    scan limit emit ⟨.sign, stack⟩ i s rest =
      (readInt rest).bind fun (int, after) =>
        scanFrac limit emit stack (i + int.length) s after := by
  cases rest with
  | nil => cases stack <;> rfl
  | cons c rest =>
      by_cases zero : c = 0x30
      · subst zero
        rw [scan_of_move ⟨.zero, stack⟩ (by rfl), scan_zero]
        simp [readInt]
      · by_cases digit : isDigit c = true
        · rw [scan_of_move ⟨.int, stack⟩
            (by simp [stepByte, stepDigit, zero, digit]), scan_int]
          simp [readInt, zero, readDigits, digit, Nat.add_assoc, Nat.add_comm 1]
        · rw [scan_of_refused (by simp [stepByte, stepDigit, digit])]
          simp [readInt, zero, readDigits, digit]

/-- A number whose first byte was taken. -/
theorem scan_number
    {c : Byte} {place : Place} (stack : List Kind) (i : Nat) (s : σ)
    (rest : Bytes)
    (opens : (c = 0x2d ∧ place = .sign) ∨ (c = 0x30 ∧ place = .zero) ∨
      (isDigit c = true ∧ c ≠ 0x30 ∧ place = .int)) :
    scan limit emit ⟨place, stack⟩ (i + 1) s rest =
      (readNumberBytes (c :: rest)).bind fun (bytes, after) =>
        scanAfter limit emit stack (i + bytes.length) s after := by
  have whole : (readNumberBytes (c :: rest)).bind (fun (bytes, after) =>
        scanAfter limit emit stack (i + bytes.length) s after) =
      (readInt (readMinus (c :: rest)).2).bind fun (int, after) =>
        scanFrac limit emit stack
          (i + (readMinus (c :: rest)).1.length + int.length) s after := by
    simp [readNumberBytes, scanFrac, scanExp, Option.bind_assoc, Nat.add_assoc]
  rw [whole]
  rcases opens with ⟨rfl, rfl⟩ | ⟨rfl, rfl⟩ | ⟨digit, notZero, rfl⟩
  · rw [scan_sign]
    simp [readMinus]
  · rw [scan_zero]
    simp [readMinus, readInt]
  · have notMinus := isDigit_ne 0x2d digit (by decide)
    rw [scan_int]
    simp [readMinus, notMinus, readInt, notZero, readDigits, digit,
      Nat.add_assoc, Nat.add_comm 1]

/-! ### Literals and whitespace -/

/-- A byte of a literal name. -/
theorem stepByte_lit
    {l : Lit} {seen : Nat} {w : Byte} {word : Bytes}
    (left : l.text.drop seen = w :: word) (stack : List Kind) (i : Nat) (s : σ)
    (c : Byte) :
    stepByte limit emit ⟨.lit l seen, stack⟩ i c s =
      if c = w then
        if word = [] then valueDone emit stack (i + 1) s
        else some (⟨.lit l (seen + 1), stack⟩, s)
      else none := by
  have here : l.text[seen]? = some w := by
    have head := congrArg List.head? left
    simpa using head
  have lengths := congrArg List.length left
  simp only [List.length_drop, List.length_cons] at lengths
  have last : seen + 1 = l.text.length ↔ word = [] := by
    rw [← List.length_eq_zero_iff]
    omega
  simp only [stepByte, here, last, Option.some.injEq, eq_comm]

/-- A literal, from any of its bytes. -/
theorem scan_lit
    {l : Lit} {seen : Nat} {w : Byte} {word : Bytes}
    (left : l.text.drop seen = w :: word) (stack : List Kind) (i : Nat) (s : σ)
    (rest : Bytes) :
    scan limit emit ⟨.lit l seen, stack⟩ i s rest =
      (strip (w :: word) rest).bind fun after =>
        scanAfter limit emit stack (i + word.length + 1) s after := by
  induction word generalizing seen w i rest with
  | nil =>
      cases rest with
      | nil => cases stack <;> rfl
      | cons c rest =>
          by_cases same : c = w <;>
            simp [scan_cons, stepByte_lit left, same, strip, scanAfter, valueDone,
              Option.bind_map]
  | cons w' word inductionHypothesis =>
      have onward : l.text.drop (seen + 1) = w' :: word := by
        rw [← List.drop_drop, left]
        rfl
      cases rest with
      | nil => cases stack <;> rfl
      | cons c rest =>
          by_cases same : c = w
          · rw [scan_of_move ⟨.lit l (seen + 1), stack⟩
              (by simp [stepByte_lit left, same]), inductionHypothesis onward]
            simp [strip, same, Nat.add_assoc, Nat.add_comm 1]
          · rw [scan_of_refused (by simp [stepByte_lit left, same])]
            simp [strip, same]

/-- Whitespace between tokens is passed over. -/
theorem scan_ws
    {m : Machine} {s : σ}
    (between : ∀ i c, stepByte limit emit m i c s = stepBetween limit emit m i c s)
    (i : Nat) (rest : Bytes) :
    scan limit emit m i s rest =
      scan limit emit m (i + (readWs rest).1.bytes.length) s (readWs rest).2 :=
  scan_skip (p := isWs) (by intro i c white; simp [between, stepBetween, white])
    i rest

/-- A byte between tokens that is not whitespace. -/
theorem scan_mark
    {m : Machine} {i : Nat} {s : σ} {c : Byte}
    (between : stepByte limit emit m i c s = stepBetween limit emit m i c s)
    (notWs : isWs c = false) (rest : Bytes) :
    scan limit emit m i s (c :: rest) =
      (stepMark limit emit m i c s).bind fun (m, s) =>
        scan limit emit m (i + 1) s rest := by
  simp [scan_cons, between, stepBetween, notWs]

/-! ### Keys, commas and closing brackets -/

/-- Where the next item of a container starts. -/
def itemPlace : Kind → Place
  | .array => .value
  | .object => .key

/-- The colon behind a key. -/
theorem scan_colon (stack : List Kind) (i : Nat) (s : σ) (rest : Bytes) :
    scan limit emit ⟨.colon, stack⟩ i s rest =
      match (readWs rest).2 with
      | 0x3a :: after =>
          scan limit emit ⟨.value, stack⟩
            (i + (readWs rest).1.bytes.length + 1) s after
      | _ => none := by
  rw [scan_ws (fun _ _ => rfl)]
  cases shape : (readWs rest).2 with
  | nil => cases stack <;> rfl
  | cons c after =>
      have notWs := readWs_stops rest c after shape
      rw [scan_mark rfl notWs]
      by_cases colon : c = 0x3a
      · simp [stepMark, colon]
      · simp [stepMark, colon]

/-- A key through its colon. -/
theorem scan_key (stack : List Kind) (i : Nat) (s : σ) (rest : Bytes) :
    scan limit emit ⟨.key, stack⟩ i s rest =
      (readHead .object rest).bind fun (head, after) =>
        (showHead emit stack.length i s head).bind fun s =>
          scan limit emit ⟨.value, stack⟩ (i + head.render.length) s after := by
  rw [scan_ws (fun _ _ => rfl)]
  cases shape : (readWs rest).2 with
  | nil =>
      have stopped : ∀ i, scan limit emit ⟨.key, stack⟩ i s [] = none := by
        intro i
        cases stack <;> rfl
      simp [readHead, shape, stopped]
  | cons c inside =>
      have notWs := readWs_stops rest c inside shape
      rw [scan_mark rfl notWs]
      by_cases quote : c = 0x22
      · subst quote
        simp only [stepMark, beginKey, if_true, Option.bind_map,
          Function.comp_def, scan_chars, readHead, shape, Option.bind_assoc]
        cases nameRead : readChars inside with
        | none => simp
        | some found =>
            obtain ⟨name, after⟩ := found
            simp only [Option.bind_some, scanAfterChars, if_true, scan_colon]
            have place : i + (readWs rest).1.bytes.length + 1 + name.bytes.length + 1 +
                (readWs after).1.bytes.length + 1 =
                i + (@Head.render .object
                  (Key.mk (readWs rest).1 name (readWs after).1)).length := by
              simp only [Head.render, Key.render, quoted, List.length_append,
                List.length_cons, List.length_nil]
              omega
            cases follows : (readWs after).2 with
            | nil => simp
            | cons c value =>
                by_cases colon : c = 0x3a
                · subst colon
                  simp only [Option.bind_some, showHead, Option.bind_assoc, place]
                · simp [colon]
      · simp [stepMark, beginKey, readHead, shape, quote]

/-- What an item holds before its value. -/
theorem scan_head
    (kind : Kind) (stack : List Kind) (i : Nat) (s : σ) (rest : Bytes) :
    scan limit emit ⟨itemPlace kind, stack⟩ i s rest =
      (readHead kind rest).bind fun (head, after) =>
        (showHead emit stack.length i s head).bind fun s =>
          scan limit emit ⟨.value, stack⟩ (i + head.render.length) s after := by
  cases kind with
  | array => simp [itemPlace, readHead, showHead, Head.render]
  | object => exact scan_key stack i s rest

/-- What follows an item. -/
theorem scan_next
    (kind : Kind) (stack : List Kind) (i : Nat) (s : σ) (rest : Bytes) :
    scan limit emit ⟨.next, kind :: stack⟩ i s rest =
      match (readWs rest).2 with
      | [] => none
      | c :: after =>
          if c = 0x2c then
            (showComma emit (stack.length + 1)
              (i + (readWs rest).1.bytes.length) s kind).bind fun s =>
              scan limit emit ⟨itemPlace kind, kind :: stack⟩
                (i + (readWs rest).1.bytes.length + 1) s after
          else if c = kind.closes then
            (showClose emit stack.length
              (i + (readWs rest).1.bytes.length + 1) s).bind fun s =>
              scan limit emit ⟨.next, stack⟩
                (i + (readWs rest).1.bytes.length + 1) s after
          else none := by
  rw [scan_ws (fun _ _ => rfl)]
  cases shape : (readWs rest).2 with
  | nil => cases kind <;> rfl
  | cons c after =>
      have notWs := readWs_stops rest c after shape
      rw [scan_mark rfl notWs]
      cases kind with
      | array =>
          by_cases comma : c = 0x2c
          · simp [stepMark, comma, showComma, itemPlace]
          · by_cases close : c = 0x5d
            · simp [stepMark, closeContainer, valueDone, showClose, close,
                Kind.closes, Option.bind_assoc, Option.bind_map]
            · simp [stepMark, comma, close, Kind.closes]
      | object =>
          by_cases comma : c = 0x2c
          · simp [stepMark, comma, showComma, itemPlace, Option.bind_map]
          · by_cases close : c = 0x7d
            · simp [stepMark, closeContainer, valueDone, showClose, close,
                Kind.closes, Option.bind_assoc, Option.bind_map]
            · simp [stepMark, comma, close, Kind.closes]

/-! ## Scanning values -/

/-- A value is read and shown, and the scan goes on behind it. -/
def ScansValue (limit : Nat) (emit : Event → σ → Option σ) (levels : Nat) : Prop :=
  ∀ (stack : List Kind) (i : Nat) (s : σ) (rest : Bytes),
    stack.length + levels = limit →
    scan limit emit ⟨.value, stack⟩ i s rest =
      (readValue levels (readWs rest).2).bind fun (value, after) =>
        (showValue emit stack.length (i + (readWs rest).1.bytes.length)
          value s).bind fun s =>
          scan limit emit ⟨.next, stack⟩
            (i + (readWs rest).1.bytes.length + value.render.length) s after

section Items

variable {levels : Nat} {stack : List Kind} (inner : ScansValue limit emit levels)
  (room : stack.length + 1 + levels = limit)

/-- What is left after an item is shorter than what stood before it. -/
theorem length_after_item
    {kind : Kind} {s s₁ s₂ s₃ : Bytes} {head : Head kind} {value : Json} {c : Byte}
    (headRead : readHead kind s = some (head, s₁))
    (valueRead : readValue levels (readWs s₁).2 = some (value, s₂))
    (tail : (readWs s₂).2 = c :: s₃) : s₃.length < s.length := by
  obtain ⟨split, -⟩ := readValue_readsFront _ _ _ _ valueRead
  have first := congrArg List.length (readHead_spec headRead)
  have second := congrArg List.length (readWs_split s₁)
  have third := congrArg List.length split
  have fourth := congrArg List.length (readWs_split s₂)
  rw [tail] at fourth
  simp only [List.length_append, List.length_cons] at first second third fourth
  omega

include inner room in
/-- The items of a container through its closing bracket. -/
theorem scan_items
    {kind : Kind} {fuel : Nat} {rest : Bytes} (enough : rest.length ≤ fuel)
    (i : Nat) (s : σ) :
    scan limit emit ⟨itemPlace kind, kind :: stack⟩ i s rest =
      (readItems (readValue levels) kind fuel rest).bind fun (items, after) =>
        (showItems emit (stack.length + 1) i items s).bind fun s =>
          (showClose emit stack.length (i + items.render.length + 1) s).bind
            fun s => scan limit emit ⟨.next, stack⟩
              (i + items.render.length + 1) s after := by
  induction fuel generalizing i s rest with
  | zero =>
      obtain rfl : rest = [] := List.length_eq_zero_iff.mp (by omega)
      cases kind <;> rfl
  | succ fuel inductionHypothesis =>
      rw [scan_head]
      cases headRead : readHead kind rest with
      | none => simp [readItems, headRead]
      | some found =>
          obtain ⟨head, s₁⟩ := found
          simp only [Option.bind_some, readItems, headRead,
            inner (kind :: stack) _ _ s₁ (by simpa using room)]
          cases valueRead : readValue levels (readWs s₁).2 with
          | none => simp
          | some found =>
              obtain ⟨value, s₂⟩ := found
              simp only [Option.bind_some, scan_next]
              cases tail : (readWs s₂).2 with
              | nil => simp
              | cons c s₃ =>
                  have shorter := length_after_item headRead valueRead tail
                  by_cases comma : c = 0x2c
                  · simp only [comma, if_true,
                      @inductionHypothesis s₃ (by omega)]
                    cases restRead : readItems (readValue levels) kind fuel s₃ with
                    | none => simp
                    | some found =>
                        obtain ⟨items, after⟩ := found
                        have place : i + head.render.length +
                            (readWs s₁).1.bytes.length + value.render.length +
                            (readWs s₂).1.bytes.length + 1 +
                            items.render.length =
                            i + (Items.cons head (readWs s₁).1 value (readWs s₂).1
                              items).render.length := by
                          simp only [Items.render, List.length_append,
                            List.length_cons]
                          omega
                        simp only [Option.map_some, Option.bind_some, showItems,
                          showValue, Option.bind_assoc, List.length_cons, place]
                  · by_cases close : c = kind.closes
                    · have place : i + head.render.length +
                          (readWs s₁).1.bytes.length + value.render.length +
                          (readWs s₂).1.bytes.length =
                          i + (Items.last head (readWs s₁).1 value
                            (readWs s₂).1).render.length := by
                        simp only [Items.render, List.length_append]
                        omega
                      subst close
                      simp only [comma, if_false, if_true, Option.bind_some,
                        showItems, showValue, Option.bind_assoc,
                        List.length_cons, place]
                    · simp [comma, close]

/-- A place right after an opening bracket, at a byte that does not close
it. -/
theorem scan_first
    {kind : Kind} {stack : List Kind} {rest : Bytes} {c : Byte} {tail : Bytes}
    (shape : (readWs rest).2 = c :: tail) (notClose : c ≠ kind.closes)
    (i : Nat) (s : σ) :
    scan limit emit ⟨.first kind, stack⟩ i s rest =
      scan limit emit ⟨itemPlace kind, stack⟩ i s rest := by
  have notWs := readWs_stops rest c tail shape
  cases kind with
  | array =>
      have notBracket : c ≠ 0x5d := notClose
      rw [scan_ws (fun _ _ => rfl), shape, scan_mark rfl notWs,
        scan_ws (m := ⟨itemPlace .array, stack⟩) (fun _ _ => rfl), shape,
        scan_mark rfl notWs]
      simp [stepMark, itemPlace, notBracket]
  | object =>
      have notBrace : c ≠ 0x7d := notClose
      rw [scan_ws (fun _ _ => rfl), shape, scan_mark rfl notWs,
        scan_ws (m := ⟨itemPlace .object, stack⟩) (fun _ _ => rfl), shape,
        scan_mark rfl notWs]
      simp [stepMark, itemPlace, notBrace]

/-- A container that does not close is refused. -/
theorem scan_first_nil
    {kind : Kind} {stack : List Kind} {rest : Bytes}
    (shape : (readWs rest).2 = []) (i : Nat) (s : σ) :
    scan limit emit ⟨.first kind, stack⟩ i s rest = none := by
  have between : ∀ i c, stepByte limit emit ⟨.first kind, stack⟩ i c s =
      stepBetween limit emit ⟨.first kind, stack⟩ i c s := fun _ _ => rfl
  rw [scan_ws between, shape]
  cases stack <;> rfl

/-- A container that closes at once. -/
theorem scan_first_close
    {kind : Kind} {stack : List Kind} {rest tail : Bytes}
    (shape : (readWs rest).2 = kind.closes :: tail) (i : Nat) (s : σ) :
    scan limit emit ⟨.first kind, kind :: stack⟩ i s rest =
      (showClose emit stack.length
        (i + (readWs rest).1.bytes.length + 1) s).bind fun s =>
        scan limit emit ⟨.next, stack⟩
          (i + (readWs rest).1.bytes.length + 1) s tail := by
  have notWs := readWs_stops rest _ tail shape
  have between : ∀ i c, stepByte limit emit ⟨.first kind, kind :: stack⟩ i c s =
      stepBetween limit emit ⟨.first kind, kind :: stack⟩ i c s := fun _ _ => rfl
  rw [scan_ws between, shape, scan_mark rfl notWs]
  cases kind <;>
    simp [stepMark, closeContainer, valueDone, showClose, Kind.closes,
      Option.bind_assoc, Option.bind_map]

include inner room in
/-- A container whose opening bracket at `i` was taken. -/
theorem scan_container
    (kind : Kind) (rest : Bytes) (i : Nat) (s : σ) :
    scan limit emit ⟨.first kind, kind :: stack⟩ (i + 1) s rest =
      (readContainer (readValue levels) kind rest).bind fun (value, after) =>
        (showBody emit stack.length i value s).bind fun s =>
          scan limit emit ⟨.next, stack⟩ (i + value.render.length) s after := by
  rw [readContainer]
  cases shape : (readWs rest).2 with
  | nil => simp [scan_first_nil shape]
  | cons c tail =>
      by_cases close : c = kind.closes
      · subst close
        have place : i + 1 + (readWs rest).1.bytes.length + 1 =
            i + (Json.empty kind (readWs rest).1).render.length := by
          simp only [Json.render, List.length_cons, List.length_append,
            List.length_nil]
          omega
        simp only [scan_first_close shape, if_true, Option.bind_some, showBody,
          place]
      · rw [scan_first shape close, scan_items inner room (Nat.le_refl _)]
        simp only [close, if_false, Option.bind_map, Function.comp_def]
        cases readItems (readValue levels) kind rest.length rest with
        | none => rfl
        | some found =>
            obtain ⟨items, after⟩ := found
            have place : i + 1 + items.render.length + 1 =
                i + (Json.full kind items).render.length := by
              simp only [Json.render, List.length_cons, List.length_append,
                List.length_nil]
              omega
            simp only [Option.bind_some, showBody, Option.bind_assoc, place]

end Items

/-- The first byte tells the kind of a value. -/
theorem Json.firstByte_eq_brace (value : Json) :
    value.firstByte = 0x7b ↔ value.isObject = true := by
  cases value with
  | number n =>
      obtain ⟨c, tail, shape, minus | digit⟩ := n.head
      · simp [firstByte, render, shape, minus, isObject]
      · simpa [firstByte, render, shape, isObject] using
          isDigit_ne 0x7b digit (by decide)
  | lit l => cases l <;> decide
  | string s => simp [firstByte, render, quoted, isObject]
  | empty kind inside =>
      cases kind <;> simp [firstByte, render, Kind.opens, isObject]
  | full kind items =>
      cases kind <;> simp [firstByte, render, Kind.opens, isObject]

/-- Only a string begins with a quote. -/
theorem Json.firstByte_eq_quote (value : Json) :
    value.firstByte = 0x22 ↔ value.isString = true := by
  cases value with
  | number n =>
      obtain ⟨c, tail, shape, minus | digit⟩ := n.head
      · simp [firstByte, render, shape, minus, isString]
      · simpa [firstByte, render, shape, isString] using
          isDigit_ne 0x22 digit (by decide)
  | lit l => cases l <;> decide
  | string s => simp [firstByte, render, quoted, isString]
  | empty kind inside =>
      cases kind <;> simp [firstByte, render, Kind.opens, isString]
  | full kind items =>
      cases kind <;> simp [firstByte, render, Kind.opens, isString]

/-- The machine behind the first byte of a value. -/
def valueBegun (limit : Nat) (stack : List Kind) (c : Byte) : Option Machine :=
  if c = 0x22 then some ⟨.chars false, stack⟩
  else if c = 0x7b then
    if stack.length = limit then none else some ⟨.first .object, .object :: stack⟩
  else if c = 0x5b then
    if stack.length = limit then none else some ⟨.first .array, .array :: stack⟩
  else if c = 0x74 then some ⟨.lit .true 1, stack⟩
  else if c = 0x66 then some ⟨.lit .false 1, stack⟩
  else if c = 0x6e then some ⟨.lit .null 1, stack⟩
  else if c = 0x2d then some ⟨.sign, stack⟩
  else if c = 0x30 then some ⟨.zero, stack⟩
  else if isDigit c then some ⟨.int, stack⟩
  else none

/-- A value that begins is told before it is judged. -/
theorem beginValue_eq (stack : List Kind) (i : Nat) (c : Byte) (s : σ) :
    beginValue limit emit stack i c s =
      (emit (.start stack.length i c) s).bind fun s =>
        (valueBegun limit stack c).map fun m => (m, s) := by
  rw [beginValue]
  congr 1
  funext s
  simp only [valueBegun, openContainer]
  repeat' split
  all_goals rfl

/-- A number by its bytes. -/
theorem readNumber_bind
    {α : Type} (s : Bytes) (f : Bytes → Bytes → Option α) :
    (readNumber s).bind (fun (number, after) => f number.bytes after) =
      (readNumberBytes s).bind fun (bytes, after) => f bytes after := by
  cases read : readNumber s with
  | none =>
      rw [readNumber_eq_none_iff.mp read]
      rfl
  | some found =>
      obtain ⟨number, after⟩ := found
      rw [readNumber_eq_some_iff.mp read]
      rfl

/-- What neither a minus sign nor a digit opens is no number. -/
theorem readNumberBytes_eq_none
    {c : Byte} {rest : Bytes} (notMinus : c ≠ 0x2d)
    (notDigit : isDigit c = false) : readNumberBytes (c :: rest) = none := by
  have notZero : c ≠ 0x30 := by
    rintro rfl
    exact absurd notDigit (by decide)
  simp [readNumberBytes, readMinus, notMinus, readInt, notZero, readDigits,
    notDigit]

/-- A literal name whose first byte was taken. -/
theorem scan_begun_lit
    {l : Lit} {first second : Byte} {word : Bytes}
    (text : l.text = first :: second :: word) (stack : List Kind) (i : Nat)
    (s : σ) (rest : Bytes) :
    scan limit emit ⟨.lit l 1, stack⟩ (i + 1) s rest =
      ((strip l.text (first :: rest)).map fun after => (Json.lit l, after)).bind
        fun (value, after) =>
          (showBody emit stack.length i value s).bind fun s =>
            scan limit emit ⟨.next, stack⟩ (i + value.render.length) s after := by
  have left : l.text.drop 1 = second :: word := by rw [text]; rfl
  have place : i + 1 + word.length + 1 = i + (Json.lit l).render.length := by
    simp only [Json.render, text, List.length_cons]
    omega
  rw [scan_lit left, text]
  simp only [strip, if_true, Option.bind_map, Function.comp_def, showBody,
    scanAfter, place]

/-- A number whose first byte was taken. -/
theorem scan_begun_number
    {c : Byte} {place : Place} (stack : List Kind) (i : Nat) (s : σ)
    (rest : Bytes)
    (opens : (c = 0x2d ∧ place = .sign) ∨ (c = 0x30 ∧ place = .zero) ∨
      (isDigit c = true ∧ c ≠ 0x30 ∧ place = .int)) :
    scan limit emit ⟨place, stack⟩ (i + 1) s rest =
      ((readNumber (c :: rest)).map fun (number, after) =>
        (Json.number number, after)).bind fun (value, after) =>
          (showBody emit stack.length i value s).bind fun s =>
            scan limit emit ⟨.next, stack⟩ (i + value.render.length) s after := by
  rw [scan_number stack i s rest opens, Option.bind_map]
  exact (readNumber_bind (c :: rest) fun bytes after =>
    scanAfter limit emit stack (i + bytes.length) s after).symm

/-- Behind the first byte of a value the rest of it is read and shown. -/
theorem scan_begun
    {levels : Nat} {stack : List Kind} (room : stack.length + levels = limit)
    (inner : ∀ fewer, levels = fewer + 1 → ScansValue limit emit fewer)
    (i : Nat) (s : σ) (c : Byte) (rest : Bytes) :
    ((valueBegun limit stack c).bind fun m => scan limit emit m (i + 1) s rest) =
      (readValue levels (c :: rest)).bind fun (value, after) =>
        (showBody emit stack.length i value s).bind fun s =>
          scan limit emit ⟨.next, stack⟩ (i + value.render.length) s after := by
  by_cases quote : c = 0x22
  · subst quote
    have place : ∀ chars : Chars, i + 1 + chars.bytes.length + 1 =
        i + (Json.string chars).render.length := by
      intro chars
      simp only [Json.render, quoted, List.length_cons, List.length_append,
        List.length_nil]
      omega
    rw [readValue_quote]
    simp only [valueBegun, if_true, Option.bind_some, scan_chars, scanAfterChars,
      Bool.false_eq_true, if_false, scanAfter, Option.bind_map, Function.comp_def,
      showBody, place]
  · by_cases container : c = 0x7b ∨ c = 0x5b
    · obtain ⟨kind, rfl⟩ : ∃ kind : Kind, c = kind.opens := by
        rcases container with rfl | rfl
        · exact ⟨.object, rfl⟩
        · exact ⟨.array, rfl⟩
      have begun : valueBegun limit stack kind.opens =
          if stack.length = limit then none
          else some ⟨.first kind, kind :: stack⟩ := by
        cases kind <;> rfl
      rw [begun]
      cases levels with
      | zero =>
          rw [readValue_deep, if_pos (by omega)]
          rfl
      | succ levels =>
          rw [readValue_container, if_neg (by omega)]
          exact scan_container (inner levels rfl) (by omega) kind rest i s
    · rw [readValue_scalar levels rest quote container]
      rw [not_or] at container
      by_cases isT : c = 0x74
      · subst isT
        exact scan_begun_lit (l := .true) rfl stack i s rest
      · by_cases isF : c = 0x66
        · subst isF
          exact scan_begun_lit (l := .false) rfl stack i s rest
        · by_cases isN : c = 0x6e
          · subst isN
            exact scan_begun_lit (l := .null) rfl stack i s rest
          · simp only [readScalar, valueBegun, quote, container, isT, isF, isN,
              if_false]
            by_cases minus : c = 0x2d
            · rw [if_pos minus]
              exact scan_begun_number stack i s rest (Or.inl ⟨minus, rfl⟩)
            · by_cases zero : c = 0x30
              · rw [if_neg minus, if_pos zero]
                exact scan_begun_number stack i s rest
                  (Or.inr (Or.inl ⟨zero, rfl⟩))
              · by_cases digit : isDigit c = true
                · rw [if_neg minus, if_neg zero, if_pos digit]
                  exact scan_begun_number stack i s rest
                    (Or.inr (Or.inr ⟨digit, zero, rfl⟩))
                · have none : readNumber (c :: rest) = none :=
                    readNumber_eq_none_iff.mpr
                      (readNumberBytes_eq_none minus (by simpa using digit))
                  simp [minus, zero, digit, none]

/-- Every value is read and shown. -/
theorem scansValue (limit : Nat) (emit : Event → σ → Option σ) (levels : Nat) :
    ScansValue limit emit levels := by
  induction levels using Nat.strong_induction_on with
  | _ levels inductionHypothesis =>
  intro stack i s rest room
  rw [scan_ws (fun _ _ => rfl)]
  cases shape : (readWs rest).2 with
  | nil =>
      have stopped : ∀ i, scan limit emit ⟨.value, stack⟩ i s [] = none := by
        intro i
        cases stack <;> rfl
      simp [readValue_nil, stopped]
  | cons c tail =>
      have notWs := readWs_stops rest c tail shape
      have begun := fun s => scan_begun room
        (fun fewer more => inductionHypothesis fewer (by omega))
        (i + (readWs rest).1.bytes.length) s c tail
      rw [scan_mark rfl notWs]
      simp only [stepMark, beginValue_eq, Option.bind_assoc, Option.bind_map,
        Function.comp_def, begun]
      cases read : readValue levels (c :: tail) with
      | none => simp
      | some found =>
          obtain ⟨value, after⟩ := found
          obtain ⟨split, -⟩ := readValue_readsFront _ _ _ _ read
          have first : value.firstByte = c := by
            obtain ⟨first, others, rendered, -⟩ := value.head
            rw [rendered, List.cons_append, List.cons.injEq] at split
            rw [Json.firstByte, rendered, split.1]
            rfl
          simp only [Option.bind_some, showValue, first, Option.bind_assoc]

/-- Scanning a byte string is reading its tree and showing it. -/
theorem scan_text (limit : Nat) (emit : Event → σ → Option σ) (s : σ)
    (input : Bytes) :
    scan limit emit ⟨.value, []⟩ 0 s input =
      (readText limit input).bind fun text =>
        showValue emit 0 text.pre.bytes.length text.value s := by
  rw [scansValue limit emit limit [] 0 s input (Nat.zero_add _), readText]
  cases read : readValue limit (readWs input).2 with
  | none => rfl
  | some found =>
      obtain ⟨value, after⟩ := found
      simp only [Option.bind_some]
      have last : ∀ i s, scan limit emit ⟨.next, []⟩ i s after =
          if (readWs after).2 = [] then some s else none := by
        intro i s
        rw [scan_ws (fun _ _ => rfl)]
        cases shape : (readWs after).2 with
        | nil => rfl
        | cons c tail =>
            have notWs := readWs_stops after c tail shape
            rw [scan_mark rfl notWs]
            simp [stepMark]
      by_cases ended : (readWs after).2 = []
      · simp [last, ended]
      · simp [last, ended]

end Machine

end Rfc8259
end Llmbridge
