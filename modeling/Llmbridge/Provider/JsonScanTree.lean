import Llmbridge.Provider.JsonScan
import Llmbridge.Rfc8259.Automaton

/-!
# The walk over members on a concrete tree

On a text of the grammar `for_each_member` calls its function on every member
of the object in order, with the key and the value as they are written.
-/

namespace Llmbridge
namespace JsonScan

open Rfc8259

/-! ## Strings -/

/-- The backslashes at the end of a byte string. -/
def endRun (s : Bytes) : Nat :=
  (s.reverse.takeWhile fun c => c == 0x5c).length

/-- One more backslash at the end. -/
theorem endRun_slash (s : Bytes) : endRun (s ++ [0x5c]) = endRun s + 1 := by
  simp [endRun]

/-- Another byte ends the run. -/
theorem endRun_other (s : Bytes) {c : Byte} (notSlash : c ≠ 0x5c) :
    endRun (s ++ [c]) = 0 := by
  simp [endRun, notSlash]

/-- The run of backslashes before a quote. -/
theorem slashRun_eq
    {b before : Bytes} {i : Nat} (located : Located b i before) :
    slashRun b i (i + before.length) = endRun before := by
  rw [slashRun, Nat.add_sub_cancel_left, located.substr, endRun]

/-- A quote is found where it is. -/
theorem findQuote_here
    {b : Bytes} {start : Nat} (quote : b[start]? = some 0x22) :
    findQuote b start = some start := by
  obtain ⟨rest, shape⟩ : ∃ rest, b.drop start = 0x22 :: rest := by
    rw [← List.head?_drop] at quote
    cases tail : b.drop start with
    | nil => simp [tail] at quote
    | cons c rest =>
        rw [tail, List.head?_cons, Option.some.injEq] at quote
        exact ⟨rest, by rw [quote]⟩
  simp [findQuote, shape, List.findIdx?_cons]

/-- Another byte is passed. -/
theorem findQuote_next
    {b : Bytes} {start : Nat} {c : Byte} (byte : b[start]? = some c)
    (notQuote : c ≠ 0x22) : findQuote b start = findQuote b (start + 1) := by
  obtain ⟨rest, shape⟩ : ∃ rest, b.drop start = c :: rest := by
    rw [← List.head?_drop] at byte
    cases tail : b.drop start with
    | nil => simp [tail] at byte
    | cons d rest =>
        rw [tail, List.head?_cons, Option.some.injEq] at byte
        exact ⟨rest, by rw [byte]⟩
  have after : b.drop (start + 1) = rest := by
    rw [← List.drop_drop, shape]
    rfl
  rw [findQuote, findQuote, shape, after, List.findIdx?_cons]
  simp only [beq_iff_eq, notQuote, if_false, Option.map_map]
  congr 1
  funext n
  simp [Nat.add_assoc, Nat.add_comm 1]

/-- So it is by the loop. -/
theorem closeLoop_next
    {b : Bytes} {i start : Nat} {c : Byte} (byte : b[start]? = some c)
    (notQuote : c ≠ 0x22) (fuel : Nat) :
    closeLoop b i fuel start = closeLoop b i fuel (start + 1) := by
  cases fuel with
  | zero => rfl
  | succ fuel => rw [closeLoop, closeLoop, findQuote_next byte notQuote]

/-- The quote behind the contents of a string is found: inside them a quote
stands behind an odd run of backslashes, and the run at their end is even. -/
theorem closeLoop_chars
    {b : Bytes} {i : Nat} {s : Bytes} (chars : IsChars s) :
    ∀ {before : Bytes} {fuel : Nat},
      Located b i (before ++ (s ++ [0x22])) → endRun before % 2 = 0 →
      s.length < fuel →
      closeLoop b i fuel (i + before.length) =
        some (i + before.length + s.length) := by
  -- A byte that is no quote is passed; what goes before grows by it.
  have pass : ∀ {before rest : Bytes} {c : Byte} {fuel : Nat},
      Located b i (before ++ c :: rest) → c ≠ 0x22 →
      closeLoop b i fuel (i + before.length) =
        closeLoop b i fuel (i + (before ++ [c]).length) := by
    intro before rest c fuel located notQuote
    rw [closeLoop_next located.split.2.head notQuote, List.length_append,
      List.length_singleton, Nat.add_assoc]
  have shift : ∀ {before rest : Bytes} {c : Byte},
      Located b i (before ++ c :: rest) → Located b i ((before ++ [c]) ++ rest) := by
    intro before rest c located
    rwa [List.append_assoc, List.singleton_append]
  induction chars with
  | nil =>
      intro before fuel located even enough
      cases fuel with
      | zero => omega
      | succ fuel =>
          rw [closeLoop, findQuote_here located.split.2.head]
          simp [slashRun_eq located.split.1, even]
  | plain c rest plain chars inductionHypothesis =>
      intro before fuel located even enough
      have notQuote : c ≠ 0x22 := by
        rintro rfl
        exact absurd plain (by decide)
      have notSlash : c ≠ 0x5c := by
        rintro rfl
        exact absurd plain (by decide)
      rw [List.length_cons] at enough
      rw [pass located notQuote,
        inductionHypothesis (shift located) (by rw [endRun_other _ notSlash]) (by omega)]
      simp only [List.length_append, List.length_cons, List.length_nil]
      congr 1
      omega
  | escape c rest escape chars inductionHypothesis =>
      intro before fuel located even enough
      simp only [List.length_cons] at enough
      have second := shift located
      have third := shift second
      by_cases quote : c = 0x22
      · -- The escaped quote is looked at and passed.
        subst quote
        cases fuel with
        | zero => omega
        | succ fuel =>
            have odd : slashRun b i (i + (before ++ [0x5c]).length) % 2 ≠ 0 := by
              rw [slashRun_eq second.split.1, endRun_slash]
              omega
            have next : i + (before ++ [0x5c]).length + 1 =
                i + (before ++ [0x5c] ++ [0x22]).length := by
              simp only [List.length_append, List.length_singleton]
              omega
            rw [pass located (by decide), closeLoop,
              findQuote_here second.split.2.head]
            dsimp only
            rw [if_neg odd, next, inductionHypothesis third
              (by rw [endRun_other _ (by decide)]) (by omega)]
            simp only [List.length_append, List.length_cons, List.length_nil]
            congr 1
            omega
      · have even' : endRun (before ++ [0x5c] ++ [c]) % 2 = 0 := by
          by_cases slash : c = 0x5c
          · rw [slash, endRun_slash, endRun_slash]
            omega
          · rw [endRun_other _ slash]
        rw [pass located (by decide), pass second quote,
          inductionHypothesis third even' (by omega)]
        simp only [List.length_append, List.length_cons, List.length_nil]
        congr 1
        omega
  | unicode a b' c d rest hexA hexB hexC hexD chars inductionHypothesis =>
      intro before fuel located even enough
      simp only [List.length_cons] at enough
      have notQuote : ∀ {h : Byte}, isHex h = true → h ≠ 0x22 := by
        rintro h hex rfl
        exact absurd hex (by decide)
      have notSlash : d ≠ 0x5c := by
        rintro rfl
        exact absurd hexD (by decide)
      have first := shift located
      have second := shift first
      have third := shift second
      have fourth := shift third
      have fifth := shift fourth
      rw [pass located (by decide), pass first (by decide), pass second (notQuote hexA),
        pass third (notQuote hexB), pass fourth (notQuote hexC),
        pass fifth (notQuote hexD),
        inductionHypothesis (shift fifth) (by rw [endRun_other _ notSlash]) (by omega)]
      simp only [List.length_append, List.length_cons, List.length_nil]
      congr 1
      omega

/-- `string_close` on the contents of a string. -/
theorem stringClose_chars
    {b : Bytes} {i : Nat} (chars : Chars)
    (located : Located b i (chars.bytes ++ [0x22])) :
    stringClose b i = some (i + chars.bytes.length) := by
  have bound := located.lt
  exact @closeLoop_chars _ _ _ chars.ok [] _ located (by decide) (by omega)

/-! ## Whitespace and scalars -/

/-- A run of bytes of a class, and a byte that ends it. -/
theorem takeWhile_located
    {b run : Bytes} {i : Nat} {p : Byte → Bool} {c : Byte} {more : Bytes}
    (located : Located b i (run ++ c :: more)) (inside : ∀ d ∈ run, p d = true)
    (ends : p c = false) : ((b.drop i).takeWhile p) = run := by
  obtain ⟨rest, shape⟩ := located
  rw [shape, List.append_assoc, List.takeWhile_append_of_pos inside]
  simp [ends]

/-- `skip_ws` over whitespace before another byte. -/
theorem skipWs_located
    {b : Bytes} {i : Nat} (ws : Ws) {c : Byte} {more : Bytes}
    (located : Located b i (ws.bytes ++ c :: more)) (ends : isWs c = false) :
    skipWs b i = i + ws.bytes.length := by
  rw [skipWs, takeWhile_located located ws.ok ends]

/-- A byte of a literal name or a number. -/
def isToken (c : Byte) : Bool :=
  isDigit c || (0x61 ≤ c && c ≤ 0x7a) || c == 0x2d || c == 0x2b || c == 0x2e ||
    c == 0x45

/-- A digit is a byte of a token. -/
theorem isToken_of_isDigit {c : Byte} (digit : isDigit c = true) :
    isToken c = true := by
  simp [isToken, digit]

/-- A byte of a token is no other. -/
theorem isToken_ne
    {c other : Byte} (token : isToken c = true) (notToken : isToken other = false) :
    c ≠ other := by
  rintro rfl
  simp [token] at notToken

/-- It is one of a scalar. -/
theorem isScalar_of_isToken {c : Byte} (token : isToken c = true) :
    isScalar c = true := by
  have ws : isWs c = false := by
    simp only [isWs, Bool.or_eq_false_iff, beq_eq_false_iff_ne]
    exact ⟨⟨⟨isToken_ne token (by decide), isToken_ne token (by decide)⟩,
      isToken_ne token (by decide)⟩, isToken_ne token (by decide)⟩
  simp only [isScalar, Bool.and_eq_true, bne_iff_ne, ws, Bool.not_false, and_true]
  exact ⟨⟨isToken_ne token (by decide), isToken_ne token (by decide)⟩,
    isToken_ne token (by decide)⟩

/-- The bytes of a number are tokens' bytes. -/
theorem number_isToken (n : Number) : ∀ c ∈ n.bytes, isToken c = true := by
  obtain ⟨minus, int, frac, exp, signed, intOk, fracOk, expOk, shape⟩ := n.ok
  have digits : ∀ {run : Bytes}, IsDigits run → ∀ c ∈ run, isToken c = true :=
    fun ok c member => isToken_of_isDigit (ok.2 c member)
  rw [shape]
  intro c member
  simp only [List.mem_append] at member
  rcases member with member | member | member | member
  · rcases signed with rfl | rfl
    · simp at member
    · rw [List.mem_singleton] at member
      rw [member]
      decide
  · rcases intOk with rfl | ⟨ok, -⟩
    · rw [List.mem_singleton] at member
      rw [member]
      decide
    · exact digits ok c member
  · rcases fracOk with rfl | ⟨run, ok, rfl⟩
    · simp at member
    · rcases List.mem_cons.mp member with rfl | member
      · decide
      · exact digits ok c member
  · rcases expOk with rfl | ⟨e, sign, run, isE, signOk, ok, rfl⟩
    · simp at member
    · rcases List.mem_cons.mp member with rfl | member
      · rcases isE with rfl | rfl <;> decide
      · rcases List.mem_append.mp member with member | member
        · rcases signOk with rfl | rfl | rfl
          · simp at member
          · rw [List.mem_singleton] at member
            rw [member]
            decide
          · rw [List.mem_singleton] at member
            rw [member]
            decide
        · exact digits ok c member

/-- So are those of a literal. -/
theorem lit_isToken (l : Lit) : ∀ c ∈ l.text, isToken c = true := by
  apply List.all_eq_true.mp
  cases l <;> decide

/-! ## Containers -/

/-- The walk over a container comes from one place and depth to another. -/
def Reaches (b : Bytes) (i depth j depth' : Nat) : Prop :=
  ∀ fuel, b.length - i < fuel → ∃ fuel', b.length - j < fuel' ∧
    skipContainer b fuel i depth = skipContainer b fuel' j depth'

/-- The walk is where it is. -/
theorem Reaches.refl (b : Bytes) (i depth : Nat) : Reaches b i depth i depth :=
  fun fuel enough => ⟨fuel, enough, rfl⟩

/-- From one place to the next and on. -/
theorem Reaches.trans
    {b : Bytes} {i j k depth depth' depth'' : Nat} (first : Reaches b i depth j depth')
    (second : Reaches b j depth' k depth'') : Reaches b i depth k depth'' := by
  intro fuel enough
  obtain ⟨fuel', enough', equal⟩ := first fuel enough
  obtain ⟨fuel'', enough'', equal'⟩ := second fuel' enough'
  exact ⟨fuel'', enough'', equal.trans equal'⟩

section Reaches

variable {b : Bytes} {i depth : Nat} {c : Byte}

/-- One step to a place further on. -/
theorem Reaches.step
    {j depth' : Nat} (byte : b[i]? = some c) (onward : i < j)
    (stepped : ∀ fuel, skipContainer b (fuel + 1) i depth =
      skipContainer b fuel j depth') : Reaches b i depth j depth' := by
  intro fuel enough
  have inside : i < b.length := by
    rw [List.getElem?_eq_some_iff] at byte
    exact byte.1
  cases fuel with
  | zero => omega
  | succ fuel => exact ⟨fuel, by omega, stepped fuel⟩

/-- A byte that neither quotes nor brackets. -/
theorem Reaches.byte
    (byte : b[i]? = some c) (plain : c ≠ 0x22 ∧ c ≠ 0x7b ∧ c ≠ 0x5b ∧ c ≠ 0x7d ∧
      c ≠ 0x5d) : Reaches b i depth (i + 1) depth := by
  refine Reaches.step byte (Nat.lt_succ_self i) fun fuel => ?_
  rw [skipContainer, byte]
  simp [plain]

/-- Over an opening bracket one level down. -/
theorem Reaches.opens
    (kind : Kind) (byte : b[i]? = some kind.opens) :
    Reaches b i depth (i + 1) (depth + 1) := by
  refine Reaches.step byte (Nat.lt_succ_self i) fun fuel => ?_
  rw [skipContainer, byte]
  cases kind <;> simp [Kind.opens]

/-- Over a closing bracket one level up. -/
theorem Reaches.closes
    (kind : Kind) (byte : b[i]? = some kind.closes) (inside : depth ≠ 0) :
    Reaches b i (depth + 1) (i + 1) depth := by
  refine Reaches.step byte (Nat.lt_succ_self i) fun fuel => ?_
  rw [skipContainer, byte]
  cases kind <;> simp [Kind.closes, inside]

/-- A run of such bytes. -/
theorem Reaches.run
    {run : Bytes} (located : Located b i run)
    (plain : ∀ c ∈ run, c ≠ 0x22 ∧ c ≠ 0x7b ∧ c ≠ 0x5b ∧ c ≠ 0x7d ∧ c ≠ 0x5d) :
    Reaches b i depth (i + run.length) depth := by
  induction run generalizing i with
  | nil => exact Reaches.refl b i depth
  | cons c run inductionHypothesis =>
      have first : Reaches b i depth _ depth := Reaches.byte located.head (plain c (by simp))
      have rest := inductionHypothesis located.tail
        fun d member => plain d (List.mem_cons_of_mem c member)
      rw [List.length_cons, Nat.add_comm run.length, ← Nat.add_assoc]
      exact first.trans rest

/-- Over a token. -/
theorem Reaches.tokens
    {run : Bytes} (located : Located b i run) (tokens : ∀ c ∈ run, isToken c = true) :
    Reaches b i depth (i + run.length) depth :=
  Reaches.run located fun c member =>
    ⟨isToken_ne (tokens c member) (by decide), isToken_ne (tokens c member) (by decide),
      isToken_ne (tokens c member) (by decide), isToken_ne (tokens c member) (by decide),
      isToken_ne (tokens c member) (by decide)⟩

/-- Over whitespace. -/
theorem Reaches.ws
    (ws : Ws) (located : Located b i ws.bytes) :
    Reaches b i depth (i + ws.bytes.length) depth := by
  refine Reaches.run located fun c member => ?_
  have isWs := ws.ok c member
  refine ⟨?_, ?_, ?_, ?_, ?_⟩ <;> rintro rfl <;> exact absurd isWs (by decide)

/-- Over a string. -/
theorem Reaches.string
    (chars : Chars) (located : Located b i (quoted chars.bytes)) :
    Reaches b i depth (i + (quoted chars.bytes).length) depth := by
  have close := stringClose_chars chars located.tail
  refine Reaches.step located.head (by simp [quoted]) fun fuel => ?_
  rw [skipContainer, located.head]
  simp only [if_true, close, quoted, List.length_cons, List.length_append,
    List.length_nil]
  congr 1
  omega

end Reaches

/-- Over a key. -/
theorem Reaches.key
    {b : Bytes} {i depth : Nat} (key : Key) (located : Located b i key.render) :
    Reaches b i depth (i + key.render.length) depth := by
  rw [Key.render] at located
  obtain ⟨pre, rest⟩ := located.split
  obtain ⟨name, rest⟩ := rest.split
  obtain ⟨post, colon⟩ := rest.split
  have walked : Reaches b i depth _ depth := (((Reaches.ws key.pre pre).trans
    (Reaches.string key.name name)).trans (Reaches.ws key.post post)).trans
    (Reaches.byte colon.head (by decide))
  have place : i + key.render.length = i + key.pre.bytes.length +
      (quoted key.name.bytes).length + key.post.bytes.length + 1 := by
    simp only [Key.render, List.length_append, List.length_singleton]
    omega
  rw [place]
  exact walked

/-- Over the head of an item. -/
theorem Reaches.head
    {b : Bytes} {i depth : Nat} {kind : Kind} (head : Head kind)
    (located : Located b i head.render) :
    Reaches b i depth (i + head.render.length) depth := by
  cases kind with
  | array => exact Reaches.refl b i depth
  | object => exact Reaches.key head located

mutual

/-- A value inside a container is walked over. -/
theorem Reaches.value
    {b : Bytes} {i depth : Nat} (inside : depth ≠ 0) :
    ∀ (value : Json), Located b i value.render →
      Reaches b i depth (i + value.render.length) depth
  | .lit l, located => by
      rw [Json.render] at located ⊢
      exact Reaches.tokens located (lit_isToken l)
  | .number n, located => by
      rw [Json.render] at located ⊢
      exact Reaches.tokens located (number_isToken n)
  | .string chars, located => by
      rw [Json.render] at located ⊢
      exact Reaches.string chars located
  | .empty kind ws, located => by
      rw [Json.render] at located
      obtain ⟨spaces, close⟩ := located.tail.split
      have walked : Reaches b i depth _ depth := ((Reaches.opens kind located.head).trans
        (Reaches.ws ws spaces)).trans (Reaches.closes kind close.head inside)
      have place : i + (Json.empty kind ws).render.length =
          i + 1 + ws.bytes.length + 1 := by
        simp only [Json.render, List.length_cons, List.length_append, List.length_nil]
        omega
      rw [place]
      exact walked
  | .full kind items, located => by
      rw [Json.render] at located
      obtain ⟨members, close⟩ := located.tail.split
      have walked : Reaches b i depth _ depth := ((Reaches.opens kind located.head).trans
        (Reaches.items (Nat.succ_ne_zero depth) items members)).trans
        (Reaches.closes kind close.head inside)
      have place : i + (Json.full kind items).render.length =
          i + 1 + items.render.length + 1 := by
        simp only [Json.render, List.length_cons, List.length_append, List.length_nil]
        omega
      rw [place]
      exact walked

/-- The items of a container are walked over. -/
theorem Reaches.items
    {b : Bytes} {i depth : Nat} (inside : depth ≠ 0) :
    ∀ {kind : Kind} (items : Items kind), Located b i items.render →
      Reaches b i depth (i + items.render.length) depth
  | _, .last head pre value post, located => by
      rw [Items.render] at located
      obtain ⟨keyed, rest⟩ := located.split
      obtain ⟨spaces, rest⟩ := rest.split
      obtain ⟨valued, after⟩ := rest.split
      have walked : Reaches b i depth _ depth := (((Reaches.head head keyed).trans
        (Reaches.ws pre spaces)).trans (Reaches.value inside value valued)).trans
        (Reaches.ws post after)
      have place : i + (Items.last head pre value post).render.length =
          i + head.render.length + pre.bytes.length + value.render.length +
            post.bytes.length := by
        simp only [Items.render, List.length_append]
        omega
      rw [place]
      exact walked
  | _, .cons head pre value post rest, located => by
      rw [Items.render] at located
      obtain ⟨keyed, more⟩ := located.split
      obtain ⟨spaces, more⟩ := more.split
      obtain ⟨valued, more⟩ := more.split
      obtain ⟨after, more⟩ := more.split
      have walked : Reaches b i depth _ depth := (((((Reaches.head head keyed).trans
        (Reaches.ws pre spaces)).trans (Reaches.value inside value valued)).trans
        (Reaches.ws post after)).trans (Reaches.byte more.head (by decide))).trans
        (Reaches.items inside rest more.tail)
      have place : i + (Items.cons head pre value post rest).render.length =
          i + head.render.length + pre.bytes.length + value.render.length +
            post.bytes.length + 1 + rest.render.length := by
        simp only [Items.render, List.length_append, List.length_cons]
        omega
      rw [place]
      exact walked

end

/-- The bracket that closes the outermost container ends the walk. -/
theorem skipContainer_close
    {b : Bytes} {i j : Nat} (fuel : Nat) (kind : Kind) (start : b.length - i < fuel)
    (walked : Reaches b i 0 j 1) (close : b[j]? = some kind.closes) :
    skipContainer b fuel i 0 = some (j + 1) := by
  obtain ⟨fuel', enough, equal⟩ := walked fuel start
  rw [equal]
  cases fuel' with
  | zero => omega
  | succ fuel' =>
      rw [skipContainer, close]
      cases kind <;> simp [Kind.closes]

/-- A literal or a number: the run of its bytes ends at the byte after it. -/
theorem skipValue_tokens
    {b : Bytes} {i : Nat} {first : Byte} {rest : Bytes} {c : Byte}
    (located : Located b i (first :: rest ++ [c])) (ends : isScalar c = false)
    (tokens : ∀ d ∈ first :: rest, isToken d = true) :
    skipValue b i = some (i + (first :: rest).length) := by
  have token : isToken first = true := tokens first (by simp)
  have run : (b.drop i).takeWhile isScalar = first :: rest :=
    takeWhile_located located
      (fun d member => isScalar_of_isToken (tokens d member)) ends
  have quote : first ≠ 0x22 := isToken_ne token (by decide)
  have container : ¬ (first = 0x7b ∨ first = 0x5b) := by
    rw [not_or]
    exact ⟨isToken_ne token (by decide), isToken_ne token (by decide)⟩
  rw [skipValue, located.split.1.head]
  dsimp only
  rw [if_neg quote, if_neg container, run, if_neg (by simp)]

/-- `skip_value` over a value and the byte after it. -/
theorem skipValue_located
    {b : Bytes} {i : Nat} (value : Json) {c : Byte}
    (located : Located b i (value.render ++ [c])) (ends : isScalar c = false) :
    skipValue b i = some (i + value.render.length) := by
  have whole := located.split.1
  match value, located, whole with
  | .lit l, located, _ =>
      have tokens := lit_isToken l
      cases l <;> exact skipValue_tokens located ends tokens
  | .number n, located, _ =>
      obtain ⟨first, rest, shape, -⟩ := n.head
      have tokens := number_isToken n
      rw [Json.render, shape] at located ⊢
      rw [shape] at tokens
      exact skipValue_tokens located ends tokens
  | .string chars, _, whole =>
      rw [Json.render] at whole
      rw [skipValue, whole.head]
      simp only [if_true, stringClose_chars chars whole.tail, Option.map_some,
        Json.render, quoted, List.length_cons, List.length_append, List.length_nil]
      congr 1
      omega
  | .empty kind ws, _, whole =>
      rw [Json.render] at whole
      obtain ⟨spaces, close⟩ := whole.tail.split
      have walked : Reaches b i 0 _ 1 := (Reaches.opens kind whole.head).trans
        (Reaches.ws ws spaces)
      have place : i + (Json.empty kind ws).render.length =
          i + 1 + ws.bytes.length + 1 := by
        simp only [Json.render, List.length_cons, List.length_append, List.length_nil]
        omega
      rw [skipValue, whole.head, place, ← skipContainer_close (b.length + 1) kind
        (by omega) walked close.head]
      cases kind <;> simp [Kind.opens]
  | .full kind items, _, whole =>
      rw [Json.render] at whole
      obtain ⟨members, close⟩ := whole.tail.split
      have walked : Reaches b i 0 _ 1 := (Reaches.opens kind whole.head).trans
        (Reaches.items (by decide) items members)
      have place : i + (Json.full kind items).render.length =
          i + 1 + items.render.length + 1 := by
        simp only [Json.render, List.length_cons, List.length_append, List.length_nil]
        omega
      rw [skipValue, whole.head, place, ← skipContainer_close (b.length + 1) kind
        (by omega) walked close.head]
      cases kind <;> simp [Kind.opens]

/-! ## Members -/

/-- The head of a member is its key. -/
theorem Head.render_object (key : Head .object) :
    Head.render key = Key.render key := rfl

/-- The raw key and the raw value of each member. -/
def rawMembers (value : Json) : List (Bytes × Bytes) :=
  value.members.map fun member => (member.1.bytes, member.2.render)

/-- Only an object has members. -/
theorem rawMembers_of_not_object {value : Json} (notObject : value.isObject = false) :
    rawMembers value = [] := by
  rw [rawMembers, Json.members_of_not_object notObject]
  rfl

section Members

variable {σ : Type} (f : σ → Bytes → Bytes → σ × Bool)

/-- `f` on each member in turn, until it says to stop. -/
def eachMember : σ → List (Bytes × Bytes) → σ
  | s, [] => s
  | s, (k, v) :: rest =>
      match f s k v with
      | (s, false) => s
      | (s, true) => eachMember s rest

/-- The byte behind a value ends a literal or a number. -/
theorem skipValue_spaced
    {b : Bytes} {i : Nat} (value : Json) (post : Ws) {c : Byte} {more : Bytes}
    (located : Located b i (value.render ++ (post.bytes ++ c :: more)))
    (ends : isScalar c = false) :
    skipValue b i = some (i + value.render.length) := by
  cases spaces : post.bytes with
  | nil =>
      rw [spaces, List.nil_append, List.append_cons] at located
      exact skipValue_located value located.split.1 ends
  | cons d rest =>
      rw [spaces, List.cons_append, List.append_cons] at located
      have ws : isWs d = true := post.ok d (by rw [spaces]; simp)
      exact skipValue_located value located.split.1 (by simp [isScalar, ws])

/-- One member: its key, its colon and its value are read, and `f` is called on
them. -/
theorem membersLoop_member
    {obj : Bytes} {«at» : Nat} (key : Key) (pre : Ws) (value : Json) (post : Ws)
    {c : Byte} {more : Bytes}
    (located : Located obj «at»
      (key.render ++ (pre.bytes ++ (value.render ++ (post.bytes ++ c :: more)))))
    (ends : isScalar c = false) (notWs : isWs c = false) (fuel : Nat) (s : σ) :
    let stop := «at» + key.render.length + pre.bytes.length + value.render.length +
      post.bytes.length
    membersLoop f obj (fuel + 1) (skipWs obj «at») s =
      match f s key.name.bytes value.render with
      | (s, false) => (true, s)
      | (s, true) =>
          if c = 0x7d then (true, s)
          else if c ≠ 0x2c then (false, s)
          else membersLoop f obj fuel (skipWs obj (stop + 1)) s := by
  intro stop
  obtain ⟨keyed, rest⟩ := located.split
  rw [Key.render] at keyed
  obtain ⟨-, quoteOn⟩ := keyed.split
  obtain ⟨nameOn, colonOn⟩ := quoteOn.split
  have opened : skipWs obj «at» = «at» + key.pre.bytes.length := by
    have shape : Located obj «at» (key.pre.bytes ++ 0x22 :: (key.name.bytes ++ [0x22])) :=
      (@Located.split _ _ _ (key.post.bytes ++ [0x3a])
        (by simpa [quoted] using keyed)).1
    exact skipWs_located key.pre shape (by decide)
  have quote : obj[«at» + key.pre.bytes.length]? = some 0x22 := nameOn.head
  have close := stringClose_chars key.name nameOn.tail
  have name : substr obj («at» + key.pre.bytes.length + 1) key.name.bytes.length =
      key.name.bytes := nameOn.tail.split.1.substr
  have closeAt : «at» + key.pre.bytes.length + 1 + key.name.bytes.length + 1 =
      «at» + key.pre.bytes.length + (quoted key.name.bytes).length := by
    simp only [quoted, List.length_cons, List.length_append, List.length_nil]
    omega
  have toColon : skipWs obj («at» + key.pre.bytes.length + (quoted key.name.bytes).length) =
      «at» + key.pre.bytes.length + (quoted key.name.bytes).length +
        key.post.bytes.length :=
    skipWs_located key.post colonOn (by decide)
  have colon := colonOn.split.2.head
  have keyEnd : «at» + key.pre.bytes.length + (quoted key.name.bytes).length +
      key.post.bytes.length + 1 = «at» + key.render.length := by
    simp only [Key.render, List.length_append, List.length_singleton]
    omega
  obtain ⟨first, others, shape, firstNotWs, -⟩ := value.head
  have toValue : skipWs obj («at» + key.render.length) =
      «at» + key.render.length + pre.bytes.length := by
    rw [shape, List.cons_append] at rest
    exact skipWs_located pre rest firstNotWs
  have valueOn := rest.split.2
  have skipped := skipValue_spaced value post valueOn ends
  have raw : substr obj («at» + key.render.length + pre.bytes.length)
      value.render.length = value.render := valueOn.split.1.substr
  have toNext := skipWs_located post valueOn.split.2 notWs
  have next := valueOn.split.2.split.2.head
  rw [membersLoop, opened]
  simp only [quote, close, closeAt, toColon, colon, keyEnd, toValue, skipped,
    Nat.add_sub_cancel_left, name, raw, toNext, next, ne_eq, not_true_eq_false,
    if_false, Option.some.injEq]
  rfl

/-- The first member opens with a quote. -/
theorem skipWs_items
    {obj : Bytes} {«at» : Nat} (items : Items .object) {more : Bytes}
    (located : Located obj «at» (items.render ++ more)) :
    obj[skipWs obj «at»]? = some 0x22 := by
  obtain ⟨key, tail, shape⟩ : ∃ (key : Key) (tail : Bytes),
      items.render = key.render ++ tail := by
    cases items with
    | last head pre value post => exact ⟨head, _, rfl⟩
    | cons head pre value post rest => exact ⟨head, _, rfl⟩
  have quoteOn : Located obj «at» (key.pre.bytes ++ 0x22 :: (key.name.bytes ++
      (0x22 :: (key.post.bytes ++ 0x3a :: (tail ++ more))))) := by
    rw [shape] at located
    simpa [Key.render, quoted] using located
  rw [skipWs_located key.pre quoteOn (by decide)]
  exact quoteOn.split.2.head

/-- The loop over the members of an object. -/
theorem membersLoop_items
    {obj : Bytes} :
    ∀ (items : Items .object) («at» fuel : Nat) (s : σ),
      Located obj «at» (items.render ++ [0x7d]) → items.render.length < fuel →
      membersLoop f obj fuel (skipWs obj «at») s =
        (true, eachMember f s (items.members.map fun member =>
          (member.1.bytes, member.2.render)))
  | .last key pre value post, «at», fuel + 1, s, located, _ => by
      have shape : Located obj «at» (Key.render key ++ (pre.bytes ++ (value.render ++
          (post.bytes ++ 0x7d :: [])))) := by
        rw [Items.render, Head.render_object] at located
        simpa using located
      rw [membersLoop_member f key pre value post shape (by decide) (by decide),
        Items.members, List.map_singleton, eachMember]
      cases called : f s (Key.name key).bytes value.render with
      | mk s more =>
          cases more <;> simp [eachMember]
  | .cons key pre value post rest, «at», fuel + 1, s, located, enough => by
      have shape : Located obj «at» (Key.render key ++ (pre.bytes ++ (value.render ++
          (post.bytes ++ 0x2c :: (rest.render ++ [0x7d]))))) := by
        rw [Items.render, Head.render_object] at located
        simpa using located
      have after : Located obj («at» + (Key.render key).length + pre.bytes.length +
          value.render.length + post.bytes.length + 1) (rest.render ++ [0x7d]) :=
        shape.split.2.split.2.split.2.split.2.tail
      have room : rest.render.length < fuel := by
        simp only [Items.render, List.length_append, List.length_cons] at enough
        omega
      rw [membersLoop_member f key pre value post shape (by decide) (by decide),
        Items.members, List.map_cons, eachMember]
      cases called : f s (Key.name key).bytes value.render with
      | mk s more =>
          cases more with
          | false => rfl
          | true =>
              have comma : ¬ (0x2c : Byte) = 0x7d := by decide
              simp only [comma, ne_eq, not_true_eq_false, if_false]
              exact membersLoop_items rest _ fuel s after room

/-- `for_each_member` on a text: the function is called on every member of an
object in order, and on nothing of another value. -/
theorem forEachMember_located
    {obj : Bytes} (pre : Ws) (value : Json)
    (located : Located obj 0 (pre.bytes ++ value.render)) (s : σ) :
    forEachMember f obj s = (value.isObject, eachMember f s (rawMembers value)) := by
  obtain ⟨first, others, shape, notWs, -⟩ := value.head
  have toValue : skipWs obj 0 = pre.bytes.length := by
    rw [shape] at located
    rw [skipWs_located pre located notWs, Nat.zero_add]
  have valueOn := located.split.2
  rw [Nat.zero_add] at valueOn
  rw [forEachMember, toValue]
  dsimp only
  cases kind : value.isObject with
  | false =>
      have notBrace : obj[pre.bytes.length]? ≠ some 0x7b := by
        rw [shape] at valueOn
        rw [valueOn.head, Ne, Option.some.injEq]
        intro brace
        have isObject := value.firstByte_eq_brace.mp (by
          rw [Json.firstByte, shape, brace]
          rfl)
        rw [kind] at isObject
        exact Bool.noConfusion isObject
      have none : rawMembers value = [] := rawMembers_of_not_object kind
      rw [if_pos notBrace, none, eachMember]
  | true =>
      obtain ⟨ws, rfl⟩ | ⟨items, rfl⟩ := Json.isObject_cases kind
      · rw [Json.render] at valueOn
        have brace : obj[pre.bytes.length]? = some 0x7b := valueOn.head
        have toClose : skipWs obj (pre.bytes.length + 1) =
            pre.bytes.length + 1 + ws.bytes.length :=
          skipWs_located ws valueOn.tail (by decide)
        have close : obj[pre.bytes.length + 1 + ws.bytes.length]? = some 0x7d :=
          valueOn.tail.split.2.head
        rw [if_neg (by simp [brace]), toClose, if_pos close]
        rfl
      · rw [Json.render] at valueOn
        have brace : obj[pre.bytes.length]? = some 0x7b := valueOn.head
        have bound := valueOn.tail.lt
        have quote := skipWs_items items valueOn.tail
        rw [if_neg (by simp [brace]), if_neg (by simp [quote]),
          membersLoop_items f items _ _ s valueOn.tail (by omega)]
        rfl

end Members

end JsonScan
end Llmbridge
