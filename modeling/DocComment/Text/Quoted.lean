/-
  String literals: text between two equal quotes, with backslash escapes.

  * `encode` writes a text as a literal in double quotes;
  * `body?` is what stands before the closing quote of a literal: the first that
    no backslash escapes, on the same line;
  * `decode` is the text that a body stands for.

  A malformed escape is no error: the character behind the backslash then
  stands for itself.
-/
import DocComment.Text.Identifier

namespace DocComment.Text.Quoted

/-! ## Writing -/

/-- How a character is written between double quotes. -/
def encodeChar (c : Char) : List Char :=
  if c = '"' ∨ c = '\\' then ['\\', c]
  else if c = '\n' then ['\\', 'n']
  else if c = '\r' then ['\\', 'r']
  else if c = '\u2028' then ['\\', 'u', '2', '0', '2', '8']
  else if c = '\u2029' then ['\\', 'u', '2', '0', '2', '9']
  else [c]

/-- The literal of a text, in double quotes. -/
def encode (cs : List Char) : List Char :=
  '"' :: (cs.flatMap encodeChar ++ ['"'])

/-! ## Finding the end -/

/-- The body of a literal, given the text behind its opening quote.  A backslash
    takes the next character with it, and a CR LF whole; a bare line terminator
    leaves the literal without an end. -/
def body? (quote : Char) : List Char → Option (List Char)
  | [] => none
  | '\\' :: '\r' :: '\n' :: cs => (body? quote cs).map ('\\' :: '\r' :: '\n' :: ·)
  | '\\' :: c :: cs => (body? quote cs).map ('\\' :: c :: ·)
  | c :: cs =>
    if c = quote then some []
    else if c = '\\' ∨ isLineTerminator c then none
    else (body? quote cs).map (c :: ·)

variable {quote : Char}

theorem body?_escape {c : Char} {cs : List Char} (h : c = '\r' → cs.head? ≠ some '\n') :
    body? quote ('\\' :: c :: cs) = (body? quote cs).map ('\\' :: c :: ·) := by
  rw [body?]
  rintro tail hc rfl
  exact h hc rfl

theorem body?_plain {c : Char} {cs : List Char} (h : c ≠ '\\') :
    body? quote (c :: cs) = if c = quote then some []
      else if isLineTerminator c then none else (body? quote cs).map (c :: ·) := by
  rw [body?]
  · simp only [h, false_or]
  · rintro _ hc
    exact absurd hc h
  · rintro _ _ hc
    exact absurd hc h

/-! ## Reading -/

/-- The escapes of one letter. -/
def ofLetter? : Char → Option Char
  | 'n' => some '\n'
  | 'r' => some '\r'
  | 't' => some '\t'
  | 'b' => some '\x08'
  | 'f' => some '\x0c'
  | 'v' => some '\x0b'
  | _ => none

/-- The character with the given digits as its code, if there is one. -/
def ofDigits? (radix : Nat) (digits : List Char) : Option Char := do
  let values ← digits.mapM (digit? radix)
  let code := values.foldl (fun acc v => acc * radix + v) 0
  if code.isValidChar then some (Char.ofNat code) else none

/-- The escape of `count` hexadecimal digits behind `letter`, which stands for
    itself if the digits are missing or are no character's code. -/
def decodeHex (letter : Char) (count : Nat) (cs : List Char) : List Char × Nat :=
  let digits := cs.take count
  if digits.length = count then
    match ofDigits? 16 digits with
    | some c => ([c], count + 1)
    | none => ([letter], 1)
  else ([letter], 1)

/-- The escape of up to three octal digits, of two if the first is above `3`. -/
def decodeOctal (first : Char) (cs : List Char) : List Char × Nat :=
  let digits := first :: (cs.takeWhile (isDigitOf 8)).take (if first ≤ '3' then 2 else 1)
  ((ofDigits? 8 digits).toList, digits.length)

/-- What the text behind a backslash stands for, and how many of its characters
    that takes. -/
def decodeEscape : List Char → List Char × Nat
  | [] => ([], 0)
  | '\r' :: '\n' :: _ => ([], 2)
  | c :: cs =>
    if isLineTerminator c then ([], 1)
    else if c = 'x' then decodeHex c 2 cs
    else if c = 'u' then decodeHex c 4 cs
    else if isDigitOf 8 c then decodeOctal c cs
    else ([(ofLetter? c).getD c], 1)

/-- Decoding behind the first `skip` characters, which are read already. -/
def decodeFrom (skip : Nat) : List Char → List Char
  | [] => []
  | c :: cs =>
    match skip with
    | skip + 1 => decodeFrom skip cs
    | 0 =>
      if c = '\\' then
        let (text, taken) := decodeEscape cs
        text ++ decodeFrom taken cs
      else c :: decodeFrom 0 cs

/-- The text that the body of a literal stands for. -/
def decode (body : List Char) : List Char := decodeFrom 0 body

/-! ## Reading what was written -/

/-- Skipping goes over a front part of that length. -/
theorem decodeFrom_append (front cs : List Char) :
    decodeFrom front.length (front ++ cs) = decodeFrom 0 cs := by
  induction front with
  | nil => rfl
  | cons c front ih => simpa [decodeFrom] using ih

/-- The written form of a character decodes to it. -/
theorem decode_encodeChar (c : Char) (cs : List Char) :
    decode (encodeChar c ++ cs) = c :: decode cs := by
  unfold encodeChar
  split
  · rename_i h
    rcases h with rfl | rfl <;> simp [decode, decodeFrom, decodeEscape] <;> rfl
  · rename_i h
    split
    · rename_i hn; subst hn; simp [decode, decodeFrom, decodeEscape]; rfl
    · split
      · rename_i hr; subst hr; simp [decode, decodeFrom, decodeEscape]; rfl
      · split
        · rename_i hl; subst hl; rfl
        · split
          · rename_i hp; subst hp; rfl
          · simp only [not_or] at h
            simp [decode, decodeFrom, h.2]

/-- Decoding undoes encoding. -/
theorem decode_flatMap_encodeChar (cs : List Char) : decode (cs.flatMap encodeChar) = cs := by
  induction cs with
  | nil => rfl
  | cons c cs ih => rw [List.flatMap_cons, decode_encodeChar, ih]

end DocComment.Text.Quoted
