import Waveform.Formula.Token
import Waveform.Decimal.Numeral
import Waveform.Text.Blank

/-!
# Lexemes

A formula without its blank characters is cut from left to right into lexemes, each as long as
possible: a number, a name, the double asterisk, or a single character. Cutting always succeeds;
what a lexeme means, and whether it means anything, is decided when it is read as a token.
-/

namespace Waveform.Formula

/-- The characters of a text that are not blank, each at its place in the whole text. -/
def visibleCharacters (text : String) : List (Placed Char) :=
  (text.toList.zipIdx.map fun (c, position) => ⟨c, position⟩).filter
    fun c => !Waveform.Text.isBlank c.value

def isDigit (c : Char) : Bool := c.isDigit

def isLetter (c : Char) : Bool := c.isAlpha || c == 'π'

/-- A nonempty run of visible characters, at the place of its first one. -/
structure Lexeme where
  first : Placed Char
  others : List Char
  deriving DecidableEq, Repr

def Lexeme.characters (lexeme : Lexeme) : List Char := lexeme.first.value :: lexeme.others

def Lexeme.position (lexeme : Lexeme) : Nat := lexeme.first.position

/-! ### Cutting -/

/--
How many of the characters after the first one belong to the same lexeme. A number takes digits and
one point at most, counting a point that it starts with.
-/
def extentAfter (first : Char) (rest : List Char) : Nat :=
  if isDigit first then
    let whole := (rest.takeWhile isDigit).length
    match rest.drop whole with
    | '.' :: fraction => whole + 1 + (fraction.takeWhile isDigit).length
    | _ => whole
  else if first = '.' then (rest.takeWhile isDigit).length
  else if isLetter first then (rest.takeWhile isLetter).length
  else if first = '*' && rest.head? = some '*' then 1
  else 0

def extent (first : Placed Char) (rest : List (Placed Char)) : Nat :=
  extentAfter first.value (rest.map (·.value))

def Lexeme.ofFront (first : Placed Char) (rest : List (Placed Char)) : Lexeme :=
  ⟨first, (rest.take (extent first rest)).map (·.value)⟩

def lexemes : List (Placed Char) → List Lexeme
  | [] => []
  | first :: rest => .ofFront first rest :: lexemes (rest.drop (extent first rest))
termination_by characters => characters.length
decreasing_by simp only [List.length_cons, List.length_drop]; omega

@[simp] theorem lexemes_nil : lexemes [] = [] := by
  rw [lexemes]

theorem lexemes_cons (first : Placed Char) (rest : List (Placed Char)) :
    lexemes (first :: rest) = .ofFront first rest :: lexemes (rest.drop (extent first rest)) := by
  rw [lexemes]

/-! ### Reading -/

/-- A character that no formula contains at its place. -/
structure UnreadableCharacter where
  character : Char
  position : Nat
  deriving DecidableEq, Repr

namespace UnreadableCharacter

def message (fault : UnreadableCharacter) : String :=
  s!"Unexpected character '{fault.character}' at position {fault.position}"

end UnreadableCharacter

/-- The numeral spelled by digits with one point at most. -/
def numeralOf (characters : List Char) : Decimal.Numeral where
  coefficient := Nat.ofDigitChars 10 (characters.filter isDigit) 0
  exponent := -((characters.dropWhile isDigit).drop 1).length

/-- The name spelled by letters, in which the Greek letter stands for two of them. -/
def nameOf (characters : List Char) : String :=
  String.ofList (characters.flatMap fun c => if c = 'π' then ['p', 'i'] else [c])

def tokenOfSymbol? : Char → Option Token
  | '+' => some (.operator .add)
  | '-' => some (.operator .sub)
  | '*' | '×' => some (.operator .mul)
  | '/' | '÷' => some (.operator .div)
  | '^' => some (.operator .pow)
  | '(' => some .openParen
  | ')' => some .closeParen
  | ',' => some .comma
  | _ => none

/-- The token that a lexeme stands for, if any. A number needs a digit. -/
def Lexeme.token? (lexeme : Lexeme) : Option Token :=
  let characters := lexeme.characters
  if characters.any isDigit then some (.number (numeralOf characters).toFloat)
  else if isLetter lexeme.first.value then some (.name (nameOf characters))
  else if characters = ['*', '*'] then some (.operator .pow)
  else tokenOfSymbol? lexeme.first.value

def Lexeme.read (lexeme : Lexeme) : Except UnreadableCharacter (Placed Token) :=
  match lexeme.token? with
  | some token => .ok ⟨token, lexeme.position⟩
  | none => .error ⟨lexeme.first.value, lexeme.position⟩

/-! ### Tokens of a text -/

/--
The tokens of a formula: the readings of its lexemes, with understood multiplications written out,
and the end at the length of the text. The first lexeme without a reading is the error.
-/
def tokenize (text : String) : Except UnreadableCharacter (List (Placed Token)) := do
  let tokens ← (lexemes (visibleCharacters text)).mapM Lexeme.read
  return withProducts tokens ++ [⟨.finish, text.length⟩]

end Waveform.Formula
