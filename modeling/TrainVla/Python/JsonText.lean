import TrainVla.Python.Text

/-! JSON texts, as `json.dumps` writes and `json.loads` reads them. What a floating-point number is,
and its text, are parameters. -/
namespace Python.JsonText

inductive Value (F : Type)
  | null
  | bool (b : Bool)
  | int (n : ℤ)
  | float (x : F)
  | str (s : List Char)
  | arr (items : List (Value F))
  | obj (items : List (List Char × Value F))

/-- A decimal literal with a fraction or an exponent, or both. -/
structure FloatLiteral where
  negative : Bool
  whole : ℕ
  fraction : List Char
  exponent : Option (Bool × List Char)
  fraction_digits : ∀ c ∈ fraction, c.isDigit = true
  exponent_digits : ∀ e ∈ exponent, e.2 ≠ [] ∧ ∀ c ∈ e.2, c.isDigit = true
  not_int : fraction ≠ [] ∨ exponent ≠ none

def minusText (negative : Bool) : List Char := if negative then ['-'] else []

def fractionText (digits : List Char) : List Char := if digits = [] then [] else '.' :: digits

def exponentText : Option (Bool × List Char) → List Char
  | none => []
  | some (negative, digits) => 'e' :: (if negative then '-' else '+') :: digits

def FloatLiteral.text (l : FloatLiteral) : List Char :=
  minusText l.negative ++ (Nat.toDigits 10 l.whole ++ (fractionText l.fraction ++
    exponentText l.exponent))

/-- `float` of a literal, and the text of a number. -/
structure Floats (F : Type) where
  nan : F
  infinity : Bool → F
  float : List Char → F
  repr : F → List Char

variable {F α : Type}

section Writing

/-- The characters with an escape of two. -/
def shortEscapes : List (Char × Char) :=
  [('"', '"'), ('\\', '\\'), ('\n', 'n'), ('\r', 'r'), ('\t', 't'), ('\x0c', 'f'), ('\x08', 'b')]

def hex4 (n : ℕ) : List Char :=
  [Nat.digitChar (n / 4096 % 16), Nat.digitChar (n / 256 % 16), Nat.digitChar (n / 16 % 16),
    Nat.digitChar (n % 16)]

def unicodeEscape (n : ℕ) : List Char := '\\' :: 'u' :: hex4 n

/-- Only ASCII is written; a character beyond the first plane takes two escapes. -/
def escape (c : Char) : List Char :=
  match shortEscapes.lookup c with
  | some e => ['\\', e]
  | none =>
    if 32 ≤ c.toNat ∧ c.toNat ≤ 126 then [c]
    else if c.toNat < 0x10000 then unicodeEscape c.toNat
    else unicodeEscape (0xd800 + (c.toNat - 0x10000) / 0x400) ++
      unicodeEscape (0xdc00 + (c.toNat - 0x10000) % 0x400)

def quote (s : List Char) : List Char := '"' :: (s.flatMap escape ++ ['"'])

def intText (n : ℤ) : List Char := minusText (n < 0) ++ Nat.toDigits 10 n.natAbs

def commas (texts : List (List Char)) : List Char := [',', ' '].intercalate texts

mutual

def Value.dumps (P : Floats F) : Value F → List Char
  | .null => ['n', 'u', 'l', 'l']
  | .bool true => ['t', 'r', 'u', 'e']
  | .bool false => ['f', 'a', 'l', 's', 'e']
  | .int n => intText n
  | .float x => P.repr x
  | .str s => quote s
  | .arr items => '[' :: (commas (dumpsAll P items) ++ [']'])
  | .obj items => '{' :: (commas (dumpsItems P items) ++ ['}'])

def dumpsAll (P : Floats F) : List (Value F) → List (List Char)
  | [] => []
  | v :: items => v.dumps P :: dumpsAll P items

def dumpsItems (P : Floats F) : List (List Char × Value F) → List (List Char)
  | [] => []
  | (key, v) :: items => (quote key ++ (':' :: ' ' :: v.dumps P)) :: dumpsItems P items

end

end Writing

section Reading

/-- Reads a value off the front of a text. -/
abbrev Scanner (α : Type) := List Char → Option (α × List Char)

def isWhite (c : Char) : Bool := c = ' ' ∨ c = '\t' ∨ c = '\n' ∨ c = '\r'

def skip (s : List Char) : List Char := s.dropWhile isWhite

def hexDigit? (c : Char) : Option ℕ :=
  if '0' ≤ c ∧ c ≤ '9' then some (c.toNat - '0'.toNat)
  else if 'a' ≤ c ∧ c ≤ 'f' then some (c.toNat - 'a'.toNat + 10)
  else if 'A' ≤ c ∧ c ≤ 'F' then some (c.toNat - 'A'.toNat + 10)
  else none

def scanHex4 : Scanner ℕ
  | a :: b :: c :: d :: s => do
    let a ← hexDigit? a
    let b ← hexDigit? b
    let c ← hexDigit? c
    let d ← hexDigit? d
    some (4096 * a + 256 * b + 16 * c + d, s)
  | _ => none

def isHigh (n : ℕ) : Prop := 0xd800 ≤ n ∧ n < 0xdc00

def isLow (n : ℕ) : Prop := 0xdc00 ≤ n ∧ n < 0xe000

instance (n : ℕ) : Decidable (isHigh n) := inferInstanceAs (Decidable (_ ∧ _))

instance (n : ℕ) : Decidable (isLow n) := inferInstanceAs (Decidable (_ ∧ _))

def scanLow : Scanner ℕ
  | '\\' :: 'u' :: s => do
    let (low, s) ← scanHex4 s
    if isLow low then some (low, s) else none
  | _ => none

/-- After `\u`. Half of a pair alone is no character. -/
def scanUnicode : Scanner Char := fun s => do
  let (n, s) ← scanHex4 s
  if isHigh n then do
    let (low, s) ← scanLow s
    some (Char.ofNat (0x10000 + (n - 0xd800) * 0x400 + (low - 0xdc00)), s)
  else if isLow n then none
  else some (Char.ofNat n, s)

/-- What may follow a backslash, apart from `u`. -/
def unescapes : List (Char × Char) :=
  [('"', '"'), ('\\', '\\'), ('/', '/'), ('b', '\x08'), ('f', '\x0c'), ('n', '\n'), ('r', '\r'),
    ('t', '\t')]

def scanEscape : Scanner Char
  | [] => none
  | c :: s => if c = 'u' then scanUnicode s else (unescapes.lookup c).map (·, s)

/-- The rest of a string, after its opening quote. -/
def scanString : ℕ → Scanner (List Char)
  | 0, _ => none
  | _ + 1, [] => none
  | fuel + 1, c :: s =>
    if c = '"' then some ([], s)
    else do
      let (c, s) ← if c = '\\' then scanEscape s else if c.toNat < 32 then none else some (c, s)
      let (cs, s) ← scanString fuel s
      some (c :: cs, s)

def scanWhole : Scanner (List Char) := fun s =>
  if s.head? = some '0' then some (['0'], s.tail)
  else if (s.takeWhile Char.isDigit).isEmpty then none
  else some (s.takeWhile Char.isDigit, s.dropWhile Char.isDigit)

/-- The digits of a fraction, if there is one. -/
def scanFraction (s : List Char) : List Char × List Char :=
  if s.head? = some '.' ∧ s.tail.takeWhile Char.isDigit ≠ [] then
    (s.tail.takeWhile Char.isDigit, s.tail.dropWhile Char.isDigit)
  else ([], s)

def scanSign : List Char → List Char × List Char
  | '+' :: s => (['+'], s)
  | '-' :: s => (['-'], s)
  | s => ([], s)

/-- The text of an exponent, if there is one. -/
def scanExponent (s : List Char) : List Char × List Char :=
  match s with
  | [] => ([], [])
  | c :: rest =>
    let (sign, digits) := scanSign rest
    if (c = 'e' ∨ c = 'E') ∧ digits.takeWhile Char.isDigit ≠ [] then
      (c :: (sign ++ digits.takeWhile Char.isDigit), digits.dropWhile Char.isDigit)
    else ([], s)

def scanMinus : List Char → Bool × List Char
  | '-' :: s => (true, s)
  | s => (false, s)

def scanNumber (P : Floats F) : Scanner (Value F) := fun s => do
  let (negative, s) := scanMinus s
  let (whole, s) ← scanWhole s
  let (fraction, s) := scanFraction s
  let (exponent, s) := scanExponent s
  if fraction = [] ∧ exponent = [] then
    (intOfDigits whole).map fun n => (.int (signed negative n), s)
  else some (.float (P.float (minusText negative ++ (whole ++ (fractionText fraction ++ exponent)))),
    s)

/-- The values that are written as a word. -/
def words (P : Floats F) : List (List Char × Value F) :=
  [(['n', 'u', 'l', 'l'], .null), (['t', 'r', 'u', 'e'], .bool true),
    (['f', 'a', 'l', 's', 'e'], .bool false), (['N', 'a', 'N'], .float P.nan),
    (['I', 'n', 'f', 'i', 'n', 'i', 't', 'y'], .float (P.infinity false)),
    (['-', 'I', 'n', 'f', 'i', 'n', 'i', 't', 'y'], .float (P.infinity true))]

def scanWord (P : Floats F) (s : List Char) : Option (Value F × List Char) :=
  ((words P).find? fun word => word.1.isPrefixOf s).map fun word =>
    (word.2, s.drop word.1.length)

/-- Items up to the closing bracket, with commas between them. -/
def scanItems (close : Char) (item : Scanner α) : ℕ → Scanner (List α)
  | 0, _ => none
  | fuel + 1, s => do
    let (x, s) ← item s
    match skip s with
    | [] => none
    | c :: s =>
      if c = close then some ([x], s)
      else if c = ',' then do
        let (xs, s) ← scanItems close item fuel (skip s)
        some (x :: xs, s)
      else none

def scanMember (value : Scanner (Value F)) : Scanner (List Char × Value F)
  | '"' :: s => do
    let (key, s) ← scanString (s.length + 1) s
    match skip s with
    | ':' :: s => do
      let (v, s) ← value (skip s)
      some ((key, v), s)
    | _ => none
  | _ => none

/-- After the opening bracket. -/
def scanBracketed (close : Char) (item : Scanner α) : Scanner (List α) := fun s =>
  if (skip s).head? = some close then some ([], (skip s).tail)
  else scanItems close item s.length (skip s)

def setItem (key : List Char) (v : Value F) :
    List (List Char × Value F) → List (List Char × Value F)
  | [] => [(key, v)]
  | item :: items => if item.1 = key then (key, v) :: items else item :: setItem key v items

/-- A key that comes again keeps its place and gets the later value. -/
def dict (members : List (List Char × Value F)) : List (List Char × Value F) :=
  members.foldl (fun items member => setItem member.1 member.2 items) []

def scanValue (P : Floats F) : ℕ → Scanner (Value F)
  | 0, _ => none
  | _ + 1, [] => none
  | fuel + 1, c :: s =>
    if c = '"' then (scanString (s.length + 1) s).map fun (t, s) => (.str t, s)
    else if c = '[' then
      (scanBracketed ']' (scanValue P fuel) s).map fun (items, s) => (.arr items, s)
    else if c = '{' then
      (scanBracketed '}' (scanMember (scanValue P fuel)) s).map fun (members, s) =>
        (.obj (dict members), s)
    else (scanWord P (c :: s)).orElse fun _ => scanNumber P (c :: s)

def loads (P : Floats F) (text : List Char) : Option (Value F) := do
  let (v, s) ← scanValue P text.length (skip text)
  if skip s = [] then some v else none

end Reading

end Python.JsonText
